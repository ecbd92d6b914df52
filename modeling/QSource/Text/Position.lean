/-
**Positions in a text**: byte offsets, spans of bytes, and lines with columns.

Offsets count bytes of the UTF-8 form, columns count characters, and only a line feed ends a line.  The
numbers are without a bound; those of a text of less than 2 ^ 32 bytes fit into words of 32 bits.

Main definitions:

* `QSource.Text.Span` — a half-open range of bytes;
* `QSource.Text.Position` — a line and a column, both counted from zero;
* `QSource.Text.Position.advance`, `QSource.Text.Position.after` — the position behind a character
  and behind a text;
* `QSource.Text.positionAt` — the position of a byte offset.

Main results:

* `QSource.Text.byteLength_append` — byte lengths add up;
* `QSource.Text.Position.after_append` — positions may be advanced piece by piece.
-/

set_option relaxedAutoImplicit false
set_option autoImplicit false

namespace QSource.Text

/-- The number of bytes of a text in UTF-8. -/
def byteLength : List Char → Nat
  | [] => 0
  | c :: s => c.utf8Size + byteLength s

@[simp] theorem byteLength_nil : byteLength [] = 0 := rfl

@[simp] theorem byteLength_cons (c : Char) (s : List Char) :
    byteLength (c :: s) = c.utf8Size + byteLength s := rfl

@[simp] theorem byteLength_append (s t : List Char) :
    byteLength (s ++ t) = byteLength s + byteLength t := by
  induction s with
  | nil => simp
  | cons c s ih => simp [ih, Nat.add_assoc]

/-! ### Spans -/

/-- The bytes from `start` up to, and not including, `stop`. -/
structure Span where
  start : Nat
  stop : Nat
deriving DecidableEq

/-- The number of bytes of a span. -/
def Span.length (r : Span) : Nat := r.stop - r.start

/-- A span without bytes. -/
def Span.isEmpty (r : Span) : Bool := r.start == r.stop

/-! ### Lines and columns -/

/-- A line and a column in it, both counted from zero. -/
structure Position where
  line : Nat
  column : Nat
deriving DecidableEq

/-- The first position of a text. -/
def Position.origin : Position := ⟨0, 0⟩

/-- The position behind the character `c`: a line feed opens the next line, any other character
takes one column. -/
def Position.advance (p : Position) (c : Char) : Position :=
  if c = '\n' then ⟨p.line + 1, 0⟩ else ⟨p.line, p.column + 1⟩

/-- The position behind the text `s`. -/
def Position.after (p : Position) (s : List Char) : Position := s.foldl Position.advance p

@[simp] theorem Position.after_nil (p : Position) : p.after [] = p := rfl

@[simp] theorem Position.after_cons (p : Position) (c : Char) (s : List Char) :
    p.after (c :: s) = (p.advance c).after s := rfl

@[simp] theorem Position.after_append (p : Position) (s t : List Char) :
    p.after (s ++ t) = (p.after s).after t := List.foldl_append

/-- Walks `offset` bytes into a text that begins at `p`, with `lead` bytes of its line before it.
An offset beyond the end counts as the end. Inside a character the column is the number of bytes
since the start of the line. -/
def Position.walk (p : Position) (lead : Nat) : List Char → Nat → Position
  | [], _ => p
  | c :: rest, offset =>
    if offset = 0 then p
    else if offset < c.utf8Size then ⟨p.line, lead + offset⟩
    else (p.advance c).walk (if c = '\n' then 0 else lead + c.utf8Size) rest (offset - c.utf8Size)

/-- The position of a byte offset of a text. -/
def positionAt (source : List Char) (offset : Nat) : Position :=
  Position.origin.walk 0 source offset

end QSource.Text
