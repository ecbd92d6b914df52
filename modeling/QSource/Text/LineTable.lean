/-
**Tables of line starts**, which answer where an offset lies without walking the text.

Main definitions:

* `QSource.Text.lineStarts` — the byte offsets at which the lines of a text start;
* `QSource.Text.bisect` — looks an entry up in an increasing table by halving;
* `QSource.Text.dropBytes?`, `QSource.Text.takeBytes?`, `QSource.Text.slice?` — pieces of a text
  between byte offsets;
* `QSource.Text.positionIn` — the position of an offset, found in the table of line starts.
-/

import QSource.Text.Position

set_option relaxedAutoImplicit false
set_option autoImplicit false

namespace QSource.Text

/-- The byte offsets behind the line feeds of a text that begins at `offset`. -/
def lineStartsFrom (offset : Nat) : List Char → List Nat
  | [] => []
  | c :: rest =>
    if c = '\n' then (offset + c.utf8Size) :: lineStartsFrom (offset + c.utf8Size) rest
    else lineStartsFrom (offset + c.utf8Size) rest

/-- The byte offsets at which the lines of a text start. -/
def lineStarts (source : List Char) : Array Nat := (0 :: lineStartsFrom 0 source).toArray

/-- Looks `x` up between the places `low` and `high` of an increasing table: `ok` with its place,
or `error` with the place that it would have to be put in. -/
def bisect (table : Array Nat) (x low high : Nat) (h : high ≤ table.size) : Except Nat Nat :=
  if hlt : low < high then
    let middle := low + (high - low) / 2
    have hmiddle : middle < table.size := by omega
    if table[middle] = x then .ok middle
    else if table[middle] < x then bisect table x (middle + 1) high h
    else bisect table x low middle (by omega)
  else
    .error low
termination_by high - low

/-- The line of an offset: that of its own entry, or else the one before the place where it would
have to be put in. -/
def lineIn (table : Array Nat) (offset : Nat) : Nat :=
  match bisect table offset 0 table.size (Nat.le_refl _) with
  | .ok line => line
  | .error next => next - 1

/-- What is left of a text behind its first `n` bytes, `none` if these end inside a character or the
text has fewer. -/
def dropBytes? : List Char → Nat → Option (List Char)
  | s, 0 => some s
  | [], _ + 1 => none
  | c :: rest, n + 1 =>
    if c.utf8Size ≤ n + 1 then dropBytes? rest (n + 1 - c.utf8Size) else none

/-- The first `n` bytes of a text, `none` if these end inside a character or the text has fewer. -/
def takeBytes? : List Char → Nat → Option (List Char)
  | _, 0 => some []
  | [], _ + 1 => none
  | c :: rest, n + 1 =>
    if c.utf8Size ≤ n + 1 then (takeBytes? rest (n + 1 - c.utf8Size)).map (c :: ·) else none

/-- The bytes of a text from `start` up to, and not including, `stop`, if both lie between
characters. -/
def slice? (source : List Char) (start stop : Nat) : Option (List Char) :=
  if start ≤ stop then (dropBytes? source start).bind fun s => takeBytes? s (stop - start) else none

/-- The position of a byte offset of a text, given the starts of its lines. An offset beyond the end
counts as the end for the column. Inside a character the column is the number of bytes since the
start of the line. -/
def positionIn (table : Array Nat) (source : List Char) (offset : Nat) : Position :=
  let line := lineIn table offset
  let start := table[line]?.getD 0
  let stop := min offset (byteLength source)
  ⟨line, ((slice? source start stop).map List.length).getD (stop - start)⟩

end QSource.Text
