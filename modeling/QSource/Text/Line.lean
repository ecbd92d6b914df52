/-
**Lines.** A line ends before a line feed, or before a carriage return directly followed by one, or
with the text. A carriage return on its own belongs to its line.

Main definitions:

* `QSource.Text.firstLine` — the first line of a text, without its terminator;
* `QSource.Text.isMarkerLine` — a line that holds one marker and then only blanks;
* `QSource.Text.atLineStart` — whether the character before a place leaves it at a line's start.

Main results:

* `QSource.Text.length_firstLine_le` — the first line is no longer than the text.
-/

import QSource.Text.Class

set_option relaxedAutoImplicit false
set_option autoImplicit false

namespace QSource.Text

/-- The characters before the first line terminator, or all of them. -/
def firstLine : List Char → List Char
  | [] => []
  | '\n' :: _ => []
  | '\r' :: '\n' :: _ => []
  | c :: rest => c :: firstLine rest

theorem length_firstLine_le (s : List Char) : (firstLine s).length ≤ s.length := by
  fun_induction firstLine s with
  | case1 => simp
  | case2 => simp
  | case3 => simp
  | case4 c rest _ _ ih => simpa using ih

/-- Whether a line is `marker` followed by nothing but blanks. -/
def isMarkerLine (marker : Char) : List Char → Bool
  | [] => false
  | c :: rest => c == marker && rest.all isBlank

/-- Whether a place behind `prev` starts a line: it is the start of the text or follows a line
feed. -/
def atLineStart (prev : Option Char) : Bool := prev.all (· == '\n')

end QSource.Text
