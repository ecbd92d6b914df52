/-
**Escapes** in quoted text.

An escape is a backslash with a unit behind it: three digits, or else any one character.

Main definitions:

* `QSource.escapeUnits` — the units of the run of escapes that opens a text;
* `QSource.escapeRunLength` — the number of characters of that run;
* `QSource.isKnownEscape` — the units that stand for a character.
-/

import QSource.Text.Digits

set_option relaxedAutoImplicit false
set_option autoImplicit false

namespace QSource

open Text

/-- The units of the escapes at the start of a text, without their backslashes. The run ends at the
first character that is no backslash, and at a backslash that ends the text. -/
def escapeUnits : List Char → List (List Char)
  | '\\' :: a :: b :: c :: rest =>
    if a.isDigit && b.isDigit && c.isDigit then [a, b, c] :: escapeUnits rest
    else [a] :: escapeUnits (b :: c :: rest)
  | '\\' :: a :: rest => [a] :: escapeUnits rest
  | _ => []

/-- The number of characters of the run of escapes at the start of a text. -/
def escapeRunLength (s : List Char) : Nat :=
  (escapeUnits s).foldr (fun unit n => unit.length + 1 + n) 0

/-- A unit stands for a character if it is one of `n r t \ / "`, or three digits that read, as a
decimal number, from 100 to 377. -/
def isKnownEscape : List Char → Bool
  | [c] => "nrt\\/\"".toList.contains c
  | [a, b, c] =>
    [a, b, c].all Char.isDigit && 100 ≤ digitsValue [a, b, c] && digitsValue [a, b, c] ≤ 377
  | _ => false

end QSource
