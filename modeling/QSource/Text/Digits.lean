/-
**Digits.**

Main definitions:

* `QSource.Text.digitsValue` — the value of a text of decimal digits.

Main results:

* `QSource.Text.digitsValue_append` — the value of a text with one more digit.
-/

set_option relaxedAutoImplicit false
set_option autoImplicit false

namespace QSource.Text

/-- The value of a text of decimal digits. -/
def digitsValue (s : List Char) : Nat := s.foldl (fun n c => 10 * n + (c.toNat - '0'.toNat)) 0

@[simp] theorem digitsValue_nil : digitsValue [] = 0 := rfl

/-- A digit behind a text multiplies its value by ten and adds its own. -/
theorem digitsValue_append (s : List Char) (c : Char) :
    digitsValue (s ++ [c]) = 10 * digitsValue s + (c.toNat - '0'.toNat) := by
  simp [digitsValue]

end QSource.Text
