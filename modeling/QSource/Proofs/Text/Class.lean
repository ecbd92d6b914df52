/-
**The characters of code.**

Code is written in a part of ASCII.  The classes of characters of which tokens are made all lie in
it, and a character of code belongs to one of a few classes; since there are so few characters in
ASCII, such facts are settled by trying them all.

Main definitions:

* `QSource.Text.isCodeChar` — **the characters of code**.

Main results:

* `QSource.Text.forall_ascii` — a fact about ASCII is one about 128 characters;
* `QSource.Text.isCodeChar_of_isWordChar` — words are made of characters of code;
* `QSource.Text.isCodeChar_cases` — the classes of characters of code.
-/

import QSource.Text.Class

set_option relaxedAutoImplicit false
set_option autoImplicit false

namespace QSource.Text

/-- The characters that code is made of: the tab, the line feed, the carriage return, and the
characters of ASCII from the space to the tilde. -/
def isCodeChar (c : Char) : Bool :=
  c == '\t' || c == '\n' || c == '\r' || (' ' ≤ c && c ≤ '~')

/-- What holds of each of the first 128 characters holds of every character of ASCII. -/
theorem forall_ascii {P : Char → Prop} (h : ∀ n < 128, P (Char.ofNat n)) {c : Char}
    (hc : c.toNat < 128) : P c := by
  have hP := h c.toNat hc
  rwa [Char.ofNat_toNat] at hP

theorem toNat_lt_of_le {c d : Char} (hd : d.toNat < 128) (h : c ≤ d) : c.toNat < 128 := by
  rw [Char.le_def, UInt32.le_iff_toNat_le] at h
  exact Nat.lt_of_le_of_lt h hd

theorem toNat_lt_of_isCodeChar {c : Char} (h : isCodeChar c = true) : c.toNat < 128 := by
  simp only [isCodeChar, Bool.or_eq_true, Bool.and_eq_true, beq_iff_eq, decide_eq_true_eq] at h
  rcases h with ((rfl | rfl) | rfl) | ⟨-, h⟩
  · decide
  · decide
  · decide
  · exact toNat_lt_of_le (by decide) h

theorem toNat_lt_of_isUpper {c : Char} (h : c.isUpper = true) : c.toNat < 128 :=
  toNat_lt_of_le (d := 'Z') (by decide) (of_decide_eq_true h).2

theorem toNat_lt_of_isLower {c : Char} (h : c.isLower = true) : c.toNat < 128 :=
  toNat_lt_of_le (d := 'z') (by decide) (of_decide_eq_true ((Bool.and_eq_true _ _).mp h).2)

theorem toNat_lt_of_isDigit {c : Char} (h : c.isDigit = true) : c.toNat < 128 :=
  toNat_lt_of_le (d := '9') (by decide) (of_decide_eq_true ((Bool.and_eq_true _ _).mp h).2)

theorem toNat_lt_of_isWordChar {c : Char} (h : isWordChar c = true) : c.toNat < 128 := by
  rcases (Bool.or_eq_true _ _).mp h with h | h
  · rcases (Bool.or_eq_true _ _).mp h with h | h
    · exact ((Bool.or_eq_true _ _).mp h).elim toNat_lt_of_isUpper toNat_lt_of_isLower
    · exact toNat_lt_of_isDigit h
  · rw [beq_iff_eq.1 h]
    decide

theorem isCodeChar_of_isWordChar {c : Char} (h : isWordChar c = true) : isCodeChar c = true :=
  forall_ascii (P := fun c => isWordChar c = true → isCodeChar c = true) (by decide +kernel)
    (toNat_lt_of_isWordChar h) h

theorem isWordChar_of_isDigit {c : Char} (h : c.isDigit = true) : isWordChar c = true := by
  simp [isWordChar, Char.isAlphanum, h]

theorem isWordChar_of_isAlpha {c : Char} (h : c.isAlpha = true) : isWordChar c = true := by
  simp [isWordChar, Char.isAlphanum, h]

theorem isCodeChar_of_isDigit {c : Char} (h : c.isDigit = true) : isCodeChar c = true :=
  isCodeChar_of_isWordChar (isWordChar_of_isDigit h)

theorem isWordChar_of_isHexDigit {c : Char} (h : isHexDigit c = true) :
    isWordChar c = true := by
  have hc : c.toNat < 128 := by
    simp only [isHexDigit, Bool.or_eq_true, Bool.and_eq_true, decide_eq_true_eq] at h
    rcases h with (h | h) | h
    · exact toNat_lt_of_isDigit h
    · exact toNat_lt_of_le (by decide) h.2
    · exact toNat_lt_of_le (by decide) h.2
  exact forall_ascii (P := fun c => isHexDigit c = true → isWordChar c = true) (by decide +kernel) hc h

theorem isCodeChar_of_isBlank {c : Char} (h : isBlank c = true) : isCodeChar c = true := by
  simp only [isBlank, Bool.or_eq_true, beq_iff_eq] at h
  rcases h with rfl | rfl <;> decide

/-- A character of code is layout, belongs to a word, or is one of the signs. -/
theorem isCodeChar_cases {c : Char} (h : isCodeChar c = true) :
    isBlank c = true ∨ c = '\n' ∨ c = '\r' ∨ c.isDigit = true ∨ c.isAlpha = true ∨
      c ∈ "=<>+-*%!@#$&|^~,._?".toList ∨ c ∈ "'/\\".toList ∨ c ∈ "\"`:;()[]\x7b\x7d".toList :=
  forall_ascii (P := fun c => isCodeChar c = true → isBlank c = true ∨ c = '\n' ∨ c = '\r' ∨
    c.isDigit = true ∨ c.isAlpha = true ∨ c ∈ "=<>+-*%!@#$&|^~,._?".toList ∨ c ∈ "'/\\".toList ∨
      c ∈ "\"`:;()[]\x7b\x7d".toList) (by decide +kernel) (toNat_lt_of_isCodeChar h) h

end QSource.Text
