/-
**Texts are in the order of their bytes.**

Texts are compared character by character, by the numbers of the characters.  Systems that know nothing
of characters compare the bytes that a text is stored as.  In UTF-8 that is the same order: a character
with a larger number has more bytes, and then the first of them is larger, or it has as many, and then
the first byte that differs is larger, since the bytes are the digits of the number from the left.

Main definitions:

* `QSource.Text.BytesBefore` — a text comes before another one in the order of their bytes.

Main results:

* `QSource.Text.utf8EncodeChar_append_lt` — two characters are told apart by their bytes, whatever
  stands behind them;
* `QSource.Text.bytesBefore_of_lt` — **texts are in the order of their bytes**.
-/

import Mathlib.Data.List.Lex
import QSource.Proofs.Text.Bytes

set_option relaxedAutoImplicit false
set_option autoImplicit false

namespace QSource.Text

/-- A text comes before another one in the order of the bytes that they are stored as. -/
def BytesBefore (a b : String) : Prop := a.toUTF8.data.toList < b.toUTF8.data.toList

theorem BytesBefore.ne {a b : String} (h : BytesBefore a b) : a ≠ b := by
  rintro rfl
  exact List.lt_irrefl _ h

/-! ### Characters -/

/-- The bytes of a character, by how many there are. -/
theorem utf8EncodeChar_cases (c : Char) :
    (c.toNat ≤ 127 ∧ String.utf8EncodeChar c = [.ofNat c.toNat]) ∨
      (128 ≤ c.toNat ∧ c.toNat ≤ 2047 ∧ String.utf8EncodeChar c =
        [.ofNat (c.toNat / 64 + 192), .ofNat (c.toNat % 64 + 128)]) ∨
      (2048 ≤ c.toNat ∧ c.toNat ≤ 65535 ∧ String.utf8EncodeChar c =
        [.ofNat (c.toNat / 64 / 64 + 224), .ofNat (c.toNat / 64 % 64 + 128),
          .ofNat (c.toNat % 64 + 128)]) ∨
      (65536 ≤ c.toNat ∧ c.toNat < 1114112 ∧ String.utf8EncodeChar c =
        [.ofNat (c.toNat / 64 / 64 / 64 + 240), .ofNat (c.toNat / 64 / 64 % 64 + 128),
          .ofNat (c.toNat / 64 % 64 + 128), .ofNat (c.toNat % 64 + 128)]) := by
  have hvalid : c.toNat < 1114112 := by
    rcases c.valid with h | h
    · exact Nat.lt_of_lt_of_le h (by decide)
    · exact h.2
  simp only [String.utf8EncodeChar, Char.toNat_val, Nat.div_div_eq_div_mul]
  rcases Nat.lt_or_ge c.toNat 128 with h | h
  · exact .inl ⟨by omega, if_pos (by omega)⟩
  rcases Nat.lt_or_ge c.toNat 2048 with h' | h'
  · have hlead : c.toNat / 64 % 32 = c.toNat / 64 := Nat.mod_eq_of_lt (by omega)
    refine .inr (.inl ⟨h, by omega, ?_⟩)
    rw [if_neg (by omega), if_pos (by omega), hlead]
  rcases Nat.lt_or_ge c.toNat 65536 with h'' | h''
  · have hlead : c.toNat / 4096 % 16 = c.toNat / 4096 := Nat.mod_eq_of_lt (by omega)
    refine .inr (.inr (.inl ⟨h', by omega, ?_⟩))
    rw [if_neg (by omega), if_neg (by omega), if_pos (by omega), hlead]
  · have hlead : c.toNat / 262144 % 8 = c.toNat / 262144 := Nat.mod_eq_of_lt (by omega)
    refine .inr (.inr (.inr ⟨h'', hvalid, ?_⟩))
    rw [if_neg (by omega), if_neg (by omega), if_neg (by omega), hlead]

theorem ofNat_lt_ofNat_iff {m n : Nat} (hm : m < 256) (hn : n < 256) :
    UInt8.ofNat m < UInt8.ofNat n ↔ m < n := by
  rw [UInt8.lt_iff_toNat_lt, UInt8.toNat_ofNat_of_lt' hm, UInt8.toNat_ofNat_of_lt' hn]

theorem ofNat_eq_ofNat_iff {m n : Nat} (hm : m < 256) (hn : n < 256) :
    UInt8.ofNat m = UInt8.ofNat n ↔ m = n := by
  rw [← UInt8.toNat_inj, UInt8.toNat_ofNat_of_lt' hm, UInt8.toNat_ofNat_of_lt' hn]

/-- **Two characters are told apart by their bytes**, whatever stands behind them. -/
theorem utf8EncodeChar_append_lt {c d : Char} (h : c < d) (s t : List UInt8) :
    String.utf8EncodeChar c ++ s < String.utf8EncodeChar d ++ t := by
  have hlt : c.toNat < d.toNat := h
  -- one case for each number of bytes of the one and of the other
  rcases utf8EncodeChar_cases c with ⟨hc, hbytes⟩ | ⟨hc, hc', hbytes⟩ | ⟨hc, hc', hbytes⟩ |
      ⟨hc, hc', hbytes⟩ <;>
    rcases utf8EncodeChar_cases d with ⟨hd, hbytes'⟩ | ⟨hd, hd', hbytes'⟩ | ⟨hd, hd', hbytes'⟩ |
      ⟨hd, hd', hbytes'⟩ <;>
    simp (disch := omega) only [hbytes, hbytes', List.cons_append, List.nil_append,
      List.cons_lt_cons_iff, ofNat_lt_ofNat_iff, ofNat_eq_ofNat_iff] <;>
    omega

/-! ### Texts -/

theorem flatMap_utf8EncodeChar_lt {s t : List Char} (h : s < t) :
    s.flatMap String.utf8EncodeChar < t.flatMap String.utf8EncodeChar := by
  induction h with
  | @nil c t =>
      have hne : String.utf8EncodeChar c ≠ [] := String.utf8EncodeChar_ne_nil
      obtain ⟨b, bs, hbytes⟩ := List.exists_cons_of_ne_nil hne
      rw [List.flatMap_cons, hbytes]
      exact .nil
  | @cons c s t _ ih =>
      rw [List.flatMap_cons, List.flatMap_cons]
      exact .append_left _ ih _
  | rel h =>
      rw [List.flatMap_cons, List.flatMap_cons]
      exact utf8EncodeChar_append_lt h _ _

/-- **Texts are in the order of their bytes.** -/
theorem bytesBefore_of_lt {a b : String} (h : a < b) : BytesBefore a b := by
  rw [BytesBefore, toList_data_toUTF8, toList_data_toUTF8]
  exact flatMap_utf8EncodeChar_lt h

end QSource.Text
