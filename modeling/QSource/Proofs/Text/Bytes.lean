/-
**The bytes of a text.**

A text is stored as the bytes of its characters, one to four for each.  What reads it byte by byte meets
the characters of ASCII as they are, and bytes from 128 on in place of the others.  So a class that
treats all characters outside of ASCII alike may be asked of a byte as well as of a character: a run of
such a class stops at the same place, and it stops between characters.

A byte is written as the character with its number here, so that classes of characters apply to it.

Main definitions:

* `QSource.Text.octets` — **the bytes of a text**;
* `QSource.Text.OnBoundary` — an offset lies between characters;
* `QSource.Text.Coarse` — a class treats all characters outside of ASCII alike;
* `QSource.Text.Alike` — a byte and a character that no such class tells apart.

Main results:

* `QSource.Text.octets_toList` — these are the bytes that a string is stored as;
* `QSource.Text.takeWhile_octets`, `QSource.Text.all_octets`, `QSource.Text.alike_head?_octets` — **a
  coarse class says the same of the bytes and of the characters**;
* `QSource.Text.dropBytes?_eq_some` — what lies behind an offset between characters.
-/

import QSource.Proofs.Text.Class
import QSource.Proofs.Text.LineTable

set_option relaxedAutoImplicit false
set_option autoImplicit false

namespace QSource.Text

/-- The bytes of a text in UTF-8, each written as the character with its number. -/
def octets (s : List Char) : List Char :=
  s.flatMap fun c => (String.utf8EncodeChar c).map fun b => Char.ofNat b.toNat

@[simp] theorem octets_nil : octets [] = [] := rfl

theorem octets_cons (c : Char) (s : List Char) : octets (c :: s) = octets [c] ++ octets s := by
  simp [octets]

@[simp] theorem octets_append (s t : List Char) : octets (s ++ t) = octets s ++ octets t :=
  List.flatMap_append

theorem toList_data_toUTF8 (source : String) :
    source.toUTF8.data.toList = source.toList.flatMap String.utf8EncodeChar := by
  have hbytes : source.toUTF8 = (source.toList.flatMap String.utf8EncodeChar).toByteArray := by
    rw [String.toUTF8_eq_toByteArray, ← List.utf8Encode, ← String.toByteArray_ofList,
      String.ofList_toList]
  rw [hbytes, List.toList_data_toByteArray]

/-- **These are the bytes that a string is stored as.** -/
theorem octets_toList (source : String) :
    octets source.toList = source.toUTF8.data.toList.map fun b => Char.ofNat b.toNat := by
  rw [toList_data_toUTF8, List.map_flatMap, octets]

@[simp] theorem length_octets (s : List Char) : (octets s).length = byteLength s := by
  induction s with
  | nil => rfl
  | cons c s ih =>
      rw [octets_cons, List.length_append, ih, byteLength_cons]
      simp [octets]

@[simp] theorem octets_eq_nil {s : List Char} : octets s = [] ↔ s = [] := by
  cases s with
  | nil => simp
  | cons c s =>
      have hpos := c.utf8Size_pos
      rw [← List.length_eq_zero_iff, length_octets, byteLength_cons]
      simp
      omega

/-! ### Bytes of one character -/

theorem toNat_ofNat_of_lt {n : Nat} (h : n < 256) : (Char.ofNat n).toNat = n := by
  rw [Char.ofNat, dif_pos (show n.isValidChar from Or.inl (by omega))]
  rfl

theorem octets_of_lt {c : Char} (h : c.toNat < 128) : octets [c] = [c] := by
  have hle : c.toNat ≤ 127 := Nat.le_of_lt_succ h
  have hsmall : c.toNat % 256 = c.toNat := Nat.mod_eq_of_lt (by omega)
  simp [octets, String.utf8EncodeChar, hle, hsmall, Char.ofNat_toNat]

theorem utf8Size_of_lt {c : Char} (h : c.toNat < 128) : c.utf8Size = 1 := by
  have hlength := length_octets [c]
  rw [octets_of_lt h] at hlength
  simpa using hlength.symm

theorem octets_ne_nil (c : Char) : octets [c] ≠ [] := by simp

theorem octets_cons_of_lt {c : Char} (h : c.toNat < 128) (s : List Char) :
    octets (c :: s) = c :: octets s := by
  rw [octets_cons, octets_of_lt h, List.singleton_append]

/-- A text in ASCII is its bytes. -/
theorem octets_of_ascii {s : List Char} (h : ∀ c ∈ s, c.toNat < 128) : octets s = s := by
  induction s with
  | nil => rfl
  | cons c s ih =>
      obtain ⟨hc, hs⟩ := List.forall_mem_cons.1 h
      rw [octets_cons_of_lt hc, ih hs]

theorem byteLength_of_ascii {s : List Char} (h : ∀ c ∈ s, c.toNat < 128) : byteLength s = s.length := by
  rw [← length_octets, octets_of_ascii h]

/-- All bytes of a character outside of ASCII are from 128 on. -/
theorem le_toNat_of_mem_octets {c d : Char} (hc : 128 ≤ c.toNat) (hd : d ∈ octets [c]) :
    128 ≤ d.toNat := by
  have hbyte : ∀ b ∈ String.utf8EncodeChar c, 128 ≤ b.toNat := by
    have hlt : ¬ c.toNat ≤ 127 := by omega
    intro b hb
    simp only [String.utf8EncodeChar, Char.toNat_val, if_neg hlt] at hb
    split at hb
    · simp at hb
      rcases hb with rfl | rfl <;> simp <;> omega
    · split at hb
      · simp at hb
        rcases hb with rfl | rfl | rfl <;> simp <;> omega
      · simp at hb
        rcases hb with rfl | rfl | rfl | rfl <;> simp <;> omega
  simp only [octets, List.flatMap_singleton, List.mem_map] at hd
  obtain ⟨b, hb, rfl⟩ := hd
  rw [toNat_ofNat_of_lt b.toNat_lt]
  exact hbyte b hb

/-- Behind characters of ASCII the bytes of a text are those of what is left. -/
theorem drop_octets {s : List Char} {n : Nat} (hn : n ≤ s.length) (h : ∀ c ∈ s.take n, c.toNat < 128) :
    (octets s).drop n = octets (s.drop n) := by
  have hs := octets_append (s.take n) (s.drop n)
  rw [List.take_append_drop, octets_of_ascii h] at hs
  rw [hs, List.drop_left' (List.length_take_of_le hn)]

/-- The text does not start with a character of ASCII. -/
def Foreign (s : List Char) : Prop := ∀ c ∈ s.head?, 128 ≤ c.toNat

@[simp] theorem foreign_cons {c : Char} {s : List Char} : Foreign (c :: s) ↔ 128 ≤ c.toNat := by
  simp [Foreign]

theorem ascii_or_foreign (s : List Char) : (∃ c rest, s = c :: rest ∧ c.toNat < 128) ∨ Foreign s := by
  cases s with
  | nil => exact .inr fun c hc => by simp at hc
  | cons c rest =>
      rcases Nat.lt_or_ge c.toNat 128 with hc | hc
      · exact .inl ⟨c, rest, rfl, hc⟩
      · exact .inr fun d hd => Option.some.inj hd ▸ hc

/-- Nor do its bytes. -/
theorem Foreign.octets {s : List Char} (h : Foreign s) : Foreign (octets s) := by
  cases s with
  | nil => exact h
  | cons c rest =>
      obtain ⟨d, ds, hds⟩ := List.exists_cons_of_ne_nil (octets_ne_nil c)
      intro b hb
      rw [octets_cons, hds] at hb
      exact le_toNat_of_mem_octets (h c rfl) (by simp [hds, Option.some.inj hb])

/-! ### Coarse classes -/

/-- A class treats all characters outside of ASCII alike. -/
def Coarse (accepts : Char → Bool) : Prop :=
  ∀ c d : Char, 128 ≤ c.toNat → 128 ≤ d.toNat → accepts c = accepts d

theorem eq_false_of_ascii {accepts : Char → Bool} (h : ∀ c, accepts c = true → c.toNat < 128) {c : Char}
    (hc : 128 ≤ c.toNat) : accepts c = false :=
  Bool.eq_false_iff.2 fun htrue => Nat.not_lt.2 hc (h c htrue)

namespace Coarse

/-- A class inside of ASCII is coarse. -/
theorem of_ascii {accepts : Char → Bool} (h : ∀ c, accepts c = true → c.toNat < 128) :
    Coarse accepts := by
  intro c d hc hd
  rw [eq_false_of_ascii h hc, eq_false_of_ascii h hd]

theorem beq {c : Char} (h : c.toNat < 128) : Coarse (· == c) :=
  of_ascii fun d hd => by rwa [beq_iff_eq.1 hd]

theorem not {accepts : Char → Bool} (h : Coarse accepts) : Coarse fun c => !accepts c :=
  fun c d hc hd => congrArg (!·) (h c d hc hd)

theorem or {a b : Char → Bool} (ha : Coarse a) (hb : Coarse b) : Coarse fun c => a c || b c :=
  fun c d hc hd => congrArg₂ (· || ·) (ha c d hc hd) (hb c d hc hd)

theorem and {a b : Char → Bool} (ha : Coarse a) (hb : Coarse b) : Coarse fun c => a c && b c :=
  fun c d hc hd => congrArg₂ (· && ·) (ha c d hc hd) (hb c d hc hd)

/-- A coarse class says the same of a character and of each of its bytes. -/
theorem apply_octet {accepts : Char → Bool} (h : Coarse accepts) {c d : Char} (hd : d ∈ octets [c]) :
    accepts d = accepts c := by
  rcases Nat.lt_or_ge c.toNat 128 with hc | hc
  · rw [octets_of_lt hc, List.mem_singleton] at hd
    rw [hd]
  · exact h d c (le_toNat_of_mem_octets hc hd) hc

end Coarse

/-- **A run of a coarse class** stops at the same place among the bytes as among the characters. -/
theorem takeWhile_octets {accepts : Char → Bool} (h : Coarse accepts) (s : List Char) :
    (octets s).takeWhile accepts = octets (s.takeWhile accepts) := by
  induction s with
  | nil => rfl
  | cons c s ih =>
      rw [octets_cons]
      cases hc : accepts c with
      | true =>
          have hall : ∀ d ∈ octets [c], accepts d = true := fun d hd =>
            (h.apply_octet hd).trans hc
          rw [List.takeWhile_append_of_pos hall, ih, List.takeWhile_cons_of_pos hc, ← octets_append,
            List.singleton_append]
      | false =>
          obtain ⟨d, ds, hds⟩ := List.exists_cons_of_ne_nil (octets_ne_nil c)
          have hd : accepts d = false := (h.apply_octet (by simp [hds])).trans hc
          rw [hds, List.cons_append, List.takeWhile_cons_of_neg (by simp [hd]),
            List.takeWhile_cons_of_neg (by simp [hc]), octets_nil]

theorem all_octets {accepts : Char → Bool} (h : Coarse accepts) (s : List Char) :
    (octets s).all accepts = s.all accepts := by
  induction s with
  | nil => rfl
  | cons c s ih =>
      have hbytes : (octets [c]).all accepts = accepts c := by
        cases hc : accepts c with
        | true => exact List.all_eq_true.2 fun d hd => (h.apply_octet hd).trans hc
        | false =>
            obtain ⟨d, ds, hds⟩ := List.exists_cons_of_ne_nil (octets_ne_nil c)
            have hd : accepts d = false := (h.apply_octet (by simp [hds])).trans hc
            simp [hds, hd]
      rw [octets_cons, List.all_append, hbytes, ih, List.all_cons]

/-- A character of ASCII stands as often among the bytes as in the text. -/
theorem count_octets {c : Char} (hc : c.toNat < 128) (s : List Char) :
    (octets s).count c = s.count c := by
  induction s with
  | nil => rfl
  | cons d s ih =>
      have hbytes : (octets [d]).count c = [d].count c := by
        rcases Nat.lt_or_ge d.toNat 128 with hd | hd
        · rw [octets_of_lt hd]
        · have hne : d ≠ c := by
            rintro rfl
            omega
          have hmem : c ∉ octets [d] := fun h => by
            have := le_toNat_of_mem_octets hd h
            omega
          simp [List.count_eq_zero_of_not_mem hmem, hne]
      rw [octets_cons, List.count_append, hbytes, ih, ← List.count_append, List.singleton_append]

theorem mem_octets_iff {c : Char} (hc : c.toNat < 128) {s : List Char} : c ∈ octets s ↔ c ∈ s := by
  rw [← List.count_pos_iff, count_octets hc, List.count_pos_iff]

theorem lineFeed_not_mem_octets {s : List Char} (h : '\n' ∉ s) : '\n' ∉ octets s :=
  mt (mem_octets_iff (by decide)).1 h

/-! ### A byte in the place of a character -/

/-- A byte and a character that no coarse class tells apart, or nothing in the place of both. -/
def Alike (byte char : Option Char) : Prop :=
  ∀ accepts, Coarse accepts → byte.any accepts = char.any accepts

theorem Alike.eq_some_iff {byte char : Option Char} (h : Alike byte char) {c : Char}
    (hc : c.toNat < 128) : byte = some c ↔ char = some c := by
  have heq : ∀ o : Option Char, o = some c ↔ o.any (· == c) = true := by
    intro o
    cases o <;> simp
  rw [heq, heq, h _ (Coarse.beq hc)]

theorem alike_head?_octets (s : List Char) : Alike (octets s).head? s.head? := by
  intro accepts h
  cases s with
  | nil => rfl
  | cons c s =>
      obtain ⟨d, ds, hds⟩ := List.exists_cons_of_ne_nil (octets_ne_nil c)
      have hd : accepts d = accepts c := h.apply_octet (by simp [hds])
      simp [octets_cons c s, hds, hd]

theorem alike_getLast?_octets (s : List Char) : Alike (octets s).getLast? s.getLast? := by
  intro accepts h
  induction s using List.reverseRecOn with
  | nil => rfl
  | append_singleton s c _ =>
      obtain ⟨ds, d, hds⟩ := (octets [c]).eq_nil_or_concat.resolve_left (octets_ne_nil c)
      have hd : accepts d = accepts c := h.apply_octet (by simp [hds])
      simp [hds, hd, ← List.append_assoc]

/-! ### Offsets between characters -/

/-- An offset lies between two characters of a text, at its start or at its end. -/
def OnBoundary (source : List Char) (offset : Nat) : Prop :=
  ∃ before behind, source = before ++ behind ∧ offset = byteLength before

/-- **What is left behind an offset** is what stands there between characters. -/
theorem dropBytes?_eq_some {source behind : List Char} {offset : Nat} :
    dropBytes? source offset = some behind ↔
      ∃ before, source = before ++ behind ∧ offset = byteLength before := by
  constructor
  · intro h
    rcases offset_cases source offset with ⟨before, rest, rfl, rfl⟩ |
      ⟨before, c, rest, k, rfl, hk, hc, rfl⟩ | hover
    · rw [dropBytes?_append, Option.some.injEq] at h
      exact ⟨before, by rw [h], rfl⟩
    · obtain ⟨n, rfl⟩ : ∃ n, k = n + 1 := ⟨k - 1, by omega⟩
      rw [dropBytes?_add, dropBytes?, if_neg (by omega)] at h
      exact absurd h (by simp)
    · obtain ⟨n, rfl⟩ : ∃ n, offset = byteLength source + (n + 1) :=
        ⟨offset - byteLength source - 1, by omega⟩
      have hnone := dropBytes?_add source [] (n + 1)
      rw [List.append_nil, h] at hnone
      exact absurd hnone (by simp [dropBytes?])
  · rintro ⟨before, rfl, rfl⟩
    exact dropBytes?_append before behind

end QSource.Text
