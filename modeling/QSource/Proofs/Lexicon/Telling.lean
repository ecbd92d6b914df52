/-
**Literals are told apart** by their starts, and where these agree by what stands behind them.

A literal shows its form early: by the number of digits at its start, behind a sign, and by the
character behind these digits.  What a form needs there and what its texts have there is the same
(`QSource.LiteralForm.admits`), so a form can only take a text of another one if the two admit the
same start.  That happens within two families, the days and the times of day, and between a day and
a number with four digits before its point; there the texts differ later on.

Main definitions:

* `QSource.leadingDigits`, `QSource.afterDigits` — the number of digits at the start of a text, and
  the character behind them;
* `QSource.LiteralForm.admits` — the starts that a form admits.

Main results:

* `QSource.LiteralForm.length?_of_not_admits` — a form takes nothing from a text whose start it does
  not admit;
* `QSource.LiteralForm.admits_of_mem_texts` — the texts of a form have a start that it admits;
* `QSource.LiteralForm.misses_of_mem_earlier` — **no form takes a text of a later form**.
-/

import QSource.Proofs.Lexicon.Reading
import QSource.Proofs.Lexicon.Starts

set_option relaxedAutoImplicit false
set_option autoImplicit false

namespace QSource

open Text Grammar Pattern
open scoped Computability

/-! ### The digits at the start of a text -/

/-- The number of digits at the start of a text. -/
def leadingDigits (s : List Char) : Nat := (s.takeWhile Char.isDigit).length

/-- The character behind the digits at the start of a text. -/
def afterDigits (s : List Char) : Option Char := (s.dropWhile Char.isDigit).head?

/-- The digits at the start of a text end where no digit follows. -/
theorem start_append {x y : List Char} (hx : ∀ c ∈ x, c.isDigit = true)
    (hy : y.head?.any Char.isDigit = false) :
    leadingDigits (x ++ y) = x.length ∧ afterDigits (x ++ y) = y.head? := by
  rw [leadingDigits, afterDigits, List.takeWhile_append_of_pos hx, List.dropWhile_append_of_pos hx]
  cases y with
  | nil => simp
  | cons c y =>
      have hc : ¬c.isDigit = true := by simpa using hy
      rw [List.takeWhile_cons_of_neg hc, List.dropWhile_cons_of_neg hc, List.append_nil]
      exact ⟨rfl, rfl⟩

theorem length?_seq_assoc (a b c : Pattern) (s : List Char) :
    ((a ++ b) ++ c).length? s = (a ++ (b ++ c)).length? s := by
  simp only [length?_seq]
  cases a.length? s with
  | none => rfl
  | some n =>
      simp only [Option.bind_some]
      cases hb : b.length? (s.drop n) with
      | none => rfl
      | some m => simp [List.drop_drop, Function.comp_def, Nat.add_assoc]

theorem any_of_length?_one {mark : Char → Bool} {s : List Char} {n : Nat}
    (h : (one mark).length? s = some n) : s.head?.any mark = true ∧ n = 1 := by
  rw [Pattern.length?] at h
  split at h
  · next hmark => exact ⟨hmark, (Option.some.inj h).symm⟩
  · simp at h

/-- A pattern of digits with a mark behind it fits only where that mark stands behind the digits at
the start of the text, and it takes all of these digits. -/
theorem start_of_fits {p : Pattern} {mark : Char → Bool} {s : List Char} {n : Nat}
    (hp : p.Within (·.isDigit = true)) (hmark : ∀ c, mark c = true → c.isDigit = false)
    (h : (p ++ one mark).length? s = some n) :
    p.length? s = some (leadingDigits s) ∧ (afterDigits s).any mark = true ∧
      n = leadingDigits s + 1 := by
  rw [length?_seq] at h
  obtain ⟨k, hk, hrest⟩ := Option.bind_eq_some_iff.1 h
  obtain ⟨m, hm, rfl⟩ := Option.map_eq_some_iff.1 hrest
  have hhead := (any_of_length?_one hm).1
  obtain ⟨c, hc, hcmark⟩ := (Option.any_eq_true _ _).1 hhead
  have hdigit : (s.drop k).head?.any Char.isDigit = false := by
    rw [hc, Option.any_some, hmark c hcmark]
  obtain ⟨hlead, hafter⟩ := start_append (forall_mem_take hp hk) hdigit
  rw [List.take_append_drop, List.length_take, Nat.min_eq_left (length?_le hk)] at hlead
  rw [List.take_append_drop] at hafter
  rw [hlead, hafter, (any_of_length?_one hm).2]
  exact ⟨hk, hhead, rfl⟩

theorem eq_of_exactly_length? {count : Nat} {accepts : Char → Bool} {s : List Char} {n : Nat}
    (h : (exactly count accepts).length? s = some n) : n = count := by
  induction count generalizing s n with
  | zero => exact (Option.some.inj h).symm
  | succ count ih =>
      rw [exactly, length?_seq] at h
      obtain ⟨k, hk, hrest⟩ := Option.bind_eq_some_iff.1 h
      obtain ⟨m, hm, rfl⟩ := Option.map_eq_some_iff.1 hrest
      rw [ih hm, (any_of_length?_one hk).2, Nat.add_comm]

/-- A pattern of digits with a mark behind it does not fit a text with another start. -/
theorem length?_of_start {p : Pattern} {mark : Char → Bool} {s : List Char}
    (hp : p.Within (·.isDigit = true)) (hmark : ∀ c, mark c = true → c.isDigit = false)
    (h : p.length? s = some (leadingDigits s) → ¬(afterDigits s).any mark = true) :
    (p ++ one mark).length? s = none := by
  cases hlength : (p ++ one mark).length? s with
  | none => rfl
  | some n =>
      obtain ⟨hdigits, hafter, -⟩ := start_of_fits hp hmark hlength
      exact absurd hafter (h hdigits)

/-! ### The starts that a form admits -/

/-- The starts that a form admits behind a sign: the number of digits at the start of a text, and the
character behind them. -/
def LiteralForm.admits (count : Nat) (next : Option Char) : LiteralForm → Bool
  | .symbol | .filePath => count == 0 && next == some '`'
  | .infinity => count == 1 && next.any "wWnN".toList.contains
  | .timestamp | .datetime | .date | .month => count == 4 && next == some '.'
  | .milliTime | .second | .minute => count == 2 && next == some ':'
  | .nanoTime => next == some 'D' || (count == 2 && next == some ':')
  | .bits => next == some 'b'
  | .bytes => count == 1 && next == some 'x'
  | .number => !next.any fun c => !".hijef".toList.contains c

/-- Without a minus sign at the start of the text, a sign is left out. -/
theorem length?_sign_seq {p : Pattern} {s : List Char} (hsign : s.head? ≠ some '-') :
    (sign true ++ p).length? s = p.length? s := by
  have hnone : (sign true).length? s = some 0 := by
    have hminus : (char '-').length? s = none := by
      cases s with
      | nil => rfl
      | cons c s =>
          have hc : c ≠ '-' := by simpa using hsign
          simp [char, Pattern.length?, hc]
    rw [sign, if_pos rfl, Pattern.length?, hminus]
    rfl
  rw [length?_seq, hnone, Option.bind_some, List.drop_zero]
  simp

/-! ### The starts that patterns need -/

section

variable {s : List Char}

theorem isDigit_of_beq {c : Char} (hc : c.isDigit = false) (d : Char) (hd : (d == c) = true) :
    d.isDigit = false :=
  beq_iff_eq.1 hd ▸ hc

theorem isDigit_of_contains {marks : String} (hmarks : marks.toList.any Char.isDigit = false)
    (c : Char) (hc : marks.toList.contains c = true) : c.isDigit = false :=
  Bool.eq_false_iff.2 (List.any_eq_false.1 hmarks c (List.contains_iff_mem.1 hc))

theorem isDigit_of_isBit (c : Char) (h : (c == '0' || c == '1') = true) : c.isDigit = true := by
  rcases (Bool.or_eq_true _ _).mp h with h | h <;> rw [beq_iff_eq.1 h] <;> rfl

theorem any_beq_iff {next : Option Char} {c : Char} : next.any (· == c) = true ↔ next = some c := by
  cases next <;> simp

/-- A fixed number of digits with a character behind them. -/
theorem length?_digits_char {count : Nat} {c : Char} (hc : c.isDigit = false)
    (h : ¬(leadingDigits s = count ∧ afterDigits s = some c)) :
    (digits count ++ char c).length? s = none := by
  refine length?_of_start (within_exactly (fun _ => id) count) (isDigit_of_beq hc) ?_
  exact fun hcount hafter => h ⟨eq_of_exactly_length? hcount, any_beq_iff.1 hafter⟩

theorem length?_calendarDay (h : ¬(leadingDigits s = 4 ∧ afterDigits s = some '.')) :
    calendarDay.length? s = none :=
  length?_seq_of_none (length?_seq_of_none (length?_seq_of_none
    (length?_digits_char rfl h) _) _) _

theorem length?_clock (h : ¬(leadingDigits s = 2 ∧ afterDigits s = some ':')) :
    Pattern.clock.length? s = none :=
  length?_seq_of_none (length?_seq_of_none (length?_seq_of_none
    (length?_digits_char rfl h) _) _) _

theorem length?_backtick (h : ¬(leadingDigits s = 0 ∧ afterDigits s = some '`')) :
    (char '`').length? s = none := by
  cases s with
  | nil => rfl
  | cons c rest =>
      have hc : c ≠ '`' := by
        rintro rfl
        exact h ⟨rfl, rfl⟩
      simp [char, Pattern.length?, hc]

/-- **A form takes nothing from a text whose start it does not admit.** -/
theorem LiteralForm.length?_of_not_admits {form : LiteralForm} (hform : form ≠ .number)
    (hsign : s.head? ≠ some '-') (h : form.admits (leadingDigits s) (afterDigits s) = false) :
    (form.pattern true).length? s = none := by
  cases form with
  | symbol =>
      have hnone := length?_backtick (by simpa [admits] using h)
      exact length?_seq_of_none (length?_seq_of_none hnone _) _
  | filePath =>
      have hnone := length?_backtick (by simpa [admits] using h)
      exact length?_seq_of_none (length?_seq_of_none hnone _) _
  | infinity =>
      refine length?_seq_of_none (length?_seq_of_none ?_ _) _
      rw [length?_seq_assoc, length?_sign_seq hsign]
      refine length?_of_start (within_char.2 rfl) (isDigit_of_contains rfl) fun hzero hafter => ?_
      rw [admits, (any_of_length?_one hzero).2, hafter] at h
      cases h
  | timestamp =>
      have hnone := length?_calendarDay (by simpa [admits] using h)
      exact length?_seq_of_none (length?_seq_of_none (length?_seq_of_none
        (length?_seq_of_none hnone _) _) _) _
  | datetime =>
      have hnone := length?_calendarDay (by simpa [admits] using h)
      exact length?_seq_of_none (length?_seq_of_none (length?_seq_of_none
        (length?_seq_of_none (length?_seq_of_none hnone _) _) _) _) _
  | milliTime =>
      have hnone := length?_clock (by simpa [admits] using h)
      exact length?_seq_of_none (length?_seq_of_none (length?_seq_of_none
        (length?_seq_of_none (length?_seq_of_none hnone _) _) _) _) _
  | nanoTime =>
      -- a day count and a time of day: the text has the start of neither
      have hnot : ¬afterDigits s = some 'D' ∧
          ¬(leadingDigits s = 2 ∧ afterDigits s = some ':') := by simpa [admits] using h
      have hdays : (oneOrMore Char.isDigit ++ char 'D').length? s = none := by
        refine length?_of_start (within_oneOrMore.2 fun _ => id) (isDigit_of_beq rfl) ?_
        exact fun _ hafter => hnot.1 (any_beq_iff.1 hafter)
      refine length?_seq_of_none (length?_seq_of_none (length?_alt_of_none ?_ ?_) _) _
      · exact length?_seq_of_none hdays _
      · exact length?_seq_of_none (length?_seq_of_none (length?_clock hnot.2) _) _
  | date =>
      have hnone := length?_calendarDay (by simpa [admits] using h)
      exact length?_seq_of_none (length?_seq_of_none hnone _) _
  | month =>
      have hnone := @length?_digits_char s 4 '.' rfl (by simpa [admits] using h)
      exact length?_seq_of_none (length?_seq_of_none (length?_seq_of_none hnone _) _) _
  | second =>
      have hnone := length?_clock (by simpa [admits] using h)
      exact length?_seq_of_none (length?_seq_of_none hnone _) _
  | minute =>
      have hnone := @length?_digits_char s 2 ':' rfl (by simpa [admits] using h)
      exact length?_seq_of_none (length?_seq_of_none (length?_seq_of_none
        (length?_seq_of_none hnone _) _) _) _
  | bits =>
      refine length?_seq_of_none (length?_of_start (within_oneOrMore.2 isDigit_of_isBit)
        (isDigit_of_beq rfl) fun _ hafter => ?_) _
      simp [admits, any_beq_iff.1 hafter] at h
  | bytes =>
      refine length?_seq_of_none (length?_seq_of_none (length?_of_start (within_char.2 rfl)
        (isDigit_of_beq rfl) fun hzero hafter => ?_) _) _
      simp [admits, (any_of_length?_one hzero).2, any_beq_iff.1 hafter] at h
  | number => exact absurd rfl hform

end

/-! ### The starts of texts -/

/-- Digits before a character that is none. -/
theorem start_of_mem_mul {l k : Language Char} {mark : Char → Bool}
    (hl : ∀ ds ∈ l, ∀ c ∈ ds, c.isDigit = true) (hmark : ∀ c, mark c = true → c.isDigit = false)
    {x : List Char} (h : x ∈ l * (ofClass mark * k)) :
    ∃ ds ∈ l, ∃ c, mark c = true ∧ leadingDigits x = ds.length ∧ afterDigits x = some c := by
  obtain ⟨ds, hds, y, hy, rfl⟩ := Language.mem_mul.1 h
  obtain ⟨_, ⟨c, hc, rfl⟩, rest, -, rfl⟩ := Language.mem_mul.1 hy
  exact ⟨ds, hds, c, hc, start_append (hl ds hds) (hmark c hc)⟩

/-- A fixed number of digits before a character that is none. -/
theorem start_of_mem_pow_mul {count : Nat} {c : Char} {k : Language Char} (hc : c.isDigit = false)
    {x : List Char} (h : x ∈ digit ^ count * (lit c * k)) :
    leadingDigits x = count ∧ afterDigits x = some c := by
  obtain ⟨ds, hds, d, hd, hlead, hafter⟩ := start_of_mem_mul
    (fun ds hds => (mem_ofClass_pow.1 hds).2) (isDigit_of_beq hc) h
  rw [hlead, hafter, (mem_ofClass_pow.1 hds).1, beq_iff_eq.1 hd]
  exact ⟨rfl, rfl⟩

/-- Any number of digits before a character that is none. -/
theorem afterDigits_of_mem_plus_mul {members : Char → Bool}
    (hmembers : ∀ c, members c = true → c.isDigit = true) {c : Char} {k : Language Char}
    (hc : c.isDigit = false) {x : List Char} (h : x ∈ plus (ofClass members) * (lit c * k)) :
    afterDigits x = some c := by
  obtain ⟨ds, hds, d, hd, -, hafter⟩ := start_of_mem_mul
    (fun ds hds c hc => hmembers c (forall_mem_of_mem_plus hds c hc)) (isDigit_of_beq hc) h
  rw [hafter, beq_iff_eq.1 hd]

/-- A zero before a mark. -/
theorem start_of_mem_zero_mul {mark : Char → Bool} (hmark : ∀ c, mark c = true → c.isDigit = false)
    {k : Language Char} {x : List Char} (h : x ∈ lit '0' * (ofClass mark * k)) :
    ∃ c, mark c = true ∧ leadingDigits x = 1 ∧ afterDigits x = some c := by
  have hdigits : ∀ ds ∈ lit '0', ∀ c ∈ ds, c.isDigit = true := by
    rintro ds ⟨d, hd, rfl⟩ c hc
    rw [List.mem_singleton.1 hc, beq_iff_eq.1 hd]
    rfl
  obtain ⟨_, ⟨d, -, rfl⟩, c, hc, hlead, hafter⟩ := start_of_mem_mul hdigits hmark h
  exact ⟨c, hc, hlead, hafter⟩

/-- The part of a number behind its sign. -/
theorem admits_of_mem_decimal {x : List Char}
    (h : x ∈ Grammar.decimal * (optional Grammar.exponent * optional (choice "hijef"))) :
    LiteralForm.number.admits (leadingDigits x) (afterDigits x) = true := by
  have hrest : Avoids (fun c => !".hijef".toList.contains c)
      (optional (lit '.' * digit∗) * (optional Grammar.exponent * optional (choice "hijef"))) :=
    (((outside_lit rfl).mul _).avoids.optional).mul (avoids_numberRest (by decide))
  have hstart : ∀ {ds y : List Char}, (∀ c ∈ ds, c.isDigit = true) →
      y.head?.any (fun c => !".hijef".toList.contains c) = false →
      LiteralForm.number.admits (leadingDigits (ds ++ y)) (afterDigits (ds ++ y)) = true := by
    intro ds y hds hy
    have hdigit : y.head?.any Char.isDigit = false := by
      cases y with
      | nil => rfl
      | cons c y =>
          rw [List.head?_cons, Option.any_some, Bool.not_eq_false'] at hy
          exact isDigit_of_contains rfl c hy
    rw [(start_append hds hdigit).2, LiteralForm.admits, hy]
    rfl
  rw [Grammar.decimal, add_mul] at h
  rcases (Language.mem_add _ _ _).1 h with h | h
  · rw [mul_assoc] at h
    obtain ⟨ds, hds, y, hy, rfl⟩ := Language.mem_mul.1 h
    exact hstart (forall_mem_of_mem_plus hds) (hrest y hy)
  · exact hstart (List.forall_mem_nil _) (((outside_lit rfl).mul _).mul _ |>.avoids x h)

/-- **The texts of a form have a start that it admits**, perhaps behind a minus sign. -/
theorem LiteralForm.admits_of_mem_texts {form : LiteralForm} {x : List Char} (h : x ∈ form.texts) :
    ∃ u, (x = u ∨ x = '-' :: u) ∧ form.admits (leadingDigits u) (afterDigits u) = true := by
  have hunsigned : ∀ {count : Nat} {c : Char}, form.admits count (some c) = true →
      leadingDigits x = count ∧ afterDigits x = some c →
      ∃ u, (x = u ∨ x = '-' :: u) ∧ form.admits (leadingDigits u) (afterDigits u) = true := by
    rintro count c hadmits ⟨hlead, hafter⟩
    exact ⟨x, Or.inl rfl, by rw [hlead, hafter, hadmits]⟩
  have hsigned : ∀ {l : Language Char}, x ∈ optional (lit '-') * l →
      (∀ u ∈ l, form.admits (leadingDigits u) (afterDigits u) = true) →
      ∃ u, (x = u ∨ x = '-' :: u) ∧ form.admits (leadingDigits u) (afterDigits u) = true := by
    intro l hx hl
    obtain ⟨sign, hsign, u, hu, rfl⟩ := Language.mem_mul.1 hx
    refine ⟨u, ?_, hl u hu⟩
    rcases (Language.mem_add _ _ _).1 hsign with hsign | ⟨c, hc, rfl⟩
    · rw [(Language.mem_one sign).1 hsign]
      exact Or.inl rfl
    · rw [beq_iff_eq.1 hc]
      exact Or.inr rfl
  cases form with
  | symbol | filePath =>
      simp only [texts, mul_assoc] at h
      rw [← one_mul (lit '`' * _), ← pow_zero digit] at h
      exact hunsigned rfl (start_of_mem_pow_mul rfl h)
  | infinity =>
      simp only [texts, mul_assoc] at h
      refine hsigned h fun u hu => ?_
      obtain ⟨c, hc, hlead, hafter⟩ := start_of_mem_zero_mul (isDigit_of_contains rfl) hu
      rw [hlead, hafter, admits, Option.any_some, hc]
      rfl
  | timestamp | datetime | date =>
      simp only [texts, day, mul_assoc] at h
      exact hunsigned rfl (start_of_mem_pow_mul rfl h)
  | milliTime | second =>
      simp only [texts, Grammar.clock, mul_assoc] at h
      exact hunsigned rfl (start_of_mem_pow_mul rfl h)
  | nanoTime =>
      simp only [texts, add_mul, Grammar.clock, mul_assoc] at h
      rcases (Language.mem_add _ _ _).1 h with h | h
      · exact ⟨x, Or.inl rfl, by
          rw [afterDigits_of_mem_plus_mul (fun _ => id) rfl h]
          rfl⟩
      · exact hunsigned rfl (start_of_mem_pow_mul rfl h)
  | month | minute =>
      simp only [texts, mul_assoc] at h
      exact hunsigned rfl (start_of_mem_pow_mul rfl h)
  | bits =>
      refine ⟨x, Or.inl rfl, ?_⟩
      rw [texts, ← mul_one (lit 'b')] at h
      rw [afterDigits_of_mem_plus_mul isDigit_of_isBit rfl h]
      rfl
  | bytes =>
      simp only [texts, mul_assoc] at h
      obtain ⟨c, hc, hlead, hafter⟩ := start_of_mem_zero_mul (isDigit_of_beq rfl) h
      rw [beq_iff_eq.1 hc] at hafter
      exact hunsigned rfl ⟨hlead, hafter⟩
  | number =>
      simp only [texts, mul_assoc] at h
      exact hsigned h fun u hu => admits_of_mem_decimal hu

/-! ### Families -/

/-- The forms whose texts have the same start. Numbers are among the days, since four digits with a
point behind them start both. -/
inductive LiteralForm.Family where
  | backtick
  | infinity
  | day
  | time
  | bits
  | bytes
deriving DecidableEq

/-- The family of a form. -/
def LiteralForm.family : LiteralForm → Family
  | .symbol | .filePath => .backtick
  | .infinity => .infinity
  | .timestamp | .datetime | .date | .month | .number => .day
  | .milliTime | .nanoTime | .second | .minute => .time
  | .bits => .bits
  | .bytes => .bytes

/-- The family that the character behind the digits at the start of a text shows. -/
def LiteralForm.Family.ofNext : Option Char → Family
  | some '`' => .backtick
  | some ':' | some 'D' => .time
  | some 'b' => .bits
  | some 'x' => .bytes
  | some 'w' | some 'W' | some 'n' | some 'N' => .infinity
  | _ => .day

/-- **The character behind the digits shows the family.** -/
theorem LiteralForm.family_of_admits {form : LiteralForm} {count : Nat} {next : Option Char}
    (h : form.admits count next = true) : Family.ofNext next = form.family := by
  cases form with
  | infinity =>
      obtain ⟨c, hc, hletter⟩ := (Option.any_eq_true _ _).1 ((Bool.and_eq_true _ _).mp h).2
      have hcases : c = 'w' ∨ c = 'W' ∨ c = 'n' ∨ c = 'N' := by simpa using hletter
      rcases hcases with rfl | rfl | rfl | rfl <;> rw [hc] <;> rfl
  | number =>
      cases next with
      | none => rfl
      | some c =>
          have hcases : c = '.' ∨ c = 'h' ∨ c = 'i' ∨ c = 'j' ∨ c = 'e' ∨ c = 'f' := by
            rw [admits, Option.any_some, Bool.not_not] at h
            simpa using h
          rcases hcases with rfl | rfl | rfl | rfl | rfl | rfl <;> rfl
  | nanoTime =>
      have hcases : next = some 'D' ∨ count = 2 ∧ next = some ':' := by simpa [admits] using h
      rcases hcases with rfl | ⟨-, rfl⟩ <;> rfl
  | bits =>
      rw [beq_iff_eq.1 h]
      rfl
  | _ =>
      rw [beq_iff_eq.1 ((Bool.and_eq_true _ _).mp h).2]
      rfl

/-- Only infinities and numbers open with a minus sign. -/
theorem LiteralForm.refuses_minus {form : LiteralForm} (hinfinity : form ≠ .infinity)
    (hnumber : form ≠ .number) : (form.pattern true).refuses '-' = true := by
  cases form with
  | infinity => exact absurd rfl hinfinity
  | number => exact absurd rfl hnumber
  | _ => rfl

/-- A sign before a text that does not fit does not help. -/
theorem length?_minus_of_none {p : Pattern} {u : List Char} (hsign : u.head? ≠ some '-')
    (h : (sign true ++ p).length? u = none) : (sign true ++ p).length? ('-' :: u) = none := by
  rw [length?_sign_seq hsign] at h
  have hminus : (sign true).length? ('-' :: u) = some 1 := rfl
  rw [length?_seq, hminus, Option.bind_some, List.drop_succ_cons, List.drop_zero, h]
  rfl

/-- **No form takes a text of another family.** -/
theorem LiteralForm.misses_of_family_ne {other form : LiteralForm} (hnumber : other ≠ .number)
    (h : other.family ≠ form.family) : (other.pattern true).Misses form.texts := by
  intro x hx
  obtain ⟨u, hu, hadmits⟩ := admits_of_mem_texts hx
  have hnot : other.admits (leadingDigits u) (afterDigits u) = false := by
    rw [Bool.eq_false_iff]
    intro hother
    exact h ((family_of_admits hother).symm.trans (family_of_admits hadmits))
  -- no form admits a second sign
  have hsign : u.head? ≠ some '-' := by
    intro hhead
    obtain ⟨rest, rfl⟩ := List.head?_eq_some_iff.1 hhead
    have hminus : form.admits 0 (some '-') = true := hadmits
    cases form <;> simp [admits] at hminus
  have hnone := length?_of_not_admits hnumber hsign hnot
  rcases hu with rfl | rfl
  · exact hnone
  · by_cases hinfinity : other = .infinity
    · subst hinfinity
      simp only [pattern, length?_seq_assoc] at hnone ⊢
      exact length?_minus_of_none hsign hnone
    · exact Pattern.length?_of_refuses (refuses_minus hinfinity hnumber) u

/-! ### Forms of one family -/

/-- A day with a mark behind it does not fit a day with something else behind it. -/
theorem misses_day_char {c : Char} {k : Language Char} (h : Avoids (· == c) k) :
    (calendarDay ++ char c).Misses (day * k) :=
  (reads_calendarDay k).misses (misses_char h)

theorem misses_day_month : calendarDay.Misses LiteralForm.month.texts := by
  have hpoint : (char '.').Misses (lit 'm') := misses_char (outside_lit rfl).avoids
  have hstart := ((reads_exactly 4 Char.isDigit _).seq (reads_char '.' _)).seq
    (reads_exactly 2 Char.isDigit (lit 'm'))
  exact (hstart.misses hpoint).seq _

theorem misses_clock_point {k : Language Char} (h : Avoids (· == '.') k) :
    (Pattern.clock ++ char '.').Misses (Grammar.clock * k) :=
  (reads_clock k).misses (misses_char h)

theorem misses_clock_minute : Pattern.clock.Misses LiteralForm.minute.texts := by
  have hcolon : (char ':').Misses (optional (lit 'u')) :=
    misses_char (outside_lit rfl).avoids.optional
  have hstart := ((reads_exactly 2 Char.isDigit _).seq (reads_char ':' _)).seq
    (reads_exactly 2 Char.isDigit (optional (lit 'u')))
  exact (hstart.misses hcolon).seq _

/-- Milliseconds are three digits, so they do not fit nanoseconds. -/
theorem misses_milliTime_nanoTime :
    (LiteralForm.milliTime.pattern true).Misses LiteralForm.nanoTime.texts := by
  intro x hx
  simp only [LiteralForm.texts, add_mul] at hx
  rcases (Language.mem_add _ _ _).1 hx with hx | hx
  · simp only [mul_assoc] at hx
    have hafter := afterDigits_of_mem_plus_mul (fun _ => id) rfl hx
    refine LiteralForm.length?_of_not_admits LiteralForm.noConfusion ?_ ?_
    · intro hhead
      obtain ⟨rest, rfl⟩ := List.head?_eq_some_iff.1 hhead
      simp [afterDigits] at hafter
    · rw [hafter, LiteralForm.admits]
      simp
  · have hmilli := ((reads_clock _).seq (reads_char '.' _)).seq
      (reads_exactly 3 Char.isDigit (digit ^ 6 * optional (lit 'n')))
    have hdigit : (notBefore Char.isDigit).Misses (digit ^ 6 * optional (lit 'n')) := by
      rw [pow_succ', mul_assoc]
      exact misses_notBefore (fun _ => id) _
    -- the first three of the nine digits are read, and a fourth one follows
    have hnine : digit ^ 9 = digit ^ 3 * digit ^ 6 := pow_add digit 3 6
    rw [hnine, ← mul_assoc, mul_assoc] at hx
    exact ((hmilli.misses hdigit).seq _).seq _ x hx

/-- Two digits with a mark behind them do not fit behind the point of a number. -/
theorem misses_places {c : Char} (hc : c.isDigit = false) (hletter : c ∉ "hijef".toList) :
    (digits 2 ++ char c).Misses
      (digit∗ * (optional Grammar.exponent * optional (choice "hijef"))) := by
  intro z hz
  obtain ⟨ds, hds, y, hy, rfl⟩ := Language.mem_mul.1 hz
  have hnot : ∀ accepts : Char → Bool, "hijef".toList.all (fun c => !accepts c) = true →
      y.head?.any accepts = false := fun accepts h => avoids_numberRest h y hy
  refine length?_of_start (within_exactly (fun _ => id) 2) (isDigit_of_beq hc) fun _ => ?_
  rw [(start_append (mem_ofClass_kstar.1 hds) (hnot _ (by decide))).2, Bool.not_eq_true]
  refine hnot _ (List.all_eq_true.2 fun d hd => ?_)
  simpa using fun heq : d = c => hletter (heq ▸ hd)

theorem misses_decimal {c : Char} (hc : c.isDigit = false) (hletter : c ∉ "hijef".toList) :
    ((digits 4 ++ char '.') ++ (digits 2 ++ char c)).Misses
      (Grammar.decimal * (optional Grammar.exponent * optional (choice "hijef"))) := by
  have hpoint : ∀ {u : List Char}, ¬(leadingDigits u = 4 ∧ afterDigits u = some '.') →
      ((digits 4 ++ char '.') ++ (digits 2 ++ char c)).length? u = none :=
    fun hnot => length?_seq_of_none (length?_digits_char rfl hnot) _
  intro u hu
  rw [Grammar.decimal, add_mul] at hu
  rcases (Language.mem_add _ _ _).1 hu with hu | hu
  · obtain ⟨v, hv, r, hr, rfl⟩ := Language.mem_mul.1 hu
    obtain ⟨ds, hds, w, hw, rfl⟩ := Language.mem_mul.1 hv
    have hdigits : ∀ c ∈ ds, c.isDigit = true := forall_mem_of_mem_plus hds
    rw [List.append_assoc]
    rcases (Language.mem_add _ _ _).1 hw with hw | hw
    · -- without a point a letter follows the digits, or nothing
      rw [(Language.mem_one w).1 hw, List.nil_append]
      refine hpoint fun hstart => ?_
      have hafter := any_beq_iff.2 hstart.2
      rw [(start_append hdigits (avoids_numberRest (by decide) r hr)).2,
        avoids_numberRest (by decide) r hr] at hafter
      exact Bool.false_ne_true hafter
    · obtain ⟨_, ⟨d, hd, rfl⟩, places, hplaces, rfl⟩ := Language.mem_mul.1 hw
      obtain rfl : d = '.' := beq_iff_eq.1 hd
      have hrest : (digits 2 ++ char c).length? (places ++ r) = none :=
        misses_places hc hletter _ (Language.append_mem_mul hplaces hr)
      rw [length?_seq]
      cases hlength : (digits 4 ++ char '.').length? (ds ++ (['.'] ++ places ++ r)) with
      | none => rfl
      | some n =>
          obtain ⟨-, -, hn⟩ :=
            start_of_fits (within_exactly (fun _ => id) 4) (isDigit_of_beq rfl) hlength
          have hlead := (start_append (y := ['.'] ++ places ++ r) hdigits rfl).1
          rw [hn, hlead, Option.bind_some, List.append_assoc, ← List.append_assoc ds,
            ← List.length_singleton (a := '.'), ← List.length_append, List.drop_left, hrest]
          rfl
  · refine hpoint fun hstart => ?_
    rw [mul_assoc, ← one_mul (lit '.' * _), ← pow_zero digit] at hu
    rw [(start_of_mem_pow_mul rfl hu).1] at hstart
    exact absurd hstart.1 (by decide)

/-- Four digits, a point, two digits and a mark do not fit a number. -/
theorem misses_number {c : Char} (hc : c.isDigit = false) (hletter : c ∉ "hijef".toList) :
    (digits 4 ++ char '.' ++ digits 2 ++ char c).Misses LiteralForm.number.texts := by
  intro x hx
  simp only [LiteralForm.texts, mul_assoc] at hx
  obtain ⟨sign, hsign, u, hu, rfl⟩ := Language.mem_mul.1 hx
  rcases (Language.mem_add _ _ _).1 hsign with hsign | ⟨d, hd, rfl⟩
  · rw [(Language.mem_one sign).1 hsign, List.nil_append, length?_seq_assoc]
    exact misses_decimal hc hletter u hu
  · rw [beq_iff_eq.1 hd]
    exact Pattern.length?_of_refuses rfl u

/-! ### The order of the forms -/

/-- The forms in the order in which they are tried. -/
def LiteralForm.all : List LiteralForm := [
  .symbol, .filePath, .infinity, .timestamp, .datetime, .milliTime, .nanoTime, .date, .month,
  .second, .minute, .bits, .bytes, .number]

/-- The forms that are tried before a form. -/
def LiteralForm.earlier (form : LiteralForm) : List LiteralForm := all.takeWhile (· != form)

theorem LiteralForm.mem_all (form : LiteralForm) : form ∈ all := by
  cases form <;> decide

/-- The pairs of one family, each in the order of the forms. -/
theorem LiteralForm.siblings {other form : LiteralForm} (h : other ∈ form.earlier)
    (hfamily : other.family = form.family) :
    (other, form) ∈ [(symbol, filePath), (timestamp, datetime), (timestamp, date),
      (timestamp, month), (timestamp, number), (datetime, date), (datetime, month),
      (datetime, number), (date, month), (date, number), (month, number), (milliTime, nanoTime),
      (milliTime, second), (milliTime, minute), (nanoTime, second), (nanoTime, minute),
      (second, minute)] := by
  revert other
  have hall : ∀ form ∈ all, ∀ other ∈ form.earlier, other.family = form.family →
      (other, form) ∈ [(symbol, filePath), (timestamp, datetime), (timestamp, date),
        (timestamp, month), (timestamp, number), (datetime, date), (datetime, month),
        (datetime, number), (date, month), (date, number), (month, number), (milliTime, nanoTime),
        (milliTime, second), (milliTime, minute), (nanoTime, second), (nanoTime, minute),
        (second, minute)] := by decide
  exact fun other h => hall form (mem_all form) _ h

/-- No form takes a text of a later form of its family. -/
theorem LiteralForm.misses_of_family_eq {other form : LiteralForm} (h : other ∈ form.earlier)
    (hfamily : other.family = form.family) : (other.pattern true).Misses form.texts := by
  have hpairs := siblings h hfamily
  simp only [List.mem_cons, Prod.mk.injEq, List.not_mem_nil, or_false] at hpairs
  have hday : ∀ {c d : Char}, (d == c) = false →
      (calendarDay ++ char c).Misses (day * optional (lit d)) :=
    fun {c d} hne => misses_day_char (@outside_lit (· == c) d hne).avoids.optional
  have hseconds : (Pattern.clock ++ char '.').Misses LiteralForm.second.texts :=
    misses_clock_point (outside_lit rfl).avoids.optional
  have hpoint : calendarDay.Misses LiteralForm.number.texts :=
    (misses_number rfl (by decide)).seq _
  rcases hpairs with ⟨rfl, rfl⟩ | ⟨rfl, rfl⟩ | ⟨rfl, rfl⟩ | ⟨rfl, rfl⟩ | ⟨rfl, rfl⟩ | ⟨rfl, rfl⟩ |
    ⟨rfl, rfl⟩ | ⟨rfl, rfl⟩ | ⟨rfl, rfl⟩ | ⟨rfl, rfl⟩ | ⟨rfl, rfl⟩ | ⟨rfl, rfl⟩ | ⟨rfl, rfl⟩ |
    ⟨rfl, rfl⟩ | ⟨rfl, rfl⟩ | ⟨rfl, rfl⟩ | ⟨rfl, rfl⟩
  · -- a symbol and a file path
    have hcolon : (char '`' ++ notBefore (· == ':')).Misses LiteralForm.filePath.texts := by
      rw [texts, mul_assoc]
      exact (reads_char '`' _).misses (misses_notBefore (fun _ => id) _)
    exact hcolon.seq _
  · -- a timestamp and a datetime
    have hmark : (calendarDay ++ char 'D').Misses LiteralForm.datetime.texts := by
      simp only [texts, mul_assoc]
      exact misses_day_char ((outside_lit rfl).mul _).avoids
    exact ((hmark.seq _).seq _).seq _
  · -- a timestamp and a date
    exact (((hday rfl).seq _).seq _).seq _
  · -- a timestamp and a month
    exact (((misses_day_month.seq _).seq _).seq _).seq _
  · -- a timestamp and a number
    exact (((hpoint.seq _).seq _).seq _).seq _
  · -- a datetime and a date
    exact ((((hday rfl).seq _).seq _).seq _).seq _
  · -- a datetime and a month
    exact ((((misses_day_month.seq _).seq _).seq _).seq _).seq _
  · -- a datetime and a number
    exact ((((hpoint.seq _).seq _).seq _).seq _).seq _
  · -- a date and a month
    exact (misses_day_month.seq _).seq _
  · -- a date and a number
    exact (hpoint.seq _).seq _
  · -- a month and a number
    exact (misses_number rfl (by decide)).seq _
  · exact misses_milliTime_nanoTime
  · -- milliseconds and seconds
    exact (((hseconds.seq _).seq _).seq _).seq _
  · -- milliseconds and minutes
    exact ((((misses_clock_minute.seq _).seq _).seq _).seq _).seq _
  · -- nanoseconds and seconds
    have hdays : (oneOrMore Char.isDigit ++ char 'D').Misses LiteralForm.second.texts := by
      simp only [texts, Grammar.clock, mul_assoc]
      exact misses_days _
    exact (((hdays.seq _).alt (hseconds.seq _)).seq _).seq _
  · -- nanoseconds and minutes
    have hdays : (oneOrMore Char.isDigit ++ char 'D').Misses LiteralForm.minute.texts := by
      simp only [texts, mul_assoc]
      exact misses_days _
    exact (((hdays.seq _).alt ((misses_clock_minute.seq _).seq _)).seq _).seq _
  · -- seconds and minutes
    exact (misses_clock_minute.seq _).seq _

/-- **No form takes a text of a later form.** -/
theorem LiteralForm.misses_of_mem_earlier {other form : LiteralForm} (h : other ∈ form.earlier) :
    (other.pattern true).Misses form.texts := by
  have hnumber : other ≠ .number := by
    rintro rfl
    cases form <;> simp [earlier, all] at h
  by_cases hfamily : other.family = form.family
  · exact misses_of_family_eq h hfamily
  · exact misses_of_family_ne hnumber hfamily

end QSource
