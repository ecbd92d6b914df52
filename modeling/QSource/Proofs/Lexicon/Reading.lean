/-
**Every form of literals reads its own texts.**

A pattern never goes back on a choice, so it need not take the whole of a text that could be taken
part by part: a part that may be left out could take what a later part needs.  The rules below say
when this does not happen.  They follow the way in which patterns are put together and look at what
comes behind: a part that may be left out must not fit there, and a run must stop there.

Main definitions:

* `QSource.Grammar.Avoids`, `QSource.Grammar.Outside` — no text of a language opens with a character
  of a class;
* `QSource.Pattern.Reads` — a pattern takes exactly the texts of a language from what follows;
* `QSource.Pattern.Misses` — a pattern does not fit any text of a language.

Main results:

* `QSource.Pattern.Reads.seq`, `QSource.Pattern.Reads.opt`, `QSource.Pattern.Reads.alt` — **the rules
  of reading**;
* `QSource.LiteralForm.reads_pattern` — **the pattern of a form takes the whole of each of its
  texts**.
-/

import QSource.Lexicon.Literal
import QSource.Proofs.Lexicon.Grammar

set_option relaxedAutoImplicit false
set_option autoImplicit false

namespace QSource

open Text
open scoped Computability

/-! ### Opening characters -/

namespace Grammar

/-- No text of the language opens with a character of the class. -/
def Avoids (accepts : Char → Bool) (m : Language Char) : Prop :=
  ∀ y ∈ m, y.head?.any accepts = false

/-- Every text of the language opens with a character that is not of the class. -/
def Outside (accepts : Char → Bool) (m : Language Char) : Prop :=
  ∀ y ∈ m, ∃ c rest, y = c :: rest ∧ accepts c = false

variable {accepts : Char → Bool} {l m : Language Char}

theorem Outside.avoids (h : Outside accepts m) : Avoids accepts m := by
  intro y hy
  obtain ⟨c, rest, rfl, hc⟩ := h y hy
  exact hc

theorem Outside.mul (h : Outside accepts l) (m : Language Char) : Outside accepts (l * m) := by
  intro z hz
  obtain ⟨x, hx, y, -, rfl⟩ := Language.mem_mul.1 hz
  obtain ⟨c, rest, rfl, hc⟩ := h x hx
  exact ⟨c, rest ++ y, rfl, hc⟩

theorem Outside.add (hl : Outside accepts l) (hm : Outside accepts m) :
    Outside accepts (l + m) := by
  intro z hz
  rcases (Language.mem_add _ _ _).1 hz with hz | hz
  · exact hl z hz
  · exact hm z hz

theorem outside_ofClass {members : Char → Bool} (h : ∀ c, members c = true → accepts c = false) :
    Outside accepts (ofClass members) := by
  rintro y ⟨c, hc, rfl⟩
  exact ⟨c, [], rfl, h c hc⟩

theorem outside_lit {c : Char} (h : accepts c = false) : Outside accepts (lit c) :=
  outside_ofClass fun _ hd => beq_iff_eq.1 hd ▸ h

theorem outside_choice {choices : String}
    (h : choices.toList.all (fun c => !accepts c) = true) : Outside accepts (choice choices) := by
  refine outside_ofClass fun c hc => ?_
  simpa using List.all_eq_true.1 h c (List.contains_iff_mem.1 hc)

theorem beq_eq_false_of_class {members : Char → Bool} {c : Char} (h : members c = false) (d : Char)
    (hd : members d = true) : (d == c) = false := by
  rw [beq_eq_false_iff_ne]
  rintro rfl
  exact Bool.false_ne_true (h.symm.trans hd)

/-- A class without any of the choices. -/
theorem outside_contains {members : Char → Bool} {choices : String}
    (h : choices.toList.all (fun c => !members c) = true) :
    Outside choices.toList.contains (ofClass members) := by
  refine outside_ofClass fun c hc => ?_
  rw [Bool.eq_false_iff]
  intro hmem
  have hnot := List.all_eq_true.1 h c (List.contains_iff_mem.1 hmem)
  simp [hc] at hnot

theorem avoids_one : Avoids accepts 1 := by
  intro y hy
  rw [(Language.mem_one y).1 hy]
  rfl

theorem Avoids.mul (hl : Avoids accepts l) (hm : Avoids accepts m) : Avoids accepts (l * m) := by
  intro z hz
  obtain ⟨x, hx, y, hy, rfl⟩ := Language.mem_mul.1 hz
  cases x with
  | nil => exact hm y hy
  | cons c x => exact hl (c :: x) hx

theorem Avoids.optional (h : Avoids accepts l) : Avoids accepts (optional l) := by
  intro z hz
  rcases (Language.mem_add _ _ _).1 hz with hz | hz
  · exact avoids_one z hz
  · exact h z hz

/-- A smaller class is avoided too. -/
theorem Avoids.mono {others : Char → Bool} (h : Avoids accepts m)
    (hclass : ∀ c, others c = true → accepts c = true) : Avoids others m := by
  intro y hy
  have hhead := h y hy
  cases y with
  | nil => rfl
  | cons c y =>
      rw [List.head?_cons, Option.any_some, Bool.eq_false_iff] at hhead ⊢
      exact mt (hclass c) hhead

/-! ### Texts made of one class -/

theorem mem_ofClass_kstar {members : Char → Bool} {x : List Char} :
    x ∈ (ofClass members)∗ ↔ ∀ c ∈ x, members c = true := by
  constructor
  · intro h c hc
    obtain ⟨parts, rfl, hparts⟩ := Language.mem_kstar.1 h
    obtain ⟨part, hpart, hc⟩ := List.mem_flatten.1 hc
    obtain ⟨d, hd, rfl⟩ := hparts part hpart
    rwa [List.mem_singleton.1 hc]
  · intro h
    refine Language.mem_kstar.2 ⟨x.map ([·]), by simp [← List.flatMap_def], fun part hpart => ?_⟩
    obtain ⟨c, hc, rfl⟩ := List.mem_map.1 hpart
    exact ⟨c, h c hc, rfl⟩

theorem forall_mem_of_mem_plus {members : Char → Bool} {x : List Char}
    (h : x ∈ plus (ofClass members)) : ∀ c ∈ x, members c = true := by
  obtain ⟨_, ⟨c, hc, rfl⟩, rest, hrest, rfl⟩ := Language.mem_mul.1 h
  exact List.forall_mem_cons.2 ⟨hc, mem_ofClass_kstar.1 hrest⟩

theorem avoids_kstar {members : Char → Bool} (h : ∀ c, members c = true → accepts c = false) :
    Avoids accepts (ofClass members)∗ := by
  intro y hy
  cases y with
  | nil => rfl
  | cons c y => exact h c (mem_ofClass_kstar.1 hy c (List.mem_cons_self ..))

theorem mem_ofClass_pow {members : Char → Bool} {n : Nat} {x : List Char} :
    x ∈ ofClass members ^ n ↔ x.length = n ∧ ∀ c ∈ x, members c = true := by
  induction n generalizing x with
  | zero =>
      rw [pow_zero, Language.mem_one, List.length_eq_zero_iff]
      exact ⟨fun h => ⟨h, by simp [h]⟩, And.left⟩
  | succ n ih =>
      rw [pow_succ']
      constructor
      · intro h
        obtain ⟨_, ⟨c, hc, rfl⟩, rest, hrest, rfl⟩ := Language.mem_mul.1 h
        obtain ⟨hlength, hall⟩ := ih.1 hrest
        exact ⟨by simp [hlength], List.forall_mem_cons.2 ⟨hc, hall⟩⟩
      · rintro ⟨hlength, hall⟩
        obtain ⟨c, rest, rfl⟩ := List.exists_cons_of_length_eq_add_one hlength
        obtain ⟨hc, hrest⟩ := List.forall_mem_cons.1 hall
        have hfirst : [c] ∈ ofClass members := ⟨c, hc, rfl⟩
        exact Language.append_mem_mul hfirst (ih.2 ⟨Nat.succ.inj hlength, hrest⟩)

/-- A text of at most `n` characters of a class. -/
theorem mem_optional_pow {members : Char → Bool} {n : Nat} {x : List Char}
    (h : x ∈ optional (ofClass members) ^ n) : x.length ≤ n ∧ ∀ c ∈ x, members c = true := by
  induction n generalizing x with
  | zero => simp [(Language.mem_one x).1 h]
  | succ n ih =>
      rw [pow_succ'] at h
      obtain ⟨first, hfirst, rest, hrest, rfl⟩ := Language.mem_mul.1 h
      obtain ⟨hlength, hall⟩ := ih hrest
      rcases (Language.mem_add _ _ _).1 hfirst with hfirst | ⟨c, hc, rfl⟩
      · rw [(Language.mem_one first).1 hfirst]
        exact ⟨Nat.le_succ_of_le hlength, hall⟩
      · exact ⟨by simpa using hlength, List.forall_mem_cons.2 ⟨hc, hall⟩⟩

/-- A run of a class stops where the class is avoided. -/
theorem takeWhile_append_of_avoids {members : Char → Bool} (h : Avoids members m) {x y : List Char}
    (hx : ∀ c ∈ x, members c = true) (hy : y ∈ m) : (x ++ y).takeWhile members = x := by
  rw [List.takeWhile_append_of_pos hx]
  have hhead := h y hy
  cases y with
  | nil => simp
  | cons c y =>
      rw [List.takeWhile_cons_of_neg (by simpa using hhead), List.append_nil]

end Grammar

open Grammar

/-! ### The rules of reading -/

namespace Pattern

/-- The pattern takes exactly the texts of `l` when a text of `m` follows. -/
def Reads (p : Pattern) (l m : Language Char) : Prop :=
  ∀ x ∈ l, ∀ y ∈ m, p.length? (x ++ y) = some x.length

/-- The pattern fits no text of `m`. -/
def Misses (p : Pattern) (m : Language Char) : Prop := ∀ y ∈ m, p.length? y = none

variable {a b p : Pattern} {k l m : Language Char} {accepts : Char → Bool}

theorem Reads.seq (ha : a.Reads l (k * m)) (hb : b.Reads k m) : (a ++ b).Reads (l * k) m := by
  intro z hz y hy
  obtain ⟨x, hx, w, hw, rfl⟩ := Language.mem_mul.1 hz
  rw [List.append_assoc, length?_seq, ha x hx _ (Language.append_mem_mul hw hy), Option.bind_some,
    List.drop_left, hb w hw y hy, Option.map_some, List.length_append]

theorem reads_one (accepts : Char → Bool) (m : Language Char) :
    (one accepts).Reads (ofClass accepts) m := by
  rintro x ⟨c, hc, rfl⟩ y -
  simp [length?, hc]

theorem reads_char (c : Char) (m : Language Char) : (char c).Reads (lit c) m := reads_one _ m

theorem reads_oneOf (choices : String) (m : Language Char) :
    (oneOf choices).Reads (choice choices) m := reads_one _ m

theorem reads_exactly (count : Nat) (accepts : Char → Bool) (m : Language Char) :
    (exactly count accepts).Reads (ofClass accepts ^ count) m := by
  induction count with
  | zero =>
      intro x hx y _
      rw [(Language.mem_one x).1 hx]
      rfl
  | succ count ih =>
      rw [pow_succ']
      exact (reads_one accepts _).seq ih

theorem reads_run (h : Avoids accepts m) : (run accepts).Reads (ofClass accepts)∗ m := by
  intro x hx y hy
  rw [length?, takeWhile_append_of_avoids h (mem_ofClass_kstar.1 hx) hy]

theorem reads_oneOrMore (h : Avoids accepts m) :
    (oneOrMore accepts).Reads (plus (ofClass accepts)) m :=
  (reads_one accepts _).seq (reads_run h)

/-- A fixed number of characters may be read as a run. -/
theorem reads_oneOrMore_pow (count : Nat) (h : Avoids accepts m) :
    (oneOrMore accepts).Reads (ofClass accepts ^ (count + 1)) m := by
  intro x hx y hy
  refine reads_oneOrMore h x ?_ y hy
  rw [pow_succ'] at hx
  obtain ⟨first, hfirst, rest, hrest, rfl⟩ := Language.mem_mul.1 hx
  refine Language.append_mem_mul hfirst ?_
  rw [Language.kstar_eq_iSup_pow]
  exact Language.mem_iSup.2 ⟨count, hrest⟩

theorem reads_atMost (count : Nat) (h : Avoids accepts m) :
    (atMost count accepts).Reads (optional (ofClass accepts) ^ count) m := by
  intro x hx y hy
  obtain ⟨hlength, hall⟩ := mem_optional_pow hx
  rw [length?, List.take_append, List.take_of_length_le hlength,
    List.takeWhile_append_of_pos hall]
  have hhead := h y hy
  cases y with
  | nil => simp
  | cons c y =>
      cases count - x.length with
      | zero => simp
      | succ n =>
          rw [List.take_succ_cons, List.takeWhile_cons_of_neg (by simpa using hhead),
            List.append_nil]

/-- What a class of characters must not follow may stand where the class is avoided. -/
theorem Reads.notBefore (hp : p.Reads l m) (h : Avoids accepts m) :
    (p ++ notBefore accepts).Reads l m := by
  intro x hx y hy
  rw [length?_seq, hp x hx y hy, Option.bind_some, List.drop_left, length?, h y hy]
  rfl

/-- A part that may be left out must not fit what follows. -/
theorem Reads.opt (hp : p.Reads l m) (h : p.Misses m) : p.opt.Reads (optional l) m := by
  intro x hx y hy
  rcases (Language.mem_add _ _ _).1 hx with hx | hx
  · rw [(Language.mem_one x).1 hx, List.nil_append, length?, h y hy]
    rfl
  · rw [length?, hp x hx y hy]
    rfl

/-- The first of two patterns must not fit the texts of the second. -/
theorem Reads.alt (ha : a.Reads l m) (hb : b.Reads k m) (h : a.Misses (k * m)) :
    (a ||| b).Reads (l + k) m := by
  have hlength : ∀ s, (a ||| b).length? s = (a.length? s).or (b.length? s) := fun _ => rfl
  intro x hx y hy
  rcases (Language.mem_add _ _ _).1 hx with hx | hx
  · rw [hlength, ha x hx y hy]
    rfl
  · rw [hlength, h _ (Language.append_mem_mul hx hy), hb x hx y hy]
    rfl

/-! ### The rules of missing -/

theorem length?_seq_of_none {s : List Char} (h : a.length? s = none) (b : Pattern) :
    (a ++ b).length? s = none := by
  rw [length?_seq, h]
  rfl

theorem length?_alt_of_none {s : List Char} (ha : a.length? s = none) (hb : b.length? s = none) :
    (a ||| b).length? s = none := by
  have hor : (a ||| b).length? s = (a.length? s).or (b.length? s) := rfl
  rw [hor, ha, hb]
  rfl

theorem Misses.seq (h : a.Misses m) (b : Pattern) : (a ++ b).Misses m :=
  fun y hy => length?_seq_of_none (h y hy) b

theorem Misses.alt (ha : a.Misses m) (hb : b.Misses m) : (a ||| b).Misses m :=
  fun y hy => length?_alt_of_none (ha y hy) (hb y hy)

/-- A pattern whose first part reads the start of a text misses it if the second part misses what
follows. -/
theorem Reads.misses (ha : a.Reads l m) (hb : b.Misses m) : (a ++ b).Misses (l * m) := by
  intro z hz
  obtain ⟨x, hx, y, hy, rfl⟩ := Language.mem_mul.1 hz
  rw [length?_seq, ha x hx y hy, Option.bind_some, List.drop_left, hb y hy]
  rfl

theorem misses_one (h : Avoids accepts m) : (one accepts).Misses m := by
  intro y hy
  simp [length?, h y hy]

theorem misses_notBefore {members : Char → Bool} (h : ∀ c, members c = true → accepts c = true)
    (k : Language Char) : (notBefore accepts).Misses (ofClass members * k) := by
  intro y hy
  obtain ⟨_, ⟨c, hc, rfl⟩, rest, -, rfl⟩ := Language.mem_mul.1 hy
  simp [length?, h c hc]

theorem misses_char {c : Char} (h : Avoids (· == c) m) : (char c).Misses m := misses_one h

end Pattern

open Pattern

/-! ### Parts of literals -/

section

variable {m : Language Char}

theorem reads_calendarDay (m : Language Char) : calendarDay.Reads day m :=
  ((((reads_exactly 4 _ _).seq (reads_char '.' _)).seq (reads_exactly 2 _ _)).seq
    (reads_char '.' _)).seq (reads_exactly 2 _ _)

theorem reads_clock (m : Language Char) : Pattern.clock.Reads Grammar.clock m :=
  ((((reads_exactly 2 _ _).seq (reads_char ':' _)).seq (reads_exactly 2 _ _)).seq
    (reads_char ':' _)).seq (reads_exactly 2 _ _)

/-- The characters with which a time of day may go on. -/
def isTimeChar (c : Char) : Bool := c.isDigit || c == ':' || c == '.'

theorem Grammar.Avoids.digit (h : Avoids isTimeChar m) : Avoids Char.isDigit m :=
  h.mono fun c hc => by simp [isTimeChar, hc]

theorem Grammar.Avoids.colon (h : Avoids isTimeChar m) : Avoids (· == ':') m :=
  h.mono fun c hc => by simp [isTimeChar, beq_iff_eq.1 hc]

theorem Grammar.Avoids.point (h : Avoids isTimeChar m) : Avoids (· == '.') m :=
  h.mono fun c hc => by simp [isTimeChar, beq_iff_eq.1 hc]

theorem reads_fraction (places : Nat) (h : Avoids Char.isDigit m) :
    (Pattern.fraction places).Reads (Grammar.fraction places) m :=
  ((reads_char '.' _).seq (reads_atMost places h)).notBefore h

theorem reads_minutesOnward (places : Nat) (h : Avoids isTimeChar m) :
    (Pattern.minutesOnward places).Reads (Grammar.minutesOnward places) m := by
  have hfraction : (Pattern.fraction places).opt.Reads (optional (Grammar.fraction places)) m :=
    (reads_fraction places h.digit).opt (((misses_char h.point).seq _).seq _)
  have hseconds := ((reads_char ':' _).seq (reads_exactly 2 Char.isDigit _)).seq hfraction
  refine ((reads_char ':' _).seq (reads_exactly 2 _ _)).seq (hseconds.opt ?_)
  exact ((misses_char h.colon).seq _).seq _

theorem reads_nanosecondsOfDay (h : Avoids isTimeChar m) :
    Pattern.nanosecondsOfDay.Reads Grammar.nanosecondsOfDay m := by
  have hminutes : (Pattern.minutesOnward 9).opt.Reads (optional (Grammar.minutesOnward 9)) m :=
    (reads_minutesOnward 9 h).opt (((misses_char h.colon).seq _).seq _)
  refine ((reads_exactly 2 Char.isDigit _).seq hminutes).opt ?_
  exact ((misses_one h.digit).seq _).seq _

theorem reads_optional_char {c : Char} (h : Avoids (· == c) m) :
    (char c).opt.Reads (optional (lit c)) m :=
  (reads_char c m).opt (misses_char h)

theorem reads_optional_oneOf {choices : String} (h : Avoids choices.toList.contains m) :
    (oneOf choices).opt.Reads (optional (choice choices)) m :=
  (reads_oneOf choices m).opt (misses_one h)

end

/-! ### The forms -/

/-- A letter that may be left out at the end of a text does not open what a part before takes. -/
theorem avoids_optional_lit {accepts : Char → Bool} {c : Char} (h : accepts c = false) :
    Avoids accepts (optional (lit c) * 1) :=
  (outside_lit h).avoids.optional.mul avoids_one

theorem avoids_optional_choice {accepts : Char → Bool} {choices : String}
    (h : choices.toList.all (fun c => !accepts c) = true) :
    Avoids accepts (optional (choice choices) * 1) :=
  (outside_choice h).avoids.optional.mul avoids_one

theorem reads_sign {m : Language Char} (h : Avoids (· == '-') m) :
    (sign true).Reads (optional (lit '-')) m :=
  reads_optional_char h

/-- A power of ten does not fit the letter of a type, which may be the same one. -/
theorem misses_exponent : Pattern.exponent.Misses (optional (choice "hijef") * 1) := by
  intro y hy
  rw [mul_one] at hy
  rcases (Language.mem_add _ _ _).1 hy with hy | ⟨c, -, rfl⟩
  · rw [(Language.mem_one y).1 hy]
    rfl
  · by_cases hc : c = 'e'
    · -- no digits follow
      subst hc
      rfl
    · simp [Pattern.exponent, char, length?_seq, Pattern.length?, hc]

theorem reads_exponent {m : Language Char} (h : Avoids Char.isDigit m) :
    Pattern.exponent.Reads Grammar.exponent m := by
  have hsign : (oneOf "+-").opt.Reads (optional (choice "+-")) (plus digit * m) := by
    exact reads_optional_oneOf (((outside_contains (by decide)).mul _).mul _).avoids
  exact ((reads_char 'e' _).seq hsign).seq (reads_oneOrMore h)

theorem reads_decimal {m : Language Char} (hdigit : Avoids Char.isDigit m)
    (hpoint : Avoids (· == '.') m) : Pattern.decimal.Reads Grammar.decimal m := by
  have hplaces : (char '.' ++ run Char.isDigit).opt.Reads (optional (lit '.' * digit∗)) m :=
    ((reads_char '.' _).seq (reads_run hdigit)).opt ((misses_char hpoint).seq _)
  have hwhole : Avoids Char.isDigit (optional (lit '.' * digit∗) * m) :=
    (((outside_lit rfl).mul _).avoids.optional).mul hdigit
  refine ((reads_oneOrMore hwhole).seq hplaces).alt
    ((reads_char '.' _).seq (reads_oneOrMore hdigit)) ?_
  exact ((misses_one (((outside_lit rfl).mul _).mul _).avoids).seq _).seq _

/-- What may follow the digits and the point of a number opens with a letter, if with anything. -/
theorem avoids_numberRest {accepts : Char → Bool}
    (h : "hijef".toList.all (fun c => !accepts c) = true) :
    Avoids accepts (optional Grammar.exponent * optional (choice "hijef")) := by
  have he : accepts 'e' = false := by simpa using List.all_eq_true.1 h 'e' (by decide)
  refine Avoids.mul (Avoids.optional ?_) (outside_choice h).avoids.optional
  exact (((outside_lit he).mul _).mul _).avoids

/-- A number of days does not fit the minutes of a day. -/
theorem misses_days (l : Language Char) :
    (oneOrMore Char.isDigit ++ char 'D').Misses (digit ^ 2 * (lit ':' * l)) := by
  have hcolon : ∀ k : Language Char, Outside Char.isDigit (lit ':' * k) ∧
      Outside (· == 'D') (lit ':' * k) := fun k => ⟨(outside_lit rfl).mul k, (outside_lit rfl).mul k⟩
  exact (reads_oneOrMore_pow 1 (hcolon _).1.avoids).misses (misses_char (hcolon _).2.avoids)

/-- **The pattern of a form takes the whole of each of its texts.** -/
theorem LiteralForm.reads_pattern (form : LiteralForm) :
    (form.pattern true).Reads form.texts 1 := by
  cases form with
  | symbol =>
      have hcolon : Avoids (· == ':') ((ofClass fun c => isWordChar c || c == '.')∗ * 1) := by
        rw [mul_one]
        exact avoids_kstar (beq_eq_false_of_class rfl)
      exact ((reads_char '`' _).notBefore hcolon).seq (reads_run avoids_one)
  | filePath => exact ((reads_char '`' _).seq (reads_char ':' _)).seq (reads_run avoids_one)
  | infinity =>
      have hzero : Avoids (· == '-') (lit '0' * (choice "wWnN" *
          (optional (choice "hijefcpmdznuvtg") * 1))) := ((outside_lit rfl).mul _).avoids
      exact ((((reads_sign hzero).seq (reads_char '0' _)).seq (reads_oneOf "wWnN" _)).seq
        (reads_optional_oneOf avoids_one)).notBefore avoids_one
  | timestamp =>
      have htime := reads_nanosecondsOfDay (avoids_optional_lit (c := 'p') rfl)
      exact ((((reads_calendarDay _).seq (reads_char 'D' _)).seq htime).seq
        (reads_optional_char avoids_one)).notBefore avoids_one
  | datetime =>
      have htime := reads_minutesOnward 3 (avoids_optional_lit (c := 'z') rfl)
      exact (((((reads_calendarDay _).seq (reads_char 'T' _)).seq (reads_exactly 2 _ _)).seq
        htime).seq (reads_optional_char avoids_one)).notBefore avoids_one
  | milliTime =>
      have hdigits := ((reads_clock _).seq (reads_char '.' _)).seq
        (reads_exactly 3 Char.isDigit (optional (lit 't') * 1))
      exact ((hdigits.notBefore (avoids_optional_lit rfl)).seq
        (reads_optional_char avoids_one)).notBefore avoids_one
  | nanoTime =>
      have htime := reads_nanosecondsOfDay (avoids_optional_lit (c := 'n') rfl)
      have hdays : Avoids Char.isDigit (lit 'D' * (Grammar.nanosecondsOfDay *
          (optional (lit 'n') * 1))) := ((outside_lit rfl).mul _).avoids
      have hclock := ((reads_clock _).seq (reads_char '.' _)).seq
        (reads_exactly 9 Char.isDigit (optional (lit 'n') * 1))
      refine (((((reads_oneOrMore hdays).seq (reads_char 'D' _)).seq htime).alt hclock ?_).seq
        (reads_optional_char avoids_one)).notBefore avoids_one
      simp only [Grammar.clock, mul_assoc]
      exact (misses_days _).seq _
  | date =>
      exact ((reads_calendarDay _).seq (reads_optional_char avoids_one)).notBefore avoids_one
  | month =>
      exact ((((reads_exactly 4 _ _).seq (reads_char '.' _)).seq (reads_exactly 2 _ _)).seq
        (reads_char 'm' _)).notBefore avoids_one
  | second =>
      exact ((reads_clock _).seq (reads_optional_char avoids_one)).notBefore avoids_one
  | minute =>
      have hdigits := ((reads_exactly 2 Char.isDigit _).seq (reads_char ':' _)).seq
        (reads_exactly 2 Char.isDigit (optional (lit 'u') * 1))
      exact ((hdigits.notBefore (avoids_optional_lit rfl)).seq
        (reads_optional_char avoids_one)).notBefore avoids_one
  | bits =>
      have hmark : Avoids (fun c => c == '0' || c == '1') (lit 'b' * 1) :=
        ((outside_lit rfl).mul _).avoids
      exact ((reads_oneOrMore hmark).seq (reads_char 'b' _)).notBefore avoids_one
  | bytes =>
      exact (((reads_char '0' _).seq (reads_char 'x' _)).seq (reads_run avoids_one)).notBefore
        avoids_one
  | number =>
      -- the letter `e` of a type stands where a power of ten is tried first
      have hexponent : Pattern.exponent.opt.Reads (optional Grammar.exponent)
          (optional (choice "hijef") * 1) :=
        (reads_exponent (avoids_optional_choice (by decide))).opt misses_exponent
      have hopen : ∀ accepts : Char → Bool, "hijef".toList.all (fun c => !accepts c) = true →
          Avoids accepts (optional Grammar.exponent * (optional (choice "hijef") * 1)) := by
        intro accepts hrest
        rw [mul_one]
        exact avoids_numberRest hrest
      have hdecimal := reads_decimal (hopen _ (by decide)) (hopen _ (by decide))
      have hminus : Avoids (· == '-') (Grammar.decimal * (optional Grammar.exponent *
          (optional (choice "hijef") * 1))) := by
        refine (Outside.mul (Outside.add ?_ ((outside_lit rfl).mul _)) _).avoids
        exact ((outside_ofClass (@beq_eq_false_of_class Char.isDigit '-' rfl)).mul _).mul _
      exact (((reads_sign hminus).seq hdecimal).seq hexponent).seq (reads_optional_oneOf avoids_one)

theorem LiteralForm.length?_of_mem_texts {form : LiteralForm} {x : List Char} (h : x ∈ form.texts) :
    (form.pattern true).length? x = some x.length := by
  have hread := form.reads_pattern x h [] Language.nil_mem_one
  rwa [List.append_nil] at hread

end QSource
