/-
**Every number literal has a value**, so a fixed seed is never overlooked.

The scan of a number and the reader of decimal numbers are made after different grammars.  The letters
that name a type are cut off before a literal is read, as many as there are, and `e` is one of them.
Still nothing but the suffix is lost, since what stands before it ends with a digit or a point, and what
is left is a number of the reader's grammar.  Its value is below zero only if it opens with a minus sign.

Main definitions:

* `QSource.Pattern.Takes` — whatever a pattern takes is a text of a language;
* `QSource.Grammar.float` — **the grammar of the reader**: a sign, digits with a point, an exponent.

Main results:

* `QSource.withoutTypeSuffix_number` — what the scan of a number takes, without its suffix, is a text of
  that grammar;
* `QSource.Numeral.read?_of_mem_float` — such a text has a value;
* `QSource.number_has_value` — **every number literal has a value, and an infinity that is drawn from with
  an unsigned number is flagged**.
-/

import QSource.Proofs.Check
import QSource.Proofs.Lexicon.Pattern
import QSource.Proofs.Lexicon.Reading
import QSource.Proofs.Lint.Flagged
import QSource.Proofs.Scope.Outline
import QSource.Proofs.Token.Quotes

set_option relaxedAutoImplicit false
set_option autoImplicit false

namespace QSource

open Text Grammar Pattern
open scoped Computability

/-! ### What a pattern takes -/

namespace Pattern

/-- Whatever the pattern takes is a text of the language. -/
def Takes (p : Pattern) (l : Language Char) : Prop :=
  ∀ (s : List Char) (n : Nat), p.length? s = some n → s.take n ∈ l

variable {p q : Pattern} {accepts : Char → Bool} {l m : Language Char}

theorem takes_empty : empty.Takes (optional l) := by
  rintro s n ⟨rfl⟩
  exact (Language.mem_add _ _ _).2 (Or.inl Language.nil_mem_one)

theorem takes_one (h : ∀ c, accepts c = true → [c] ∈ l) : (one accepts).Takes l := by
  intro s n hn
  cases s with
  | nil => simp [length?] at hn
  | cons c s =>
      by_cases hc : accepts c = true
      · obtain rfl : 1 = n := by simpa [length?, hc] using hn
        exact h c hc
      · simp [length?, hc] at hn

theorem takes_run : (run accepts).Takes (ofClass accepts)∗ := by
  rintro s n ⟨rfl⟩
  rw [← List.prefix_iff_eq_take.1 (List.takeWhile_prefix accepts)]
  exact mem_ofClass_kstar.2 fun c hc => List.all_eq_true.1 List.all_takeWhile c hc

theorem Takes.seq (hp : p.Takes l) (hq : q.Takes m) : (p ++ q).Takes (l * m) := by
  intro s n hn
  obtain ⟨k, hk, hrest⟩ := Option.bind_eq_some_iff.1 (length?_seq p q s ▸ hn)
  obtain ⟨i, hi, rfl⟩ := Option.map_eq_some_iff.1 hrest
  rw [List.take_add]
  exact Language.append_mem_mul (hp _ _ hk) (hq _ _ hi)

theorem Takes.alt (hp : p.Takes l) (hq : q.Takes m) : (p ||| q).Takes (l + m) := by
  intro s n hn
  rcases Option.or_eq_some_iff.1 hn with hn | ⟨-, hn⟩
  · exact (Language.mem_add _ _ _).2 (Or.inl (hp _ _ hn))
  · exact (Language.mem_add _ _ _).2 (Or.inr (hq _ _ hn))

theorem Takes.opt (hp : p.Takes l) : p.opt.Takes (optional l) := by
  intro s n hn
  rcases Option.or_eq_some_iff.1 hn with hn | ⟨-, hn⟩
  · exact (Language.mem_add _ _ _).2 (Or.inr (hp _ _ hn))
  · exact takes_empty _ _ hn

theorem takes_oneOrMore : (oneOrMore accepts).Takes (plus (ofClass accepts)) :=
  (takes_one (l := ofClass accepts) fun c hc => ⟨c, hc, rfl⟩).seq takes_run

end Pattern

/-- A run of a class, and what stands behind it. -/
theorem span_append {accepts : Char → Bool} {x y : List Char} (hx : ∀ c ∈ x, accepts c = true)
    (hy : y.head?.any accepts = false) :
    (x ++ y).takeWhile accepts = x ∧ (x ++ y).dropWhile accepts = y := by
  rw [List.takeWhile_append_of_pos hx, List.dropWhile_append_of_pos hx]
  cases y with
  | nil => simp
  | cons c y =>
      have hc : ¬ accepts c = true := by simpa using hy
      rw [List.takeWhile_cons_of_neg hc, List.dropWhile_cons_of_neg hc, List.append_nil]
      exact ⟨rfl, rfl⟩

namespace Grammar

/-- A power of ten, with either letter: `e[+ or -]d+`. -/
def powerOfTen : Language Char := choice "eE" * (optional (choice "+-") * plus digit)

/-- **A decimal number**: an optional sign, digits with an optional point, at least one of them being
written, and an optional power of ten. -/
def float : Language Char := optional (choice "+-") * (decimal * optional powerOfTen)

end Grammar

/-- A number literal without its suffix is taken from the texts of decimal numbers. -/
theorem takes_float (signed : Bool) :
    (Pattern.sign signed ++ Pattern.decimal ++ .opt Pattern.exponent).Takes float := by
  have hpoint : (char '.').Takes (lit '.') := takes_one fun c hc => ⟨c, hc, rfl⟩
  have hchoice : ∀ {c : Char} {choices : String}, c ∈ choices.toList →
      (char c).Takes (choice choices) := by
    intro c choices hc
    refine takes_one fun d hd => ⟨d, ?_, rfl⟩
    rw [beq_iff_eq.1 hd]
    exact List.contains_iff_mem.2 hc
  have hdecimal : Pattern.decimal.Takes Grammar.decimal :=
    (takes_oneOrMore.seq (hpoint.seq takes_run).opt).alt (hpoint.seq takes_oneOrMore)
  have hsign : (Pattern.sign signed).Takes (optional (choice "+-")) := by
    cases signed with
    | true => exact (hchoice (by decide)).opt
    | false => exact takes_empty
  have hsigns : (oneOf "+-").Takes (choice "+-") := takes_one fun c hc => ⟨c, hc, rfl⟩
  have hexponent : Pattern.exponent.Takes powerOfTen := by
    have hletter : (char 'e').Takes (choice "eE") := hchoice (by decide)
    have hdigits : (oneOrMore Char.isDigit).Takes (plus digit) := takes_oneOrMore
    have hparts := (hletter.seq hsigns.opt).seq hdigits
    rwa [mul_assoc] at hparts
  have hall := (hsign.seq hdecimal).seq hexponent.opt
  rwa [mul_assoc] at hall

/-! ### The suffix -/

/-- The letters of types are cut off down to the last other character. -/
theorem withoutTypeSuffix_append {x suffix : List Char}
    (hx : ∀ c ∈ x.getLast?, c ∉ "hijef".toList) (hsuffix : ∀ c ∈ suffix, c ∈ "hijef".toList) :
    withoutTypeSuffix (x ++ suffix) = x := by
  have hall : ∀ c ∈ suffix.reverse, "hijef".toList.contains c = true := fun c hc =>
    List.contains_iff_mem.2 (hsuffix c (List.mem_reverse.1 hc))
  have hkeep : x.reverse.dropWhile "hijef".toList.contains = x.reverse := by
    cases hreverse : x.reverse with
    | nil => rfl
    | cons c rest =>
        have hlast : c ∈ x.getLast? := by
          rw [List.getLast?_eq_head?_reverse, hreverse]
          rfl
        exact List.dropWhile_cons_of_neg fun hc => hx c hlast (List.contains_iff_mem.1 hc)
  rw [withoutTypeSuffix, List.reverse_append, List.dropWhile_append_of_pos hall, hkeep,
    List.reverse_reverse]

/-- A decimal number opens with a digit or a point, behind its sign. -/
theorem outside_unsigned : Outside (fun c => !(c.isDigit || c == '.'))
    (Grammar.decimal * optional powerOfTen) := by
  have hdigits : Outside (fun c => !(c.isDigit || c == '.')) (plus digit) :=
    (outside_ofClass fun c hc => by simp [hc]).mul _
  exact ((hdigits.mul _).add ((outside_lit (by decide)).mul _)).mul _

theorem ne_nil_of_mem_float {x : List Char} (h : x ∈ float) : x ≠ [] := by
  obtain ⟨sign, -, rest, hrest, rfl⟩ := Language.mem_mul.1 h
  obtain ⟨c, tail, rfl, -⟩ := outside_unsigned rest hrest
  simp

/-- **What the scan of a number takes, without its suffix**, is a decimal number, and it opens with the
same character. -/
theorem withoutTypeSuffix_number {signed : Bool} {s : List Char} {n : Nat}
    (h : (LiteralForm.number.pattern signed).length? s = some n) :
    withoutTypeSuffix (s.take n) ∈ float ∧
      (withoutTypeSuffix (s.take n)).head? = (s.take n).head? := by
  obtain ⟨k, hk, hrest⟩ := Option.bind_eq_some_iff.1 h
  obtain ⟨m, hm, rfl⟩ := Option.map_eq_some_iff.1 hrest
  have hdigit : ∀ c : Char, c.isDigit = true → c ∉ "hijef".toList := by
    intro c hc hmem
    have hnone : "hijef".toList.all (fun c => !c.isDigit) = true := by decide
    simpa [hc] using List.all_eq_true.1 hnone c hmem
  have hends : (Pattern.sign signed ++ Pattern.decimal ++ .opt Pattern.exponent).EndsIn
      (· ∉ "hijef".toList) := by
    have hdigits : (oneOrMore Char.isDigit).EndsIn (· ∉ "hijef".toList) :=
      (within_oneOrMore.2 hdigit).endsIn
    have hpoint : (char '.').EndsIn (· ∉ "hijef".toList) := endsIn_char.2 (by decide)
    have hplaces : (char '.' ++ run Char.isDigit).EndsIn (· ∉ "hijef".toList) :=
      ⟨hdigit, .inr hpoint⟩
    have hdecimal : Pattern.decimal.EndsIn (· ∉ "hijef".toList) :=
      ⟨⟨hplaces, .inr hdigits⟩, hdigits, .inl rfl⟩
    exact ⟨⟨hdigits, .inl rfl⟩, .inr ⟨hdecimal, .inl rfl⟩⟩
  have hsuffix : (Pattern.opt (oneOf "hijef")).Within (· ∈ "hijef".toList) :=
    within_oneOf.2 fun c hc => hc
  have hfloat := takes_float signed _ _ hk
  rw [List.take_add, withoutTypeSuffix_append (getLast?_take hends hk) (forall_mem_take hsuffix hm)]
  exact ⟨hfloat, (List.head?_append_of_ne_nil _ (ne_nil_of_mem_float hfloat)).symm⟩

/-! ### The reader -/

namespace Numeral

/-- A sign is split off from what does not open with one. -/
theorem splitSign_append {sign rest : List Char} (hsign : sign ∈ optional (choice "+-"))
    (hrest : rest.head?.any "+-".toList.contains = false) :
    splitSign (sign ++ rest) = ((sign ++ rest).head? == some '-', rest) := by
  rcases (Language.mem_add _ _ _).1 hsign with hnil | ⟨c, hc, rfl⟩
  · rw [(Language.mem_one sign).1 hnil, List.nil_append]
    cases rest with
    | nil => rfl
    | cons c rest =>
        have hminus : c ≠ '-' := by
          rintro rfl
          simp at hrest
        have hplus : c ≠ '+' := by
          rintro rfl
          simp at hrest
        simp [splitSign, hminus, hplus]
  · have hcases : c = '+' ∨ c = '-' := by simpa using hc
    rcases hcases with rfl | rfl <;> rfl

/-- The digits of a power of ten are read. -/
theorem isSome_readExponent? {s : List Char} (h : s ∈ optional (choice "+-") * plus digit) :
    (readExponent? s).isSome := by
  obtain ⟨sign, hsign, digits, hdigits, rfl⟩ := Language.mem_mul.1 h
  have hall := forall_mem_of_mem_plus hdigits
  have houtside : Outside "+-".toList.contains (plus digit) :=
    (outside_contains (by decide)).mul _
  obtain ⟨c, rest, rfl, -⟩ := houtside digits hdigits
  have hallDigits : (c :: rest).all Char.isDigit = true := List.all_eq_true.2 hall
  rw [readExponent?, splitSign_append hsign (houtside.avoids _ hdigits)]
  simp only [List.isEmpty_cons, hallDigits, Bool.not_true, Bool.or_self, Bool.false_eq_true, if_false]
  split <;> rfl

/-- The digits of a decimal number before and behind its point. -/
theorem exists_of_mem_decimal {s : List Char} (h : s ∈ Grammar.decimal) :
    ∃ whole places, (∀ c ∈ whole, c.isDigit = true) ∧ (∀ c ∈ places, c.isDigit = true) ∧
      (whole ≠ [] ∨ places ≠ []) ∧ (s = whole ++ '.' :: places ∨ s = whole ∧ places = []) := by
  have hne : ∀ {x : List Char}, x ∈ plus digit → x ≠ [] := by
    rintro _ ⟨_, ⟨c, -, rfl⟩, rest, -, rfl⟩
    exact List.cons_ne_nil c rest
  rcases (Language.mem_add _ _ _).1 h with h | h
  · obtain ⟨whole, hwhole, point, hpoint, rfl⟩ := Language.mem_mul.1 h
    have hdigits := forall_mem_of_mem_plus hwhole
    rcases (Language.mem_add _ _ _).1 hpoint with hnil | hpoint
    · rw [(Language.mem_one point).1 hnil, List.append_nil]
      exact ⟨whole, [], hdigits, by simp, .inl (hne hwhole), .inr ⟨rfl, rfl⟩⟩
    · obtain ⟨_, ⟨c, hc, rfl⟩, places, hplaces, rfl⟩ := Language.mem_mul.1 hpoint
      rw [beq_iff_eq.1 hc]
      exact ⟨whole, places, hdigits, mem_ofClass_kstar.1 hplaces, .inl (hne hwhole), .inl rfl⟩
  · obtain ⟨_, ⟨c, hc, rfl⟩, places, hplaces, rfl⟩ := Language.mem_mul.1 h
    rw [beq_iff_eq.1 hc]
    exact ⟨[], places, by simp, forall_mem_of_mem_plus hplaces, .inr (hne hplaces), .inl rfl⟩

/-- A power of ten is left out, or it is a letter with an exponent that is read. -/
theorem power_cases {s : List Char} (h : s ∈ optional powerOfTen) :
    s = [] ∨ ∃ c rest e, s = c :: rest ∧ (c == 'e' || c == 'E') = true ∧
      readExponent? rest = some e := by
  rcases (Language.mem_add _ _ _).1 h with hnil | h
  · exact .inl ((Language.mem_one s).1 hnil)
  · obtain ⟨_, ⟨c, hc, rfl⟩, rest, hrest, rfl⟩ := Language.mem_mul.1 h
    obtain ⟨e, he⟩ := Option.isSome_iff_exists.1 (isSome_readExponent? hrest)
    exact .inr ⟨c, rest, e, rfl, by simpa using hc, he⟩

/-- **A decimal number without its sign is read**, and it keeps the sign that is put to it. -/
theorem readDecimal?_of_mem (negative : Bool) {s : List Char}
    (h : s ∈ Grammar.decimal * optional powerOfTen) :
    ∃ digits e, readDecimal? negative s = some (.finite negative digits e) := by
  obtain ⟨number, hnumber, power, hpower, rfl⟩ := Language.mem_mul.1 h
  obtain ⟨whole, places, hwhole, hplaces, hsome, hcases⟩ := exists_of_mem_decimal hnumber
  have hdigits : Avoids Char.isDigit (optional powerOfTen) :=
    ((outside_choice (by decide)).mul _).avoids.optional
  have hpoint : Avoids (· == '.') (optional powerOfTen) :=
    ((outside_choice (by decide)).mul _).avoids.optional
  have hfound : (whole.isEmpty && places.isEmpty) = false := by
    rw [Bool.and_eq_false_iff]
    exact hsome.imp List.isEmpty_eq_false_iff.2 List.isEmpty_eq_false_iff.2
  rcases hcases with hsplit | ⟨rfl, rfl⟩
  · obtain ⟨hwholeTaken, hwholeLeft⟩ := span_append hwhole
      (show ('.' :: (places ++ power)).head?.any Char.isDigit = false from rfl)
    obtain ⟨hplacesTaken, hplacesLeft⟩ := span_append hplaces (hdigits power hpower)
    rw [hsplit, readDecimal?, List.append_assoc, List.cons_append]
    simp only [hwholeTaken, hwholeLeft, hplacesTaken, hplacesLeft, hfound, Bool.false_eq_true, if_false]
    rcases power_cases hpower with rfl | ⟨c, rest, e, rfl, hletter, he⟩
    · exact ⟨_, _, rfl⟩
    · simp only [hletter, if_true, he]
      exact ⟨_, _, rfl⟩
  · obtain ⟨hwholeTaken, hwholeLeft⟩ := span_append hwhole (hdigits power hpower)
    rw [readDecimal?]
    simp only [hwholeTaken, hwholeLeft]
    split
    · exact absurd (hpoint _ hpower) (by simp)
    · simp only [hfound, Bool.false_eq_true, if_false]
      rcases power_cases hpower with rfl | ⟨c, rest, e, rfl, hletter, he⟩
      · exact ⟨_, _, rfl⟩
      · simp only [hletter, if_true, he]
        exact ⟨_, _, rfl⟩

/-- What a decimal number opens with opens no word, and is no sign. -/
theorem of_opens {c : Char} (h : (c.isDigit || c == '.') = true) :
    c.toLower ≠ 'i' ∧ c.toLower ≠ 'n' ∧ "+-".toList.contains c = false := by
  have hc : c.toNat < 128 := by
    rcases (Bool.or_eq_true _ _).mp h with h | h
    · exact toNat_lt_of_isDigit h
    · rw [beq_iff_eq.1 h]
      decide
  exact forall_ascii (P := fun c => (c.isDigit || c == '.') = true →
    c.toLower ≠ 'i' ∧ c.toLower ≠ 'n' ∧ "+-".toList.contains c = false) (by decide +kernel) hc h

/-- **A decimal number has a value**, and it is below zero only if the number opens with a minus
sign. -/
theorem read?_of_mem_float {s : List Char} (h : s ∈ float) :
    ∃ digits e, read? s = some (.finite (s.head? == some '-') digits e) := by
  obtain ⟨sign, hsign, rest, hrest, rfl⟩ := Language.mem_mul.1 h
  obtain ⟨digits, e, hread⟩ := readDecimal?_of_mem ((sign ++ rest).head? == some '-') hrest
  obtain ⟨c, tail, rfl, hopens⟩ := outside_unsigned rest hrest
  have hc : (c.isDigit || c == '.') = true := by simpa only [Bool.not_eq_false'] using hopens
  obtain ⟨hi, hn, hsigns⟩ := of_opens hc
  have hword : ∀ {word : String}, word.toList.head? = some 'i' ∨ word.toList.head? = some 'n' →
      (String.ofList ((c :: tail).map Char.toLower) == word) = false := by
    intro word hhead
    rw [beq_eq_false_iff_ne]
    rintro rfl
    simp [hi, hn] at hhead
  have hunsigned : (c :: tail).head?.any "+-".toList.contains = false := hsigns
  refine ⟨digits, e, ?_⟩
  rw [read?, splitSign_append hsign hunsigned]
  simp only [@hword "inf" (.inl rfl), @hword "infinity" (.inl rfl), @hword "nan" (.inr rfl), Bool.or_self, Bool.false_eq_true, if_false]
  exact hread

end Numeral

/-! ### The literals of a text -/

/-- **Without its suffix a number literal has a value**, which is below zero only if the literal opens
with a minus sign. -/
theorem read?_of_mem_tokens {source : String} {tokens : List Token} (h : tokenize source = .ok tokens)
    {t : Token} (ht : t ∈ tokens) (hkind : t.kind = .literal .number) :
    withoutTypeSuffix t.chars ∈ float ∧ ∃ digits e,
      Numeral.read? (withoutTypeSuffix t.chars) =
        some (.finite (t.chars.head? == some '-') digits e) := by
  obtain ⟨prev, s, n, hlength, hchars⟩ := exists_length?_of_tokenize h ht
  rw [hkind, Kind.length?, LiteralForm.length?, Option.ite_none_left_eq_some] at hlength
  obtain ⟨hfloat, hhead⟩ := withoutTypeSuffix_number hlength.2
  rw [hchars, ← hhead]
  exact ⟨hfloat, Numeral.read?_of_mem_float hfloat⟩

theorem isUnsignedNumber_of_mem_tokens {source : String} {tokens : List Token}
    (h : tokenize source = .ok tokens) {t : Token} (ht : t ∈ tokens)
    (hkind : t.kind = .literal .number) (hsign : t.chars.head? ≠ some '-') :
    isUnsignedNumber t.text = true := by
  obtain ⟨-, digits, e, hread⟩ := read?_of_mem_tokens h ht hkind
  have hpositive : (t.chars.head? == some '-') = false := beq_eq_false_iff_ne.2 hsign
  rw [hpositive] at hread
  rw [isUnsignedNumber, ← Lexeme.chars, hread]
  rfl

/-- Three tokens that draw from an infinity are found wherever they stand. -/
theorem mem_fixedSeeds_append {seed draw range : AnnotatedToken}
    (h : drawsFromInfinity seed draw range = true) (before behind : List AnnotatedToken) :
    range ∈ fixedSeeds (before ++ seed :: draw :: range :: behind) := by
  induction before with
  | nil => simp [fixedSeeds, h]
  | cons t before ih =>
      have htail : ∀ rest : List AnnotatedToken, fixedSeeds rest ⊆ fixedSeeds (t :: rest) := by
        rintro (_ | ⟨u, _ | ⟨v, rest⟩⟩)
        · simp [fixedSeeds]
        · simp [fixedSeeds]
        · rw [fixedSeeds.eq_1]
          exact List.subset_append_right _ _
      exact htail _ ih

/-- **Every number literal has a value, and no fixed seed is overlooked.**  Whatever text is cut into
tokens, a number literal without its suffix is a decimal number, so it has a value, and this value is
below zero only if the literal opens with a minus sign.  In a text with a tree, an infinity directly
behind `?` directly behind a number without a minus sign is always flagged. -/
theorem number_has_value {source : String} {tokens : List Token} (h : tokenize source = .ok tokens) :
    (∀ t ∈ tokens, t.kind = .literal .number →
      withoutTypeSuffix t.chars ∈ float ∧
      (∃ digits e, Numeral.read? (withoutTypeSuffix t.chars) =
        some (.finite (t.chars.head? == some '-') digits e)) ∧
      (t.chars.head? ≠ some '-' → isUnsignedNumber t.text = true)) ∧
    ∀ nodes, parseText source = .ok nodes → ∀ limits, ∃ found,
      checkText limits source = .ok found ∧
      ∀ before seed draw range behind,
        (analyze nodes).tokens = before ++ seed :: draw :: range :: behind →
        seed.kind = .literal .number → seed.chars.head? ≠ some '-' →
        draw.kind = .operator → draw.text = "?" → range.kind = .literal .infinity →
        .ofToken .fixedSeed range ∈ found := by
  refine ⟨fun t ht hkind => ?_, fun nodes hnodes limits => ?_⟩
  · obtain ⟨hfloat, hread⟩ := read?_of_mem_tokens h ht hkind
    exact ⟨hfloat, hread, isUnsignedNumber_of_mem_tokens h ht hkind⟩
  · refine ⟨findings limits (analyze nodes).tokens, by rw [checkText, hnodes], ?_⟩
    intro before seed draw range behind htokens hseed hsign hdraw hsign' hrange
    have hmem : seed.toToken ∈ Node.allTokens nodes := by
      rw [← toToken_analyze, htokens]
      simp
    have hunsigned : isUnsignedNumber seed.text = true :=
      isUnsignedNumber_of_mem_tokens (tokenize_of_parseText hnodes) hmem hseed hsign
    have hdraws : drawsFromInfinity seed draw range = true := by
      simp [drawsFromInfinity, hseed, hunsigned, hdraw, hsign', hrange]
    refine mem_findings_iff.2 ⟨range, ?_, rfl⟩
    rw [htokens]
    exact mem_fixedSeeds_append hdraws before behind

/-- Of `1e5f` the suffix is cut off and the power of ten is not; an infinity drawn from with it is
flagged. -/
theorem number_has_value_exponent :
    let source := "1e5f?0w"
    let range : AnnotatedToken :=
      ⟨⟨⟨.literal .infinity, "0w"⟩, 2, ⟨5, 7⟩, ⟨0, 5⟩⟩, none, none, none, false, none⟩
    ∃ tokens found, tokenize source = .ok tokens ∧
      withoutTypeSuffix "1e5f".toList = "1e5".toList ∧ "1e5".toList ∈ float ∧
      checkText {} source = .ok found ∧ .ofToken .fixedSeed range ∈ found := by
  intro source range
  let seed : AnnotatedToken :=
    ⟨⟨⟨.literal .number, "1e5f"⟩, 0, ⟨0, 4⟩, ⟨0, 0⟩⟩, none, none, none, false, none⟩
  let draw : AnnotatedToken :=
    ⟨⟨⟨.operator, "?"⟩, 1, ⟨4, 5⟩, ⟨0, 4⟩⟩, none, none, none, false, none⟩
  have htokens : tokenize source = .ok [seed.toToken, draw.toToken, range.toToken] := by
    decide +kernel
  have hnodes : (parseText source).toOption.map (fun nodes => (analyze nodes).tokens) =
      some [seed, draw, range] := by decide +kernel
  obtain ⟨nodes, hparse, hanalyzed⟩ := Option.map_eq_some_iff.1 hnodes
  have hparse : parseText source = .ok nodes := by
    cases hresult : parseText source <;> simp_all [Except.toOption]
  obtain ⟨hnumbers, hseeds⟩ := number_has_value htokens
  obtain ⟨found, hfound, hflagged⟩ := hseeds nodes hparse {}
  have hcut : withoutTypeSuffix "1e5f".toList = "1e5".toList := by decide
  refine ⟨_, found, htokens, hcut, ?_, hfound,
    hflagged [] seed draw range [] hanalyzed rfl (by decide) rfl rfl rfl⟩
  exact hcut ▸ (hnumbers seed.toToken (by simp) rfl).1

end QSource
