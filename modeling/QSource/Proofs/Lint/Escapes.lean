/-
**The two readings of a run of escapes.**

A run of escapes is cut into units twice: by the scan, which has the rest of the text before it, and by
the rule on escapes, which has the text of one token.  How far a unit goes depends on what stands behind
its first character, and the scan may see more there than the rule.  So the cutting is described here one
unit after the other, next to the text behind the run.  That text turns out not to matter: a unit that
was one character for want of digits stays so when there is less behind it.

Main definitions:

* `QSource.CutsEscapes` — **a run of escapes is cut** into units, and a text is left behind it;
* `QSource.writtenEscapes` — the units of a run, each behind a backslash;
* `QSource.StandsForCharacter` — the units that stand for a character;
* `QSource.EscapesReadAs` — **the scan and the rule cut a token alike**, and use up its text.

Main results:

* `QSource.CutsEscapes.escapeUnits_eq` — there is one way to cut a run;
* `QSource.CutsEscapes.alone` — **what stands behind a run does not change how it is cut**;
* `QSource.isKnownEscape_iff` — which units the rule on escapes accepts;
* `QSource.escapesReadAs_of_tokenize` — **the scan and the rule read the same units**, and the rule
  objects to a token just if one of them stands for no character.
-/

import QSource.Proofs.Check
import QSource.Proofs.Lint.Misassigned
import QSource.Proofs.Token.Readings

set_option relaxedAutoImplicit false
set_option autoImplicit false

namespace QSource

open Text

/-! ### Cutting a run -/

/-- The text starts with three digits. -/
def StartsWithCode (s : List Char) : Prop := 3 ≤ s.length ∧ ∀ c ∈ s.take 3, c.isDigit = true

/-- **The run of escapes at the start of a text is cut into units**: each stands behind a backslash and
is three digits, where three digits stand, and else one character.  The run goes on until no backslash
with a character behind it follows, and what is left there is `behind`. -/
inductive CutsEscapes : List Char → List (List Char) → List Char → Prop
  | code {unit rest : List Char} {units : List (List Char)} {behind : List Char}
      (hlength : unit.length = 3) (hdigits : ∀ c ∈ unit, c.isDigit = true)
      (h : CutsEscapes rest units behind) :
      CutsEscapes ('\\' :: (unit ++ rest)) (unit :: units) behind
  | one {c : Char} {rest : List Char} {units : List (List Char)} {behind : List Char}
      (hcode : ¬ StartsWithCode (c :: rest)) (h : CutsEscapes rest units behind) :
      CutsEscapes ('\\' :: c :: rest) ([c] :: units) behind
  | stop {s : List Char} (h : ∀ c rest, s ≠ '\\' :: c :: rest) : CutsEscapes s [] s

/-- Units as they stand in a text, each behind a backslash. -/
def writtenEscapes (units : List (List Char)) : List Char := units.flatMap ('\\' :: ·)

@[simp] theorem writtenEscapes_nil : writtenEscapes [] = [] := rfl

@[simp] theorem writtenEscapes_cons (unit : List Char) (units : List (List Char)) :
    writtenEscapes (unit :: units) = '\\' :: (unit ++ writtenEscapes units) := rfl

/-- What starts with three digits does so whatever stands behind. -/
theorem StartsWithCode.append {s : List Char} (h : StartsWithCode s) (t : List Char) :
    StartsWithCode (s ++ t) := by
  refine ⟨?_, ?_⟩
  · rw [List.length_append]
    exact Nat.le_add_right_of_le h.1
  · rw [List.take_append_of_le_length h.1]
    exact h.2

theorem startsWithCode_cons {a b c : Char} {rest : List Char} :
    StartsWithCode (a :: b :: c :: rest) ↔ (a.isDigit && b.isDigit && c.isDigit) = true := by
  simp [StartsWithCode, and_assoc]

/-- **The units of a text cut its run of escapes**, and what is left stands behind the run. -/
theorem cutsEscapes_escapeUnits (s : List Char) :
    CutsEscapes s (escapeUnits s) (s.drop (escapeRunLength s)) := by
  rw [escapeRunLength]
  fun_induction escapeUnits s with
  | case1 a b c rest hdigits ih =>
      have hunit : ∀ d ∈ [a, b, c], d.isDigit = true := by simpa [and_assoc] using hdigits
      have hrest := CutsEscapes.code (by rfl) hunit ih
      simpa [Nat.add_comm 4] using hrest
  | case2 a b c rest hdigits ih =>
      have hrest := CutsEscapes.one (mt startsWithCode_cons.1 hdigits) ih
      simpa [Nat.add_comm 2] using hrest
  | case3 a rest hshort ih =>
      have hcode : ¬ StartsWithCode (a :: rest) := by
        rintro ⟨hlength, -⟩
        rcases rest with _ | ⟨b, _ | ⟨c, rest'⟩⟩
        · simp at hlength
        · simp at hlength
        · exact hshort b c rest' rfl
      have hrest := CutsEscapes.one hcode ih
      simpa [Nat.add_comm 2] using hrest
  | case4 s hlong hshort =>
      exact .stop fun a rest heq => hshort a rest heq

section

variable {s behind : List Char} {units : List (List Char)} (h : CutsEscapes s units behind)

include h

/-- **There is one way to cut a run.** -/
theorem CutsEscapes.escapeUnits_eq : escapeUnits s = units := by
  induction h with
  | @code unit rest units behind hlength hdigits h ih =>
      match unit, hlength with
      | [a, b, c], _ =>
          have hall : (a.isDigit && b.isDigit && c.isDigit) = true := by
            simpa [and_assoc] using hdigits
          rw [List.cons_append, List.cons_append, List.cons_append, List.nil_append, escapeUnits,
            if_pos hall, ih]
  | one hcode h ih =>
      rw [escapeUnits_cons fun b d rest hrest hdigits => ?_, ih]
      subst hrest
      exact hcode (startsWithCode_cons.2 hdigits)
  | stop hs =>
      unfold escapeUnits
      split <;> simp_all

/-- The run and what is left make up the text. -/
theorem CutsEscapes.eq_append : s = writtenEscapes units ++ behind := by
  induction h with
  | code hlength hdigits h ih => simp [ih.symm]
  | one hcode h ih => simp [ih.symm]
  | stop hs => rfl

/-- **What stands behind a run does not change how it is cut.**  A unit of one character stays one: with
less text behind it there cannot be more digits. -/
theorem CutsEscapes.alone : CutsEscapes (writtenEscapes units) units [] := by
  induction h with
  | code hlength hdigits h ih => exact .code hlength hdigits ih
  | @one c rest units behind hcode h ih =>
      refine .one (fun hless => hcode ?_) ih
      rw [h.eq_append]
      exact hless.append behind
  | stop hs => exact .stop (by simp)

end

/-! ### Units that stand for a character -/

/-- **A unit stands for a character** if it is one of `n r t \ / "`, or a number from 100 to 377 written
in decimal. -/
def StandsForCharacter (unit : List Char) : Prop :=
  (∃ c ∈ "nrt\\/\"".toList, unit = [c]) ∨ ∃ n, 100 ≤ n ∧ n ≤ 377 ∧ unit = Nat.toDigits 10 n

/-- A digit is the one that writes its value. -/
theorem digitChar_of_isDigit {c : Char} (h : c.isDigit = true) :
    c.toNat - '0'.toNat < 10 ∧ Nat.digitChar (c.toNat - '0'.toNat) = c := by
  have hrange : '0'.toNat ≤ c.toNat ∧ c.toNat ≤ 57 := by
    simpa [Char.isDigit, UInt32.le_iff_toNat_le] using h
  have hzero : '0'.toNat = 48 := rfl
  have hlt : c.toNat - '0'.toNat < 10 := by omega
  refine ⟨hlt, Char.toNat_inj.1 ?_⟩
  rw [Nat.toNat_digitChar_of_lt_ten hlt]
  omega

/-- A number of three digits is written by them. -/
theorem toDigits_three {x y z : Nat} (hfirst : 0 < x) (hx : x < 10) (hy : y < 10) (hz : z < 10) :
    Nat.toDigits 10 (10 * (10 * x + y) + z) = [x.digitChar, y.digitChar, z.digitChar] := by
  have hfront : 0 < 10 * x + y := by omega
  calc Nat.toDigits 10 (10 * (10 * x + y) + z)
      = Nat.toDigits 10 (10 * x + y) ++ Nat.toDigits 10 z :=
        (Nat.toDigits_append_toDigits (by decide) hfront hz).symm
    _ = (Nat.toDigits 10 x ++ Nat.toDigits 10 y) ++ Nat.toDigits 10 z := by
        rw [Nat.toDigits_append_toDigits (by decide) hfirst hy]
    _ = [x.digitChar, y.digitChar, z.digitChar] := by
        rw [Nat.toDigits_of_lt_base hx, Nat.toDigits_of_lt_base hy, Nat.toDigits_of_lt_base hz]
        rfl

/-- Three digits that do not start with a zero write their value. -/
theorem toDigits_digitsValue {a b c : Char} (ha : a.isDigit = true) (hb : b.isDigit = true)
    (hc : c.isDigit = true) (hvalue : 100 ≤ digitsValue [a, b, c]) :
    Nat.toDigits 10 (digitsValue [a, b, c]) = [a, b, c] := by
  obtain ⟨hx, hxa⟩ := digitChar_of_isDigit ha
  obtain ⟨hy, hyb⟩ := digitChar_of_isDigit hb
  obtain ⟨hz, hzc⟩ := digitChar_of_isDigit hc
  have heq : digitsValue [a, b, c] = 10 * (10 * (a.toNat - '0'.toNat) + (b.toNat - '0'.toNat)) +
      (c.toNat - '0'.toNat) := by
    simp [digitsValue]
  rw [heq] at hvalue ⊢
  have hfirst : 0 < a.toNat - '0'.toNat := by omega
  rw [toDigits_three hfirst hx hy hz, hxa, hyb, hzc]

/-- **The units that the rule on escapes accepts** are those that stand for a character. -/
theorem isKnownEscape_iff {unit : List Char} :
    isKnownEscape unit = true ↔ StandsForCharacter unit := by
  constructor
  · intro h
    unfold isKnownEscape at h
    split at h
    · next c => exact .inl ⟨c, List.contains_iff_mem.1 h, rfl⟩
    · next a b c =>
        simp only [List.all_cons, List.all_nil, Bool.and_true, Bool.and_eq_true,
          decide_eq_true_eq] at h
        obtain ⟨⟨⟨ha, hb, hc⟩, hlow⟩, hhigh⟩ := h
        exact .inr ⟨_, hlow, hhigh, (toDigits_digitsValue ha hb hc hlow).symm⟩
    · simp at h
  · have hsimple : "nrt\\/\"".toList.all (isKnownEscape [·]) = true := by decide
    have hcode : ∀ n ≤ 377, 100 ≤ n → isKnownEscape (Nat.toDigits 10 n) = true := by
      decide +kernel
    rintro (⟨c, hc, rfl⟩ | ⟨n, hlow, hhigh, rfl⟩)
    · exact List.all_eq_true.1 hsimple c hc
    · exact hcode n hhigh hlow

/-! ### Tokens -/

/-- **The scan and the rule cut a token alike**: `units` are those of the source from the token on, where
the run is as long as the token, and those of the text of the token, where nothing is left. -/
structure EscapesReadAs (source : String) (t : Token) (units : List (List Char)) : Prop where
  scanned : ∃ behind, dropBytes? source.toList t.span.start = some (t.chars ++ behind) ∧
    escapeRunLength (t.chars ++ behind) = t.chars.length ∧
    escapeUnits (t.chars ++ behind) = units ∧ CutsEscapes (t.chars ++ behind) units behind
  reread : escapeUnits t.chars = units ∧ CutsEscapes t.chars units []
  whole : writtenEscapes units = t.chars

/-- The tokens that the rule on escapes objects to. -/
theorem mem_flagged_invalidEscape_iff {limits : Thresholds} {tokens : List AnnotatedToken}
    {t : AnnotatedToken} : t ∈ Rule.invalidEscape.flagged limits tokens ↔
      t ∈ tokens ∧ t.kind = .quotedEscape ∧
        ∃ unit ∈ escapeUnits t.toToken.chars, ¬ StandsForCharacter unit := by
  simp only [Rule.flagged, badEscapes, List.mem_filter, Bool.and_eq_true, beq_iff_eq,
    List.any_eq_true, Bool.not_eq_true', Bool.eq_false_iff, ne_eq, isKnownEscape_iff]
  rfl

/-- A rule has a finding at a token of the tree just if it objects to the token. -/
theorem atToken_mem_findings_iff {limits : Thresholds} {tokens : List Token} {nodes : List Node}
    (hnumbered : Token.Numbered tokens) (h : parse tokens = .ok nodes) {rule : Rule} {t : Token}
    (ht : t ∈ tokens) : Finding.atToken rule t ∈ findings limits (analyze nodes).tokens ↔
      ∃ u ∈ rule.flagged limits (analyze nodes).tokens, u.toToken = t := by
  rw [mem_findings_iff]
  constructor
  · rintro ⟨u, hu, heq⟩
    have hmem := toToken_mem_of_mem_analyze h (rule.mem_of_mem_flagged hu)
    exact ⟨u, hu, hnumbered.eq_of_index_eq hmem ht (congrArg Finding.index heq)⟩
  · rintro ⟨u, hu, rfl⟩
    exact ⟨u, hu, rfl⟩

section

variable {source : String} {tokens : List Token} (h : tokenize source = .ok tokens) {t : Token}
  (ht : t ∈ tokens) (hkind : t.kind = .quotedEscape)

include h ht hkind

/-- **The scan reads the units that stand in the text of the token**, and that text holds no more. -/
theorem exists_escapesReadAs : ∃ units, EscapesReadAs source t units := by
  obtain ⟨before, behind, hsplit⟩ := List.append_of_mem ht
  obtain ⟨prev, hlength⟩ := exists_length?_of_eq_append h hsplit
  rw [hkind] at hlength
  have hrun := eq_of_positive? hlength
  have hcuts := cutsEscapes_escapeUnits (t.chars ++ Lexeme.join (behind.map (·.toLexeme)))
  rw [hrun, List.drop_left] at hcuts
  have hwhole := List.append_cancel_right hcuts.eq_append
  have halone := hcuts.alone
  rw [← hwhole] at halone
  exact ⟨_, ⟨_, dropBytes?_start_of_tokenize h hsplit, hrun, rfl, hcuts⟩,
    ⟨halone.escapeUnits_eq, halone⟩, hwhole.symm⟩

/-- **The scan and the rule on escapes cut every token alike.**  The units that the scan reads, with the
rest of the source in sight, are those that the rule reads in the token alone, and make up its text; and
the rule objects to the token just if one of them stands for no character. -/
theorem escapesReadAs_of_tokenize : ∃ units, EscapesReadAs source t units ∧
    (∀ limits annotated u, u ∈ annotated → u.toToken = t →
      (u ∈ Rule.invalidEscape.flagged limits annotated ↔
        ∃ unit ∈ units, ¬ StandsForCharacter unit)) ∧
    ∀ limits found, checkText limits source = .ok found →
      (Finding.atToken .invalidEscape t ∈ found ↔ ∃ unit ∈ units, ¬ StandsForCharacter unit) := by
  obtain ⟨units, hreads⟩ := exists_escapesReadAs h ht hkind
  have hflagged : ∀ limits annotated u, u ∈ annotated → u.toToken = t →
      (u ∈ Rule.invalidEscape.flagged limits annotated ↔
        ∃ unit ∈ units, ¬ StandsForCharacter unit) := by
    rintro limits annotated u hu rfl
    rw [mem_flagged_invalidEscape_iff, hreads.reread.1]
    exact ⟨fun hfound => hfound.2.2, fun hunit => ⟨hu, hkind, hunit⟩⟩
  refine ⟨units, hreads, hflagged, ?_⟩
  intro limits found hfound
  obtain ⟨nodes, hnodes, rfl⟩ := exists_parseText_of_checkText hfound
  obtain rfl : Node.allTokens nodes = tokens :=
    Except.ok.inj ((tokenize_of_parseText hnodes).symm.trans h)
  have hparse := parse_of_parseText hnodes
  rw [atToken_mem_findings_iff (numbered_of_tokenize h) hparse ht]
  constructor
  · rintro ⟨u, hu, hut⟩
    exact (hflagged limits _ u (Rule.mem_of_mem_flagged hu) hut).1 hu
  · intro hunit
    rw [← toToken_analyze] at ht
    obtain ⟨u, hu, hut⟩ := List.mem_map.1 ht
    exact ⟨u, (hflagged limits _ u hu hut).2 hunit, hut⟩

end

/-- A run with a number that is too large, a character of two bytes, and a last digit that has only one
more behind it. -/
theorem escapesReadAs_of_tokenize_digits :
    let source := "\"\\n\\777\\é\\12\""
    let t : Token := ⟨⟨.quotedEscape, "\\n\\777\\é\\1"⟩, 1, ⟨1, 12⟩, ⟨0, 1⟩⟩
    let found : List Finding := [.atToken .invalidEscape t]
    ∃ tokens, tokenize source = .ok tokens ∧ t ∈ tokens ∧ t.kind = .quotedEscape ∧
      checkText {} source = .ok found ∧
      EscapesReadAs source t [['n'], ['7', '7', '7'], ['é'], ['1']] ∧
      ∃ unit ∈ [['n'], ['7', '7', '7'], ['é'], ['1']], ¬ StandsForCharacter unit := by
  intro source t found
  let tokens := Lexeme.layOut [⟨.openQuote, "\""⟩, ⟨.quotedEscape, "\\n\\777\\é\\1"⟩,
    ⟨.quotedText, "2"⟩, ⟨.closeQuote, "\""⟩]
  have htokens : tokenize source = .ok tokens := by decide +kernel
  have ht : t ∈ tokens := by decide +kernel
  have hfound : checkText {} source = .ok found := by decide +kernel
  obtain ⟨units, hreads, -, hrule⟩ := escapesReadAs_of_tokenize htokens ht rfl
  have hunits : units = [['n'], ['7', '7', '7'], ['é'], ['1']] :=
    hreads.reread.1.symm.trans (by decide +kernel)
  subst hunits
  exact ⟨tokens, htokens, ht, rfl, hfound, hreads,
    (hrule {} found hfound).1 (List.mem_singleton.2 rfl)⟩

end QSource
