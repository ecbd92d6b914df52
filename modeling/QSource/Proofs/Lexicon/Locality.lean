/-
**Tokens do not look past the end of their line.**

A matcher sees the whole text behind a place, so what stands on later lines could decide about a
token.  It does not: outside quotes every kind but the comments that run over lines takes the same
from a text whether or not further lines follow.  Literals, words and operators do not look past a
semicolon either, because none of the classes of characters in their patterns holds a line end or a
semicolon.

Main definitions:

* `QSource.Pattern.rejects` — no class of a pattern holds a character;
* `QSource.Text.isSeparator` — the characters that neither literals nor words hold;
* `QSource.Text.LineEnds` — a text may be cut between two parts, since its line ends there.

Main results:

* `QSource.Pattern.length?_append_of_rejects` — **a pattern does not look past what it rejects**;
* `QSource.Kind.length?_append_of_separator` — **words, literals and operators do not look past a
  separator**;
* `QSource.Kind.length?_append_of_lineEnds` — **no kind of one line looks past the end of its line**;
* `QSource.Kind.length?_lineFeed` — a place behind a line feed is like the start of a text.
-/

import QSource.Proofs.Lexicon.Kinds

set_option relaxedAutoImplicit false
set_option autoImplicit false

namespace QSource

open Text Pattern

/-! ### Patterns -/

theorem takeWhile_append_of_head? {accepts : Char → Bool} {b : List Char}
    (h : b.head?.any accepts = false) (s : List Char) :
    (s ++ b).takeWhile accepts = s.takeWhile accepts := by
  induction s with
  | nil =>
      cases b with
      | nil => rfl
      | cons c b => exact List.takeWhile_cons_of_neg (by simpa using h)
  | cons c s ih => rw [List.cons_append, List.takeWhile_cons, List.takeWhile_cons, ih]

theorem any_head?_append {accepts : Char → Bool} {b : List Char}
    (h : b.head?.any accepts = false) (s : List Char) :
    (s ++ b).head?.any accepts = s.head?.any accepts := by
  cases s with
  | nil => exact h
  | cons c s => rfl

namespace Pattern

/-- No class of the pattern holds `c`, be it a class of characters that it takes or one of those
that it does not stand before. -/
def rejects (c : Char) : Pattern → Bool
  | .empty => true
  | .one accepts | .run accepts | .atMost _ accepts | .notBefore accepts => !accepts c
  | .seq first second | .alt first second => first.rejects c && second.rejects c
  | .opt part => part.rejects c

/-- **A pattern does not look past what it rejects.** -/
theorem length?_append_of_rejects {p : Pattern} {b : List Char}
    (h : ∀ c ∈ b.head?, p.rejects c = true) (s : List Char) :
    p.length? (s ++ b) = p.length? s := by
  have hclass : ∀ accepts : Char → Bool, (∀ c ∈ b.head?, (!accepts c) = true) →
      b.head?.any accepts = false := by
    intro accepts haccepts
    cases hhead : b.head? with
    | none => rfl
    | some c => simpa using haccepts c hhead
  induction p generalizing s with
  | empty => rfl
  | one accepts => simp only [length?, any_head?_append (hclass accepts h)]
  | run accepts => simp only [length?, takeWhile_append_of_head? (hclass accepts h)]
  | atMost count accepts =>
      have hhead : (b.take (count - s.length)).head?.any accepts = false := by
        cases count - s.length with
        | zero => rfl
        | succ n => cases b <;> exact hclass accepts h
      simp only [length?, List.take_append, takeWhile_append_of_head? hhead]
  | notBefore accepts => simp only [length?, any_head?_append (hclass accepts h)]
  | seq first second ihfirst ihsecond =>
      have hboth : ∀ c ∈ b.head?, first.rejects c = true ∧ second.rejects c = true :=
        fun c hc => (Bool.and_eq_true _ _).mp (h c hc)
      simp only [length?, ihfirst fun c hc => (hboth c hc).1]
      refine Option.bind_congr fun n hn => ?_
      rw [List.drop_append_of_le_length (length?_le hn), ihsecond fun c hc => (hboth c hc).2]
  | alt first second ihfirst ihsecond =>
      have hboth : ∀ c ∈ b.head?, first.rejects c = true ∧ second.rejects c = true :=
        fun c hc => (Bool.and_eq_true _ _).mp (h c hc)
      simp only [length?, ihfirst fun c hc => (hboth c hc).1, ihsecond fun c hc => (hboth c hc).2]
  | opt part ih => simp only [length?, ih h]

/-- One character is taken from a text that is not empty, whatever follows. -/
theorem length?_char_append {c : Char} {s : List Char} (hs : s ≠ []) (b : List Char) :
    (char c).length? (s ++ b) = (char c).length? s := by
  obtain ⟨d, s, rfl⟩ := List.exists_cons_of_ne_nil hs
  rfl

end Pattern

/-! ### Separators -/

/-- The line ends and the semicolon: no literal, word or operator goes on with one of them. -/
def Text.isSeparator (c : Char) : Bool := c == '\n' || c == '\r' || c == ';'

theorem Text.eq_of_isSeparator {c : Char} (h : isSeparator c = true) :
    c = '\n' ∨ c = '\r' ∨ c = ';' := by
  simpa [isSeparator, or_assoc] using h

section

variable {b : List Char} (h : ∀ c ∈ b.head?, isSeparator c = true)
include h

/-- A class that holds no separator. -/
theorem any_head?_of_separator (accepts : Char → Bool) (hfeed : accepts '\n' = false)
    (hreturn : accepts '\r' = false) (hsemicolon : accepts ';' = false) :
    b.head?.any accepts = false := by
  cases hhead : b.head? with
  | none => rfl
  | some c =>
      rcases eq_of_isSeparator (h c hhead) with rfl | rfl | rfl
      · exact hfeed
      · exact hreturn
      · exact hsemicolon

/-- A character that is no separator does not follow. -/
theorem head?_ne_of_separator {c : Char} (hc : isSeparator c = false) : b.head? ≠ some c := by
  intro hhead
  rw [h c hhead] at hc
  simp at hc

theorem Pattern.length?_append_of_separator {p : Pattern} (hfeed : p.rejects '\n' = true)
    (hreturn : p.rejects '\r' = true) (hsemicolon : p.rejects ';' = true) (s : List Char) :
    p.length? (s ++ b) = p.length? s := by
  refine length?_append_of_rejects (fun c hc => ?_) s
  rcases eq_of_isSeparator (h c hc) with rfl | rfl | rfl
  · exact hfeed
  · exact hreturn
  · exact hsemicolon

theorem startsChannel_append (prev : Option Char) (s : List Char) :
    startsChannel prev (s ++ b) = startsChannel prev s := by
  have hcolon := head?_ne_of_separator h (c := ':') (by decide)
  match s with
  | [] =>
      match b with
      | [] => rfl
      | [c] => rfl
      | c :: d :: b =>
          by_cases hd : d = ':'
          · rcases eq_of_isSeparator (h c rfl) with rfl | rfl | rfl <;> simp [startsChannel, hd]
          · simp [startsChannel, hd]
  | [d] =>
      match b with
      | [] => rfl
      | c :: b =>
          have hc : c ≠ ':' := by simpa using hcolon
          simp [startsChannel, hc]
  | d :: e :: rest =>
      by_cases he : e = ':'
      · have hrest : ((rest ++ b).head? != some ':') = (rest.head? != some ':') := by
          cases rest with
          | nil => exact bne_iff_ne.2 hcolon
          | cons c rest => rfl
        subst he
        simp only [List.cons_append, startsChannel, hrest]
      · simp [startsChannel, he]

theorem LiteralForm.length?_append (form : LiteralForm) (prev : Option Char) (s : List Char) :
    form.length? prev (s ++ b) = form.length? prev s := by
  have hpattern : (form.pattern (mayBeSigned prev)).length? (s ++ b) =
      (form.pattern (mayBeSigned prev)).length? s := by
    generalize mayBeSigned prev = signed
    refine Pattern.length?_append_of_separator h ?_ ?_ ?_ s
    · cases form <;> cases signed <;> rfl
    · cases form <;> cases signed <;> rfl
    · cases form <;> cases signed <;> rfl
  rw [LiteralForm.length?, LiteralForm.length?, hpattern, startsChannel_append h]

theorem keywordLength?_append (prev : Option Char) (s : List Char) :
    keywordLength? prev (s ++ b) = keywordLength? prev s := by
  have hword := takeWhile_append_of_head?
    (any_head?_of_separator h isWordChar rfl rfl rfl) s
  have halpha := any_head?_append (any_head?_of_separator h Char.isAlpha rfl rfl rfl) s
  have hpoint : (s ++ b)[(s.takeWhile isWordChar).length]? ≠ some '.' ↔
      s[(s.takeWhile isWordChar).length]? ≠ some '.' := by
    rcases Nat.lt_or_eq_of_le (List.takeWhile_prefix isWordChar (l := s)).length_le with hlt | heq
    · rw [List.getElem?_append_left hlt]
    · rw [heq, List.getElem?_append_right (Nat.le_refl _), Nat.sub_self, ← List.head?_eq_getElem?,
        List.getElem?_eq_none (Nat.le_refl _)]
      simpa using head?_ne_of_separator h (c := '.') (by decide)
  simp only [keywordLength?, hword, halpha, hpoint]

theorem nameTail_append (s : List Char) : nameTail (s ++ b) = nameTail s := by
  have hword := any_head?_of_separator h isWordChar rfl rfl rfl
  induction s with
  | nil =>
      cases b with
      | nil => rfl
      | cons c b =>
          have hc : isWordChar c = false := hword
          have hpoint : c ≠ '.' := by simpa using head?_ne_of_separator h (c := '.') (by decide)
          simp [nameTail, hc, hpoint]
  | cons c s ih => simp only [List.cons_append, nameTail, ih, any_head?_append hword]

theorem nameLength?_append (s : List Char) : nameLength? (s ++ b) = nameLength? s := by
  have halpha := any_head?_of_separator h Char.isAlpha rfl rfl rfl
  cases s with
  | nil =>
      cases b with
      | nil => rfl
      | cons c b =>
          have hc : c.isAlpha = false := halpha
          have hpoint : c ≠ '.' := by simpa using head?_ne_of_separator h (c := '.') (by decide)
          simp [nameLength?, hc, hpoint]
  | cons c s => simp only [List.cons_append, nameLength?, any_head?_append halpha, nameTail_append h]

theorem operatorLength?_append (prev : Option Char) (s : List Char) :
    operatorLength? prev (s ++ b) = operatorLength? prev s := by
  rw [operatorLength?, operatorLength?, startsChannel_append h,
    Pattern.length?_append_of_separator h rfl rfl rfl]

/-- **Words, literals and operators do not look past a separator**, and neither do quotes and
brackets. -/
theorem Kind.length?_append_of_separator {kind : Kind} (hfree : kind.isFree = false)
    (hblank : kind ≠ .whitespace) (hbreak : kind ≠ .lineBreak) (prev : Option Char)
    {s : List Char} (hs : s ≠ []) : kind.length? prev (s ++ b) = kind.length? prev s := by
  cases kind with
  | comment | command | quotedText | quotedEscape => simp [isFree] at hfree
  | whitespace => exact absurd rfl hblank
  | lineBreak => exact absurd rfl hbreak
  | literal form => exact form.length?_append h prev s
  | keyword => exact keywordLength?_append h prev s
  | identifier => exact nameLength?_append h s
  | operator => exact operatorLength?_append h prev s
  | doubleColon | iterator => exact Pattern.length?_append_of_separator h rfl rfl rfl s
  | openQuote | closeQuote | colon | semicolon | opening | closing =>
      exact Pattern.length?_char_append hs b

end

/-! ### Ends of lines -/

/-- The line ends between `s` and `b`: a line terminator opens `b`, none of which belongs to `s`, or
nothing follows. -/
structure Text.LineEnds (s b : List Char) : Prop where
  firstLine_eq : firstLine b = []
  not_return : b.head? = some '\n' → s.getLast? ≠ some '\r'

section

variable {s b : List Char}

theorem Text.head?_of_firstLine_eq_nil (h : firstLine b = []) :
    b = [] ∨ b.head? = some '\n' ∨ ∃ rest, b = '\r' :: '\n' :: rest := by
  unfold firstLine at h
  split at h
  · exact Or.inl rfl
  · exact Or.inr (Or.inl rfl)
  · exact Or.inr (Or.inr ⟨_, rfl⟩)
  · simp at h

theorem Text.LineEnds.isSeparator (h : LineEnds s b) : ∀ c ∈ b.head?, isSeparator c = true := by
  intro c hc
  rcases head?_of_firstLine_eq_nil h.firstLine_eq with rfl | hfeed | ⟨rest, rfl⟩
  · simp at hc
  · obtain rfl : '\n' = c := Option.some.inj (hfeed.symm.trans hc)
    rfl
  · obtain rfl : '\r' = c := Option.some.inj hc
    rfl

theorem Text.LineEnds.of_suffix {s' : List Char} (h : LineEnds s b) (hsuffix : s' <:+ s) :
    LineEnds s' b := by
  refine ⟨h.firstLine_eq, fun hfeed hreturn => h.not_return hfeed ?_⟩
  obtain ⟨before, rfl⟩ := hsuffix
  rw [List.getLast?_append, hreturn]
  rfl

/-- A line feed behind the first character of a text is seen whether or not the text goes on. -/
theorem Text.LineEnds.head?_append {c : Char} (h : LineEnds (c :: s) b) (hc : c = '\r') :
    (s ++ b).head? = some '\n' ↔ s.head? = some '\n' := by
  cases s with
  | nil =>
      have hfeed : b.head? ≠ some '\n' := fun hfeed => h.not_return hfeed (by simp [hc])
      simpa using hfeed
  | cons d s => rfl

theorem firstLine_cons_of_not_break {c : Char} (hfeed : c ≠ '\n')
    (hreturn : c = '\r' → s.head? ≠ some '\n') : firstLine (c :: s) = c :: firstLine s := by
  rw [firstLine]
  · exact hfeed
  · rintro rest rfl rfl
    exact hreturn rfl rfl

/-- The first line of a text does not depend on further lines. -/
theorem firstLine_append (h : LineEnds s b) : firstLine (s ++ b) = firstLine s := by
  fun_induction firstLine s with
  | case1 => exact h.firstLine_eq
  | case2 => rfl
  | case3 => rfl
  | case4 c rest hfeed hreturn ih =>
      have hnext : c = '\r' → (rest ++ b).head? ≠ some '\n' := by
        intro hc hhead
        obtain ⟨rest', rfl⟩ := List.head?_eq_some_iff.1 ((h.head?_append hc).1 hhead)
        exact hreturn rest' hc rfl
      rw [List.cons_append, firstLine_cons_of_not_break hfeed hnext,
        ih (h.of_suffix (List.suffix_cons c rest))]

theorem blankRun_append (h : LineEnds s b) : blankRun (s ++ b) = blankRun s := by
  induction s with
  | nil =>
      rcases head?_of_firstLine_eq_nil h.firstLine_eq with rfl | hfeed | ⟨rest, rfl⟩
      · rfl
      · obtain ⟨rest, rfl⟩ := List.head?_eq_some_iff.1 hfeed
        rfl
      · rfl
  | cons c s ih =>
      have hnext : (c == '\r' && (s ++ b).head? != some '\n') =
          (c == '\r' && s.head? != some '\n') := by
        by_cases hc : c = '\r'
        · rw [Bool.eq_iff_iff]
          simp only [Bool.and_eq_true, bne_iff_ne, ne_eq, h.head?_append hc]
        · rw [beq_eq_false_iff_ne.2 hc, Bool.false_and, Bool.false_and]
      simp only [List.cons_append, blankRun, hnext, ih (h.of_suffix (List.suffix_cons c s))]

theorem lineBreakLength?_append (h : LineEnds s b) (hs : s ≠ []) :
    lineBreakLength? (s ++ b) = lineBreakLength? s := by
  obtain ⟨c, s, rfl⟩ := List.exists_cons_of_ne_nil hs
  by_cases hfeed : c = '\n'
  · subst hfeed
    rfl
  · by_cases hreturn : c = '\r'
    · have hnext := h.head?_append hreturn
      subst hreturn
      cases s with
      | nil =>
          have hb : b.head? ≠ some '\n' := by simpa using hnext
          cases b with
          | nil => rfl
          | cons d b =>
              have hd : d ≠ '\n' := by simpa using hb
              simp [lineBreakLength?, hd]
      | cons d s => by_cases hd : d = '\n' <;> simp [lineBreakLength?, hd]
    · simp [lineBreakLength?, hfeed, hreturn]

theorem commandLength?_append (h : LineEnds s b) (prev : Option Char) :
    commandLength? prev (s ++ b) = commandLength? prev s := by
  have hfirst := firstLine_append h
  match s with
  | [] =>
      rcases head?_of_firstLine_eq_nil h.firstLine_eq with rfl | hfeed | ⟨rest, rfl⟩
      · rfl
      · obtain ⟨rest, rfl⟩ := List.head?_eq_some_iff.1 hfeed
        rfl
      · rfl
  | [c] =>
      by_cases hc : c = '\\'
      · subst hc
        rcases head?_of_firstLine_eq_nil h.firstLine_eq with rfl | hfeed | ⟨rest, rfl⟩
        · rfl
        · obtain ⟨rest, rfl⟩ := List.head?_eq_some_iff.1 hfeed
          simp [commandLength?]
        · simp [commandLength?]
      · simp [commandLength?, hc]
  | c :: d :: s =>
      by_cases hc : c = '\\'
      · subst hc
        simp only [List.cons_append] at hfirst
        simp only [List.cons_append, commandLength?, hfirst]
      · simp [commandLength?, hc]

/-- A closing marker is found whether or not the text goes on behind its line. -/
theorem throughClosingMarker_append {fresh : Bool} (h : LineEnds s b)
    (hlt : throughClosingMarker fresh s < s.length) :
    throughClosingMarker fresh (s ++ b) = throughClosingMarker fresh s := by
  induction s generalizing fresh with
  | nil => simp at hlt
  | cons c s ih =>
      have hfirst := firstLine_append h
      rw [List.cons_append] at hfirst
      rw [throughClosingMarker] at hlt
      rw [List.cons_append, throughClosingMarker, throughClosingMarker, hfirst]
      split
      · rfl
      · next hmarker =>
          rw [if_neg hmarker, List.length_cons] at hlt
          rw [ih (h.of_suffix (List.suffix_cons c s)) (by omega)]

/-- The kinds of comments that run over the ends of lines. -/
def Kind.spansLines : Kind → Bool
  | .comment .block | .comment .final => true
  | _ => false

theorem Kind.spansLines_iff {kind : Kind} :
    kind.spansLines = true ↔ kind = .comment .block ∨ kind = .comment .final := by
  unfold spansLines
  split <;> simp_all

/-- **No kind of one line looks past the end of its line.** -/
theorem Kind.length?_append_of_lineEnds {kind : Kind} (hcode : kind ∈ codeKinds)
    (hlines : kind.spansLines = false) (prev : Option Char) (hs : s ≠ []) (h : LineEnds s b) :
    kind.length? prev (s ++ b) = kind.length? prev s := by
  cases kind with
  | comment form =>
      cases form with
      | block | final => simp [spansLines] at hlines
      | line =>
          obtain ⟨c, s, rfl⟩ := List.exists_cons_of_ne_nil hs
          have hfirst := firstLine_append h
          rw [List.cons_append] at hfirst
          simp only [Kind.length?, commentLength?, List.cons_append, List.head?_cons, hfirst]
          rfl
  | quotedText | quotedEscape => simp [codeKinds] at hcode
  | whitespace => rw [Kind.length?, Kind.length?, blankRun_append h]
  | lineBreak => exact lineBreakLength?_append h hs
  | command => exact commandLength?_append h prev
  | _ =>
      exact Kind.length?_append_of_separator h.isSeparator rfl Kind.noConfusion Kind.noConfusion prev
        hs

end

/-! ### Starts of lines -/

/-- **A place behind a line feed is like the start of a text.** -/
theorem Kind.length?_lineFeed (kind : Kind) (s : List Char) :
    kind.length? (some '\n') s = kind.length? none s := by
  have hchannel : startsChannel (some '\n') s = startsChannel none s := by
    unfold startsChannel
    split <;> rfl
  cases kind with
  | comment form => cases form <;> rfl
  | literal form =>
      have hsigned : mayBeSigned (some '\n') = mayBeSigned none := by decide
      rw [Kind.length?, Kind.length?, LiteralForm.length?, LiteralForm.length?, hchannel, hsigned]
  | keyword => simp [Kind.length?, keywordLength?]
  | command =>
      simp only [Kind.length?]
      unfold commandLength?
      split <;> rfl
  | operator => rw [Kind.length?, Kind.length?, operatorLength?, operatorLength?, hchannel]
  | _ => rfl

end QSource
