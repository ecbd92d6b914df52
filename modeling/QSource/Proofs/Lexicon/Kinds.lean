/-
**What the kinds of tokens take.**

The tables of kinds fit together: a token of any kind takes at least one character, a token of code
takes nothing but characters of code, and whatever stands before and behind it, each character of
code can start a token of some kind.  The last fact needs the whole table, because several kinds
leave a character to a later one: the digit of a channel operator is no number, a word with a point
behind it is no keyword, and a backtick before a colon is no symbol.

Main definitions:

* `QSource.Kind.isFree` — the kinds whose tokens may hold any character.

Main results:

* `QSource.Kind.pos_of_length?`, `QSource.Kind.length?_le` — no token is empty, and none is longer
  than the text;
* `QSource.Kind.isCodeChar_of_length?` — **tokens that are not free hold characters of code only**;
* `QSource.Kind.exists_length?_of_isCodeChar` — **every character of code can start a token**.
-/

import QSource.Lexicon.Table
import QSource.Proofs.Lexicon.Pattern
import QSource.Proofs.Text.Class

set_option relaxedAutoImplicit false
set_option autoImplicit false

namespace QSource

open Text Pattern

/-! ### Lengths are positive -/

theorem LiteralForm.takesSome_pattern (form : LiteralForm) (signed : Bool) :
    (form.pattern signed).takesSome = true := by
  cases form <;> cases signed <;> rfl

theorem LiteralForm.length?_pattern {form : LiteralForm} {prev : Option Char} {s : List Char}
    {n : Nat} (h : form.length? prev s = some n) :
    (form.pattern (mayBeSigned prev)).length? s = some n := by
  rw [LiteralForm.length?] at h
  split at h
  · simp at h
  · exact h

theorem ne_nil_of_isMarkerLine {marker : Char} {s : List Char}
    (h : isMarkerLine marker (firstLine s) = true) : s ≠ [] := by
  rintro rfl
  simp [firstLine, isMarkerLine] at h

/-- A text that does not start with the end of its line has a first line that is not empty. -/
theorem firstLine_cons {c : Char} (hfeed : c ≠ '\n') (hreturn : c ≠ '\r') (rest : List Char) :
    firstLine (c :: rest) = c :: firstLine rest := by
  rw [firstLine]
  · exact hfeed
  · intro rest' hc
    exact absurd hc hreturn

theorem pos_of_commentLength? {form : CommentForm} {prev : Option Char} {s : List Char} {n : Nat}
    (h : commentLength? form prev s = some n) : 0 < n := by
  cases form with
  | block =>
      simp only [commentLength?] at h
      split at h
      · next hmarker =>
          rw [Bool.and_eq_true] at hmarker
          obtain ⟨c, rest, rfl⟩ := List.exists_cons_of_ne_nil (ne_nil_of_isMarkerLine hmarker.2)
          rw [Option.some.injEq] at h
          rw [← h, throughClosingMarker, Bool.false_and, if_neg Bool.false_ne_true]
          omega
      · simp at h
  | final =>
      simp only [commentLength?] at h
      split at h
      · next hmarker =>
          rw [Bool.and_eq_true] at hmarker
          rw [Option.some.injEq] at h
          rw [← h]
          exact List.length_pos_iff.2 (ne_nil_of_isMarkerLine hmarker.2)
      · simp at h
  | line =>
      simp only [commentLength?] at h
      split at h
      · next hslash =>
          rw [Bool.and_eq_true, beq_iff_eq] at hslash
          obtain ⟨rest, rfl⟩ := List.head?_eq_some_iff.1 hslash.1
          rw [firstLine_cons (by decide) (by decide), Option.some.injEq] at h
          simp [← h]
      · simp at h

theorem pos_of_keywordLength? {prev : Option Char} {s : List Char} {n : Nat}
    (h : keywordLength? prev s = some n) : 0 < n := by
  simp only [keywordLength?] at h
  split at h
  · next hword =>
      obtain ⟨hhead, -⟩ := hword
      cases s with
      | nil => simp at hhead
      | cons c rest =>
          have hc : isWordChar c = true := isWordChar_of_isAlpha (by simpa using hhead)
          rw [Option.some.injEq] at h
          simp [← h, hc]
  · simp at h

theorem pos_of_commandLength? {prev : Option Char} {s : List Char} {n : Nat}
    (h : commandLength? prev s = some n) : 0 < n := by
  unfold commandLength? at h
  split at h
  · next next rest =>
      split at h
      · rw [firstLine_cons (by decide) (by decide), Option.some.injEq] at h
        simp [← h]
      · simp at h
  · simp at h

theorem pos_of_positive? {k n : Nat} (h : positive? k = some n) : 0 < n := by
  rw [positive?] at h
  split at h
  · simp at h
  · simp only [Option.some.injEq] at h
    omega

theorem pos_of_operatorLength? {prev : Option Char} {s : List Char} {n : Nat}
    (h : operatorLength? prev s = some n) : 0 < n := by
  rw [operatorLength?] at h
  split at h
  · simp only [Option.some.injEq] at h
    omega
  · exact pos_of_length? rfl h

/-- **No token is empty.** -/
theorem Kind.pos_of_length? {kind : Kind} {prev : Option Char} {s : List Char} {n : Nat}
    (h : kind.length? prev s = some n) : 0 < n := by
  cases kind with
  | comment form => exact pos_of_commentLength? h
  | literal form =>
      exact Pattern.pos_of_length? (form.takesSome_pattern _) (LiteralForm.length?_pattern h)
  | keyword => exact pos_of_keywordLength? h
  | identifier =>
      cases s with
      | nil => simp [Kind.length?, nameLength?] at h
      | cons c rest =>
          simp only [Kind.length?, nameLength?] at h
          split at h
          · simp only [Option.some.injEq] at h
            omega
          · simp at h
  | quotedText | quotedEscape | whitespace => exact pos_of_positive? h
  | lineBreak =>
      simp only [Kind.length?] at h
      unfold lineBreakLength? at h
      split at h <;> simp at h <;> omega
  | command => exact pos_of_commandLength? h
  | operator => exact pos_of_operatorLength? h
  | openQuote | closeQuote | doubleColon | colon | semicolon | iterator | opening | closing =>
      exact Pattern.pos_of_length? rfl h

/-- A channel operator is a digit and a colon. -/
theorem exists_of_startsChannel {prev : Option Char} {s : List Char}
    (h : startsChannel prev s = true) : ∃ d rest, s = d :: ':' :: rest ∧ d.isDigit = true := by
  unfold startsChannel at h
  split at h
  · next d rest =>
      simp only [Bool.and_eq_true, decide_eq_true_eq] at h
      obtain ⟨⟨⟨-, hlow⟩, hhigh⟩, -⟩ := h
      refine ⟨d, rest, rfl, ?_⟩
      have hnine : d ≤ '9' := Char.le_trans hhigh (by decide)
      simpa [Char.isDigit] using ⟨hlow, hnine⟩
  · simp at h

/-! ### No token is longer than the text -/

theorem throughClosingMarker_le (fresh : Bool) (s : List Char) :
    throughClosingMarker fresh s ≤ s.length := by
  induction s generalizing fresh with
  | nil => exact Nat.le_refl _
  | cons c s ih =>
      rw [throughClosingMarker]
      split
      · exact length_firstLine_le _
      · have := ih (c == '\n')
        rw [List.length_cons]
        omega

theorem nameTail_le (s : List Char) : nameTail s ≤ s.length := by
  fun_induction nameTail s with
  | case1 => exact Nat.le_refl _
  | case2 c rest _ ih => rw [List.length_cons]; omega
  | case3 => exact Nat.zero_le _

theorem blankRun_le (s : List Char) : blankRun s ≤ s.length := by
  fun_induction blankRun s with
  | case1 => exact Nat.le_refl _
  | case2 c rest _ ih => rw [List.length_cons]; omega
  | case3 => exact Nat.zero_le _

theorem escapeRunLength_le (s : List Char) : escapeRunLength s ≤ s.length := by
  rw [escapeRunLength]
  fun_induction escapeUnits s with
  | case1 a b c rest hdigits ih =>
      simp only [List.foldr_cons, List.length_cons, List.length_nil]
      omega
  | case2 a b c rest hdigits ih =>
      simp only [List.foldr_cons, List.length_cons, List.length_nil] at ih ⊢
      omega
  | case3 a rest _ ih =>
      simp only [List.foldr_cons, List.length_cons, List.length_nil]
      omega
  | case4 => exact Nat.zero_le _

theorem eq_of_positive? {k n : Nat} (h : positive? k = some n) : k = n := by
  rw [positive?] at h
  split at h
  · simp at h
  · exact Option.some.inj h

/-- **No token is longer than the text** from which it is taken. -/
theorem Kind.length?_le {kind : Kind} {prev : Option Char} {s : List Char} {n : Nat}
    (h : kind.length? prev s = some n) : n ≤ s.length := by
  cases kind with
  | comment form =>
      cases form with
      | block =>
          simp only [Kind.length?, commentLength?] at h
          split at h
          · exact Option.some.inj h ▸ throughClosingMarker_le false s
          · simp at h
      | final =>
          simp only [Kind.length?, commentLength?] at h
          split at h
          · exact Nat.le_of_eq (Option.some.inj h).symm
          · simp at h
      | line =>
          simp only [Kind.length?, commentLength?] at h
          split at h
          · exact Option.some.inj h ▸ length_firstLine_le s
          · simp at h
  | literal form => exact Pattern.length?_le (LiteralForm.length?_pattern h)
  | keyword =>
      simp only [Kind.length?, keywordLength?] at h
      split at h
      · exact Option.some.inj h ▸ (List.takeWhile_prefix isWordChar).length_le
      · simp at h
  | identifier =>
      cases s with
      | nil => simp [Kind.length?, nameLength?] at h
      | cons c rest =>
          simp only [Kind.length?, nameLength?] at h
          split at h
          · have := nameTail_le rest
            rw [← Option.some.inj h, List.length_cons]
            omega
          · simp at h
  | quotedText =>
      exact eq_of_positive? h ▸ (List.takeWhile_prefix isPlainQuoted).length_le
  | quotedEscape => exact eq_of_positive? h ▸ escapeRunLength_le s
  | whitespace => exact eq_of_positive? h ▸ blankRun_le s
  | lineBreak =>
      simp only [Kind.length?] at h
      unfold lineBreakLength? at h
      split at h
      · simp at h
        simp [← h]
      · simp at h
        simp [← h]
      · simp at h
  | command =>
      simp only [Kind.length?] at h
      unfold commandLength? at h
      split at h
      · split at h
        · exact Option.some.inj h ▸ length_firstLine_le _
        · simp at h
      · simp at h
  | operator =>
      simp only [Kind.length?, operatorLength?] at h
      split at h
      · next hchannel =>
          obtain ⟨d, rest, rfl, -⟩ := exists_of_startsChannel hchannel
          rw [← Option.some.inj h]
          simp
      · exact Pattern.length?_le h
  | openQuote | closeQuote | doubleColon | colon | semicolon | iterator | opening | closing =>
      exact Pattern.length?_le h

/-! ### Tokens of code hold characters of code -/

/-- The kinds whose tokens may hold any character: comments, commands, and the pieces of quoted
texts. -/
def Kind.isFree : Kind → Bool
  | .comment _ | .command | .quotedText | .quotedEscape => true
  | _ => false

/-- A pattern all of whose classes are characters of code. -/
abbrev IsCode (p : Pattern) : Prop := p.Within (isCodeChar · = true)

theorem isCode_oneOf {choices : String} :
    IsCode (oneOf choices) ↔ choices.toList.all isCodeChar = true :=
  within_oneOf.trans List.all_eq_true.symm

theorem isCode_char {c : Char} (h : isCodeChar c = true) : IsCode (char c) := within_char.2 h

theorem isCodeChar_of_isWordChar_or {extra : List Char} (h : extra.all isCodeChar = true) {c : Char}
    (hc : (isWordChar c || extra.contains c) = true) : isCodeChar c = true := by
  rcases (Bool.or_eq_true _ _).mp hc with hc | hc
  · exact isCodeChar_of_isWordChar hc
  · exact List.all_eq_true.1 h c (List.contains_iff_mem.1 hc)

/-- Literals are made of characters of code. -/
theorem LiteralForm.isCode_pattern (form : LiteralForm) (signed : Bool) :
    IsCode (form.pattern signed) := by
  have hdigit : ∀ c : Char, c.isDigit = true → isCodeChar c = true :=
    fun _ => isCodeChar_of_isDigit
  have hrun : IsCode (.run Char.isDigit) := hdigit
  have hmost : ∀ count, IsCode (.atMost count Char.isDigit) := fun _ => hdigit
  have hmore : IsCode (oneOrMore Char.isDigit) := within_oneOrMore.2 hdigit
  have hdigits : ∀ count, IsCode (digits count) := within_exactly hdigit
  have hsign : IsCode (sign signed) := by
    cases signed with
    | false => exact trivial
    | true => exact isCode_char rfl
  cases form with
  | symbol =>
      refine ⟨⟨isCode_char rfl, trivial⟩, fun c hc => ?_⟩
      have hpoint : (isWordChar c || ['.'].contains c) = true := by simpa using hc
      exact isCodeChar_of_isWordChar_or rfl hpoint
  | filePath =>
      refine ⟨⟨isCode_char rfl, isCode_char rfl⟩, fun c hc => ?_⟩
      exact isCodeChar_of_isWordChar_or rfl hc
  | infinity =>
      simp only [LiteralForm.pattern, wordEnd, within_append, within_opt, within_char,
        within_notBefore, isCode_oneOf, hsign]
      decide
  | bits =>
      refine ⟨⟨within_oneOrMore.2 fun c hc => ?_, isCode_char rfl⟩, trivial⟩
      rcases (Bool.or_eq_true _ _).mp hc with hc | hc <;> rw [beq_iff_eq.1 hc] <;> rfl
  | bytes =>
      refine ⟨⟨⟨isCode_char rfl, isCode_char rfl⟩, fun c hc => ?_⟩, trivial⟩
      exact isCodeChar_of_isWordChar (isWordChar_of_isHexDigit hc)
  | number =>
      simp only [LiteralForm.pattern, decimal, exponent, within_append, within_or, within_opt,
        within_char, isCode_oneOf, hrun, hmore, hsign]
      decide
  | _ =>
      simp only [LiteralForm.pattern, wordEnd, calendarDay, clock, fraction, minutesOnward,
        nanosecondsOfDay, within_append, within_or, within_opt, within_char, within_notBefore,
        hmost, hmore, hdigits]
      decide

theorem mem_take_takeWhile {accepts : Char → Bool} {s : List Char} {c : Char}
    (h : c ∈ s.take (s.takeWhile accepts).length) : accepts c = true := by
  rw [← List.prefix_iff_eq_take.1 (List.takeWhile_prefix accepts)] at h
  exact List.all_eq_true.1 List.all_takeWhile c h

/-- A keyword is made of characters of words. -/
theorem isWordChar_of_mem_keyword {prev : Option Char} {s : List Char} {n : Nat}
    (h : keywordLength? prev s = some n) : ∀ c ∈ s.take n, isWordChar c = true := by
  simp only [keywordLength?] at h
  split at h
  · rw [Option.some.injEq] at h
    intro c hc
    rw [← h] at hc
    exact mem_take_takeWhile hc
  · simp at h

/-- What continues a name is made of points and of characters of words. -/
theorem isWordChar_or_eq_of_mem_nameTail (s : List Char) :
    ∀ c ∈ s.take (nameTail s), isWordChar c = true ∨ c = '.' := by
  fun_induction nameTail s with
  | case1 => simp
  | case2 c rest hc ih =>
      simp only [Bool.or_eq_true, Bool.and_eq_true, beq_iff_eq] at hc
      rw [Nat.add_comm, List.take_succ_cons]
      exact List.forall_mem_cons.2 ⟨hc.imp_right And.left, ih⟩
  | case3 => simp

/-- A name is made of points and of characters of words. -/
theorem isWordChar_or_eq_of_mem_name {s : List Char} {n : Nat} (h : nameLength? s = some n) :
    ∀ c ∈ s.take n, isWordChar c = true ∨ c = '.' := by
  cases s with
  | nil => simp
  | cons c rest =>
      simp only [nameLength?] at h
      split at h
      · next hc =>
          simp only [Bool.or_eq_true, Bool.and_eq_true, beq_iff_eq] at hc
          rw [Option.some.injEq] at h
          rw [← h, Nat.add_comm, List.take_succ_cons]
          exact List.forall_mem_cons.2
            ⟨hc.imp isWordChar_of_isAlpha And.left, isWordChar_or_eq_of_mem_nameTail rest⟩
      · simp at h

theorem isCodeChar_of_mem_blankRun (s : List Char) :
    ∀ c ∈ s.take (blankRun s), isCodeChar c = true := by
  fun_induction blankRun s with
  | case1 => simp
  | case2 c rest hc ih =>
      have hcode : isCodeChar c = true := by
        simp only [Bool.or_eq_true, Bool.and_eq_true, beq_iff_eq] at hc
        rcases hc with hc | ⟨rfl, -⟩
        · exact isCodeChar_of_isBlank hc
        · decide
      rw [Nat.add_comm, List.take_succ_cons]
      exact List.forall_mem_cons.2 ⟨hcode, ih⟩
  | case3 => simp

theorem isCodeChar_of_mem_lineBreak {s : List Char} {n : Nat} (h : lineBreakLength? s = some n) :
    ∀ c ∈ s.take n, isCodeChar c = true := by
  unfold lineBreakLength? at h
  split at h
  · obtain rfl : 1 = n := Option.some.inj h
    exact List.forall_mem_cons.2 ⟨rfl, List.forall_mem_nil _⟩
  · obtain rfl : 2 = n := Option.some.inj h
    exact List.forall_mem_cons.2 ⟨rfl, List.forall_mem_cons.2 ⟨rfl, List.forall_mem_nil _⟩⟩
  · simp at h

theorem isCode_operatorPattern : IsCode operatorPattern := by
  simp only [operatorPattern, within_or, within_append, within_char, isCode_oneOf]
  decide

theorem isCode_iteratorPattern : IsCode iteratorPattern := ⟨isCode_oneOf.2 rfl, isCode_char rfl⟩

theorem isCode_doubleColon : IsCode (char ':' ++ char ':') := ⟨isCode_char rfl, isCode_char rfl⟩

theorem isCodeChar_of_mem_operator {prev : Option Char} {s : List Char} {n : Nat}
    (h : operatorLength? prev s = some n) : ∀ c ∈ s.take n, isCodeChar c = true := by
  rw [operatorLength?] at h
  split at h
  · next hchannel =>
      obtain ⟨d, rest, rfl, hd⟩ := exists_of_startsChannel hchannel
      obtain rfl : 2 = n := Option.some.inj h
      exact List.forall_mem_cons.2 ⟨isCodeChar_of_isDigit hd,
        List.forall_mem_cons.2 ⟨rfl, List.forall_mem_nil _⟩⟩
  · exact forall_mem_take isCode_operatorPattern h

/-- **Tokens that are not free hold characters of code only.** -/
theorem Kind.isCodeChar_of_length? {kind : Kind} (hfree : kind.isFree = false)
    {prev : Option Char} {s : List Char} {n : Nat} (h : kind.length? prev s = some n) :
    ∀ c ∈ s.take n, isCodeChar c = true := by
  cases kind with
  | comment | command | quotedText | quotedEscape => simp [isFree] at hfree
  | literal form => exact forall_mem_take (form.isCode_pattern _) (LiteralForm.length?_pattern h)
  | keyword => exact fun c hc => isCodeChar_of_isWordChar (isWordChar_of_mem_keyword h c hc)
  | identifier =>
      intro c hc
      rcases isWordChar_or_eq_of_mem_name h c hc with hword | rfl
      · exact isCodeChar_of_isWordChar hword
      · decide
  | whitespace =>
      simp only [Kind.length?, positive?] at h
      split at h
      · simp at h
      · exact Option.some.inj h ▸ isCodeChar_of_mem_blankRun s
  | lineBreak => exact isCodeChar_of_mem_lineBreak h
  | operator => exact isCodeChar_of_mem_operator h
  | iterator => exact forall_mem_take isCode_iteratorPattern h
  | doubleColon => exact forall_mem_take isCode_doubleColon h
  | colon | semicolon | openQuote | closeQuote => exact forall_mem_take (isCode_char rfl) h
  | opening pair | closing pair => cases pair <;> exact forall_mem_take (isCode_char rfl) h

/-! ### Characters of code start tokens -/

section

variable (prev : Option Char) {c : Char} (rest : List Char)

theorem isSome_number (hc : c.isDigit = true) (hchannel : startsChannel prev (c :: rest) ≠ true) :
    (LiteralForm.number.length? prev (c :: rest)).isSome = true := by
  have hminus : c ≠ '-' := by
    rintro rfl
    simp at hc
  have hsign : ∀ signed, (sign signed).length? (c :: rest) = some 0 := by
    intro signed
    cases signed <;> simp [sign, char, Pattern.length?, hminus]
  have hdecimal : (decimal.length? (c :: rest)).isSome = true := by
    rw [decimal, isSome_length?_alt, isSome_length?_append_opt, isSome_length?_oneOrMore, hc]
    rfl
  rw [LiteralForm.length?, if_neg (by simp [hchannel]), LiteralForm.pattern,
    isSome_length?_append_opt, isSome_length?_append_opt, length?_seq, hsign]
  simpa using hdecimal

theorem isSome_operator (hc : c ∈ "=<>+-*%!@#$&|^~,._?".toList) :
    (operatorLength? prev (c :: rest)).isSome = true := by
  rw [operatorLength?]
  split
  · rfl
  · rw [operatorPattern, isSome_length?_alt, isSome_length?_alt, isSome_length?_oneOf,
      List.contains_iff_mem.2 hc, Bool.or_true, Bool.or_true]

/-- A backtick starts a file path if a colon follows, and a symbol otherwise. -/
theorem exists_isSome_backtick :
    ∃ kind ∈ codeKinds, (kind.length? prev ('`' :: rest)).isSome = true := by
  cases rest with
  | nil => exact ⟨.literal .symbol, by decide, rfl⟩
  | cons d rest =>
      by_cases hcolon : d = ':'
      · refine ⟨.literal .filePath, by decide, ?_⟩
        simp [Kind.length?, LiteralForm.length?, LiteralForm.pattern, length?_seq, char,
          Pattern.length?, hcolon]
      · refine ⟨.literal .symbol, by decide, ?_⟩
        simp [Kind.length?, LiteralForm.length?, LiteralForm.pattern, length?_seq, char,
          Pattern.length?, hcolon]

/-- **Every character of code can start a token**, whatever stands before and behind it. -/
theorem Kind.exists_length?_of_isCodeChar (h : isCodeChar c = true) :
    ∃ kind ∈ codeKinds, (kind.length? prev (c :: rest)).isSome = true := by
  rcases isCodeChar_cases h with hc | rfl | rfl | hc | hc | hc | hc | hc
  · refine ⟨.whitespace, by decide, ?_⟩
    simp [Kind.length?, positive?, blankRun, hc]
  · exact ⟨.lineBreak, by decide, rfl⟩
  · by_cases hfeed : rest.head? = some '\n'
    · obtain ⟨rest, rfl⟩ := List.head?_eq_some_iff.1 hfeed
      exact ⟨.lineBreak, by decide, rfl⟩
    · refine ⟨.whitespace, by decide, ?_⟩
      simp [Kind.length?, positive?, blankRun, hfeed]
  · by_cases hchannel : startsChannel prev (c :: rest) = true
    · refine ⟨.operator, by decide, ?_⟩
      simp [Kind.length?, operatorLength?, hchannel]
    · exact ⟨.literal .number, by decide, isSome_number prev rest hc hchannel⟩
  · refine ⟨.identifier, by decide, ?_⟩
    simp [Kind.length?, nameLength?, hc]
  · exact ⟨.operator, by decide, isSome_operator prev rest hc⟩
  · refine ⟨.iterator, by decide, ?_⟩
    rw [Kind.length?, iteratorPattern, isSome_length?_append_opt, isSome_length?_oneOf]
    exact List.contains_iff_mem.2 hc
  · have hsign : c = '"' ∨ c = '`' ∨ c = ':' ∨ c = ';' ∨ c = '(' ∨ c = ')' ∨ c = '[' ∨ c = ']' ∨
        c = '\x7b' ∨ c = '\x7d' := by simpa using hc
    rcases hsign with rfl | rfl | rfl | rfl | rfl | rfl | rfl | rfl | rfl | rfl
    · exact ⟨.openQuote, by decide, rfl⟩
    · exact exists_isSome_backtick prev rest
    · exact ⟨.colon, by decide, rfl⟩
    · exact ⟨.semicolon, by decide, rfl⟩
    · exact ⟨.opening .paren, by decide, rfl⟩
    · exact ⟨.closing .paren, by decide, rfl⟩
    · exact ⟨.opening .bracket, by decide, rfl⟩
    · exact ⟨.closing .bracket, by decide, rfl⟩
    · exact ⟨.opening .brace, by decide, rfl⟩
    · exact ⟨.closing .brace, by decide, rfl⟩

end

end QSource
