/-
**A minus sign behind an operand.**

Whether a minus sign opens a negative number is decided from one character, the one before it.  For the
tokens this comes to what one would say of them: behind a token that ends an operand a minus sign
subtracts.  What such a token ends with is one of few characters, and behind each of these the sign is
none of a number.  A file path is the exception, for it may end with anything that stands in a path; but
it takes a minus sign too, so none is left behind it.

Main definitions:

* `QSource.endsOperand` — the characters behind which a minus sign subtracts;
* `QSource.Kind.endsOperand` — **the kinds of tokens that end an operand**.

Main results:

* `QSource.Kind.getLast?_of_endsOperand` — what a token that ends an operand can end with;
* `QSource.Kind.first?_minus` — a minus sign is an operator where no number may open with one;
* `QSource.minus_behind_operand` — **behind an operand a minus sign is an operator of its own**.
-/

import QSource.Proofs.Token.Words

set_option relaxedAutoImplicit false
set_option autoImplicit false

namespace QSource

open Text Pattern

/-! ### The ends of operands -/

/-- The characters behind which a minus sign subtracts: those of words, the point, closing brackets, the
quote and the backtick. -/
def endsOperand (c : Char) : Bool := isWordChar c || ".)]\x7d\"`".toList.contains c

theorem mayBeSigned_some (c : Char) : mayBeSigned (some c) = !endsOperand c := rfl

/-- **The token ends an operand**: it is a word, a literal, the end of a quoted text, or a closing
delimiter. -/
def Kind.endsOperand : Kind → Bool
  | .identifier | .keyword | .literal _ | .closeQuote | .closing _ => true
  | _ => false

theorem endsOperand_of_isWordChar {c : Char} (h : isWordChar c = true) : endsOperand c = true := by
  simp [endsOperand, h]

/-- Every form of literal but a file path ends with a character behind which a minus sign subtracts. -/
theorem LiteralForm.endsIn_pattern {form : LiteralForm} (hform : form ≠ .filePath) (signed : Bool) :
    (form.pattern signed).EndsIn fun c => endsOperand c = true := by
  have hdigit : ∀ c : Char, c.isDigit = true → endsOperand c = true :=
    fun _ hc => endsOperand_of_isWordChar (isWordChar_of_isDigit hc)
  have hrun : (run Char.isDigit).EndsIn fun c => endsOperand c = true := hdigit
  have hmost : ∀ count, (atMost count Char.isDigit).EndsIn fun c => endsOperand c = true :=
    fun _ => hdigit
  have hmore : (oneOrMore Char.isDigit).EndsIn fun c => endsOperand c = true :=
    (within_oneOrMore.2 hdigit).endsIn
  have hdigits : ∀ count, (digits count).EndsIn fun c => endsOperand c = true :=
    fun count => (within_exactly hdigit count).endsIn
  have hletters : ∀ letters : String, letters.toList.all endsOperand = true →
      (oneOf letters).EndsIn fun c => endsOperand c = true :=
    fun _ hall => endsIn_oneOf.2 (List.all_eq_true.1 hall)
  have hdecimal := hletters "hijef" (by decide)
  have hinfinity := And.intro (hletters "wWnN" (by decide)) (hletters "hijefcpmdznuvtg" (by decide))
  cases form with
  | filePath => exact absurd rfl hform
  | symbol =>
      refine ⟨fun c hc => ?_, .inr ⟨trivial, .inr (endsIn_char.2 (by decide))⟩⟩
      rcases (Bool.or_eq_true _ _).mp hc with hc | hc
      · exact endsOperand_of_isWordChar hc
      · rw [beq_iff_eq.1 hc]
        decide
  | bits => exact ⟨trivial, .inr ⟨endsIn_char.2 (by decide), .inl rfl⟩⟩
  | bytes =>
      refine ⟨trivial, .inr ⟨fun c hc => ?_, .inr ⟨endsIn_char.2 (by decide), .inl rfl⟩⟩⟩
      exact endsOperand_of_isWordChar (isWordChar_of_isHexDigit hc)
  | infinity | number =>
      -- the sign comes first, and something has to follow it, as has a digit where an exponent has a sign
      have hsome : (oneOrMore Char.isDigit).takesSome = true := rfl
      cases signed <;>
        simp only [LiteralForm.pattern, sign, wordEnd, decimal, exponent, endsIn_append, endsIn_or,
          endsIn_opt, endsIn_char, endsIn_notBefore, endsIn_empty, hrun, hmore, hsome, hdecimal,
          hinfinity, true_or, Bool.false_eq_true, if_false, if_true] <;>
        decide
  | _ =>
      simp only [LiteralForm.pattern, wordEnd, calendarDay, clock, fraction, minutesOnward,
        nanosecondsOfDay, endsIn_append, endsIn_or, endsIn_opt, endsIn_char, endsIn_notBefore,
        hmost, hmore, hdigits]
      decide

/-- **What a token that ends an operand can end with**: a file path with anything, but no minus sign
follows it; every other one with a character behind which a minus sign subtracts. -/
theorem Kind.getLast?_of_endsOperand {kind : Kind} (hkind : kind.endsOperand = true)
    {prev : Option Char} {s : List Char} {n : Nat} (h : kind.length? prev s = some n) :
    (s.drop n).head? ≠ some '-' ∨ ∀ c ∈ (s.take n).getLast?, QSource.endsOperand c = true := by
  cases kind with
  | literal form =>
      rw [Kind.length?, LiteralForm.length?] at h
      split at h
      · simp at h
      · by_cases hform : form = .filePath
        · subst hform
          refine .inl fun hminus => ?_
          have hstops := head?_drop_of_run h '-' hminus
          exact absurd hstops (by decide)
        · exact .inr (getLast?_take (LiteralForm.endsIn_pattern hform _) h)
  | keyword =>
      refine .inr fun c hc => ?_
      exact endsOperand_of_isWordChar (isWordChar_of_mem_keyword h c (List.mem_of_getLast? hc))
  | identifier =>
      refine .inr fun c hc => ?_
      rcases isWordChar_or_eq_of_mem_name h c (List.mem_of_getLast? hc) with hword | rfl
      · exact endsOperand_of_isWordChar hword
      · decide
  | closeQuote => exact .inr (getLast?_take (endsIn_char.2 (by decide)) h)
  | closing pair =>
      refine .inr (getLast?_take (endsIn_char.2 ?_) h)
      cases pair <;> decide
  | _ => simp [Kind.endsOperand] at hkind

/-! ### A minus sign -/

section

variable {prev : Option Char} (hprev : mayBeSigned prev = false) (rest : List Char)

include hprev

/-- **A minus sign is an operator where no number may open with one.** -/
theorem Kind.first?_minus : Kind.first? codeKinds prev ('-' :: rest) = some (.operator, 1) := by
  have hchannel : startsChannel prev ('-' :: rest) = false := startsChannel_of_not_isDigit rest rfl
  refine Kind.first?_of_unique (by decide) (by rw [Kind.length?, operatorLength?, hchannel]; rfl) ?_
  intro kind hkind hne
  cases kind with
  | comment form => exact commentLength?_of_ne rest (by decide) (by decide) form
  | literal form =>
      refine LiteralForm.length?_of_refuses rest ?_
      rw [hprev]
      cases form <;> rfl
  | keyword =>
      rw [Kind.length?]
      exact keywordLength?_of_not_isAlpha rest (by decide)
  | identifier =>
      rw [Kind.length?]
      exact nameLength?_of_not_isAlpha rest (by decide) (by decide)
  | command =>
      rw [Kind.length?]
      exact commandLength?_of_ne rest (by decide)
  | operator => exact absurd rfl hne
  | quotedText | quotedEscape | closeQuote => simp [codeKinds] at hkind
  | whitespace | lineBreak | openQuote | doubleColon | colon | semicolon | iterator => rfl
  | opening pair | closing pair => cases pair <;> rfl

end

section

variable {source : String} {tokens before behind : List Token} {x y : Token}
  (h : tokenize source = .ok tokens) (hsplit : tokens = before ++ x :: y :: behind)
  (hx : x.kind.endsOperand = true)

include h hsplit hx

/-- No number may open with a minus sign that stands directly behind a token that ends an operand. -/
theorem mayBeSigned_behind_operand (hminus : y.chars.head? = some '-') :
    mayBeSigned (Lexeme.join ((before ++ [x]).map (·.toLexeme))).getLast? = false := by
  obtain ⟨prev, hlength⟩ := exists_length?_of_eq_append h hsplit
  have hne : x.chars ≠ [] := chars_ne_nil_of_tokenize h (by simp [hsplit])
  obtain ⟨c, hc⟩ := Option.ne_none_iff_exists'.1 (mt List.getLast?_eq_none_iff.1 hne)
  have hlast : (Lexeme.join ((before ++ [x]).map (·.toLexeme))).getLast? = some c := by
    simp [Lexeme.join_append, hc]
  have hends := Kind.getLast?_of_endsOperand hx hlength
  rw [List.drop_left, List.take_left, List.map_cons, Lexeme.join_cons, List.head?_append, hminus,
    Option.some_or] at hends
  rcases hends with hstops | hends
  · exact absurd rfl hstops
  · rw [hlast, mayBeSigned_some, hends c hc, Bool.not_true]

/-- **Behind a token that ends an operand a minus sign is an operator of its own**, and so it opens
neither a number nor an infinity. -/
theorem minus_behind_operand :
    (y.kind = .literal .number ∨ y.kind = .literal .infinity → y.chars.head? ≠ some '-') ∧
      (y.chars.head? = some '-' → y.kind = .operator ∧ y.chars = ['-']) := by
  have hoperator : y.chars.head? = some '-' → y.kind = .operator ∧ y.chars = ['-'] := by
    intro hminus
    have houtside : x.kind.ofQuote = false ∨ x.kind = .closeQuote := by
      cases hkind : x.kind <;> simp [hkind, Kind.endsOperand, Kind.ofQuote] at hx ⊢
    have hsigned := mayBeSigned_behind_operand h hsplit hx hminus
    have hfirst := first?_next h hsplit houtside
    obtain ⟨rest, hrest⟩ := List.head?_eq_some_iff.1 hminus
    rw [hrest, List.cons_append, Kind.first?_minus hsigned, Option.some.injEq, Prod.mk.injEq,
      List.length_cons] at hfirst
    obtain rfl : rest = [] := List.length_eq_zero_iff.1 (by omega)
    exact ⟨hfirst.1.symm, hrest⟩
  refine ⟨?_, hoperator⟩
  intro hkind hminus
  rcases hkind with hkind | hkind <;> simp [hoperator hminus] at hkind

end

/-- A file path that ends with a minus sign, a number that ends with a point, and a name: the sign that
follows the number subtracts, and so does the one that follows the name. -/
theorem minus_behind_operand_chain :
    let source := "`:a/- -1.-x--2"
    let tokens := Lexeme.layOut [⟨.literal .filePath, "`:a/-"⟩, ⟨.whitespace, " "⟩,
      ⟨.literal .number, "-1."⟩, ⟨.operator, "-"⟩, ⟨.identifier, "x"⟩, ⟨.operator, "-"⟩,
      ⟨.literal .number, "-2"⟩]
    tokenize source = .ok tokens ∧ tokens[2].kind.endsOperand = true ∧
      tokens[3].chars = ['-'] ∧ tokens[3].kind = .operator ∧ tokens[4].kind.endsOperand = true ∧
      tokens[5].kind = .operator := by
  intro source tokens
  have h : tokenize source = .ok tokens := by decide +kernel
  have hnumber := (@minus_behind_operand source tokens (tokens.take 2) (tokens.drop 4) tokens[2] tokens[3]
    h rfl rfl).2 (by decide +kernel)
  have hname := (@minus_behind_operand source tokens (tokens.take 4) (tokens.drop 6) tokens[4] tokens[5]
    h rfl rfl).2 (by decide +kernel)
  exact ⟨h, rfl, hnumber.2, hnumber.1, rfl, hname.1⟩

end QSource
