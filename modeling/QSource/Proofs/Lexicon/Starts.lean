/-
**How tokens start.**

The first character of a text rules out most of the kinds: a pattern opens with a class of
characters, perhaps behind a sign that may be left out, and comments, commands and words have their
own openings.  A line feed and a semicolon leave one kind each.

Main definitions:

* `QSource.Pattern.refuses` — no text that opens with a character fits a pattern.

Main results:

* `QSource.Pattern.length?_of_refuses` — **a pattern that refuses the first character does not fit**;
* `QSource.Kind.length?_of_separator` — a separator starts no literal, word or operator;
* `QSource.Kind.first?_lineFeed`, `QSource.Kind.first?_semicolon` — **a line feed and a semicolon are
  tokens of their own**, whatever stands around them.
-/

import QSource.Proofs.Lexicon.Locality

set_option relaxedAutoImplicit false
set_option autoImplicit false

namespace QSource

open Text Pattern

namespace Pattern

/-- No text that opens with `c` fits the pattern, as its opening class shows; a part that may be left
out at its start is passed over. -/
def refuses (c : Char) : Pattern → Bool
  | .one accepts => !accepts c
  | .seq .empty second => second.refuses c
  | .seq (.opt part) second => part.refuses c && second.refuses c
  | .seq first _ => first.refuses c
  | .alt first second => first.refuses c && second.refuses c
  | _ => false

/-- **A pattern that refuses the first character of a text does not fit it.** -/
theorem length?_of_refuses {p : Pattern} {c : Char} (h : p.refuses c = true) (rest : List Char) :
    p.length? (c :: rest) = none := by
  fun_induction refuses c p with
  | case1 accepts => simp_all [length?]
  | case2 second ih => simp [length?, ih h]
  | case3 part second ihpart ihsecond =>
      rw [Bool.and_eq_true] at h
      simp [length?, ihpart h.1, ihsecond h.2]
  | case4 first second _ _ ih => simp [length?, ih h]
  | case5 first second ihfirst ihsecond =>
      rw [Bool.and_eq_true] at h
      simp [length?, ihfirst h.1, ihsecond h.2]
  | case6 => simp at h

end Pattern

section

variable {prev : Option Char} {c : Char} (rest : List Char)

theorem LiteralForm.length?_of_refuses {form : LiteralForm}
    (h : (form.pattern (mayBeSigned prev)).refuses c = true) :
    form.length? prev (c :: rest) = none := by
  rw [LiteralForm.length?, Pattern.length?_of_refuses h, ite_self]

theorem isMarkerLine_of_ne {marker : Char} (hc : c ≠ marker) :
    isMarkerLine marker (firstLine (c :: rest)) = false := by
  unfold firstLine
  split
  · rfl
  · rfl
  · rfl
  · next heq =>
      obtain ⟨rfl, rfl⟩ := List.cons.inj heq
      simp [isMarkerLine, hc]

/-- Comments open with one of the two slashes. -/
theorem commentLength?_of_ne (hslash : c ≠ '/') (hback : c ≠ '\\') (form : CommentForm) :
    commentLength? form prev (c :: rest) = none := by
  cases form with
  | block => simp [commentLength?, isMarkerLine_of_ne rest hslash]
  | final => simp [commentLength?, isMarkerLine_of_ne rest hback]
  | line => simp [commentLength?, hslash]

theorem commandLength?_of_ne (hback : c ≠ '\\') : commandLength? prev (c :: rest) = none := by
  simp [commandLength?, hback]

theorem keywordLength?_of_not_isAlpha (hc : c.isAlpha = false) :
    keywordLength? prev (c :: rest) = none := by
  simp [keywordLength?, hc]

theorem nameLength?_of_not_isAlpha (hc : c.isAlpha = false) (hpoint : c ≠ '.') :
    nameLength? (c :: rest) = none := by
  simp [nameLength?, hc, hpoint]

theorem startsChannel_of_not_isDigit (hc : c.isDigit = false) :
    startsChannel prev (c :: rest) = false := by
  rw [Bool.eq_false_iff]
  intro h
  obtain ⟨d, rest', hcons, hd⟩ := exists_of_startsChannel h
  obtain ⟨rfl, -⟩ := List.cons.inj hcons
  simp [hc] at hd

/-- **A separator starts no literal, word or operator**, and no comment, command, quote or bracket
either. -/
theorem Kind.length?_of_separator {kind : Kind} (hkind : kind ∈ codeKinds)
    (hc : isSeparator c = true) (hblank : kind ≠ .whitespace) (hbreak : kind ≠ .lineBreak)
    (hsemicolon : kind ≠ .semicolon) : kind.length? prev (c :: rest) = none := by
  have hpattern : ∀ p : Pattern, p.refuses '\n' = true → p.refuses '\r' = true →
      p.refuses ';' = true → p.length? (c :: rest) = none := by
    intro p hfeed hreturn hmark
    rcases eq_of_isSeparator hc with rfl | rfl | rfl
    · exact Pattern.length?_of_refuses hfeed rest
    · exact Pattern.length?_of_refuses hreturn rest
    · exact Pattern.length?_of_refuses hmark rest
  have hclass : ∀ accepts : Char → Bool, accepts '\n' = false → accepts '\r' = false →
      accepts ';' = false → accepts c = false := by
    intro accepts hfeed hreturn hmark
    rcases eq_of_isSeparator hc with rfl | rfl | rfl
    · exact hfeed
    · exact hreturn
    · exact hmark
  have hne : ∀ d, isSeparator d = false → c ≠ d := by
    rintro d hd rfl
    exact Bool.false_ne_true (hd.symm.trans hc)
  cases kind with
  | comment form =>
      exact commentLength?_of_ne rest (hne '/' (by decide)) (hne '\\' (by decide)) form
  | literal form =>
      have hform : ∀ signed, (form.pattern signed).refuses c = true := by
        intro signed
        rcases eq_of_isSeparator hc with rfl | rfl | rfl <;>
          cases form <;> cases signed <;> rfl
      exact LiteralForm.length?_of_refuses rest (hform _)
  | keyword => exact keywordLength?_of_not_isAlpha rest (hclass Char.isAlpha rfl rfl rfl)
  | identifier =>
      exact nameLength?_of_not_isAlpha rest (hclass Char.isAlpha rfl rfl rfl) (hne '.' (by decide))
  | command => exact commandLength?_of_ne rest (hne '\\' (by decide))
  | operator =>
      rw [Kind.length?, operatorLength?,
        startsChannel_of_not_isDigit rest (hclass Char.isDigit rfl rfl rfl)]
      exact hpattern operatorPattern rfl rfl rfl
  | whitespace => exact absurd rfl hblank
  | lineBreak => exact absurd rfl hbreak
  | semicolon => exact absurd rfl hsemicolon
  | quotedText | quotedEscape | closeQuote => simp [codeKinds] at hkind
  | openQuote | doubleColon | colon | iterator => exact hpattern _ rfl rfl rfl
  | opening pair | closing pair => cases pair <;> exact hpattern _ rfl rfl rfl

/-- A kind that fits is the first one if no earlier kind fits. -/
theorem Kind.first?_of_earlier {table : List Kind} {s : List Char} {kind : Kind} {n : Nat}
    (hmem : kind ∈ table) (h : kind.length? prev s = some n)
    (hearlier : ∀ k ∈ table.takeWhile (· != kind), k.length? prev s = none) :
    Kind.first? table prev s = some (kind, n) := by
  induction table with
  | nil => simp at hmem
  | cons k table ih =>
      by_cases heq : k = kind
      · simp [Kind.first?, heq, h]
      · rw [List.takeWhile_cons_of_pos (by simpa using heq)] at hearlier
        obtain ⟨hk, htable⟩ := List.forall_mem_cons.1 hearlier
        have hrest := (List.mem_cons.1 hmem).resolve_left (Ne.symm heq)
        simpa [Kind.first?, hk] using ih hrest htable

theorem Kind.first?_of_unique {table : List Kind} {s : List Char} {kind : Kind} {n : Nat}
    (hmem : kind ∈ table) (h : kind.length? prev s = some n)
    (hunique : ∀ k ∈ table, k ≠ kind → k.length? prev s = none) :
    Kind.first? table prev s = some (kind, n) := by
  refine Kind.first?_of_earlier hmem h fun k hk => hunique k ?_ ?_
  · exact (List.takeWhile_prefix _).subset hk
  · simpa using List.all_eq_true.1 List.all_takeWhile k hk

/-- **A line feed is a token of its own**, whatever stands around it. -/
theorem Kind.first?_lineFeed (prev : Option Char) :
    Kind.first? codeKinds prev ('\n' :: rest) = some (.lineBreak, 1) := by
  refine Kind.first?_of_unique (by decide) rfl fun k hk hne => ?_
  by_cases hblank : k = .whitespace
  · rw [hblank]
    rfl
  · by_cases hsemicolon : k = .semicolon
    · rw [hsemicolon]
      rfl
    · exact Kind.length?_of_separator rest hk rfl hblank hne hsemicolon

/-- **A semicolon is a token of its own**, whatever stands around it. -/
theorem Kind.first?_semicolon (prev : Option Char) :
    Kind.first? codeKinds prev (';' :: rest) = some (.semicolon, 1) := by
  refine Kind.first?_of_unique (by decide) rfl fun k hk hne => ?_
  by_cases hblank : k = .whitespace
  · rw [hblank]
    rfl
  · by_cases hbreak : k = .lineBreak
    · rw [hbreak]
      rfl
    · exact Kind.length?_of_separator rest hk rfl hblank hbreak hne

end

end QSource
