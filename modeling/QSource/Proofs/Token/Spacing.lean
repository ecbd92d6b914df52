/-
**How blanks and comments follow one another.**

Blanks are read in runs that are as long as possible, so one token of blanks never stands behind another.
And a comment ends where a line ends or with the text: of the three forms one ends with its line, one with
the line of its closing marker, and one with the text.  So between two tokens that are no layout, and on
one line, there is at most one token, and it holds blanks.

Main definitions:

* `QSource.Kind.MayPrecede` — **what stands directly behind blanks and comments**.

Main results:

* `QSource.firstLine_drop_of_commentLength?` — a comment ends where a line ends;
* `QSource.isChain_mayPrecede` — **the tokens of a text follow one another in this way**;
* `QSource.eq_of_isChain_mayPrecede` — between two tokens on one line there is at most one token of blanks.
-/

import Mathlib.Data.List.Chain
import QSource.Proofs.Lexicon.Blocks
import QSource.Proofs.Token.Readings

set_option relaxedAutoImplicit false
set_option autoImplicit false

namespace QSource

open Text

/-- **What may stand directly behind a token**: no further blanks behind blanks, and nothing but the end of
the line behind a comment. -/
structure Kind.MayPrecede (kind next : Kind) : Prop where
  blanks : kind = .whitespace → next ≠ .whitespace
  comment : ∀ form, kind = .comment form → next = .lineBreak

/-! ### Where runs end -/

/-- A run of blanks is as long as possible. -/
theorem blankRun_drop (s : List Char) : blankRun (s.drop (blankRun s)) = 0 := by
  fun_induction blankRun s with
  | case1 => rfl
  | case2 c rest hc ih => rwa [Nat.add_comm, List.drop_succ_cons]
  | case3 c rest hc => simp [blankRun, hc]

/-- The first line stops where a line ends. -/
theorem firstLine_drop (s : List Char) : firstLine (s.drop (firstLine s).length) = [] := by
  fun_induction firstLine s with
  | case1 => rfl
  | case2 => rfl
  | case3 => rfl
  | case4 c rest _ _ ih => exact ih

/-- **A comment ends where a line ends**, or with the text. -/
theorem firstLine_drop_of_commentLength? {form : CommentForm} {prev : Option Char} {s : List Char}
    {n : Nat} (h : commentLength? form prev s = some n) : firstLine (s.drop n) = [] := by
  cases form with
  | block =>
      have hstart : atLineStart prev = true := by
        by_contra hstart
        simp [commentLength?, hstart] at h
      rw [commentLength?_block hstart] at h
      obtain ⟨comment, hcomment, rfl⟩ := Option.map_eq_some_iff.1 h
      obtain ⟨behind, hs, hends⟩ := exists_of_blockText? hcomment
      rw [hs, List.drop_left]
      exact hends.firstLine_eq
  | final =>
      obtain ⟨-, hn⟩ := Option.ite_none_right_eq_some.1 h
      obtain rfl := Option.some.inj hn
      rw [List.drop_length]
      rfl
  | line =>
      obtain ⟨-, hn⟩ := Option.ite_none_right_eq_some.1 h
      obtain rfl := Option.some.inj hn
      exact firstLine_drop s

/-- **A carriage return and a line feed are one token**, whatever stands around them. -/
theorem Kind.first?_return (prev : Option Char) (rest : List Char) :
    Kind.first? codeKinds prev ('\r' :: '\n' :: rest) = some (.lineBreak, 2) := by
  refine Kind.first?_of_unique (by decide) rfl fun k hk hne => ?_
  by_cases hblank : k = .whitespace
  · rw [hblank]
    rfl
  · by_cases hsemicolon : k = .semicolon
    · rw [hsemicolon]
      rfl
    · exact Kind.length?_of_separator _ hk rfl hblank hne hsemicolon

/-- Where a line ends, and the text does not, the next token is a line break. -/
theorem Kind.eq_lineBreak_of_first? {prev : Option Char} {s : List Char} {kind : Kind} {n : Nat}
    (hend : firstLine s = []) (h : Kind.first? codeKinds prev s = some (kind, n)) :
    kind = .lineBreak := by
  obtain ⟨c, tail, m, rfl, -⟩ := exists_cons_of_first? h
  rcases head?_of_firstLine_eq_nil hend with hnil | hfeed | ⟨rest, hreturn⟩
  · simp at hnil
  · obtain ⟨rest, hs⟩ := List.head?_eq_some_iff.1 hfeed
    rw [hs, Kind.first?_lineFeed] at h
    exact (Prod.mk.inj (Option.some.inj h)).1.symm
  · rw [hreturn, Kind.first?_return] at h
    exact (Prod.mk.inj (Option.some.inj h)).1.symm

/-! ### Tokens -/

/-- **The tokens of a text follow one another as they may.** -/
theorem isChain_mayPrecede {source : String} {tokens : List Token} (h : tokenize source = .ok tokens) :
    (tokens.map (·.kind)).IsChain Kind.MayPrecede := by
  rw [List.isChain_map, List.isChain_iff_forall_rel_of_append_cons_cons]
  intro x y before behind hsplit
  obtain ⟨prev, hx⟩ := exists_length?_of_eq_append h hsplit
  obtain ⟨prev', hy⟩ := exists_length?_of_eq_append h (hsplit.trans (List.append_cons ..))
  rw [List.map_cons, Lexeme.join_cons] at hx
  constructor
  · intro hkind hnext
    rw [hkind] at hx
    rw [hnext] at hy
    have hrun := blankRun_drop (x.chars ++ (y.chars ++ Lexeme.join (behind.map (·.toLexeme))))
    rw [eq_of_positive? hx, List.drop_left] at hrun
    simp [Kind.length?, positive?, hrun] at hy
  · intro form hkind
    have hfirst := first?_next h hsplit (.inl (by rw [hkind]; rfl))
    rw [hkind] at hx
    have hend := firstLine_drop_of_commentLength? hx
    rw [List.drop_left] at hend
    exact Kind.eq_lineBreak_of_first? hend hfirst

/-! ### Gaps -/

/-- **Between two tokens on one line there is at most one token of blanks**: no comment, which the line
would have to end behind, and no second token of blanks. -/
theorem eq_of_isChain_mayPrecede {gap : List Kind} {next : Kind}
    (hgap : ∀ kind ∈ gap, kind.isSkippable = true) (hnext : next ≠ .lineBreak)
    (h : (gap ++ [next]).IsChain Kind.MayPrecede) : gap = [] ∨ gap = [.whitespace] := by
  have hbreak : ∀ {kind : Kind}, kind.isSkippable = true → kind ≠ .lineBreak := by
    rintro kind hkind rfl
    simp [Kind.isSkippable] at hkind
  -- no comment stands before anything else
  have hblanks : ∀ {kind follower : Kind}, kind.isSkippable = true → follower ≠ .lineBreak →
      kind.MayPrecede follower → kind = .whitespace := by
    intro kind follower hkind hfollower hmay
    cases kind with
    | whitespace => rfl
    | comment form => exact absurd (hmay.comment form rfl) hfollower
    | _ => simp [Kind.isSkippable] at hkind
  match gap with
  | [] => exact .inl rfl
  | [kind] =>
      have hmay := (List.isChain_cons_cons.1 h).1
      rw [hblanks (hgap kind (by simp)) hnext hmay]
      exact .inr rfl
  | kind :: kind' :: rest =>
      obtain ⟨hmay, hrest⟩ := List.isChain_cons_cons.1 h
      have hkind' := hgap kind' (by simp)
      have hfirst := hblanks (hgap kind (by simp)) (hbreak hkind') hmay
      have hsecond : kind' = .whitespace := by
        cases rest with
        | nil => exact hblanks hkind' hnext (List.isChain_cons_cons.1 hrest).1
        | cons kind'' rest =>
            exact hblanks hkind' (hbreak (hgap kind'' (by simp))) (List.isChain_cons_cons.1 hrest).1
      exact absurd hsecond (hmay.blanks hfirst)

end QSource
