/-
**Assignments to built-in words.**

An assignment to a built-in word outside parameter lists is reported, once, and the word is never taken
for a variable.  That holds of every word that is a keyword, and a built-in word is one unless a point
stands beside it.  There it is taken for a name: in `til.:1` the operator before the colon begins with a
point, and the assignment to `til` is not reported.  So the statement is about the places where words
may stand.

Main definitions:

* `QSource.ReservedApart` — **the built-in words at some places are kept apart from names**.

Main results:

* `QSource.reservedApart_of_not_besidePoint` — **so they are wherever no point stands beside them**;
* `QSource.not_reservedApart_everywhere` — beside a point they are not.
-/

import QSource.Proofs.Lint.Misassigned
import QSource.Proofs.Token.Words

set_option relaxedAutoImplicit false
set_option autoImplicit false

namespace QSource

/-- **Keywords are built-in words, and the built-in words at the places that `free` allows are kept apart
from names**: none of them is an identifier, an assignment to one is reported once, and it has no
scope as its owner. -/
structure ReservedApart (free : Token → Prop) (limits : Thresholds) (tokens : List Token) :
    Prop where
  keyword : ∀ t ∈ tokens, t.kind = .keyword → isReserved t.text = true
  identifier : ∀ t ∈ tokens, t.kind = .identifier → free t → isReserved t.text = false
  reported : ∀ nodes, parse tokens = .ok nodes → ∀ t a,
    IsTarget (Node.outside nodes) nodes t a → isReserved t.text = true → free t →
      ((findings limits (analyze nodes).tokens).filter fun f =>
        f.index == t.index && f.rule.isAboutTargets) = [.atToken .assignReservedWord t]
  builtIn : ∀ nodes, parse tokens = .ok nodes → ∀ t ∈ (analyze nodes).tokens,
    t.kind.leafForm? ≠ none → isReserved t.text = true → free t.toToken →
      t.role = some .builtIn ∧ t.binding = none

/-- A token that stands alone in a tree is of a kind that stands outside quotes. -/
theorem Kind.mem_codeKinds_of_leafForm? {kind : Kind} (h : kind.leafForm? ≠ none) :
    kind ∈ codeKinds := by
  cases kind with
  | quotedText | quotedEscape | closeQuote => simp [leafForm?] at h
  | comment form => cases form <;> decide
  | literal form => cases form <;> decide
  | opening pair | closing pair => cases pair <;> decide
  | _ => decide

/-- A keyword is built in, and no scope owns it. -/
theorem Marked.annotate_of_keyword {m : Marked} (hkind : m.token.kind = .keyword)
    (scopes : List Scope) :
    (m.annotate scopes).role = some .builtIn ∧ (m.annotate scopes).binding = none := by
  unfold annotate
  rw [hkind]
  exact ⟨rfl, rfl⟩

/-- **The built-in words beside which no point stands are kept apart from names.** -/
theorem reservedApart_of_not_besidePoint (limits : Thresholds) {source : String}
    {tokens : List Token} (h : tokenize source = .ok tokens) :
    ReservedApart (fun t => ¬ BesidePoint tokens t) limits tokens where
  keyword := fun t ht => isReserved_of_keyword h ht
  identifier := by
    intro t ht hkind hfree
    rw [Bool.eq_false_iff]
    intro hreserved
    rcases kind_of_isReserved h ht (by rw [hkind]; decide) hreserved with ⟨hkeyword, -⟩ | ⟨-, hpoint⟩
    · simp [hkind] at hkeyword
    · exact hfree hpoint
  reported := by
    intro nodes hparse t a htarget hreserved hfree
    obtain ⟨form, hassigned⟩ := exists_assignedOutside_iff.2 htarget
    have hform := leafForm?_of_assignedOutside hparse hassigned
    obtain ⟨m, hm, rfl, -⟩ := exists_marked_of_isTarget hparse htarget
    have hmem : m.token ∈ tokens := by
      simpa using toToken_mem_of_mem_analyze hparse (List.mem_map_of_mem hm)
    have hcode : m.token.kind ∈ codeKinds := Kind.mem_codeKinds_of_leafForm? (by simp [hform])
    rcases kind_of_isReserved h hmem hcode hreserved with ⟨hkeyword, -⟩ | ⟨-, hpoint⟩
    · obtain rfl : form = .keyword := by
        rw [hkeyword] at hform
        exact (Option.some.inj hform).symm
      exact filter_findings_of_misassigned hparse (numbered_of_tokenize h) hassigned rfl
    · exact absurd hpoint hfree
  builtIn := by
    intro nodes hparse t ht hform hreserved hfree
    have hmem := toToken_mem_of_mem_analyze hparse ht
    rcases kind_of_isReserved h hmem (Kind.mem_codeKinds_of_leafForm? hform) hreserved with
      ⟨hkeyword, -⟩ | ⟨-, hpoint⟩
    · obtain ⟨m, -, rfl⟩ := exists_marked_of_mem_analyze ht
      rw [Marked.toToken_annotate] at hkeyword
      exact m.annotate_of_keyword hkeyword _
    · exact absurd hpoint hfree

/-- In `til.+1.til;til:1` only the last word has no point beside it, and it is assigned to. -/
theorem reservedApart_of_not_besidePoint_words :
    let tokens := Lexeme.layOut [⟨.identifier, "til"⟩, ⟨.operator, "."⟩, ⟨.operator, "+"⟩,
      ⟨.literal .number, "1."⟩, ⟨.identifier, "til"⟩, ⟨.semicolon, ";"⟩, ⟨.keyword, "til"⟩,
      ⟨.colon, ":"⟩, ⟨.literal .number, "1"⟩]
    tokenize "til.+1.til;til:1" = .ok tokens ∧
      ReservedApart (fun t => ¬ BesidePoint tokens t) {} tokens := by
  intro tokens
  have h : tokenize "til.+1.til;til:1" = .ok tokens := by decide +kernel
  exact ⟨h, reservedApart_of_not_besidePoint {} h⟩

/-- **Beside a point a built-in word is taken for a name**: in `til.:1` the assignment to `til` is not
reported. -/
theorem not_reservedApart_everywhere :
    let tokens := Lexeme.layOut [⟨.identifier, "til"⟩, ⟨.operator, "."⟩, ⟨.colon, ":"⟩,
      ⟨.literal .number, "1"⟩]
    tokenize "til.:1" = .ok tokens ∧ ¬ ReservedApart (fun _ => True) {} tokens := by
  intro tokens
  refine ⟨by decide +kernel, ?_⟩
  intro hapart
  let sign : Assignment := ⟨some tokens[1], [], tokens[2]⟩
  let nodes : List Node :=
    [.leaf .identifier tokens[0], .assignment sign, .leaf .literal tokens[3]]
  have htarget : IsTarget (Node.outside nodes) nodes tokens[0] sign :=
    Or.inl ⟨[], .identifier, [], [.leaf .literal tokens[3]], rfl, by simp⟩
  have hreported := hapart.reported nodes rfl tokens[0] sign htarget (by decide +kernel) trivial
  have hnone : ((findings {} (analyze nodes).tokens).filter fun f =>
      f.index == (tokens[0]).index && f.rule.isAboutTargets) = [] := by decide +kernel
  simp [hnone] at hreported

end QSource
