/-
**Assignments to what is no variable.**

Two rules object to assignments: one to those that write to a reserved word, and the other to those that
write to a literal.  They look at single tokens, of which the analysis has marked those that stand
before an assignment sign.  In the tree these are the nodes that come before a sign in their sequence,
and of every such keyword and of every such literal that is one token there is exactly one finding.

A text in quotes is a literal of several tokens, and none of them is marked.  So the statement is about
nodes that may be chosen: it holds of the leaves, and not of the quoted texts.

Main definitions:

* `QSource.AssignedOutside` — an assignment sign writes to a node outside parameter lists;
* `QSource.Node.misassigned?`, `QSource.Node.misassignedOrQuoted?` — the nodes that are no variables, with
  the rule that is broken and the token to blame;
* `QSource.ReportsTargets` — **the two rules report each of these nodes once, and nothing else**.

Main results:

* `QSource.reportsTargets_leaves` — **they report the keywords and the literals that are one token**;
* `QSource.not_reportsTargets_quoted` — they do not report quoted texts.
-/

import QSource.Proofs.Lint.Order
import QSource.Proofs.Scope.Owners

set_option relaxedAutoImplicit false
set_option autoImplicit false

namespace QSource

/-! ### Nodes that are assigned to -/

/-- The sign `a` comes next behind the node `x` of a sequence, blanks and comments aside. -/
def AssignedIn (nodes : List Node) (x : Node) (a : Assignment) : Prop :=
  ∃ before gap behind, nodes = before ++ x :: (gap ++ .assignment a :: behind) ∧
    ∀ y ∈ gap, y.isSpace = true

/-- The sign `a` writes to the node `x`, in the script or in what one of the nodes outside parameter
lists encloses. -/
def AssignedOutside (nodes : List Node) (x : Node) (a : Assignment) : Prop :=
  AssignedIn nodes x a ∨ ∃ form first items last,
    .enclosed form first items last ∈ Node.outside nodes ∧ AssignedIn items x a

/-- The sign writes to a leaf just if the token of the leaf is its target. -/
theorem exists_assignedOutside_iff {nodes : List Node} {t : Token} {a : Assignment} :
    (∃ form, AssignedOutside nodes (.leaf form t) a) ↔
      IsTarget (Node.outside nodes) nodes t a := by
  constructor
  · rintro ⟨form, ⟨before, gap, behind, heq, hgap⟩ |
      ⟨form', first, items, last, hmem, before, gap, behind, heq, hgap⟩⟩
    · exact Or.inl ⟨before, form, gap, behind, heq, hgap⟩
    · exact Or.inr ⟨form', first, items, last, hmem, before, form, gap, behind, heq, hgap⟩
  · rintro (⟨before, form, gap, behind, heq, hgap⟩ |
      ⟨form', first, items, last, hmem, before, form, gap, behind, heq, hgap⟩)
    · exact ⟨form, Or.inl ⟨before, gap, behind, heq, hgap⟩⟩
    · exact ⟨form, Or.inr ⟨form', first, items, last, hmem, before, gap, behind, heq, hgap⟩⟩

theorem AssignedIn.mem {nodes : List Node} {x : Node} {a : Assignment} (h : AssignedIn nodes x a) :
    x ∈ nodes := by
  obtain ⟨before, gap, behind, rfl, -⟩ := h
  simp

/-- A node that is assigned to is one of the tree. -/
theorem AssignedOutside.mem_all {nodes : List Node} {x : Node} {a : Assignment}
    (h : AssignedOutside nodes x a) : x ∈ Node.all nodes := by
  rcases h with h | ⟨form, first, items, last, hmem, h⟩
  · exact Node.mem_all_of_mem h.mem
  · exact Node.mem_all_items (Node.mem_all_of_mem h.mem) nodes (Node.outside_subset nodes hmem)

/-! ### What is no variable -/

/-- The rule on what is assigned to that a leaf breaks, if it is no variable, and the token to blame. -/
def Node.misassigned? : Node → Option (Rule × Token)
  | .leaf .keyword word => some (.assignReservedWord, word)
  | .leaf .literal value => some (.invalidAssign, value)
  | _ => none

/-- The same for every node that is a keyword or a literal; a quoted text is blamed on its opening
quote. -/
def Node.misassignedOrQuoted? : Node → Option (Rule × Token)
  | .quoted first _ _ => some (.invalidAssign, first)
  | node => node.misassigned?

/-- The rules on what is assigned to. -/
def Rule.isAboutTargets (rule : Rule) : Bool := rule == .assignReservedWord || rule == .invalidAssign

/-- A finding at a token of the tree. -/
def Finding.atToken (rule : Rule) (t : Token) : Finding := ⟨rule, t.index, t.span, t.position⟩

/-- **Every assignment to one of the nodes is reported once**, at the token to blame, by the rule that it
breaks and not by the other; and the two rules report nothing else. -/
structure ReportsTargets (misassigned? : Node → Option (Rule × Token)) (limits : Thresholds)
    (nodes : List Node) : Prop where
  once : ∀ x a rule t, AssignedOutside nodes x a → misassigned? x = some (rule, t) →
    ((findings limits (analyze nodes).tokens).filter fun f =>
      f.index == t.index && f.rule.isAboutTargets) = [.atToken rule t]
  only : ∀ f ∈ findings limits (analyze nodes).tokens, f.rule.isAboutTargets = true →
    ∃ x a t, AssignedOutside nodes x a ∧ misassigned? x = some (f.rule, t) ∧ f = .atToken f.rule t

theorem Node.misassigned?_eq_some {x : Node} {rule : Rule} {t : Token} :
    x.misassigned? = some (rule, t) ↔
      x = .leaf .keyword t ∧ rule = .assignReservedWord ∨
        x = .leaf .literal t ∧ rule = .invalidAssign := by
  unfold misassigned?
  split <;> grind

theorem Node.exists_leaf_of_misassigned? {x : Node} {rule : Rule} {t : Token}
    (h : x.misassigned? = some (rule, t)) : ∃ form, x = .leaf form t := by
  rcases misassigned?_eq_some.1 h with ⟨rfl, -⟩ | ⟨rfl, -⟩ <;> exact ⟨_, rfl⟩

/-! ### From the tree to the findings and back -/

theorem Kind.leafForm?_eq_keyword {kind : Kind} : kind.leafForm? = some .keyword ↔ kind = .keyword := by
  cases kind <;> simp [leafForm?]

theorem Kind.leafForm?_eq_literal {kind : Kind} :
    kind.leafForm? = some .literal ↔ kind.isLiteral = true := by
  cases kind <;> simp [leafForm?, isLiteral]

/-- A keyword or a literal is written just if it is marked as a target. -/
theorem Marked.isAssignment_annotate_iff {m : Marked} {scopes : List Scope}
    (hkind : m.token.kind = .keyword ∨ m.token.kind.isLiteral = true) :
    (m.annotate scopes).isAssignment = true ↔
      ∃ isGlobal isCompound, m.mark = .target isGlobal isCompound := by
  rcases hkind with hkind | hkind
  · cases hmark : m.mark <;>
      simp [AnnotatedToken.isAssignment, annotate, hkind, hmark, Mark.usage]
  · cases hform : m.token.kind <;> simp [hform, Kind.isLiteral] at hkind
    cases hmark : m.mark <;> simp [AnnotatedToken.isAssignment, annotate, hform, hmark]

/-- The tokens of the two rules are those that are written and make a leaf of the right form. -/
theorem mem_flagged_iff_leafForm {limits : Thresholds} {tokens : List AnnotatedToken} {rule : Rule}
    {t : AnnotatedToken} (hrule : rule.isAboutTargets = true) :
    t ∈ rule.flagged limits tokens ↔ t ∈ tokens ∧ t.isAssignment = true ∧
      ∃ form, t.kind.leafForm? = some form ∧
        (Node.leaf form t.toToken).misassigned? = some (rule, t.toToken) := by
  cases rule <;> simp [Rule.isAboutTargets] at hrule
  · rw [Rule.flagged, reservedTargets, List.mem_filter]
    simp [Node.misassigned?_eq_some, Kind.leafForm?_eq_keyword, and_comm]
  · rw [Rule.flagged, literalTargets, List.mem_filter]
    simp [Node.misassigned?_eq_some, Kind.leafForm?_eq_literal, and_comm]

section

variable {tokens : List Token} {nodes : List Node} (h : parse tokens = .ok nodes)
  {limits : Thresholds} {rule : Rule}

include h

theorem leafForm?_of_assignedOutside {form : LeafForm} {t : Token} {a : Assignment}
    (hassigned : AssignedOutside nodes (.leaf form t) a) : t.kind.leafForm? = some form :=
  fits_parse h _ hassigned.mem_all

/-- What is flagged is an assignment to what is no variable. -/
theorem exists_assignedOutside_of_mem_flagged (hrule : rule.isAboutTargets = true)
    {t : AnnotatedToken} (ht : t ∈ rule.flagged limits (analyze nodes).tokens) :
    ∃ x a, AssignedOutside nodes x a ∧ x.misassigned? = some (rule, t.toToken) := by
  obtain ⟨hmem, hassignment, form, hform, hmis⟩ := (mem_flagged_iff_leafForm hrule).1 ht
  obtain ⟨m, hm, rfl⟩ := exists_marked_of_mem_analyze hmem
  rw [Marked.toToken_annotate] at hform hmis
  have hkind : m.token.kind = .keyword ∨ m.token.kind.isLiteral = true := by
    rcases Node.misassigned?_eq_some.1 hmis with ⟨hleaf, -⟩ | ⟨hleaf, -⟩
    · obtain rfl : form = .keyword := (Node.leaf.inj hleaf).1
      exact Or.inl (Kind.leafForm?_eq_keyword.1 hform)
    · obtain rfl : form = .literal := (Node.leaf.inj hleaf).1
      exact Or.inr (Kind.leafForm?_eq_literal.1 hform)
  obtain ⟨_, _, hmark⟩ := (Marked.isAssignment_annotate_iff hkind).1 hassignment
  obtain ⟨a, -, htarget⟩ := exists_isTarget_of_mark hm hmark
  obtain ⟨form', hassigned⟩ := exists_assignedOutside_iff.2 htarget
  -- the token decides the form of its leaf
  have hsame : some form' = some form := (leafForm?_of_assignedOutside h hassigned).symm.trans hform
  obtain rfl := Option.some.inj hsame
  exact ⟨_, a, hassigned, by rwa [Marked.toToken_annotate]⟩

variable (limits) in
/-- Every assignment to what is no variable is flagged. -/
theorem exists_mem_flagged_of_assignedOutside {x : Node} {a : Assignment} {t : Token}
    (hassigned : AssignedOutside nodes x a) (hmis : x.misassigned? = some (rule, t)) :
    rule.isAboutTargets = true ∧
      ∃ u ∈ rule.flagged limits (analyze nodes).tokens, u.toToken = t := by
  have hleaf : ∃ form, x = .leaf form t ∧ (form = .keyword ∨ form = .literal) ∧
      rule.isAboutTargets = true := by
    rcases Node.misassigned?_eq_some.1 hmis with ⟨rfl, rfl⟩ | ⟨rfl, rfl⟩
    · exact ⟨_, rfl, Or.inl rfl, rfl⟩
    · exact ⟨_, rfl, Or.inr rfl, rfl⟩
  obtain ⟨form, rfl, hform, hrule⟩ := hleaf
  have hkind := leafForm?_of_assignedOutside h hassigned
  obtain ⟨m, hm, rfl, form', query, hkind', hmark⟩ :=
    exists_marked_of_isTarget h (exists_assignedOutside_iff.1 ⟨form, hassigned⟩)
  obtain rfl : form = form' := Option.some.inj (hkind.symm.trans hkind')
  have htarget : ∃ isGlobal isCompound, m.mark = .target isGlobal isCompound := by
    rcases hform with rfl | rfl <;> exact ⟨_, _, hmark⟩
  refine ⟨hrule, m.annotate (analyze nodes).scopes.reverse, (mem_flagged_iff_leafForm hrule).2
    ⟨List.mem_map_of_mem hm, (Marked.isAssignment_annotate_iff ?_).2 htarget, form, ?_, ?_⟩,
    Marked.toToken_annotate _ _⟩
  · rcases hform with rfl | rfl
    · exact Or.inl (Kind.leafForm?_eq_keyword.1 hkind)
    · exact Or.inr (Kind.leafForm?_eq_literal.1 hkind)
  · rwa [Marked.toToken_annotate]
  · rwa [Marked.toToken_annotate]

end

section

variable {limits : Thresholds} {tokens : List Token} {nodes : List Node}
  (h : parse tokens = .ok nodes)

include h

/-- The two rules report nothing but assignments to what is no variable. -/
theorem exists_misassigned_of_mem_findings {f : Finding}
    (hf : f ∈ findings limits (analyze nodes).tokens) (hrule : f.rule.isAboutTargets = true) :
    ∃ x a t, AssignedOutside nodes x a ∧ x.misassigned? = some (f.rule, t) ∧
      f = .atToken f.rule t := by
  obtain ⟨rule, -, t, ht, rfl⟩ := mem_filter_findings.1 (List.mem_filter.2 ⟨hf, hrule⟩)
  obtain ⟨x, a, hassigned, hmis⟩ := exists_assignedOutside_of_mem_flagged h hrule ht
  exact ⟨x, a, t.toToken, hassigned, hmis, rfl⟩

/-- An assignment to what is no variable is reported once, and by one of the two rules. -/
theorem filter_findings_of_misassigned (hnumbered : Token.Numbered tokens) {x : Node}
    {a : Assignment} {rule : Rule} {t : Token} (hassigned : AssignedOutside nodes x a)
    (hmis : x.misassigned? = some (rule, t)) :
    ((findings limits (analyze nodes).tokens).filter fun f =>
      f.index == t.index && f.rule.isAboutTargets) = [.atToken rule t] := by
  obtain ⟨hrule, u, hu, rfl⟩ :=
    exists_mem_flagged_of_assignedOutside h limits hassigned hmis
  have hordered : (((findings limits (analyze nodes).tokens).filter (·.rule.isAboutTargets)).filter
      fun f => f.index == u.index).Pairwise Finding.Before :=
    (pairwise_before_filter (numbered_analyze hnumbered h) _).filter _
  rw [List.filter_filter] at hordered
  refine List.Pairwise.eq_of_mem_iff hordered (List.pairwise_singleton _ _) fun f => ?_
  rw [List.mem_filter, List.mem_singleton, Bool.and_eq_true, beq_iff_eq]
  constructor
  · rintro ⟨hf, hindex, hrule'⟩
    obtain ⟨x', a', t', hassigned', hmis', hfinding⟩ :=
      exists_misassigned_of_mem_findings h hf hrule'
    obtain ⟨-, u', hu', rfl⟩ :=
      exists_mem_flagged_of_assignedOutside h limits hassigned' hmis'
    -- a token is known by its number, and it makes a leaf of one form
    rw [hfinding] at hindex
    obtain rfl := eq_of_index_eq_of_mem_analyze hnumbered h (Rule.mem_of_mem_flagged hu')
      (Rule.mem_of_mem_flagged hu) hindex
    obtain ⟨form, rfl⟩ := Node.exists_leaf_of_misassigned? hmis
    obtain ⟨form', rfl⟩ := Node.exists_leaf_of_misassigned? hmis'
    obtain rfl : form = form' := Option.some.inj
      ((leafForm?_of_assignedOutside h hassigned).symm.trans
        (leafForm?_of_assignedOutside h hassigned'))
    rw [hfinding, (Prod.mk.inj (Option.some.inj (hmis.symm.trans hmis'))).1]
  · rintro rfl
    have hmem := (mem_filter_findings (p := Rule.isAboutTargets)).2 ⟨rule, hrule, u, hu, rfl⟩
    exact ⟨(List.mem_filter.1 hmem).1, rfl, hrule⟩

end

/-- **The two rules report the assignments to keywords and to literals that are one token**, each of
them once, and nothing else. -/
theorem reportsTargets_leaves (limits : Thresholds) {tokens : List Token} {nodes : List Node}
    (hnumbered : Token.Numbered tokens) (h : parse tokens = .ok nodes) :
    ReportsTargets Node.misassigned? limits nodes where
  once := fun _ _ _ _ => filter_findings_of_misassigned h hnumbered
  only := fun _ => exists_misassigned_of_mem_findings h

/-- In `{[(1:a)]til::1;(2 +:b)}` the first literal stands in a parameter list. -/
theorem reportsTargets_leaves_lambda :
    let tokens := Lexeme.layOut [⟨.opening .brace, "\x7b"⟩, ⟨.opening .bracket, "["⟩,
      ⟨.opening .paren, "("⟩, ⟨.literal .number, "1"⟩, ⟨.colon, ":"⟩, ⟨.identifier, "a"⟩,
      ⟨.closing .paren, ")"⟩, ⟨.closing .bracket, "]"⟩, ⟨.keyword, "til"⟩, ⟨.doubleColon, "::"⟩,
      ⟨.literal .number, "1"⟩, ⟨.semicolon, ";"⟩, ⟨.opening .paren, "("⟩, ⟨.literal .number, "2"⟩,
      ⟨.whitespace, " "⟩, ⟨.operator, "+"⟩, ⟨.colon, ":"⟩, ⟨.identifier, "b"⟩,
      ⟨.closing .paren, ")"⟩, ⟨.closing .brace, "\x7d"⟩]
    ∃ nodes, Token.Numbered tokens ∧ parse tokens = .ok nodes ∧
      ReportsTargets Node.misassigned? {} nodes ∧
      ((findings {} (analyze nodes).tokens).filter (·.rule.isAboutTargets)).map
        (fun f => (f.rule, f.index)) = [(.assignReservedWord, 8), (.invalidAssign, 13)] := by
  intro tokens
  have hnumbered : Token.Numbered tokens := Token.numbered_layOut _
  exact ⟨_, hnumbered, rfl, reportsTargets_leaves {} hnumbered rfl, by decide +kernel⟩

/-- **Quoted texts are not reported**: nothing is found in `"a":1`, where an assignment sign writes to
one. -/
theorem not_reportsTargets_quoted :
    let tokens := Lexeme.layOut [⟨.openQuote, "\""⟩, ⟨.quotedText, "a"⟩, ⟨.closeQuote, "\""⟩,
      ⟨.colon, ":"⟩, ⟨.literal .number, "1"⟩]
    ∃ nodes, Token.Numbered tokens ∧ parse tokens = .ok nodes ∧
      ¬ ReportsTargets Node.misassignedOrQuoted? {} nodes := by
  intro tokens
  let quoted : Node := .quoted tokens[0] [tokens[1]] tokens[2]
  let sign : Assignment := ⟨none, [], tokens[3]⟩
  let nodes : List Node := [quoted, .assignment sign, .leaf .literal tokens[4]]
  refine ⟨nodes, Token.numbered_layOut _, rfl, ?_⟩
  intro hreports
  have hassigned : AssignedOutside nodes quoted sign :=
    Or.inl ⟨[], [], [.leaf .literal tokens[4]], rfl, by simp⟩
  have honce := hreports.once quoted sign .invalidAssign tokens[0] hassigned rfl
  have hnone : findings {} (analyze nodes).tokens = [] := by decide +kernel
  simp [hnone] at honce

end QSource
