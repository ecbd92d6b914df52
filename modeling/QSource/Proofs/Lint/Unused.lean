/-
**Parameters that nothing reads.**

A parameter is read by another occurrence of its name with the same owner, at whatever depth that
stands.  An occurrence before a compound assignment sign reads it too, before it writes it.  The rule
on unused variables counts both.  The rule on unused parameters counts only the occurrences that are
not written, and so objects to a parameter that every one of its readers writes afterwards.

That an occurrence has the same owner can be said of the tree: the name, met in the scope of the
occurrence and looked for outwards, is the parameter of the scope that declares it.

Main definitions:

* `QSource.ReadsParam` — an occurrence that reads a declared parameter;
* `QSource.ListsParam` — a name that stands directly in the parameter list of a scope;
* `QSource.ReadsOutwards` — an occurrence that reads a parameter of a scope around it.

Main results:

* `QSource.mem_flagged_unusedParam` — a declaration is flagged just if each of its readers writes it;
* `QSource.isDeclaration_iff_listsParam` — the declarations are the names in parameter lists;
* `QSource.readsParam_iff_readsOutwards` — **a parameter is read from the scopes inside**;
* `QSource.mem_flagged_unusedParam_analyze` — **the parameters that are flagged**;
* `QSource.not_flagged_iff_unread` — the rule objects to a parameter that is read.
-/

import QSource.Lint.Findings
import QSource.Proofs.Scope.Bindings

set_option relaxedAutoImplicit false
set_option autoImplicit false

namespace QSource

/-- The token `u` reads the parameter that is declared at `t`: it is another occurrence of the name
with the same owner, and it is a reference or the target of a compound assignment. -/
def ReadsParam (t u : AnnotatedToken) : Prop :=
  u.index ≠ t.index ∧ u.kind = .identifier ∧ u.text = t.text ∧ u.binding = t.binding ∧
    (u.usage = some .reference ∨ u.usage = some .assignment ∧ u.reversed = true)

theorem sameVariable_iff {t u : AnnotatedToken} : sameVariable t u = true ↔
    u.index ≠ t.index ∧ u.kind = .identifier ∧ u.text = t.text ∧ u.binding = t.binding := by
  simp only [sameVariable, AnnotatedToken.isIdentifier, Bool.and_eq_true, bne_iff_ne, ne_eq,
    beq_iff_eq, and_assoc]
  rw [eq_comm (a := t.index), eq_comm (a := t.text), eq_comm (a := t.binding)]

/-- A reference to a parameter reads it, and any other reader writes it as well. -/
theorem isReference_iff_of_sameVariable {t u : AnnotatedToken} (h : sameVariable t u = true) :
    u.isReference = true ↔ ReadsParam t u ∧ u.usage ≠ some .assignment := by
  obtain ⟨hindex, hkind, htext, hbinding⟩ := sameVariable_iff.1 h
  simp only [AnnotatedToken.isReference, beq_iff_eq]
  constructor
  · intro hreference
    exact ⟨⟨hindex, hkind, htext, hbinding, Or.inl hreference⟩, by simp [hreference]⟩
  · rintro ⟨⟨-, -, -, -, hreference | ⟨hassignment, -⟩⟩, hnot⟩
    · exact hreference
    · exact absurd hassignment hnot

/-- A declared parameter is flagged just if each of its readers writes it: nothing reads it, or only
the targets of compound assignments do. -/
theorem mem_flagged_unusedParam (limits : Thresholds) (tokens : List AnnotatedToken)
    (t : AnnotatedToken) : t ∈ Rule.unusedParam.flagged limits tokens ↔
      t ∈ tokens ∧ t.isDeclaration = true ∧
        ∀ u ∈ tokens, ReadsParam t u → u.usage = some .assignment := by
  rw [Rule.flagged, unusedParams, List.mem_filter]
  simp only [Bool.and_eq_true, Bool.not_eq_true', List.any_eq_false, List.mem_filter, and_imp]
  refine and_congr_right fun _ => and_congr_right fun _ => forall_congr' fun u =>
    forall_congr' fun _ => ?_
  constructor
  · intro hunread hreads
    have hsame : sameVariable t u = true :=
      sameVariable_iff.2 ⟨hreads.1, hreads.2.1, hreads.2.2.1, hreads.2.2.2.1⟩
    by_contra hnot
    exact hunread ((isReference_iff_of_sameVariable hsame).2 ⟨hreads, hnot⟩) hsame
  · intro hwritten hreference hsame
    obtain ⟨hreads, hnot⟩ := (isReference_iff_of_sameVariable hsame).1 hreference
    exact hnot (hwritten hreads)

/-! ### Parameter lists -/

/-- The token stands directly in the parameter list of the lambda between the braces of the scope. -/
def ListsParam (nodes : List Node) (scope : Scope) (t : Token) : Prop :=
  ∃ first gap opening names closing body last,
    .enclosed .lambda first (.enclosed (.params gap) opening names closing :: body) last ∈
      Node.outside nodes ∧ first.index = scope.first ∧ last.index = scope.last ∧
      .leaf .identifier t ∈ names

/-- **The token reads a parameter of the scope**: it is a reference or the target of a compound
assignment, and its name, looked for from its own scope outwards, is that parameter.  A name before a
double colon is not looked for. -/
def ReadsOutwards (nodes : List Node) (scope : Scope) (name : String) (u : AnnotatedToken) : Prop :=
  u.kind = .identifier ∧ u.text = name ∧
    (u.usage = some .reference ∨ u.usage = some .assignment ∧ u.reversed = true) ∧
    (∀ a, IsTarget (Node.outside nodes) nodes u.toToken a → a.isGlobal = false) ∧
    Resolves (IsTarget (Node.outside nodes) nodes) nodes name u.scope (.parameter, some scope.id)

section

variable {tokens : List Token} {nodes : List Node} (hnumbered : Token.Numbered tokens)
  (h : parse tokens = .ok nodes)

include hnumbered h

theorem mem_paramList_iff_listsParam {s : Scope} (hs : s ∈ (analyze nodes).scopes) {t : Token}
    (ht : t ∈ tokens) : (t.text, t.index) ∈ s.paramList ↔ ListsParam nodes s t := by
  obtain ⟨x, hx, first, items, last, rfl, hfirst, hlast, hdeclared⟩ :=
    Node.exists_lambda_of_mem_regions none 0 true false false nodes (mem_regions_of_mem_scopes hs)
  rw [Scope.paramList, hdeclared]
  constructor
  · intro hname
    fun_cases declaredParams items with
    | case1 gap opening names closing body =>
        obtain ⟨u, hu, -, hindex⟩ := mem_directNames.1 hname
        have hleaf : .leaf .identifier u ∈ Node.all nodes :=
          Node.mem_all_items (Node.mem_all_items (Node.mem_all_of_mem hu) _
            (Node.mem_all_of_mem (List.mem_cons_self ..))) nodes (Node.outside_subset nodes hx)
        have hmem : u ∈ tokens := by
          rw [← allTokens_parse h]
          exact Node.mem_allTokens_of_mem_all hleaf (List.mem_singleton.2 rfl)
        obtain rfl : u = t := hnumbered.eq_of_index_eq hmem ht hindex
        exact ⟨first, gap, opening, names, closing, body, last, hx, hfirst.symm, hlast.symm, hu⟩
    | case2 => simp [declaredParams] at hname
  · rintro ⟨first', gap, opening, names, closing, body, last', hx', hfirst', -, hleaf⟩
    -- there is one lambda at the number of the opening brace
    have heq := Node.eq_of_first_index_eq hnumbered h (Node.outside_subset nodes hx)
      (Node.outside_subset nodes hx') rfl rfl (hfirst.symm.trans hfirst'.symm)
    obtain ⟨-, -, rfl, -⟩ := Node.enclosed.inj heq
    exact mem_directNames.2 ⟨t, hleaf, rfl, rfl⟩

variable {t : AnnotatedToken} (ht : t ∈ (analyze nodes).tokens)

include ht

/-- **The declarations are the names that stand directly in parameter lists.** -/
theorem isDeclaration_iff_listsParam : t.isDeclaration = true ↔
    ∃ s ∈ (analyze nodes).scopes, t.scope = some s.id ∧ ListsParam nodes s t.toToken := by
  have htoken : t.toToken ∈ tokens := toToken_mem_of_mem_analyze h ht
  constructor
  · intro hdeclaration
    obtain ⟨m, hm, rfl⟩ := exists_marked_of_mem_analyze ht
    obtain ⟨-, hmark⟩ := Marked.isDeclaration_annotate.1 hdeclaration
    obtain ⟨id, hid⟩ := Option.ne_none_iff_exists'.1 (scope_ne_none_of_declaration h hm hmark)
    obtain ⟨s, hs, rfl⟩ := exists_mem_scopes_of_lt (scope_lt_of_mem_marked hm hid)
    rw [Marked.scope_annotate]
    refine ⟨s, hs, hid, (mem_paramList_iff_listsParam hnumbered h hs htoken).1 ?_⟩
    exact (mem_paramList_iff h hs).2 ⟨_, ht, hdeclaration, by simpa using hid, rfl, rfl⟩
  · rintro ⟨s, hs, -, hlists⟩
    obtain ⟨u, hu, hdeclaration, -, -, hindex⟩ :=
      (mem_paramList_iff h hs).1 ((mem_paramList_iff_listsParam hnumbered h hs htoken).2 hlists)
    obtain rfl := eq_of_index_eq_of_mem_analyze hnumbered h hu ht hindex
    exact hdeclaration

/-- **A parameter is read from the scopes inside**, as far out as no scope between has its name. -/
theorem readsParam_iff_readsOutwards {s : Scope} (hs : s ∈ (analyze nodes).scopes)
    (hscope : t.scope = some s.id) (hlists : ListsParam nodes s t.toToken) {u : AnnotatedToken}
    (hu : u ∈ (analyze nodes).tokens) : ReadsParam t u ↔ ReadsOutwards nodes s t.text u := by
  have hdeclaration := (isDeclaration_iff_listsParam hnumbered h ht).2 ⟨s, hs, hscope, hlists⟩
  have hbinding : t.binding = some s.id := by
    rw [binding_of_isDeclaration ht hdeclaration, hscope]
  obtain ⟨hrole, husage⟩ : t.role = some .parameter ∧ t.usage = none := by
    simpa [AnnotatedToken.isDeclaration] using hdeclaration
  constructor
  · rintro ⟨-, hkind, htext, howner, hread⟩
    have hused : u.usage ≠ none := by
      rcases hread with hread | ⟨hread, -⟩ <;> simp [hread]
    rw [hbinding] at howner
    have hlocal : ∀ a, IsTarget (Node.outside nodes) nodes u.toToken a → a.isGlobal = false := by
      intro a htarget
      cases hglobal : a.isGlobal with
      | false => rfl
      | true =>
          have hnone := (unowned_of_global_target hnumbered h hu hkind hused htarget hglobal).2
          simp [hnone] at howner
    obtain ⟨role, hrole', hresolves⟩ := exists_role_resolves hnumbered h hu hkind hused hlocal
    have hsame : t.role = u.role :=
      role_eq_of_binding_eq h ht hu htext.symm (hbinding.trans howner.symm) (by simp [hbinding])
    obtain rfl : role = .parameter := by simpa [hrole, hrole'] using hsame.symm
    refine ⟨hkind, htext, hread, hlocal, ?_⟩
    rw [← htext, ← howner]
    exact (hresolves _).2 rfl
  · rintro ⟨hkind, htext, hread, hlocal, hresolves⟩
    have hused : u.usage ≠ none := by
      rcases hread with hread | ⟨hread, -⟩ <;> simp [hread]
    obtain ⟨role, -, hunique⟩ := exists_role_resolves hnumbered h hu hkind hused hlocal
    rw [← htext] at hresolves
    have howner := congrArg Prod.snd ((hunique _).1 hresolves)
    refine ⟨?_, hkind, htext, howner.symm.trans hbinding.symm, hread⟩
    intro hindex
    rw [eq_of_index_eq_of_mem_analyze hnumbered h hu ht hindex] at hused
    exact hused husage

end

/-- **The parameters that are flagged**: a name that stands directly in the parameter list of a scope is
flagged just if each token that reads it there or in the scopes inside writes it as well. -/
theorem mem_flagged_unusedParam_analyze {tokens : List Token} {nodes : List Node}
    (hnumbered : Token.Numbered tokens) (h : parse tokens = .ok nodes) (limits : Thresholds)
    (t : AnnotatedToken) : t ∈ Rule.unusedParam.flagged limits (analyze nodes).tokens ↔
      t ∈ (analyze nodes).tokens ∧ ∃ s ∈ (analyze nodes).scopes, t.scope = some s.id ∧
        ListsParam nodes s t.toToken ∧
        (∀ u ∈ (analyze nodes).tokens, ReadsParam t u ↔ ReadsOutwards nodes s t.text u) ∧
        ∀ u ∈ (analyze nodes).tokens, ReadsParam t u → u.usage = some .assignment := by
  rw [mem_flagged_unusedParam]
  refine and_congr_right fun ht => ?_
  rw [isDeclaration_iff_listsParam hnumbered h ht]
  constructor
  · rintro ⟨⟨s, hs, hscope, hlists⟩, hwritten⟩
    refine ⟨s, hs, hscope, hlists, fun u hu => ?_, hwritten⟩
    exact readsParam_iff_readsOutwards hnumbered h ht hs hscope hlists hu
  · rintro ⟨s, hs, hscope, hlists, -, hwritten⟩
    exact ⟨⟨s, hs, hscope, hlists⟩, hwritten⟩

/-- In `{[a;b]a+:1;{[c;a]a}b}` the first `a` is only read where it is written, and the inner lambda reads
an `a` of its own and does not read `c`. -/
theorem mem_flagged_unusedParam_analyze_inner :
    let tokens := Lexeme.layOut [⟨.opening .brace, "\x7b"⟩, ⟨.opening .bracket, "["⟩,
      ⟨.identifier, "a"⟩, ⟨.semicolon, ";"⟩, ⟨.identifier, "b"⟩, ⟨.closing .bracket, "]"⟩,
      ⟨.identifier, "a"⟩, ⟨.operator, "+"⟩, ⟨.colon, ":"⟩, ⟨.literal .number, "1"⟩,
      ⟨.semicolon, ";"⟩, ⟨.opening .brace, "\x7b"⟩, ⟨.opening .bracket, "["⟩, ⟨.identifier, "c"⟩,
      ⟨.semicolon, ";"⟩, ⟨.identifier, "a"⟩, ⟨.closing .bracket, "]"⟩, ⟨.identifier, "a"⟩,
      ⟨.closing .brace, "\x7d"⟩, ⟨.identifier, "b"⟩, ⟨.closing .brace, "\x7d"⟩]
    ∃ nodes, Token.Numbered tokens ∧ parse tokens = .ok nodes ∧
      (Rule.unusedParam.flagged {} (analyze nodes).tokens).map (fun t => (t.text, t.scope)) =
        [("a", some 0), ("c", some 1)] ∧
      ∀ t ∈ Rule.unusedParam.flagged {} (analyze nodes).tokens, t ∈ (analyze nodes).tokens ∧
        ∃ s ∈ (analyze nodes).scopes, t.scope = some s.id ∧ ListsParam nodes s t.toToken ∧
          (∀ u ∈ (analyze nodes).tokens, ReadsParam t u ↔ ReadsOutwards nodes s t.text u) ∧
          ∀ u ∈ (analyze nodes).tokens, ReadsParam t u → u.usage = some .assignment := by
  intro tokens
  have hnumbered : Token.Numbered tokens := Token.numbered_layOut _
  refine ⟨_, hnumbered, rfl, by decide +kernel, fun t ht => ?_⟩
  exact (mem_flagged_unusedParam_analyze hnumbered rfl {} t).1 ht

/-- **The rule objects to a parameter that is read**: in `{[a]a+:1}` the compound assignment reads the
parameter before it writes it. -/
theorem not_flagged_iff_unread :
    let tokens := Lexeme.layOut [⟨.opening .brace, "\x7b"⟩, ⟨.opening .bracket, "["⟩,
      ⟨.identifier, "a"⟩, ⟨.closing .bracket, "]"⟩, ⟨.identifier, "a"⟩, ⟨.operator, "+"⟩,
      ⟨.colon, ":"⟩, ⟨.literal .number, "1"⟩, ⟨.closing .brace, "\x7d"⟩]
    ∃ nodes, Token.Numbered tokens ∧ parse tokens = .ok nodes ∧
      ¬ ∀ t ∈ (analyze nodes).tokens, t.isDeclaration = true →
        (t ∈ Rule.unusedParam.flagged {} (analyze nodes).tokens ↔
          ¬ ∃ u ∈ (analyze nodes).tokens, ReadsParam t u) := by
  intro tokens
  refine ⟨_, Token.numbered_layOut _, rfl, ?_⟩
  intro hrule
  let declared : AnnotatedToken := ⟨tokens[2], some 0, some .parameter, none, false, some 0⟩
  let written : AnnotatedToken :=
    ⟨tokens[4], some 0, some .parameter, some .assignment, true, some 0⟩
  have hreads : ReadsParam declared written := by
    exact ⟨by decide, rfl, rfl, rfl, Or.inr ⟨rfl, rfl⟩⟩
  have hflagged := (hrule declared (by decide +kernel) rfl).1 (by decide +kernel)
  exact hflagged ⟨written, by decide +kernel, hreads⟩

end QSource
