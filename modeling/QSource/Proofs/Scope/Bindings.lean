/-
**What the occurrences of one variable have in common.**

Local names are collected before any name is looked up, and the look-up goes from scope to scope.  What
comes of the two is told here of the annotated tokens alone: whatever is owned by a scope stands between
its braces and has the role that the scope gives to its name, a local is assigned directly in the scope
that owns it, and such an assignment is never owned by a scope further out.

Main definitions:

* `QSource.WellBound` — **what the occurrences of one variable have in common**.

Main results:

* `QSource.exists_owner` — the owner of a name is one of the scopes around it, and gives it its role;
* `QSource.covers_of_mem_enclosing` — the scopes around a token cover it;
* `QSource.binding_eq_scope_of_assignment` — **an assignment to a local is owned by its own scope**;
* `QSource.wellBound_analyze` — **names are well bound**.
-/

import QSource.Proofs.Scope.Members

set_option relaxedAutoImplicit false
set_option autoImplicit false

namespace QSource

/-! ### Roles that scopes give -/

/-- A scope gives a name at most one role. -/
theorem Scope.Gives.unique {s : Scope} {name : String} {role role' : Role}
    (h : s.Gives name role) (h' : s.Gives name role') : role = role' := by
  rcases h with ⟨rfl, hparam⟩ | ⟨rfl, hparam, -⟩ <;>
    rcases h' with ⟨rfl, hparam'⟩ | ⟨rfl, hparam', -⟩
  · rfl
  · simp [hparam] at hparam'
  · simp [hparam] at hparam'
  · rfl

/-- A name without a list of parameters to stand in is one of three. -/
theorem Region.hasParam_of_declared_eq_none {r : Region} {name : String} (h : r.declared = none) :
    r.hasParam name = true ↔ name = "x" ∨ name = "y" ∨ name = "z" := by
  simp [Region.hasParam, h, defaultParams]

/-- The names of a parameter list are the parameters of the scope. -/
theorem Scope.hasParam_of_mem_paramList {s : Scope} {name : String} {index : Nat}
    (h : (name, index) ∈ s.paramList) : s.hasParam name = true := by
  cases hdeclared : s.declared with
  | none => simp [Scope.paramList, hdeclared] at h
  | some params =>
      rw [Scope.paramList, hdeclared] at h
      rw [Region.hasParam, hdeclared]
      exact List.any_eq_true.2 ⟨(name, index), h, by simp⟩

/-- Only names have owners. -/
theorem Marked.binding_annotate_of_ne {m : Marked} {table : List Scope}
    (hkind : m.token.kind ≠ .identifier) : (m.annotate table).binding = none := by
  unfold annotate
  split <;> simp_all

/-! ### Scopes around a token -/

section

variable {tokens : List Token} {nodes : List Node} (hnumbered : Token.Numbered tokens)
  (h : parse tokens = .ok nodes)

include hnumbered h

/-- What the first scope of a walk outwards covers, all of them cover. -/
theorem covers_of_outward {index : Nat} {id : Option ScopeId} {outer : List Scope}
    (hout : Outward (analyze nodes).scopes id outer)
    (hid : ∀ s ∈ (analyze nodes).scopes, id = some s.id → s.Covers index) :
    ∀ s ∈ outer, s.Covers index := by
  induction outer generalizing id with
  | nil => simp
  | cons s outer ih =>
      obtain ⟨rfl, hs, -, hout⟩ := hout
      have hmem := List.mem_of_getElem? hs
      have hcovers := hid s hmem rfl
      refine List.forall_mem_cons.2 ⟨hcovers, ih hout fun s' hs' hparent => ?_⟩
      have hencloses := parent_encloses hnumbered h (mem_regions_of_mem_scopes hmem)
        (mem_regions_of_mem_scopes hs') hparent
      unfold Region.Covers at hcovers ⊢
      omega

/-- **The scopes around a token cover it.** -/
theorem covers_of_mem_enclosing {t : AnnotatedToken} (ht : t ∈ (analyze nodes).tokens) {s : Scope}
    (hs : s ∈ Scope.enclosing t.scope (analyze nodes).scopes.reverse) : s.Covers t.index := by
  refine covers_of_outward hnumbered h (outward_of_mem_analyze ht) ?_ s hs
  intro s' hs' hscope
  obtain ⟨m, hm, rfl⟩ := exists_marked_of_mem_analyze ht
  rw [Marked.scope_annotate] at hscope
  rw [Marked.toToken_annotate]
  exact scope_encloses hnumbered h hm (mem_regions_of_mem_scopes hs') hscope

end

/-! ### Owners -/

section

variable {tokens : List Token} {nodes : List Node} {t : AnnotatedToken}
  (h : parse tokens = .ok nodes) (ht : t ∈ (analyze nodes).tokens)

include ht

include h in
/-- **The owner of a name is one of the scopes around it, and gives it its role.** -/
theorem exists_owner {id : ScopeId} (hbinding : t.binding = some id) :
    t.kind = .identifier ∧ ∃ s ∈ Scope.enclosing t.scope (analyze nodes).scopes.reverse,
      s.id = id ∧ ∃ role, t.role = some role ∧ s.Gives t.text role := by
  obtain ⟨m, hm, rfl⟩ := exists_marked_of_mem_analyze ht
  have hkind : m.token.kind = .identifier := by
    by_contra hne
    simp [Marked.binding_annotate_of_ne hne] at hbinding
  rw [Marked.toToken_annotate, Marked.scope_annotate]
  refine ⟨hkind, ?_⟩
  rcases m.annotate_cases (analyze nodes).scopes.reverse with
    ⟨hmark, howner⟩ | ⟨hrole, howner⟩ | ⟨-, -, hnone⟩
  · -- the owner of a declared name is its own scope
    obtain ⟨r, hr, hscope, params, hparams, hmem⟩ := exists_region_of_declaration h hm hmark
    obtain ⟨s, hs, rfl⟩ := exists_getElem?_of_mem_regions hr
    have hs := List.mem_of_getElem? hs
    have hnodup : ((analyze nodes).scopes.reverse.map (·.id)).Nodup := by
      rw [List.map_reverse, List.nodup_reverse, map_id_scopes]
      exact List.nodup_range
    obtain ⟨rest, hrest⟩ := Scope.exists_enclosing_eq_cons hnodup (List.mem_reverse.2 hs)
    refine ⟨s, ?_, ?_, .parameter, ?_, Or.inl ⟨rfl, ?_⟩⟩
    · rw [hscope, hrest]
      exact List.mem_cons_self ..
    · exact Option.some.inj ((hscope.symm.trans howner.symm).trans hbinding)
    · simp [Marked.annotate, hkind, hmark]
    · refine @Scope.hasParam_of_mem_paramList s m.token.text m.token.index ?_
      rwa [Scope.paramList, hparams]
  · rw [howner] at hbinding
    rcases resolve_spec (Scope.enclosing m.scope (analyze nodes).scopes.reverse) m.token.text with
      ⟨s, hs, hgives, hid⟩ | hnone
    · exact ⟨s, hs, Option.some.inj (hid.symm.trans hbinding), _, hrole, hgives⟩
    · simp [hnone] at hbinding
  · simp [hnone] at hbinding

omit ht in
/-- A local name has no point in it. -/
theorem point_not_mem_of_mem_locals {s : Scope} (hs : s ∈ (analyze nodes).scopes) {name : String}
    (hname : name ∈ s.locals) : '.' ∉ name.toList := by
  obtain ⟨m, -, hintroduces, -, rfl⟩ := (mem_locals_iff hs).1 hname
  exact (introducesLocal_iff.1 hintroduces).2.1

/-- A token that is written as a local is marked as the target of a single colon. -/
theorem exists_target_of_assignment (hassignment : t.isAssignment = true)
    (hrole : t.role = some .localVar) :
    ∃ m ∈ (outline nodes).marked, t = m.annotate (analyze nodes).scopes.reverse ∧
      m.token.kind = .identifier ∧ ∃ isCompound, m.mark = .target false isCompound := by
  obtain ⟨m, hm, rfl⟩ := exists_marked_of_mem_analyze ht
  simp only [AnnotatedToken.isAssignment, beq_iff_eq] at hassignment
  have hkind : m.token.kind = .identifier := by
    by_contra hne
    unfold Marked.annotate at hrole
    split at hrole <;> simp_all
  refine ⟨m, hm, rfl, hkind, ?_⟩
  have husage : (m.annotate (analyze nodes).scopes.reverse).usage ≠ none := by simp [hassignment]
  rcases Marked.mark_of_usage hkind husage with hmark | ⟨isGlobal, isCompound, hmark⟩
  · simp [Marked.annotate, hkind, hmark, Mark.usage] at hassignment
  · cases isGlobal with
    | false => exact ⟨isCompound, hmark⟩
    | true =>
        rw [(Marked.annotate_of_global hkind hmark).1] at hrole
        exact absurd (Option.some.inj hrole) (unownedRole_ne _).2

include h in
/-- **An assignment to a local is owned by its own scope.**  The scope that owns it has the name as a
local one, so there is no point in the name, and then the assignment makes it local to its own scope. -/
theorem binding_eq_scope_of_assignment (hassignment : t.isAssignment = true)
    (hrole : t.role = some .localVar) : t.binding = t.scope := by
  obtain ⟨id, hid⟩ := Option.ne_none_iff_exists'.1 (binding_ne_none_of_role h ht (Or.inr hrole))
  obtain ⟨-, s, hs, -, role, hrole', hgives⟩ := exists_owner h ht hid
  have hmem : s ∈ (analyze nodes).scopes := List.mem_reverse.1 (Scope.mem_of_mem_enclosing hs)
  have hname : t.text ∈ s.locals := by
    obtain rfl : role = .localVar := Option.some.inj (hrole'.symm.trans hrole)
    rcases hgives with ⟨hparam, -⟩ | ⟨-, -, hname⟩
    · simp at hparam
    · exact hname
  obtain ⟨m, hm, rfl, hkind, isCompound, hmark⟩ := exists_target_of_assignment ht hassignment hrole
  rw [Marked.scope_annotate] at hs ⊢
  rw [Marked.toToken_annotate] at hname
  obtain ⟨-, -, hbinding⟩ := @Marked.annotate_of_resolved (analyze nodes).scopes.reverse m hkind
    (Or.inr ⟨isCompound, hmark⟩)
  cases hscope : m.scope with
  | none => simp [hscope, Scope.enclosing] at hs
  | some own =>
      obtain ⟨own, hown, rfl⟩ := exists_mem_scopes_of_lt (scope_lt_of_mem_marked hm hscope)
      have hlocal : m.token.text ∈ own.locals := by
        refine (mem_locals_iff hown).2 ⟨m, hm, introducesLocal_iff.2 ⟨hkind, ?_, isCompound, hmark⟩,
          hscope, rfl⟩
        exact point_not_mem_of_mem_locals hmem hname
      rw [hbinding, hscope, owner_of_mem_locals hown hlocal]

end

/-! ### The occurrences of one variable -/

/-- **What the occurrences of one variable have in common.** -/
structure WellBound (nodes : List Node) : Prop where
  /-- A local is assigned directly in the scope that owns it, and there it is a local of that scope. -/
  assigned : ∀ t ∈ (analyze nodes).tokens, t.role = some .localVar → ∀ id, t.binding = some id →
    ∃ u ∈ (analyze nodes).tokens, u.isAssignment = true ∧ u.text = t.text ∧
      u.role = some .localVar ∧ u.scope = some id ∧ u.binding = some id
  /-- An assignment to a local is owned by its own scope. -/
  own : ∀ t ∈ (analyze nodes).tokens, t.isAssignment = true → t.role = some .localVar →
    t.binding = t.scope
  /-- A parameter is declared in the scope that owns it, or it is one of the three that a scope without
  a parameter list has. -/
  declared : ∀ t ∈ (analyze nodes).tokens, t.role = some .parameter → ∀ id, t.binding = some id →
    ∃ s ∈ (analyze nodes).scopes, s.id = id ∧
      ((∃ u ∈ (analyze nodes).tokens, u.isDeclaration = true ∧ u.text = t.text ∧
          u.scope = some id ∧ u.binding = some id) ∨
        s.declared = none ∧ (t.text = "x" ∨ t.text = "y" ∨ t.text = "z"))
  /-- Tokens with the same text and the same owner have the same role. -/
  role : ∀ t ∈ (analyze nodes).tokens, ∀ u ∈ (analyze nodes).tokens, t.text = u.text →
    t.binding = u.binding → t.binding ≠ none → t.role = u.role
  /-- What is owned by a scope stands strictly between its braces. -/
  between : ∀ t ∈ (analyze nodes).tokens, ∀ id, t.binding = some id →
    ∃ s ∈ (analyze nodes).scopes, s.id = id ∧ s.first < t.index ∧ t.index < s.last
  /-- Parameters and locals have owners, and nothing else has. -/
  owned : ∀ t ∈ (analyze nodes).tokens,
    t.binding ≠ none ↔ t.role = some .parameter ∨ t.role = some .localVar

section

variable {tokens : List Token} {nodes : List Node} {t : AnnotatedToken}
  (h : parse tokens = .ok nodes) (ht : t ∈ (analyze nodes).tokens)

include h ht

/-- The scope of the table that owns a token, and the role that it gives. -/
theorem exists_mem_scopes_of_binding {id : ScopeId} (hbinding : t.binding = some id) :
    ∃ s ∈ (analyze nodes).scopes, s.id = id ∧ ∃ role, t.role = some role ∧ s.Gives t.text role := by
  obtain ⟨-, s, hs, hid, hrole⟩ := exists_owner h ht hbinding
  exact ⟨s, List.mem_reverse.1 (Scope.mem_of_mem_enclosing hs), hid, hrole⟩

omit h in
/-- A declaration belongs to the scope that it stands in. -/
theorem binding_of_isDeclaration (hdeclaration : t.isDeclaration = true) : t.binding = t.scope := by
  obtain ⟨m, hm, rfl⟩ := exists_marked_of_mem_analyze ht
  obtain ⟨hkind, hmark⟩ := Marked.isDeclaration_annotate.1 hdeclaration
  rw [Marked.scope_annotate]
  simp [Marked.annotate, hkind, hmark]

/-- A parameter that its scope has from a parameter list is declared there. -/
theorem exists_declaration_of_parameter (hrole : t.role = some .parameter) {id : ScopeId}
    (hbinding : t.binding = some id) : ∃ s ∈ (analyze nodes).scopes, s.id = id ∧
      ((∃ u ∈ (analyze nodes).tokens, u.isDeclaration = true ∧ u.text = t.text ∧
          u.scope = some id ∧ u.binding = some id) ∨
        s.declared = none ∧ (t.text = "x" ∨ t.text = "y" ∨ t.text = "z")) := by
  obtain ⟨s, hs, rfl, role, hrole', hgives⟩ := exists_mem_scopes_of_binding h ht hbinding
  obtain rfl : role = .parameter := Option.some.inj (hrole'.symm.trans hrole)
  refine ⟨s, hs, rfl, ?_⟩
  have hparam : s.hasParam t.text = true := by
    rcases hgives with ⟨-, hparam⟩ | ⟨hlocal, -⟩
    · exact hparam
    · simp at hlocal
  cases hdeclared : s.declared with
  | none => exact Or.inr ⟨rfl, (Region.hasParam_of_declared_eq_none hdeclared).1 hparam⟩
  | some params =>
      left
      rw [Region.hasParam, hdeclared] at hparam
      obtain ⟨⟨name, index⟩, hmem, hname⟩ := List.any_eq_true.1 hparam
      obtain rfl : name = t.text := beq_iff_eq.1 hname
      obtain ⟨u, hu, hdeclaration, hscope, htext, -⟩ := (mem_paramList_iff h hs).1
        (by rw [Scope.paramList, hdeclared]; exact hmem)
      exact ⟨u, hu, hdeclaration, htext, hscope,
        (binding_of_isDeclaration hu hdeclaration).trans hscope⟩

/-- Tokens with the same text and the same owner have the same role. -/
theorem role_eq_of_binding_eq {u : AnnotatedToken} (hu : u ∈ (analyze nodes).tokens)
    (htext : t.text = u.text) (hsame : t.binding = u.binding) (howned : t.binding ≠ none) :
    t.role = u.role := by
  obtain ⟨id, hid⟩ := Option.ne_none_iff_exists'.1 howned
  obtain ⟨s, hs, rfl, role, hrole, hgives⟩ := exists_mem_scopes_of_binding h ht hid
  obtain ⟨s', hs', hid', role', hrole', hgives'⟩ :=
    exists_mem_scopes_of_binding h hu (hsame.symm.trans hid)
  obtain rfl := eq_of_id_eq hs' hs hid'
  rw [hrole, hrole', hgives.unique (htext ▸ hgives')]

end

/-- **Names are well bound**: the scopes that own them are those that the tokens themselves show. -/
theorem wellBound_analyze {tokens : List Token} {nodes : List Node}
    (hnumbered : Token.Numbered tokens) (h : parse tokens = .ok nodes) : WellBound nodes where
  assigned := by
    intro t ht hrole id hbinding
    obtain ⟨s, hs, rfl, role, hrole', hgives⟩ := exists_mem_scopes_of_binding h ht hbinding
    obtain rfl : role = .localVar := Option.some.inj (hrole'.symm.trans hrole)
    have hown : t.text ∈ s.ownNames := by
      rcases hgives with ⟨hparam, -⟩ | ⟨-, hparam, hname⟩
      · simp at hparam
      · exact List.mem_filter.2 ⟨hname, by simp [hparam]⟩
    obtain ⟨u, hu, hassignment, hlocal, hscope, howner, htext⟩ :=
      exists_assignment_of_mem_ownNames hs hown
    exact ⟨u, hu, hassignment, htext, hlocal, hscope, howner⟩
  own := fun t ht => binding_eq_scope_of_assignment h ht
  declared := fun t ht hrole id => exists_declaration_of_parameter h ht hrole
  role := fun t ht u hu htext hsame howned => role_eq_of_binding_eq h ht hu htext hsame howned
  between := by
    intro t ht id hid
    obtain ⟨hkind, s, hs, rfl, -⟩ := exists_owner h ht hid
    have hmem : s ∈ (analyze nodes).scopes := List.mem_reverse.1 (Scope.mem_of_mem_enclosing hs)
    exact ⟨s, hmem, rfl, between_of_covers hnumbered h ht hkind hmem
      (covers_of_mem_enclosing hnumbered h ht hs)⟩
  owned := by
    intro t ht
    refine ⟨fun howned => ?_, binding_ne_none_of_role h ht⟩
    obtain ⟨id, hid⟩ := Option.ne_none_iff_exists'.1 howned
    obtain ⟨s, -, -, role, hrole, hgives⟩ := exists_mem_scopes_of_binding h ht hid
    rw [hrole]
    rcases hgives with ⟨rfl, -⟩ | ⟨rfl, -⟩
    · exact Or.inl rfl
    · exact Or.inr rfl

/-- In `{[a]b:a;{x+b;b::a;c.d:b}b+:1}` the local `b` and the parameter `a` are met in the inner lambda,
which has a parameter without declaring it and writes two globals. -/
theorem wellBound_analyze_inner :
    let tokens := Lexeme.layOut [⟨.opening .brace, "\x7b"⟩, ⟨.opening .bracket, "["⟩,
      ⟨.identifier, "a"⟩, ⟨.closing .bracket, "]"⟩, ⟨.identifier, "b"⟩, ⟨.colon, ":"⟩,
      ⟨.identifier, "a"⟩, ⟨.semicolon, ";"⟩, ⟨.opening .brace, "\x7b"⟩, ⟨.identifier, "x"⟩,
      ⟨.operator, "+"⟩, ⟨.identifier, "b"⟩, ⟨.semicolon, ";"⟩, ⟨.identifier, "b"⟩,
      ⟨.doubleColon, "::"⟩, ⟨.identifier, "a"⟩, ⟨.semicolon, ";"⟩, ⟨.identifier, "c.d"⟩,
      ⟨.colon, ":"⟩, ⟨.identifier, "b"⟩, ⟨.closing .brace, "\x7d"⟩, ⟨.identifier, "b"⟩,
      ⟨.operator, "+"⟩, ⟨.colon, ":"⟩, ⟨.literal .number, "1"⟩, ⟨.closing .brace, "\x7d"⟩]
    ∃ nodes, Token.Numbered tokens ∧ parse tokens = .ok nodes ∧ WellBound nodes ∧
      ((analyze nodes).tokens.filter AnnotatedToken.isIdentifier).map
          (fun t => (t.text, t.scope, t.role, t.binding)) =
        [("a", some 0, some .parameter, some 0), ("b", some 0, some .localVar, some 0),
          ("a", some 0, some .parameter, some 0), ("x", some 1, some .parameter, some 1),
          ("b", some 1, some .localVar, some 0), ("b", some 1, some .globalVar, none),
          ("a", some 1, some .parameter, some 0), ("c.d", some 1, some .globalVar, none),
          ("b", some 1, some .localVar, some 0), ("b", some 0, some .localVar, some 0)] := by
  intro tokens
  have hnumbered : Token.Numbered tokens := Token.numbered_layOut _
  exact ⟨_, hnumbered, rfl, wellBound_analyze hnumbered rfl, by decide +kernel⟩

end QSource
