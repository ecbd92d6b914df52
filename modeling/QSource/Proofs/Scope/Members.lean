/-
**What belongs to a scope, read off the tokens.**

The scope table says which names a scope declares and which are local to it.  The same can be told from
the annotated tokens without the table: the declared names are those of the declarations that stand in
the scope, in their order; and the local names, as far as they are no parameters, are those of the
assignments that the scope owns.

Main definitions:

* `QSource.Scope.paramList` — the names that a scope declares;
* `QSource.Scope.ownNames` — the local names of a scope that are no parameters of it.

Main results:

* `QSource.exists_region_of_declaration` — a name that is marked as declared is one of its scope;
* `QSource.map_declarations_eq` — **the declarations in a scope are its declared names**;
* `QSource.role_of_owned_assignment` — **an assignment that a scope owns writes a parameter or an own
  name of it**;
* `QSource.exists_assignment_of_mem_ownNames` — **every own name is assigned in its scope**.
-/

import QSource.Proofs.Lint.Order
import QSource.Proofs.Scope.Forest
import QSource.Proofs.Scope.Rename

set_option relaxedAutoImplicit false
set_option autoImplicit false

namespace QSource

open Node (outlineAll)

/-- The names that a scope declares, each with the number of its token: none without a parameter
list. -/
def Scope.paramList (s : Scope) : List (String × Nat) := s.declared.getD []

/-- The local names of a scope that are no parameters of it. -/
def Scope.ownNames (s : Scope) : List String := s.locals.filter fun name => !s.hasParam name

/-! ### Declared names -/

section

variable {m : Marked}

/-- The region declares the name of the token. -/
def Region.Declares (r : Region) (m : Marked) : Prop :=
  m.scope = some r.id ∧ ∃ params, r.declared = some params ∧ (m.token.text, m.token.index) ∈ params

/-- The node is a parameter list that names the token. -/
def Node.Names (node : Node) (m : Marked) : Prop :=
  ∃ gap first items last, node = .enclosed (.params gap) first items last ∧
    (m.token.text, m.token.index) ∈ directNames items

/-- Items among which no parameter list stands name nothing. -/
theorem not_names_of_not_isParams {items : List Node} (h : ∀ x ∈ items, x.isParams = false) :
    ¬ ∃ x ∈ items, x.Names m := by
  rintro ⟨x, hx, gap, first, names, last, rfl, -⟩
  simpa [Node.isParams] using h _ hx

/-- A name that is marked as declared in a parameter list is one of its direct names. -/
theorem mem_directNames_of_declaration (hmark : m.mark = .declaration) {scope : Option ScopeId}
    {items : List Node} (h : m ∈ (items.map (Node.paramOutline scope)).flatMap Outline.marked) :
    (m.token.text, m.token.index) ∈ directNames items := by
  obtain ⟨o, ho, hm⟩ := List.mem_flatMap.1 h
  obtain ⟨item, hitem, rfl⟩ := List.mem_map.1 ho
  unfold Node.paramOutline at hm
  split at hm
  · next name =>
      rw [Outline.marked_ofTokens, List.map_singleton, List.mem_singleton] at hm
      subst hm
      exact mem_directNames.2 ⟨name, hitem, rfl, rfl⟩
  · simp [mark_ofTokens hm] at hmark

mutual

theorem declares_or_names_of_mem_outline (hmark : m.mark = .declaration) (scope : Option ScopeId)
    (next : Nat) (query : Bool) (sign : Option Assignment) :
    ∀ node : Node, (∀ x ∈ node.subtrees, x.Fits) →
      m ∈ (node.outline scope next query sign).marked →
      (∃ r ∈ (node.outline scope next query sign).regions, r.Declares m) ∨
        m.scope = scope ∧ node.Names m
  | .leaf form token, _, h => by
      rw [Node.outline] at h
      exact absurd ((mark_ofTokens h).symm.trans hmark) (form.mark_ne_declaration query sign)
  | .assignment parts, _, h => by
      rw [Node.outline] at h
      simp [mark_ofTokens h] at hmark
  | .quoted first content last, _, h => by
      rw [Node.outline] at h
      simp [mark_ofTokens h] at hmark
  | .enclosed form first items last, hfits, h => by
      have hinner : ∀ x ∈ Node.all items, x.Fits := fun x hx => hfits x (by simp [hx])
      obtain ⟨-, -, -, hitems⟩ := hfits _ (Node.self_mem_subtrees _)
      -- the delimiters are no names, so the token is one of the items
      have hdelimiter : ∀ {scope' : Option ScopeId} {tokens : List Token},
          m ∉ (Outline.ofTokens scope' .plain tokens).marked := fun hm => by
        simp [mark_ofTokens hm] at hmark
      cases form with
      | bracket =>
          simp only [Node.outline, Outline.marked_append, List.mem_append, hdelimiter, false_or,
            or_false] at h
          rcases declares_or_names_of_mem_outlineAll hmark _ _ _ _ _ items hinner h with
            ⟨r, hr, hdeclares⟩ | ⟨-, hnames⟩
          · exact Or.inl ⟨r, by simpa [Node.outline] using hr, hdeclares⟩
          · exact absurd hnames (not_names_of_not_isParams hitems)
      | group =>
          simp only [Node.outline, Outline.marked_append, List.mem_append, hdelimiter, false_or,
            or_false] at h
          rcases declares_or_names_of_mem_outlineAll hmark _ _ _ _ _ items hinner h with
            ⟨r, hr, hdeclares⟩ | ⟨-, hnames⟩
          · exact Or.inl ⟨r, by simpa [Node.outline] using hr, hdeclares⟩
          · exact absurd hnames (not_names_of_not_isParams hitems)
      | lambda =>
          simp only [Node.outline, Outline.marked_append, List.mem_append, hdelimiter, false_or,
            or_false, List.not_mem_nil] at h
          left
          rcases declares_or_names_of_mem_outlineAll hmark _ _ _ _ _ items hinner h with
            ⟨r, hr, hdeclares⟩ | ⟨hscope, x, hx, hnames⟩
          · exact ⟨r, by simp [Node.outline, hr], hdeclares⟩
          · -- the parameter list of a lambda is its first item
            cases items with
            | nil => simp at hx
            | cons y body =>
                rcases List.mem_cons.1 hx with rfl | hx
                · obtain ⟨gap, opening, names, closing, rfl, hmem⟩ := hnames
                  refine ⟨⟨next, scope, first.index, last.index, some (directNames names)⟩, ?_,
                    hscope, directNames names, rfl, hmem⟩
                  simp [Node.outline, declaredParams]
                · exact absurd ⟨x, hx, hnames⟩ (not_names_of_not_isParams hitems)
      | params gap =>
          simp only [Node.outline, Outline.marked_append, Outline.marked_foldr, List.mem_append,
            hdelimiter, false_or, or_false] at h
          exact Or.inr ⟨scope_paramOutlines h, gap, first, items, last, rfl,
            mem_directNames_of_declaration hmark h⟩

/-- A name that is marked as declared is declared by a region of the outline, or by a parameter list
of the sequence itself. -/
theorem declares_or_names_of_mem_outlineAll (hmark : m.mark = .declaration)
    (scope : Option ScopeId) (next : Nat) (script initial query : Bool) :
    ∀ nodes : List Node, (∀ x ∈ Node.all nodes, x.Fits) →
      m ∈ (outlineAll scope next script initial query nodes).marked →
      (∃ r ∈ (outlineAll scope next script initial query nodes).regions, r.Declares m) ∨
        m.scope = scope ∧ ∃ x ∈ nodes, x.Names m
  | [], _, h => by simp [outlineAll, Outline.empty] at h
  | node :: rest, hfits, h => by
      rw [Node.all_cons] at hfits
      obtain ⟨hhead, htail⟩ := List.forall_mem_append.1 hfits
      rw [outlineAll, Outline.marked_append, List.mem_append] at h
      rw [outlineAll, Outline.regions_append]
      rcases h with h | h
      · rcases declares_or_names_of_mem_outline hmark scope next query _ node hhead h with
          ⟨r, hr, hdeclares⟩ | ⟨hscope, hnames⟩
        · exact Or.inl ⟨r, List.mem_append_left _ hr, hdeclares⟩
        · exact Or.inr ⟨hscope, node, List.mem_cons_self .., hnames⟩
      · rcases declares_or_names_of_mem_outlineAll hmark scope _ script initial _ rest htail h with
          ⟨r, hr, hdeclares⟩ | ⟨hscope, x, hx, hnames⟩
        · exact Or.inl ⟨r, List.mem_append_right _ hr, hdeclares⟩
        · exact Or.inr ⟨hscope, x, List.mem_cons_of_mem _ hx, hnames⟩

end

/-- **A name that is marked as declared is one of the scope that it stands in.** -/
theorem exists_region_of_declaration {tokens : List Token} {nodes : List Node}
    (h : parse tokens = .ok nodes) (hm : m ∈ (outline nodes).marked)
    (hmark : m.mark = .declaration) : ∃ r ∈ (outline nodes).regions, r.Declares m := by
  rcases declares_or_names_of_mem_outlineAll hmark none 0 true false false nodes (fits_parse h) hm
    with hdeclares | ⟨-, hnames⟩
  · exact hdeclares
  · exact absurd hnames (not_names_of_not_isParams (not_isParams_parse h))

end

section

/-- A declaration is a name that is marked as declared. -/
theorem Marked.isDeclaration_annotate {m : Marked} {scopes : List Scope} :
    (m.annotate scopes).isDeclaration = true ↔
      m.token.kind = .identifier ∧ m.mark = .declaration := by
  by_cases hkind : m.token.kind = .identifier
  · cases hmark : m.mark with
    | declaration => simp [AnnotatedToken.isDeclaration, annotate, hkind, hmark]
    | column => simp [AnnotatedToken.isDeclaration, annotate, hkind, hmark]
    | plain => simp [AnnotatedToken.isDeclaration, annotate, hkind, hmark]
    | target isGlobal isCompound =>
        cases isGlobal <;> simp [AnnotatedToken.isDeclaration, annotate, hkind, hmark]
  · have hrole : (m.annotate scopes).role ≠ some .parameter := by
      unfold annotate
      split <;> simp_all
    simp [AnnotatedToken.isDeclaration, hkind, hrole]

variable {tokens : List Token} {nodes : List Node} {s : Scope}
  (hnumbered : Token.Numbered tokens) (h : parse tokens = .ok nodes)
  (hs : s ∈ (analyze nodes).scopes)

include hnumbered h hs

omit hnumbered in
/-- The declarations that stand in a scope are those of its declared names. -/
theorem mem_paramList_iff {name : String} {index : Nat} :
    (name, index) ∈ s.paramList ↔ ∃ t ∈ (analyze nodes).tokens, t.isDeclaration = true ∧
      t.scope = some s.id ∧ t.text = name ∧ t.index = index := by
  constructor
  · intro hname
    cases hdeclared : s.declared with
    | none => simp [Scope.paramList, hdeclared] at hname
    | some params =>
        rw [Scope.paramList, hdeclared, Option.getD_some] at hname
        obtain ⟨m, hm, hmark, hscope, hkind, htext, hindex⟩ := declaredIn_outlineAll hdeclared hname
          none 0 true false false nodes (fits_parse h) (mem_regions_of_mem_scopes hs)
        refine ⟨m.annotate (analyze nodes).scopes.reverse, List.mem_map_of_mem hm,
          Marked.isDeclaration_annotate.2 ⟨hkind, hmark⟩, ?_⟩
        rw [Marked.scope_annotate, Marked.toToken_annotate]
        exact ⟨hscope, htext, hindex⟩
  · rintro ⟨t, ht, hdeclaration, hscope, rfl, rfl⟩
    obtain ⟨m, hm, rfl⟩ := exists_marked_of_mem_analyze ht
    rw [Marked.scope_annotate] at hscope
    obtain ⟨-, hmark⟩ := Marked.isDeclaration_annotate.1 hdeclaration
    obtain ⟨r, hr, hid, params, hparams, hmem⟩ := exists_region_of_declaration h hm hmark
    -- there is one scope with this number
    have hregion : s.toRegion = r := region_eq_of_id_eq (mem_regions_of_mem_scopes hs) hr
      (Option.some.inj (hscope.symm.trans hid))
    rw [Marked.toToken_annotate, Scope.paramList, hregion, hparams]
    exact hmem

/-- **The declarations in a scope, in their order, are its declared names.** -/
theorem map_declarations_eq :
    ((analyze nodes).tokens.filter fun t => t.isDeclaration && t.scope == some s.id).map
      (fun t => (t.text, t.index)) = s.paramList := by
  have hordered : s.paramList.Pairwise fun p q => p.2 < q.2 := by
    cases hdeclared : s.declared with
    | none => simp [Scope.paramList, hdeclared]
    | some params =>
        rw [Scope.paramList, hdeclared]
        exact pairwise_declared hnumbered h (mem_regions_of_mem_scopes hs) hdeclared
  have htokens : ((analyze nodes).tokens.filter fun t =>
      t.isDeclaration && t.scope == some s.id).Pairwise fun t u => t.index < u.index :=
    (pairwise_index_of_numbered (numbered_analyze hnumbered h)).filter _
  have : Std.Irrefl fun p q : String × Nat => p.2 < q.2 := ⟨fun _ => Nat.lt_irrefl _⟩
  have : Std.Antisymm fun p q : String × Nat => p.2 < q.2 :=
    ⟨fun _ _ hlt hlt' => absurd hlt' (Nat.lt_asymm hlt)⟩
  refine List.Pairwise.eq_of_mem_iff (List.pairwise_map.2 htokens) hordered ?_
  rintro ⟨name, index⟩
  rw [mem_paramList_iff h hs]
  simp [and_assoc]

/-! ### Own names -/

omit hnumbered h in
theorem nodup_ownNames : s.ownNames.Nodup := by
  obtain ⟨r, -, rfl⟩ := mem_scopes_iff.1 hs
  exact ((pairwise_sortedNames _).imp fun hlt => ne_of_lt hlt).filter _

omit hnumbered h in
/-- **An assignment that a scope owns writes a parameter of it or one of its own names**, which its role
tells. -/
theorem role_of_owned_assignment {t : AnnotatedToken} (ht : t ∈ (analyze nodes).tokens)
    (hassignment : t.isAssignment = true) (hbinding : t.binding = some s.id) :
    t.role = some .parameter ∧ s.hasParam t.text = true ∨
      t.role = some .localVar ∧ t.text ∈ s.ownNames := by
  obtain ⟨m, hm, rfl⟩ := exists_marked_of_mem_analyze ht
  rcases m.annotate_cases (analyze nodes).scopes.reverse with
    ⟨hmark, -⟩ | ⟨hrole, howner⟩ | ⟨-, -, hnone⟩
  · -- a declaration is not assigned
    simp only [AnnotatedToken.isAssignment, beq_iff_eq] at hassignment
    exfalso
    by_cases hkind : m.token.kind = .identifier
    · simp [Marked.annotate, hkind, hmark] at hassignment
    · rw [Marked.annotate] at hassignment hbinding
      split at hassignment <;> simp_all
  · rw [howner] at hbinding
    rw [hrole, Marked.toToken_annotate]
    rcases resolve_spec (Scope.enclosing m.scope (analyze nodes).scopes.reverse) m.token.text with
      ⟨s', hs', hgives, hid⟩ | hnone
    · obtain rfl : s' = s :=
        eq_of_id_eq (List.mem_reverse.1 (Scope.mem_of_mem_enclosing hs')) hs
          (Option.some.inj (hid.symm.trans hbinding))
      rcases hgives with ⟨hparameter, hparam⟩ | ⟨hlocal, hparam, hname⟩
      · exact Or.inl ⟨congrArg some hparameter, hparam⟩
      · exact Or.inr ⟨congrArg some hlocal, List.mem_filter.2 ⟨hname, by simp [hparam]⟩⟩
    · simp [hnone] at hbinding
  · simp [hnone] at hbinding

omit hnumbered h in
/-- **Every own name of a scope is assigned in it**, as a local of its own. -/
theorem exists_assignment_of_mem_ownNames {name : String} (hname : name ∈ s.ownNames) :
    ∃ t ∈ (analyze nodes).tokens, t.isAssignment = true ∧ t.role = some .localVar ∧
      t.scope = some s.id ∧ t.binding = some s.id ∧ t.text = name := by
  obtain ⟨hlocal, -⟩ := List.mem_filter.1 hname
  obtain ⟨m, hm, hintroduces, hscope, htext⟩ := (mem_locals_iff hs).1 hlocal
  obtain ⟨hkind, -, isCompound, hmark⟩ := introducesLocal_iff.1 hintroduces
  obtain ⟨husage, -, hbinding⟩ := @Marked.annotate_of_resolved (analyze nodes).scopes.reverse m hkind
    (Or.inr ⟨isCompound, hmark⟩)
  rw [hscope, htext, owner_of_mem_locals hs hlocal] at hbinding
  have hmem : m.annotate (analyze nodes).scopes.reverse ∈ (analyze nodes).tokens :=
    List.mem_map_of_mem hm
  have hassignment : (m.annotate (analyze nodes).scopes.reverse).isAssignment = true := by
    simp [AnnotatedToken.isAssignment, husage, hmark, Mark.usage]
  refine ⟨_, hmem, hassignment, ?_, ?_, hbinding, ?_⟩
  · rcases role_of_owned_assignment hs hmem hassignment hbinding with ⟨-, hparam⟩ | ⟨hrole, -⟩
    · -- an own name is no parameter
      rw [Marked.toToken_annotate, htext] at hparam
      have hnot := (List.mem_filter.1 hname).2
      simp [hparam] at hnot
    · exact hrole
  · rw [Marked.scope_annotate, hscope]
  · rw [Marked.toToken_annotate, htext]

end

end QSource
