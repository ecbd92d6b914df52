/-
**Names and their owners.**

The walk outwards from a name ends at a scope that has the name, or it finds none.  So a parameter or
a local always has an owner, and the owner is a scope of the table.  A declared name is owned by the
lambda of its parameter list, and there always is one, because a tree has no parameter list anywhere
else.

Main definitions:

* `QSource.Scope.Gives` — a scope gives a name its role;
* `QSource.DeclaredIn` — a name of a parameter list is marked as declared.

Main results:

* `QSource.resolve_spec` — where the walk outwards ends;
* `QSource.scope_ne_none_of_declaration` — a declared name stands in a scope;
* `QSource.declaredIn_outlineAll` — the names of a parameter list are marked as declared in its scope;
* `QSource.Marked.annotate_replaced` — what is known about a token that is replaced;
* `QSource.binding_ne_none_of_role` — **parameters and locals have owners**;
* `QSource.binding_lt_of_mem_analyze` — an owner is a scope of the table.
-/

import QSource.Proofs.Scope.Lexical

set_option relaxedAutoImplicit false
set_option autoImplicit false

namespace QSource

open Node (outlineAll)

/-! ### The walk outwards -/

theorem Scope.mem_of_mem_enclosing {scope : Option ScopeId} {table : List Scope} {s : Scope}
    (h : s ∈ Scope.enclosing scope table) : s ∈ table := by
  induction table generalizing scope with
  | nil => cases scope <;> simp [Scope.enclosing] at h
  | cons s' older ih =>
      cases scope with
      | none => simp [Scope.enclosing] at h
      | some id =>
          rw [Scope.enclosing] at h
          split at h
          · rcases List.mem_cons.1 h with rfl | h
            · exact List.mem_cons_self ..
            · exact List.mem_cons_of_mem _ (ih h)
          · exact List.mem_cons_of_mem _ (ih h)

/-- The scope gives the name the role: it has it as a parameter, or else among its local names. -/
def Scope.Gives (scope : Scope) (name : String) (role : Role) : Prop :=
  role = .parameter ∧ scope.hasParam name = true ∨
    role = .localVar ∧ scope.hasParam name = false ∧ name ∈ scope.locals

/-- **Where the walk outwards ends**: at a scope that gives the name its role, or nowhere. -/
theorem resolve_spec (table : List Scope) (name : String) :
    (∃ s ∈ table, s.Gives name (resolve table name).1 ∧ (resolve table name).2 = some s.id) ∨
      resolve table name = (unownedRole name, none) := by
  induction table with
  | nil => exact Or.inr rfl
  | cons s older ih =>
      rw [resolve_cons]
      split
      · next hparam => exact Or.inl ⟨s, List.mem_cons_self .., Or.inl ⟨rfl, hparam⟩, rfl⟩
      · next hparam =>
          split
          · next hlocal =>
              refine Or.inl ⟨s, List.mem_cons_self .., Or.inr ⟨rfl, ?_, ?_⟩, rfl⟩
              · exact eq_false_of_ne_true hparam
              · exact List.contains_iff_mem.1 hlocal
          · exact ih.imp_left fun ⟨s', hs', hgives⟩ => ⟨s', List.mem_cons_of_mem _ hs', hgives⟩

theorem unownedRole_ne (name : String) :
    unownedRole name ≠ .parameter ∧ unownedRole name ≠ .localVar := by
  rw [unownedRole]
  split <;> simp

/-! ### Declared names -/

theorem Outline.scope_ofTokens {scope : Option ScopeId} {mark : Mark} {tokens : List Token}
    {m : Marked} (h : m ∈ (Outline.ofTokens scope mark tokens).marked) : m.scope = scope := by
  rw [Outline.marked_ofTokens] at h
  obtain ⟨t, -, rfl⟩ := List.mem_map.1 h
  rfl

theorem scope_paramOutlines {scope : Option ScopeId} {items : List Node} {m : Marked}
    (h : m ∈ (items.map (Node.paramOutline scope)).flatMap Outline.marked) : m.scope = scope := by
  obtain ⟨o, ho, hm⟩ := List.mem_flatMap.1 h
  obtain ⟨item, -, rfl⟩ := List.mem_map.1 ho
  unfold Node.paramOutline at hm
  split at hm <;> exact Outline.scope_ofTokens hm

theorem LeafForm.mark_ne_declaration (query : Bool) (sign : Option Assignment) (form : LeafForm) :
    form.mark query sign ≠ .declaration := by
  cases sign <;> cases form <;> cases query <;> simp [LeafForm.mark]

section

variable {m : Marked}

mutual

theorem scope_ne_none_of_declaration_outline (hmark : m.mark = .declaration)
    (scope : Option ScopeId) (next : Nat) (query : Bool) (sign : Option Assignment) :
    ∀ node : Node, (∀ x ∈ node.subtrees, x.Fits) → (scope = none → node.isParams = false) →
      m ∈ (node.outline scope next query sign).marked → m.scope ≠ none
  | .leaf form token, _, _, h => by
      rw [Node.outline] at h
      exact absurd ((mark_ofTokens h).symm.trans hmark) (form.mark_ne_declaration query sign)
  | .assignment parts, _, _, h => by
      rw [Node.outline] at h
      simp [mark_ofTokens h] at hmark
  | .quoted first content last, _, _, h => by
      rw [Node.outline] at h
      simp [mark_ofTokens h] at hmark
  | .enclosed form first items last, hfits, hparams, h => by
      have hinner : ∀ x ∈ Node.all items, x.Fits := fun x hx => hfits x (by simp [hx])
      obtain ⟨-, -, -, hitems⟩ := hfits _ (Node.self_mem_subtrees _)
      -- the delimiters are no names, so the token is one of the items
      have hdelimiter : ∀ {scope' : Option ScopeId} {tokens : List Token},
          m ∉ (Outline.ofTokens scope' .plain tokens).marked := fun hm => by
        simp [mark_ofTokens hm] at hmark
      cases form with
      | bracket =>
          simp only [Node.outline, Outline.marked_append, List.mem_append, hdelimiter, false_or,
            or_false] at h
          exact scope_ne_none_of_declaration_outlineAll hmark _ _ _ _ _ items hinner
            (fun _ => hitems) h
      | group =>
          simp only [Node.outline, Outline.marked_append, List.mem_append, hdelimiter, false_or,
            or_false] at h
          exact scope_ne_none_of_declaration_outlineAll hmark _ _ _ _ _ items hinner
            (fun _ => hitems) h
      | lambda =>
          simp only [Node.outline, Outline.marked_append, List.mem_append, hdelimiter, false_or,
            or_false, List.not_mem_nil] at h
          exact scope_ne_none_of_declaration_outlineAll hmark _ _ _ _ _ items hinner (by simp) h
      | params gap =>
          simp only [Node.outline, Outline.marked_append, Outline.marked_foldr, List.mem_append,
            hdelimiter, false_or, or_false] at h
          rw [scope_paramOutlines h]
          intro hnone
          simpa [Node.isParams] using hparams hnone

/-- A declared name stands in a scope, if no parameter list stands outside all lambdas. -/
theorem scope_ne_none_of_declaration_outlineAll (hmark : m.mark = .declaration)
    (scope : Option ScopeId) (next : Nat) (script initial query : Bool) :
    ∀ nodes : List Node, (∀ x ∈ Node.all nodes, x.Fits) →
      (scope = none → ∀ x ∈ nodes, x.isParams = false) →
      m ∈ (outlineAll scope next script initial query nodes).marked → m.scope ≠ none
  | [], _, _, h => by simp [outlineAll, Outline.empty] at h
  | node :: rest, hfits, hparams, h => by
      rw [Node.all_cons] at hfits
      obtain ⟨hhead, htail⟩ := List.forall_mem_append.1 hfits
      rw [outlineAll, Outline.marked_append, List.mem_append] at h
      rcases h with h | h
      · exact scope_ne_none_of_declaration_outline hmark scope next query _ node hhead
          (fun hnone => hparams hnone node (List.mem_cons_self ..)) h
      · exact scope_ne_none_of_declaration_outlineAll hmark scope _ script initial _ rest htail
          (fun hnone x hx => hparams hnone x (List.mem_cons_of_mem _ hx)) h

end

/-- A declared name stands in a scope. -/
theorem scope_ne_none_of_declaration {tokens : List Token} {nodes : List Node}
    (h : parse tokens = .ok nodes) (hm : m ∈ (outline nodes).marked)
    (hmark : m.mark = .declaration) : m.scope ≠ none :=
  scope_ne_none_of_declaration_outlineAll hmark none 0 true false false nodes (fits_parse h)
    (fun _ => not_isParams_parse h) hm

end

section

variable {r : Region} {params : List (String × Nat)} {name : String} {index : Nat}

/-- A name of a parameter list is marked as declared in the scope. -/
def DeclaredIn (marked : List Marked) (r : Region) (name : String) (index : Nat) : Prop :=
  ∃ m ∈ marked, m.mark = .declaration ∧ m.scope = some r.id ∧ m.token.kind = .identifier ∧
    m.token.text = name ∧ m.token.index = index

theorem DeclaredIn.mono {marked marked' : List Marked} (h : DeclaredIn marked r name index)
    (hsub : marked ⊆ marked') : DeclaredIn marked' r name index := by
  obtain ⟨m, hm, hmark⟩ := h
  exact ⟨m, hsub hm, hmark⟩

theorem declaredIn_params {items : List Node} (hfits : ∀ x ∈ Node.all items, x.Fits) (next : Nat)
    (hdeclared : declaredParams items = some params) (hname : (name, index) ∈ params)
    (hid : r.id = next) :
    DeclaredIn (outlineAll (some next) (next + 1) false false false items).marked r name index := by
  subst hid
  fun_cases declaredParams items with
  | case1 gap first names last rest =>
      obtain rfl : directNames names = params := by
        simpa [declaredParams] using hdeclared
      obtain ⟨t, ht, rfl, rfl⟩ := mem_directNames.1 hname
      have hkind : t.kind = .identifier := by
        have hleaf := hfits (.leaf .identifier t) (by simp [Node.mem_all_of_mem ht])
        cases htoken : t.kind <;> simp [Node.Fits, htoken, Kind.leafForm?] at hleaf ⊢
      refine ⟨⟨t, some r.id, .declaration⟩, ?_, rfl, rfl, hkind, rfl, rfl⟩
      rw [outlineAll, Outline.marked_append]
      refine List.mem_append_left _ ?_
      simp only [Node.outline, Outline.marked_append, Outline.marked_foldr]
      refine List.mem_append_left _ (List.mem_append_right _ ?_)
      exact List.mem_flatMap.2 ⟨_, List.mem_map_of_mem ht, by simp [Node.paramOutline]⟩
  | case2 => simp [declaredParams] at hdeclared

mutual

theorem declaredIn_outline (hdeclared : r.declared = some params) (hname : (name, index) ∈ params)
    (scope : Option ScopeId) (next : Nat) (query : Bool) (sign : Option Assignment) :
    ∀ node : Node, (∀ x ∈ node.subtrees, x.Fits) →
      r ∈ (node.outline scope next query sign).regions →
      DeclaredIn (node.outline scope next query sign).marked r name index
  | .leaf form token, _, h | .assignment parts, _, h | .quoted first content last, _, h => by
      simp [Node.outline] at h
  | .enclosed form first items last, hfits, h => by
      have hinner : ∀ x ∈ Node.all items, x.Fits := fun x hx => hfits x (by simp [hx])
      cases form with
      | bracket =>
          have hitems := declaredIn_outlineAll hdeclared hname scope next false query query items
            hinner (by simpa [Node.outline] using h)
          exact hitems.mono fun m hm => by simp [Node.outline, hm]
      | group =>
          have hitems := declaredIn_outlineAll hdeclared hname scope next false _ _ items hinner
            (by simpa [Node.outline] using h)
          exact hitems.mono fun m hm => by simp [Node.outline, hm]
      | lambda =>
          simp only [Node.outline, Outline.regions_append, Outline.regions_ofTokens, List.append_nil,
            List.singleton_append, List.mem_cons] at h
          have hitems : DeclaredIn
              (outlineAll (some next) (next + 1) false false false items).marked r name index := by
            rcases h with rfl | h
            · exact declaredIn_params hinner next hdeclared hname rfl
            · exact declaredIn_outlineAll hdeclared hname _ _ _ _ _ items hinner h
          exact hitems.mono fun m hm => by simp [Node.outline, hm]
      | params gap => simp [Node.outline, Node.regions_paramOutlines] at h

/-- The names of a parameter list are marked as declared in its scope. -/
theorem declaredIn_outlineAll (hdeclared : r.declared = some params)
    (hname : (name, index) ∈ params) (scope : Option ScopeId) (next : Nat)
    (script initial query : Bool) : ∀ nodes : List Node, (∀ x ∈ Node.all nodes, x.Fits) →
      r ∈ (outlineAll scope next script initial query nodes).regions →
      DeclaredIn (outlineAll scope next script initial query nodes).marked r name index
  | [], _, h => by simp [outlineAll, Outline.empty] at h
  | node :: rest, hfits, h => by
      rw [Node.all_cons] at hfits
      obtain ⟨hhead, htail⟩ := List.forall_mem_append.1 hfits
      rw [outlineAll, Outline.regions_append, List.mem_append] at h
      rw [outlineAll, Outline.marked_append]
      rcases h with h | h
      · exact (declaredIn_outline hdeclared hname scope next query _ node hhead h).mono
          (List.subset_append_left _ _)
      · exact (declaredIn_outlineAll hdeclared hname scope _ script initial _ rest htail h).mono
          (List.subset_append_right _ _)

end

end

/-! ### Owners -/

/-- What is known about a token in its place depends on its kind, and on what it stands for if it is a
name. -/
theorem Marked.annotate_replaced {m m' : Marked} {table table' : List Scope}
    (hkind : m'.token.kind = m.token.kind) (hscope : m'.scope = m.scope) (hmark : m'.mark = m.mark)
    (hglobal : m.token.kind = .identifier → ∀ isCompound, m.mark = .target true isCompound →
      unownedRole m'.token.text = unownedRole m.token.text)
    (howner : m.token.kind = .identifier →
      (m.mark = .plain ∨ ∃ isCompound, m.mark = .target false isCompound) →
        resolve (Scope.enclosing m'.scope table') m'.token.text =
          resolve (Scope.enclosing m.scope table) m.token.text) :
    m'.annotate table' = { m.annotate table with toToken := m'.token } := by
  obtain ⟨token, scope, mark⟩ := m
  obtain ⟨token', scope', mark'⟩ := m'
  obtain rfl : scope' = scope := hscope
  obtain rfl : mark' = mark := hmark
  simp only at hkind hglobal howner
  cases htoken : token.kind with
  | identifier =>
      cases mark' with
      | plain => simp [annotate, hkind, htoken, howner htoken (Or.inl rfl)]
      | declaration => simp [annotate, hkind, htoken]
      | column => simp [annotate, hkind, htoken]
      | target isGlobal isCompound =>
          cases isGlobal with
          | false => simp [annotate, hkind, htoken, howner htoken (Or.inr ⟨_, rfl⟩)]
          | true => simp [annotate, hkind, htoken, hglobal htoken _ rfl]
  | literal form => cases mark' <;> simp [annotate, hkind, htoken]
  | _ => simp [annotate, hkind, htoken]

/-- Where the owner of a token comes from: from the parameter list that it stands in, or from the walk
outwards; any other token has no owner. -/
theorem Marked.annotate_cases (table : List Scope) (m : Marked) :
    (m.mark = .declaration ∧ (m.annotate table).binding = m.scope) ∨
      ((m.annotate table).role =
          some (resolve (Scope.enclosing m.scope table) m.token.text).1 ∧
        (m.annotate table).binding =
          (resolve (Scope.enclosing m.scope table) m.token.text).2) ∨
      ((m.annotate table).role ≠ some .parameter ∧ (m.annotate table).role ≠ some .localVar ∧
        (m.annotate table).binding = none) := by
  by_cases hkind : m.token.kind = .identifier
  · cases hmark : m.mark with
    | plain => exact Or.inr (Or.inl (annotate_of_resolved hkind (Or.inl hmark)).2)
    | declaration => exact Or.inl ⟨rfl, by simp [annotate, hkind, hmark]⟩
    | column => exact Or.inr (Or.inr (by simp [annotate, hkind, hmark]))
    | target isGlobal isCompound =>
        cases isGlobal with
        | false =>
            exact Or.inr (Or.inl (annotate_of_resolved hkind (Or.inr ⟨isCompound, hmark⟩)).2)
        | true =>
            obtain ⟨hrole, hbinding⟩ := @annotate_of_global table m hkind _ hmark
            obtain ⟨hparam, hlocal⟩ := unownedRole_ne m.token.text
            rw [hrole]
            exact Or.inr (Or.inr
              ⟨mt Option.some.inj hparam, mt Option.some.inj hlocal, hbinding⟩)
  · refine Or.inr (Or.inr ?_)
    unfold annotate
    split <;> simp_all

section

variable {tokens : List Token} {nodes : List Node} {t : AnnotatedToken}

theorem numbered_analyze (hnumbered : Token.Numbered tokens) (h : parse tokens = .ok nodes) :
    Token.Numbered ((analyze nodes).tokens.map (·.toToken)) := by
  rwa [toToken_analyze, allTokens_parse h]

/-- An annotated token stands at the place of its number. -/
theorem getElem?_index_of_mem_analyze (hnumbered : Token.Numbered tokens)
    (h : parse tokens = .ok nodes) (ht : t ∈ (analyze nodes).tokens) :
    (analyze nodes).tokens[t.index]? = some t := by
  obtain ⟨i, hi⟩ := List.mem_iff_getElem?.1 ht
  have hindex : t.index = i := (numbered_analyze hnumbered h).index_eq (by simp [hi])
  rw [hindex, hi]

/-- An annotated token is known by its number. -/
theorem eq_of_index_eq_of_mem_analyze (hnumbered : Token.Numbered tokens)
    (h : parse tokens = .ok nodes) (ht : t ∈ (analyze nodes).tokens) {u : AnnotatedToken}
    (hu : u ∈ (analyze nodes).tokens) (heq : t.index = u.index) : t = u := by
  have htoken := hnumbered.eq_of_index_eq (toToken_mem_of_mem_analyze h ht)
    (toToken_mem_of_mem_analyze h hu) heq
  obtain ⟨m, hm, rfl⟩ := exists_marked_of_mem_analyze ht
  obtain ⟨m', hm', rfl⟩ := exists_marked_of_mem_analyze hu
  rw [Marked.toToken_annotate, Marked.toToken_annotate] at htoken
  rw [marked_eq_of_token_eq hnumbered h hm hm' htoken]

/-- **Parameters and locals have owners.** -/
theorem binding_ne_none_of_role (h : parse tokens = .ok nodes) (ht : t ∈ (analyze nodes).tokens)
    (hrole : t.role = some .parameter ∨ t.role = some .localVar) : t.binding ≠ none := by
  obtain ⟨m, hm, rfl⟩ := exists_marked_of_mem_analyze ht
  rcases m.annotate_cases (analyze nodes).scopes.reverse with
    ⟨hmark, hbinding⟩ | ⟨hresolved, hbinding⟩ | ⟨hparam, hlocal, -⟩
  · rw [hbinding]
    exact scope_ne_none_of_declaration h hm hmark
  · rw [hbinding]
    rcases resolve_spec (Scope.enclosing m.scope (analyze nodes).scopes.reverse) m.token.text with
      ⟨s, -, -, hid⟩ | hnone
    · simp [hid]
    · obtain ⟨hparam, hlocal⟩ := unownedRole_ne m.token.text
      rw [hresolved, hnone] at hrole
      exact absurd hrole (not_or.2 ⟨mt Option.some.inj hparam, mt Option.some.inj hlocal⟩)
  · exact absurd hrole (not_or.2 ⟨hparam, hlocal⟩)

/-- An owner is a scope of the table. -/
theorem binding_lt_of_mem_analyze (ht : t ∈ (analyze nodes).tokens) {id : Nat}
    (hid : t.binding = some id) : id < (analyze nodes).scopes.length := by
  obtain ⟨m, hm, rfl⟩ := exists_marked_of_mem_analyze ht
  rcases m.annotate_cases (analyze nodes).scopes.reverse with
    ⟨-, hbinding⟩ | ⟨-, hbinding⟩ | ⟨-, -, hbinding⟩
  · exact scope_lt_of_mem_marked hm (hbinding.symm.trans hid)
  · rcases resolve_spec (Scope.enclosing m.scope (analyze nodes).scopes.reverse) m.token.text with
      ⟨s, hs, -, howner⟩ | hnone
    · have hmem : s.id ∈ (analyze nodes).scopes.map (·.id) :=
        List.mem_map_of_mem (List.mem_reverse.1 (Scope.mem_of_mem_enclosing hs))
      rw [hbinding, howner, Option.some.injEq] at hid
      rwa [map_id_scopes, List.mem_range, hid] at hmem
    · simp [hbinding, hnone] at hid
  · simp [hbinding] at hid

end

end QSource
