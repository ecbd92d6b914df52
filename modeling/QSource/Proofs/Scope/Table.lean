/-
**The scope table of a tree.**

The scopes of an analysis are the regions of the outline with their local names.  Here the entries of
the table are read without the passes that filled it: a scope stands at the place of its number,
behind the scope around it; its parameters are those of a lambda of the tree; and its local names are
the texts of certain tokens, whatever the order in which these are collected.

Main definitions:

* `QSource.DeclaresParam`, `QSource.HasParam` — **the parameters of a scope**, read off the tree.

Main results:

* `QSource.sortedNames_eq_of_mem_iff` — the order of names does not matter when they are sorted;
* `QSource.map_id_scopes`, `QSource.parent_lt_of_mem_scopes` — the numbers in the table;
* `QSource.hasParam_iff` — the parameters of a scope are those of its lambda;
* `QSource.mem_locals_iff` — the local names of a scope.
-/

import Mathlib.Data.List.Sort
import Mathlib.Data.String.Basic
import QSource.Proofs.Scope.Regions

set_option relaxedAutoImplicit false
set_option autoImplicit false

namespace QSource

/-! ### Sorted names -/

theorem pairwise_insertName (name : String) {names : List String} (h : names.Pairwise (· < ·)) :
    (insertName name names).Pairwise (· < ·) := by
  induction names with
  | nil => exact List.pairwise_singleton _ _
  | cons head rest ih =>
      obtain ⟨hhead, hrest⟩ := List.pairwise_cons.1 h
      rw [insertName]
      split
      · next hlt =>
          refine List.pairwise_cons.2 ⟨?_, h⟩
          intro other hother
          rcases List.mem_cons.1 hother with rfl | hother
          · exact hlt
          · exact lt_trans hlt (hhead other hother)
      · next hnot =>
          split
          · exact h
          · next hne =>
              have hlt : head < name := lt_of_le_of_ne (not_lt.1 hnot) (Ne.symm hne)
              refine List.pairwise_cons.2 ⟨?_, ih hrest⟩
              intro other hother
              rcases mem_insertName.1 hother with rfl | hother
              · exact hlt
              · exact hhead other hother

theorem pairwise_sortedNames (names : List String) : (sortedNames names).Pairwise (· < ·) := by
  induction names with
  | nil => exact .nil
  | cons name names ih => exact pairwise_insertName name ih

/-- The order of names does not matter when they are sorted, nor does how often each occurs. -/
theorem sortedNames_eq_of_mem_iff {names names' : List String}
    (h : ∀ name, name ∈ names ↔ name ∈ names') : sortedNames names = sortedNames names' := by
  refine (pairwise_sortedNames names).eq_of_mem_iff (pairwise_sortedNames names') ?_
  intro name
  rw [mem_sortedNames, mem_sortedNames, h]

/-- The local names of a region do not depend on the order in which the targets are visited. -/
theorem localNames_eq_of_perm {targets targets' : List Marked} (h : targets.Perm targets')
    (id : ScopeId) : localNames targets id = localNames targets' id := by
  refine sortedNames_eq_of_mem_iff ?_
  intro name
  exact ((h.filter _).map _).mem_iff

/-! ### Numbers -/

section

variable {nodes : List Node} {scope : Scope}

theorem mem_scopes_iff :
    scope ∈ (analyze nodes).scopes ↔ ∃ r ∈ (outline nodes).regions,
      scope = ⟨r, localNames ((outline nodes).marked.filter Marked.introducesLocal) r.id⟩ := by
  simp [analyze, Outline.scopes, eq_comm]

theorem ranked_outline (nodes : List Node) : (outline nodes).Ranked none 0 :=
  Node.ranked_outlineAll none 0 true false false nodes

/-- A scope stands at the place of its number. -/
theorem map_id_scopes (nodes : List Node) :
    (analyze nodes).scopes.map (·.id) = List.range (analyze nodes).scopes.length := by
  have hids := (ranked_outline nodes).ids
  rw [← List.range_eq_range'] at hids
  simpa [analyze, Outline.scopes, Function.comp_def] using hids

/-- The scope around a scope comes before it. -/
theorem parent_lt_of_mem_scopes (h : scope ∈ (analyze nodes).scopes) {p : Nat}
    (hp : scope.parent = some p) : p < scope.id := by
  obtain ⟨r, hr, rfl⟩ := mem_scopes_iff.1 h
  rcases (ranked_outline nodes).parent r hr with hnone | ⟨p', hp', -, hlt⟩
  · simp [hnone] at hp
  · obtain rfl : p' = p := Option.some.inj (hp'.symm.trans hp)
    exact hlt

/-- The scope of a token is in the table. -/
theorem scope_lt_of_mem_marked {m : Marked} (hm : m ∈ (outline nodes).marked) {id : Nat}
    (hid : m.scope = some id) : id < (analyze nodes).scopes.length := by
  have hlength : (analyze nodes).scopes.length = (outline nodes).regions.length := by
    simp [analyze, Outline.scopes]
  rw [hlength]
  rcases (ranked_outline nodes).scope m hm with hnone | ⟨id', hid', -, hlt⟩
  · simp [hnone] at hid
  · obtain rfl : id' = id := Option.some.inj (hid'.symm.trans hid)
    simpa using hlt

theorem nodup_scopes : (analyze nodes).scopes.Nodup := by
  refine List.Nodup.of_map (·.id) ?_
  rw [map_id_scopes]
  exact List.nodup_range

theorem eq_of_id_eq {scope' : Scope} (h : scope ∈ (analyze nodes).scopes)
    (h' : scope' ∈ (analyze nodes).scopes) (heq : scope.id = scope'.id) : scope = scope' := by
  have hnodup : ((analyze nodes).scopes.map (·.id)).Nodup := by
    rw [map_id_scopes]
    exact List.nodup_range
  exact List.inj_on_of_nodup_map hnodup h h' heq

/-- A number of a scope is that of a scope of the table. -/
theorem exists_mem_scopes_of_lt {id : Nat} (hid : id < (analyze nodes).scopes.length) :
    ∃ s ∈ (analyze nodes).scopes, s.id = id := by
  have hmem : id ∈ (analyze nodes).scopes.map (·.id) := by
    rwa [map_id_scopes, List.mem_range]
  exact List.mem_map.1 hmem

end

/-! ### Parameters -/

/-- The lambda with the given items has a parameter called `name`: one that stands directly in its
parameter list, or one of the three that a lambda without a parameter list has. -/
def DeclaresParam (items : List Node) (name : String) : Prop :=
  match items with
  | .enclosed (.params _) _ names _ :: _ => ∃ t, .leaf .identifier t ∈ names ∧ t.text = name
  | _ => name = "x" ∨ name = "y" ∨ name = "z"

/-- **The scope has a parameter called `name`**: the lambda between its braces declares it. -/
def HasParam (nodes : List Node) (scope : Scope) (name : String) : Prop :=
  ∃ first items last, .enclosed .lambda first items last ∈ Node.outside nodes ∧
    first.index = scope.first ∧ last.index = scope.last ∧ DeclaresParam items name

theorem mem_directNames {items : List Node} {name : String} {index : Nat} :
    (name, index) ∈ directNames items ↔
      ∃ t, .leaf .identifier t ∈ items ∧ t.text = name ∧ t.index = index := by
  rw [directNames, List.mem_filterMap]
  constructor
  · rintro ⟨item, hitem, heq⟩
    split at heq
    · next t =>
        rw [Option.some.injEq, Prod.mk.injEq] at heq
        exact ⟨t, hitem, heq⟩
    · simp at heq
  · rintro ⟨t, hitem, rfl, rfl⟩
    exact ⟨_, hitem, rfl⟩

theorem hasParam_iff_declaresParam {r : Region} {items : List Node}
    (h : r.declared = declaredParams items) {name : String} :
    r.hasParam name = true ↔ DeclaresParam items name := by
  rw [Region.hasParam, h, DeclaresParam.eq_def]
  fun_cases declaredParams items with
  | case1 gap first names last rest =>
      simp only [List.any_eq_true, beq_iff_eq, Prod.exists, mem_directNames]
      constructor
      · rintro ⟨_, index, ⟨t, ht, rfl, -⟩, rfl⟩
        exact ⟨t, ht, rfl⟩
      · rintro ⟨t, ht, rfl⟩
        exact ⟨t.text, t.index, ⟨t, ht, rfl, rfl⟩, rfl⟩
  | case2 =>
      change defaultParams.contains name = true ↔ _
      split
      · next hne => exact absurd rfl (hne _ _ _ _ _)
      · simp [defaultParams]

/-- The parameters of a scope are those of its lambda. -/
theorem hasParam_iff {tokens : List Token} {nodes : List Node} (hnumbered : Token.Numbered tokens)
    (h : parse tokens = .ok nodes) {scope : Scope} (hscope : scope ∈ (analyze nodes).scopes)
    (name : String) : scope.hasParam name = true ↔ HasParam nodes scope name := by
  obtain ⟨r, hr, rfl⟩ := mem_scopes_iff.1 hscope
  obtain ⟨x, hx, first, items, last, rfl, hfirst, hlast, hdeclared⟩ :=
    Node.exists_lambda_of_mem_regions none 0 true false false nodes hr
  rw [hasParam_iff_declaresParam hdeclared]
  constructor
  · intro hdeclares
    exact ⟨first, items, last, hx, hfirst.symm, hlast.symm, hdeclares⟩
  · rintro ⟨first', items', last', hx', hfirst', -, hdeclares⟩
    -- there is one lambda at the number of the opening brace
    have heq := Node.eq_of_first_index_eq hnumbered h (Node.outside_subset nodes hx)
      (Node.outside_subset nodes hx') rfl rfl (hfirst.symm.trans hfirst'.symm)
    obtain ⟨-, -, rfl, -⟩ := Node.enclosed.inj heq
    exact hdeclares

/-! ### Local names -/

theorem introducesLocal_iff {m : Marked} :
    m.introducesLocal = true ↔ m.token.kind = .identifier ∧ '.' ∉ m.token.text.toList ∧
      ∃ isCompound, m.mark = .target false isCompound := by
  obtain ⟨token, scope, mark⟩ := m
  cases mark with
  | target isGlobal isCompound => cases isGlobal <;> simp [Marked.introducesLocal]
  | plain => simp [Marked.introducesLocal]
  | declaration => simp [Marked.introducesLocal]
  | column => simp [Marked.introducesLocal]

/-- The local names of a scope are the texts of the names that are written directly inside it. -/
theorem mem_locals_iff {nodes : List Node} {scope : Scope}
    (hscope : scope ∈ (analyze nodes).scopes) {name : String} :
    name ∈ scope.locals ↔ ∃ m ∈ (outline nodes).marked, m.introducesLocal = true ∧
      m.scope = some scope.id ∧ m.token.text = name := by
  obtain ⟨r, hr, rfl⟩ := mem_scopes_iff.1 hscope
  simp only [localNames, mem_sortedNames, List.mem_map, List.mem_filter, beq_iff_eq, and_assoc]

end QSource
