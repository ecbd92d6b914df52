/-
**The scopes of a tree form a forest.**

The scope table lists the lambdas in the order of their opening braces, and any two of them lie
beside one another or one inside the other.  So the table can be read by numbers alone: the scope of a
token is the last one of the table whose braces enclose the token, and the parent of a scope is the
last one before it whose braces enclose those of the scope.  For the same reason the scopes of all
tokens can be filled in by going through the table once, each scope overwriting what stands between
its braces.

Main definitions:

* `QSource.IsLargest` — the largest number with a property, if there is one;
* `QSource.fillScopes?` — the scopes of the tokens, filled in from a table;
* `QSource.Outward` — a walk from a scope to its parent and so on, until there is none;
* `QSource.ScopeForest` — **the scope table as a forest**.

Main results:

* `QSource.isLargest_scope`, `QSource.isLargest_parent` — scopes and parents, read off the braces;
* `QSource.fillScopes?_parse` — the scopes of the tokens can be filled in;
* `QSource.outward_enclosing` — the walk outwards follows the parents to the end;
* `QSource.scopeForest_parse` — **the scopes of a tree form a forest**.
-/

import QSource.Proofs.Scope.Laminar
import QSource.Proofs.Scope.Owners
import QSource.Proofs.Tree.Listing

set_option relaxedAutoImplicit false
set_option autoImplicit false

namespace QSource

/-! ### Reading the table -/

/-- The largest number with a property, or none if no number has it. -/
def IsLargest (p : Nat → Prop) : Option Nat → Prop
  | none => ∀ i, ¬ p i
  | some j => p j ∧ ∀ i, p i → i ≤ j

/-- There is only one. -/
theorem IsLargest.unique {p : Nat → Prop} {a b : Option Nat} (ha : IsLargest p a)
    (hb : IsLargest p b) : a = b := by
  cases a with
  | none =>
      cases b with
      | none => rfl
      | some j => exact absurd hb.1 (ha j)
  | some i =>
      cases b with
      | none => exact absurd ha.1 (hb i)
      | some j => rw [Nat.le_antisymm (hb.2 i ha.1) (ha.2 j hb.1)]

/-- In a table in which every scope stands at the place of its number, the last scope with a property
has the largest number. -/
theorem isLargest_find? (q : Scope → Bool) {table : List Scope}
    (hplace : ∀ (j : Nat) (s : Scope), table[j]? = some s → s.id = j) :
    IsLargest (fun j => ∃ s, table[j]? = some s ∧ q s = true)
      ((table.reverse.find? q).map (·.id)) := by
  induction table using List.reverseRecOn with
  | nil => simp [IsLargest]
  | append_singleton table s ih =>
      have hkept : ∀ {j : Nat} {s' : Scope}, table[j]? = some s' → (table ++ [s])[j]? = some s' := by
        intro j s' hj
        rw [List.getElem?_append_left (List.getElem?_eq_some_iff.1 hj).1, hj]
      have hlast : s.id = table.length := hplace table.length s List.getElem?_concat_length
      rw [List.reverse_append, List.reverse_singleton, List.singleton_append, List.find?_cons]
      split
      · next hq =>
          rw [Option.map_some, hlast]
          refine ⟨⟨s, List.getElem?_concat_length, hq⟩, ?_⟩
          rintro j ⟨s', hj, -⟩
          have hlt := (List.getElem?_eq_some_iff.1 hj).1
          rw [List.length_append, List.length_singleton] at hlt
          omega
      · next hq =>
          -- the last scope is out of the question, so the scopes before it decide
          have hbefore : ∀ j : Nat, (∃ s', (table ++ [s])[j]? = some s' ∧ q s' = true) ↔
              ∃ s', table[j]? = some s' ∧ q s' = true := by
            intro j
            constructor
            · rintro ⟨s', hj, hs'⟩
              rcases Nat.lt_or_ge j table.length with hlt | hge
              · exact ⟨s', by rwa [List.getElem?_append_left hlt] at hj, hs'⟩
              · rw [List.getElem?_append_right hge] at hj
                obtain rfl := List.mem_singleton.1 (List.mem_of_getElem? hj)
                simp [hq] at hs'
            · rintro ⟨s', hj, hs'⟩
              exact ⟨s', hkept hj, hs'⟩
          simp only [hbefore]
          exact ih fun j s' hj => hplace j s' (hkept hj)

/-! ### Filling in the scopes of tokens -/

/-- The entries from the place `first` up to the place `last` overwritten with one value, if these are
places of the list, in this order. -/
def overwrite? {α : Type} (first last : Nat) (value : α) (entries : List α) : Option (List α) :=
  if first ≤ last ∧ last < entries.length then
    some (entries.mapIdx fun i entry => if first ≤ i ∧ i ≤ last then value else entry)
  else none

/-- **The scopes of the tokens, filled in from a table**: each scope in turn overwrites what stands
between its braces. -/
def fillScopes? (table : List Scope) (entries : List (Option ScopeId)) :
    Option (List (Option ScopeId)) :=
  table.foldlM (fun entries s => overwrite? s.first s.last (some s.id) entries) entries

/-- The last scope that covers a place is the one that stays. -/
theorem fillScopes?_eq {table : List Scope} {entries : List (Option ScopeId)}
    (hbraces : ∀ s ∈ table, s.first ≤ s.last ∧ s.last < entries.length) :
    fillScopes? table entries = some (entries.mapIdx fun i entry =>
      (table.reverse.find? fun s => s.Covers i).elim entry fun s => some s.id) := by
  induction table generalizing entries with
  | nil => exact congrArg some (List.ext_getElem? fun i => by simp)
  | cons s table ih =>
      have hhead := hbraces s (List.mem_cons_self ..)
      rw [fillScopes?, List.foldlM_cons, overwrite?, if_pos hhead, Option.bind_eq_bind,
        Option.bind_some]
      refine (ih ?_).trans ?_
      · intro s' hs'
        simpa using hbraces s' (List.mem_cons_of_mem _ hs')
      · rw [List.mapIdx_mapIdx]
        congr 2
        funext i entry
        rw [List.reverse_cons, List.find?_append, Function.comp_apply]
        cases table.reverse.find? fun s => decide (s.Covers i) with
        | none => by_cases hcovers : s.first ≤ i ∧ i ≤ s.last <;> simp [Region.Covers, hcovers]
        | some s' => rfl

/-! ### Walks through the table -/

/-- **A walk outwards through a table**: from a scope to its parent, which stands before it, and so on
until a scope has none. -/
def Outward (table : List Scope) : Option ScopeId → List Scope → Prop
  | id, [] => id = none
  | id, s :: outer => id = some s.id ∧ table[s.id]? = some s ∧
      (∀ p : Nat, s.parent = some p → p < s.id) ∧ Outward table s.parent outer

section

variable {tokens : List Token} {nodes : List Node}

/-- A scope stands at the place of its number. -/
theorem getElem?_scopes_iff {j : Nat} {s : Scope} :
    (analyze nodes).scopes[j]? = some s ↔ s ∈ (analyze nodes).scopes ∧ s.id = j := by
  have hplace : ∀ {k : Nat} {s' : Scope}, (analyze nodes).scopes[k]? = some s' → s'.id = k := by
    intro k s' hk
    have hid : ((analyze nodes).scopes.map (·.id))[k]? = some s'.id := by
      rw [List.getElem?_map, hk]
      rfl
    rw [map_id_scopes, List.getElem?_range (List.getElem?_eq_some_iff.1 hk).1] at hid
    exact (Option.some.inj hid).symm
  constructor
  · intro h
    exact ⟨List.mem_of_getElem? h, hplace h⟩
  · rintro ⟨hs, rfl⟩
    obtain ⟨k, hk⟩ := List.mem_iff_getElem?.1 hs
    rw [hplace hk, hk]

theorem mem_regions_of_mem_scopes {s : Scope} (hs : s ∈ (analyze nodes).scopes) :
    s.toRegion ∈ (outline nodes).regions := by
  obtain ⟨r, hr, rfl⟩ := mem_scopes_iff.1 hs
  exact hr

/-- Every region is one of the table. -/
theorem exists_getElem?_of_mem_regions {r : Region} (hr : r ∈ (outline nodes).regions) :
    ∃ s, (analyze nodes).scopes[r.id]? = some s ∧ s.toRegion = r :=
  ⟨_, getElem?_scopes_iff.2 ⟨mem_scopes_iff.2 ⟨r, hr, rfl⟩, rfl⟩, rfl⟩

/-- If a number is that of a region with a property, and no region with the property is younger, then it
is the largest number in the table that has one. -/
theorem isLargest_of_regions {q : Region → Prop} {last : Option ScopeId}
    (hfound : last = none ∨ ∃ r ∈ (outline nodes).regions, last = some r.id ∧ q r)
    (hlast : ∀ r ∈ (outline nodes).regions, q r → ∃ id : Nat, last = some id ∧ r.id ≤ id) :
    IsLargest (fun j => ∃ s, (analyze nodes).scopes[j]? = some s ∧ q s.toRegion) last := by
  cases last with
  | none =>
      rintro j ⟨s, hs, hq⟩
      obtain ⟨id, hid, -⟩ := hlast _ (mem_regions_of_mem_scopes (List.mem_of_getElem? hs)) hq
      simp at hid
  | some id =>
      constructor
      · rcases hfound with hnone | ⟨r, hr, hid, hq⟩
        · simp at hnone
        · obtain rfl : id = r.id := Option.some.inj hid
          obtain ⟨s, hs, rfl⟩ := exists_getElem?_of_mem_regions hr
          exact ⟨s, hs, hq⟩
      · rintro j ⟨s, hs, hq⟩
        obtain ⟨hmem, rfl⟩ := getElem?_scopes_iff.1 hs
        obtain ⟨id', hid', hle⟩ := hlast _ (mem_regions_of_mem_scopes hmem) hq
        obtain rfl : id = id' := Option.some.inj hid'
        exact hle

variable (hnumbered : Token.Numbered tokens) (h : parse tokens = .ok nodes)

include hnumbered h

theorem laminar_outline_parse : (outline nodes).Laminar 0 tokens.length :=
  Node.laminar_outlineAll none 0 true false false nodes
    (by rw [allTokens_parse h]; exact hnumbered.countFrom) (by rw [allTokens_parse h]; omega)

/-- **The scope of a token is the last one whose braces enclose the token or are it.** -/
theorem isLargest_scope {t : AnnotatedToken} (ht : t ∈ (analyze nodes).tokens) :
    IsLargest (fun j => ∃ s, (analyze nodes).scopes[j]? = some s ∧ s.Covers t.index) t.scope := by
  obtain ⟨m, hm, rfl⟩ := exists_marked_of_mem_analyze ht
  rw [Marked.toToken_annotate, Marked.scope_annotate]
  exact isLargest_of_regions ((nested_outline_parse hnumbered h).scope m hm)
    ((laminar_outline_parse hnumbered h).scope m hm)

/-- **The parent of a scope is the last one before it whose braces enclose those of the scope.** -/
theorem isLargest_parent {j : Nat} {s : Scope} (hs : (analyze nodes).scopes[j]? = some s) :
    IsLargest (fun i => i < j ∧ ∃ s', (analyze nodes).scopes[i]? = some s' ∧
      s'.Encloses s.toRegion) s.parent := by
  obtain ⟨hmem, rfl⟩ := getElem?_scopes_iff.1 hs
  have hregion := mem_regions_of_mem_scopes hmem
  have hlargest : IsLargest (fun i => ∃ s', (analyze nodes).scopes[i]? = some s' ∧
      s'.id < s.id ∧ s'.Encloses s.toRegion) s.parent := by
    refine isLargest_of_regions (q := fun r => r.id < s.id ∧ r.Encloses s.toRegion) ?_ ?_
    · refine ((nested_outline_parse hnumbered h).parent _ hregion).imp_right ?_
      rintro ⟨r, hr, hid, hencloses⟩
      exact ⟨r, hr, hid, parent_lt_of_mem_scopes hmem hid, hencloses⟩
    · rintro r hr ⟨-, hencloses⟩
      exact (laminar_outline_parse hnumbered h).parent _ hregion r hr hencloses
  have hnumber : ∀ i : Nat, (∃ s', (analyze nodes).scopes[i]? = some s' ∧ s'.id < s.id ∧
      s'.Encloses s.toRegion) ↔ i < s.id ∧ ∃ s', (analyze nodes).scopes[i]? = some s' ∧
        s'.Encloses s.toRegion := by
    intro i
    constructor
    · rintro ⟨s', hs', hlt, hencloses⟩
      obtain rfl := (getElem?_scopes_iff.1 hs').2
      exact ⟨hlt, s', hs', hencloses⟩
    · rintro ⟨hlt, s', hs', hencloses⟩
      obtain rfl := (getElem?_scopes_iff.1 hs').2
      exact ⟨s', hs', hlt, hencloses⟩
  simpa only [hnumber] using hlargest

/-- Scopes come in the order of their opening braces, beside one another or one inside the other. -/
theorem pairwise_scopes : (analyze nodes).scopes.Pairwise fun s s' =>
    s.first < s'.first ∧ (s.last < s'.first ∨ s'.last < s.last) := by
  have hregions := (pairwise_first_regions hnumbered h).and (laminar_outline_parse hnumbered h).apart
  rw [analyze, Outline.scopes]
  exact List.pairwise_map.2 hregions

/-- A scope is a lambda of the tree outside parameter lists, and its braces are tokens of their
kinds. -/
theorem braces_of_mem_scopes {s : Scope} (hs : s ∈ (analyze nodes).scopes) :
    s.first < s.last ∧
      (∃ t, tokens[s.first]? = some t ∧ t.kind = .opening .brace) ∧
      ∃ t, tokens[s.last]? = some t ∧ t.kind = .closing .brace := by
  have hregion := mem_regions_of_mem_scopes hs
  obtain ⟨x, hx, first, items, last, rfl, hfirst, hlast, -⟩ :=
    Node.exists_lambda_of_mem_regions none 0 true false false nodes hregion
  have hall := Node.outside_subset nodes hx
  obtain ⟨hopens, hcloses, -⟩ := fits_parse h _ hall
  have hmem : ∀ t ∈ (Node.enclosed .lambda first items last).tokens, tokens[t.index]? = some t := by
    intro t ht
    refine hnumbered.getElem?_index ?_
    rw [← allTokens_parse h]
    exact Node.mem_allTokens_of_mem_all hall ht
  rw [hfirst, hlast]
  refine ⟨?_, ⟨first, hmem first (by simp [Node.tokens]), hopens⟩,
    ⟨last, hmem last (by simp [Node.tokens]), hcloses⟩⟩
  have hbraces := ((laminar_outline_parse hnumbered h).regions _ hregion).2.1
  rwa [hfirst, hlast] at hbraces

/-! ### Parameters -/

omit hnumbered h in
theorem map_snd_directNames_sublist (items : List Node) :
    ((directNames items).map Prod.snd).Sublist ((Node.allTokens items).map (·.index)) := by
  induction items with
  | nil => exact .slnil
  | cons item items ih =>
      rw [Node.allTokens_cons, List.map_append, directNames, List.filterMap_cons]
      split
      · exact ih.trans (List.sublist_append_right _ _)
      · next name heq =>
          split at heq
          · next t =>
              obtain rfl := Option.some.inj heq
              exact ih.cons_cons t.index
          · simp at heq

/-- The names of a parameter list come in the order of their tokens. -/
theorem pairwise_declared {r : Region} (hr : r ∈ (outline nodes).regions)
    {params : List (String × Nat)} (hdeclared : r.declared = some params) :
    params.Pairwise fun p q => p.2 < q.2 := by
  obtain ⟨x, hx, first, items, last, rfl, -, -, hitems⟩ :=
    Node.exists_lambda_of_mem_regions none 0 true false false nodes hr
  rw [hdeclared] at hitems
  fun_cases declaredParams items with
  | case1 gap opening names closing rest =>
      obtain rfl : params = directNames names := by simpa [declaredParams] using hitems
      have hlist : Node.enclosed (.params gap) opening names closing ∈ Node.all nodes :=
        Node.mem_all_items (Node.mem_all_of_mem (List.mem_cons_self ..)) nodes
          (Node.outside_subset nodes hx)
      obtain ⟨start, hcount⟩ := countFrom_of_mem_all_parse hnumbered h hlist
      refine List.pairwise_map.1 (List.Pairwise.sublist (map_snd_directNames_sublist names) ?_)
      rw [Node.tokens, List.append_assoc, Token.countFrom_append] at hcount
      have hnames := (Token.countFrom_append.1 (Token.countFrom_cons.1 hcount.2).2).1
      rw [hnames]
      exact List.pairwise_lt_range'
  | case2 => simp [declaredParams] at hitems

/-- A name that a scope covers is none of its braces. -/
theorem between_of_covers {t : AnnotatedToken} (ht : t ∈ (analyze nodes).tokens)
    (hkind : t.kind = .identifier) {s : Scope} (hs : s ∈ (analyze nodes).scopes)
    (hcovers : s.Covers t.index) : s.first < t.index ∧ t.index < s.last := by
  have htoken : tokens[t.index]? = some t.toToken :=
    hnumbered.getElem?_index (toToken_mem_of_mem_analyze h ht)
  obtain ⟨-, ⟨opening, hopening, hopens⟩, closing, hclosing, hcloses⟩ :=
    braces_of_mem_scopes hnumbered h hs
  have hfirst : s.first ≠ t.index := by
    intro heq
    obtain rfl := Option.some.inj (hopening.symm.trans (heq ▸ htoken))
    simp [hkind] at hopens
  have hlast : t.index ≠ s.last := by
    intro heq
    obtain rfl := Option.some.inj (hclosing.symm.trans (heq ▸ htoken))
    simp [hkind] at hcloses
  exact ⟨Nat.lt_of_le_of_ne hcovers.1 hfirst, Nat.lt_of_le_of_ne hcovers.2 hlast⟩

/-- A name of a parameter list is a token between the braces of its scope, and directly inside it. -/
theorem token_of_mem_declared {s : Scope} (hs : s ∈ (analyze nodes).scopes)
    {params : List (String × Nat)} (hdeclared : s.declared = some params) {p : String × Nat}
    (hp : p ∈ params) :
    s.first < p.2 ∧ p.2 < s.last ∧ ∃ t, (analyze nodes).tokens[p.2]? = some t ∧
      t.kind = .identifier ∧ t.text = p.1 ∧ t.scope = some s.id := by
  obtain ⟨name, index⟩ := p
  have hregion := mem_regions_of_mem_scopes hs
  obtain ⟨m, hm, -, hscope, hkind, rfl, rfl⟩ := declaredIn_outlineAll hdeclared hp none 0 true false
    false nodes (fits_parse h) hregion
  have hmem : m.annotate (analyze nodes).scopes.reverse ∈ (analyze nodes).tokens :=
    List.mem_map_of_mem hm
  have hplace := getElem?_index_of_mem_analyze hnumbered h hmem
  have hbetween := between_of_covers hnumbered h hmem
  rw [Marked.toToken_annotate] at hplace hbetween
  obtain ⟨hfirst, hlast⟩ := hbetween hkind hs (scope_encloses hnumbered h hm hregion hscope)
  refine ⟨hfirst, hlast, _, hplace, ?_⟩
  rw [Marked.toToken_annotate, Marked.scope_annotate]
  exact ⟨hkind, rfl, hscope⟩

/-! ### The scopes of all tokens -/

/-- The last scope that covers a token is the scope of the token. -/
theorem find?_covers_eq {t : AnnotatedToken} (ht : t ∈ (analyze nodes).tokens) :
    ((analyze nodes).scopes.reverse.find? fun s => s.Covers t.index).map (·.id) = t.scope := by
  refine IsLargest.unique ?_ (isLargest_scope hnumbered h ht)
  have hplace : ∀ (j : Nat) (s : Scope), (analyze nodes).scopes[j]? = some s → s.id = j :=
    fun j s hj => (getElem?_scopes_iff.1 hj).2
  simpa only [decide_eq_true_eq] using isLargest_find? (fun s => s.Covers t.index) hplace

/-- **The scopes of the tokens can be filled in**, and no brace lies outside the list. -/
theorem fillScopes?_parse : fillScopes? (analyze nodes).scopes (List.replicate tokens.length none) =
    some ((analyze nodes).tokens.map (·.scope)) := by
  have hlength := length_analyze h
  rw [fillScopes?_eq]
  · refine congrArg some (List.ext_getElem? fun i => ?_)
    rw [List.getElem?_mapIdx, List.getElem?_map]
    cases ht : (analyze nodes).tokens[i]? with
    | none =>
        rw [List.getElem?_eq_none_iff, hlength] at ht
        simp [ht]
    | some t =>
        have hmem := List.mem_of_getElem? ht
        have hindex : t.index = i := (numbered_analyze hnumbered h).index_eq (by simp [ht])
        have hi : i < tokens.length := by
          rw [← hlength]
          exact (List.getElem?_eq_some_iff.1 ht).1
        have hfind := find?_covers_eq hnumbered h hmem
        rw [hindex] at hfind
        rw [List.getElem?_replicate, if_pos hi, Option.map_some, Option.map_some, ← hfind]
        cases (analyze nodes).scopes.reverse.find? fun s => decide (s.Covers i) <;> rfl
  · intro s hs
    obtain ⟨hlt, -, t, ht, -⟩ := braces_of_mem_scopes hnumbered h hs
    rw [List.length_replicate]
    exact ⟨Nat.le_of_lt hlt, (List.getElem?_eq_some_iff.1 ht).1⟩

/-! ### The walk outwards -/

omit hnumbered h in
/-- **The walk outwards follows the parents to the end.**  The induction is on the part of the table
up to some scope, its last scope first. -/
theorem outward_enclosing {table : List Scope} (hsub : ∀ s ∈ table, s ∈ (analyze nodes).scopes)
    (hids : table.map (·.id) = (List.range table.length).reverse) {id : Option ScopeId}
    (hid : ∀ i : Nat, id = some i → i < table.length) :
    Outward (analyze nodes).scopes id (Scope.enclosing id table) := by
  induction table generalizing id with
  | nil =>
      cases id with
      | none => rfl
      | some i => exact absurd (hid i rfl) (Nat.not_lt_zero i)
  | cons s older ih =>
      rw [List.map_cons, List.length_cons, List.range_succ, List.reverse_append,
        List.reverse_singleton, List.singleton_append, List.cons.injEq] at hids
      obtain ⟨hlast, hids⟩ := hids
      have hmem := hsub s (List.mem_cons_self ..)
      have hout := @ih (fun s' hs' => hsub s' (List.mem_cons_of_mem _ hs')) hids
      cases id with
      | none => rfl
      | some i =>
          rw [Scope.enclosing]
          split
          · next heq =>
              subst heq
              have hparent : ∀ p : Nat, s.parent = some p → p < s.id := fun p hp =>
                parent_lt_of_mem_scopes hmem hp
              refine ⟨rfl, getElem?_scopes_iff.2 ⟨hmem, rfl⟩, hparent, hout fun p hp => ?_⟩
              rw [← hlast]
              exact hparent p hp
          · next hne =>
              refine hout fun j hj => ?_
              obtain rfl := Option.some.inj hj
              rw [hlast] at hne
              exact Nat.lt_of_le_of_ne (Nat.le_of_lt_succ (hid i rfl)) hne

omit hnumbered h in
/-- The scopes around a token follow one another from its own scope outwards. -/
theorem outward_of_mem_analyze {t : AnnotatedToken} (ht : t ∈ (analyze nodes).tokens) :
    Outward (analyze nodes).scopes t.scope
      (Scope.enclosing t.scope (analyze nodes).scopes.reverse) := by
  obtain ⟨m, hm, rfl⟩ := exists_marked_of_mem_analyze ht
  rw [Marked.scope_annotate]
  refine outward_enclosing (fun s hs => List.mem_reverse.1 hs) ?_ ?_
  · rw [List.map_reverse, map_id_scopes, List.length_reverse]
  · intro i hi
    rw [List.length_reverse]
    exact scope_lt_of_mem_marked hm hi

end

/-! ### The forest -/

/-- **The scope table as a forest.** -/
structure ScopeForest (tokens : List Token) (nodes : List Node) : Prop where
  /-- The annotated tokens are the tokens. -/
  annotated : (analyze nodes).tokens.map (·.toToken) = tokens
  /-- A scope stands at the place of its number. -/
  id : ∀ (j : Nat) (s : Scope), (analyze nodes).scopes[j]? = some s → s.id = j
  /-- The braces of a scope are tokens of their kinds, in their order. -/
  braces : ∀ s ∈ (analyze nodes).scopes, s.first < s.last ∧
    (∃ t, tokens[s.first]? = some t ∧ t.kind = .opening .brace) ∧
    ∃ t, tokens[s.last]? = some t ∧ t.kind = .closing .brace
  /-- Scopes come in the order of their opening braces, beside one another or one inside the other. -/
  apart : (analyze nodes).scopes.Pairwise fun s s' =>
    s.first < s'.first ∧ (s.last < s'.first ∨ s'.last < s.last)
  /-- The parent of a scope is the last one before it whose braces enclose those of the scope. -/
  parent : ∀ (j : Nat) (s : Scope), (analyze nodes).scopes[j]? = some s →
    IsLargest (fun i => i < j ∧ ∃ s', (analyze nodes).scopes[i]? = some s' ∧
      s'.Encloses s.toRegion) s.parent
  /-- The scope of a token is the last one whose braces enclose the token or are it. -/
  scope : ∀ t ∈ (analyze nodes).tokens,
    IsLargest (fun j => ∃ s, (analyze nodes).scopes[j]? = some s ∧ s.Covers t.index) t.scope
  /-- The parameters of a scope are names between its braces and directly inside it, in their order. -/
  params : ∀ s ∈ (analyze nodes).scopes, ∀ params, s.declared = some params →
    (params.Pairwise fun p q => p.2 < q.2) ∧
      ∀ p ∈ params, s.first < p.2 ∧ p.2 < s.last ∧ ∃ t, (analyze nodes).tokens[p.2]? = some t ∧
        t.kind = .identifier ∧ t.text = p.1 ∧ t.scope = some s.id
  /-- The number of a token of the tree is the place of the token. -/
  places : ∀ x ∈ Node.all nodes, ∀ t ∈ x.tokens, tokens[t.index]? = some t
  /-- The scopes of the tokens are filled in without leaving the list. -/
  filled : fillScopes? (analyze nodes).scopes (List.replicate tokens.length none) =
    some ((analyze nodes).tokens.map (·.scope))
  /-- Names are looked up along a walk outwards that does not leave the table. -/
  outward : ∀ t ∈ (analyze nodes).tokens, Outward (analyze nodes).scopes t.scope
    (Scope.enclosing t.scope (analyze nodes).scopes.reverse)

/-- **The scopes of a tree form a forest.** -/
theorem scopeForest_parse {tokens : List Token} {nodes : List Node}
    (hnumbered : Token.Numbered tokens) (h : parse tokens = .ok nodes) :
    ScopeForest tokens nodes where
  annotated := by rw [toToken_analyze, allTokens_parse h]
  id := fun j s hs => (getElem?_scopes_iff.1 hs).2
  braces := fun s hs => braces_of_mem_scopes hnumbered h hs
  apart := pairwise_scopes hnumbered h
  parent := fun j s hs => isLargest_parent hnumbered h hs
  scope := fun t ht => isLargest_scope hnumbered h ht
  params := by
    intro s hs params hdeclared
    refine ⟨pairwise_declared hnumbered h (mem_regions_of_mem_scopes hs) hdeclared, ?_⟩
    intro p hp
    exact token_of_mem_declared hnumbered h hs hdeclared hp
  places := by
    intro x hx t ht
    refine hnumbered.getElem?_index ?_
    rw [← allTokens_parse h]
    exact Node.mem_allTokens_of_mem_all hx ht
  filled := fillScopes?_parse hnumbered h
  outward := fun t => outward_of_mem_analyze

/-- Two lambdas inside one with two parameters, the second of them in a table. -/
theorem scopeForest_parse_table :
    let tokens := Lexeme.layOut [⟨.opening .brace, "\x7b"⟩, ⟨.opening .bracket, "["⟩,
      ⟨.identifier, "a"⟩, ⟨.semicolon, ";"⟩, ⟨.identifier, "b"⟩, ⟨.closing .bracket, "]"⟩,
      ⟨.opening .brace, "\x7b"⟩, ⟨.identifier, "x"⟩, ⟨.closing .brace, "\x7d"⟩,
      ⟨.opening .paren, "("⟩, ⟨.opening .bracket, "["⟩, ⟨.closing .bracket, "]"⟩,
      ⟨.opening .brace, "\x7b"⟩, ⟨.identifier, "a"⟩, ⟨.closing .brace, "\x7d"⟩,
      ⟨.closing .paren, ")"⟩, ⟨.closing .brace, "\x7d"⟩, ⟨.identifier, "b"⟩]
    ∃ nodes, Token.Numbered tokens ∧ parse tokens = .ok nodes ∧ ScopeForest tokens nodes ∧
      (analyze nodes).scopes.map (fun s => (s.parent, s.first, s.last)) =
        [(none, 0, 16), (some 0, 6, 8), (some 0, 12, 14)] := by
  intro tokens
  have hnumbered : Token.Numbered tokens := Token.numbered_layOut _
  exact ⟨_, hnumbered, rfl, scopeForest_parse hnumbered rfl, by decide +kernel⟩

end QSource
