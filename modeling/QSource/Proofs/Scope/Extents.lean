/-
**What regions enclose.**

A token that is put into a region stands between the braces of the region, or is one of them, and a
region stands between the braces of the one around it.  Regions come in the order of their opening
braces.

Main definitions:

* `QSource.Outline.Nested` — **what the regions of an outline enclose**.

Main results:

* `QSource.Node.between_of_mem_items` — what a node encloses stands between its delimiters;
* `QSource.Node.nested_outlineAll` — every outline is nested;
* `QSource.Node.first_outlineAll_sublist` — regions come in the order of their opening braces;
* `QSource.scope_encloses`, `QSource.parent_encloses` — what the regions of a tree enclose.
-/

import QSource.Proofs.Scope.Table

set_option relaxedAutoImplicit false
set_option autoImplicit false

namespace QSource

/-! ### Between delimiters -/

/-- What a node encloses stands between its delimiters. -/
theorem Node.between_of_mem_items {form : Enclosure} {first last : Token} {items : List Node}
    {start : Nat} (hcount : Token.CountFrom start (Node.enclosed form first items last).tokens)
    {t : Token} (ht : t ∈ Node.allTokens items) : first.index < t.index ∧ t.index < last.index := by
  rw [Node.tokens, List.append_assoc, Token.countFrom_append] at hcount
  obtain ⟨hfirst, hrest⟩ := Token.countFrom_cons.1 hcount.2
  obtain ⟨hitems, hlast⟩ := Token.countFrom_append.1 hrest
  have hmem := hitems.index_mem ht
  have hend := (Token.countFrom_cons.1 hlast).1
  omega

theorem Node.first_le_last {form : Enclosure} {first last : Token} {items : List Node}
    {start : Nat} (hcount : Token.CountFrom start (Node.enclosed form first items last).tokens) :
    first.index ≤ last.index := by
  rw [Node.tokens, List.append_assoc, Token.countFrom_append] at hcount
  obtain ⟨hfirst, hrest⟩ := Token.countFrom_cons.1 hcount.2
  have hlast := (Token.countFrom_cons.1 (Token.countFrom_append.1 hrest).2).1
  omega

/-- The braces of a region are tokens of what is outlined. -/
theorem Node.exists_braces_of_mem_regions {r : Region} {scope : Option ScopeId} {next : Nat}
    {script initial query : Bool} {nodes : List Node}
    (h : r ∈ (outlineAll scope next script initial query nodes).regions) :
    ∃ first ∈ allTokens nodes, ∃ last ∈ allTokens nodes,
      r.first = first.index ∧ r.last = last.index := by
  obtain ⟨x, hx, first, items, last, rfl, hfirst, hlast, -⟩ :=
    exists_lambda_of_mem_regions scope next script initial query nodes h
  have hmem : ∀ t ∈ (Node.enclosed .lambda first items last).tokens, t ∈ allTokens nodes :=
    fun t ht => mem_allTokens_of_mem_all (outside_subset nodes hx) ht
  exact ⟨first, hmem _ (by simp [Node.tokens]), last, hmem _ (by simp [Node.tokens]), hfirst, hlast⟩

/-! ### Nested regions -/

/-- **What the regions of an outline enclose**, if it is one of something that stands in the region
`scope`. -/
structure Outline.Nested (scope : Option ScopeId) (o : Outline) : Prop where
  parent : ∀ r ∈ o.regions, r.parent = scope ∨
    ∃ r' ∈ o.regions, r.parent = some r'.id ∧ r'.first < r.first ∧ r.last < r'.last
  scope : ∀ m ∈ o.marked, m.scope = scope ∨
    ∃ r ∈ o.regions, m.scope = some r.id ∧ r.first ≤ m.token.index ∧ m.token.index ≤ r.last

namespace Outline.Nested

theorem empty (scope : Option ScopeId) : Nested scope Outline.empty where
  scope := by simp [Outline.empty]
  parent := by simp [Outline.empty]

theorem ofTokens (scope : Option ScopeId) (mark : Mark) (tokens : List Token) :
    Nested scope (Outline.ofTokens scope mark tokens) where
  scope := by
    intro m hm
    rw [marked_ofTokens] at hm
    obtain ⟨t, -, rfl⟩ := List.mem_map.1 hm
    exact Or.inl rfl
  parent := by simp

theorem append {scope : Option ScopeId} {a b : Outline} (ha : Nested scope a) (hb : Nested scope b) :
    Nested scope (a ++ b) where
  scope := by
    intro m hm
    rcases List.mem_append.1 hm with hm | hm
    · exact (ha.scope m hm).imp_right fun ⟨r, hr, h⟩ => ⟨r, List.mem_append_left _ hr, h⟩
    · exact (hb.scope m hm).imp_right fun ⟨r, hr, h⟩ => ⟨r, List.mem_append_right _ hr, h⟩
  parent := by
    intro r hr
    rcases List.mem_append.1 hr with hr | hr
    · exact (ha.parent r hr).imp_right fun ⟨r', hr', h⟩ => ⟨r', List.mem_append_left _ hr', h⟩
    · exact (hb.parent r hr).imp_right fun ⟨r', hr', h⟩ => ⟨r', List.mem_append_right _ hr', h⟩

/-- A region around an outline, if all of it stands between the braces. -/
theorem region {scope : Option ScopeId} {next : ScopeId} {o : Outline} (h : Nested (some next) o)
    {first last : Nat} (declared : Option (List (String × Nat)))
    (hmarked : ∀ m ∈ o.marked, first ≤ m.token.index ∧ m.token.index ≤ last)
    (hregions : ∀ r ∈ o.regions, first < r.first ∧ r.last < last) :
    Nested scope (⟨[], [⟨next, scope, first, last, declared⟩]⟩ ++ o) where
  scope := by
    intro m hm
    right
    rcases List.mem_append.1 hm with hm | hm
    · simp at hm
    · rcases h.scope m hm with hscope | ⟨r, hr, hscope⟩
      · exact ⟨_, List.mem_append_left _ (List.mem_singleton.2 rfl), hscope, hmarked m hm⟩
      · exact ⟨r, List.mem_append_right _ hr, hscope⟩
  parent := by
    intro r hr
    rcases List.mem_append.1 hr with hr | hr
    · obtain rfl := List.mem_singleton.1 hr
      exact Or.inl rfl
    · right
      rcases h.parent r hr with hparent | ⟨r', hr', hparent⟩
      · exact ⟨_, List.mem_append_left _ (List.mem_singleton.2 rfl), hparent, hregions r hr⟩
      · exact ⟨r', List.mem_append_right _ hr', hparent⟩

end Outline.Nested

namespace Node

open Outline (Nested)

theorem nested_paramOutlines (scope : Option ScopeId) (items : List Node) :
    Nested scope ((items.map (paramOutline scope)).foldr (· ++ ·) .empty) := by
  induction items with
  | nil => exact .empty scope
  | cons item items ih =>
      rw [List.map_cons, List.foldr_cons]
      unfold paramOutline
      split <;> exact (Nested.ofTokens _ _ _).append ih

mutual

theorem nested_outline (scope : Option ScopeId) (next : Nat) (query : Bool)
    (sign : Option Assignment) {start : Nat} : ∀ node : Node, Token.CountFrom start node.tokens →
    Nested scope (node.outline scope next query sign)
  | .leaf form token, _ | .assignment parts, _ | .quoted first content last, _ => by
      rw [outline]
      exact .ofTokens ..
  | .enclosed form first items last, hcount => by
      have hitems : ∃ start, Token.CountFrom start (allTokens items) := by
        rw [tokens, List.append_assoc, Token.countFrom_append] at hcount
        exact ⟨_, (Token.countFrom_append.1 (Token.countFrom_cons.1 hcount.2).2).1⟩
      obtain ⟨start', hitems⟩ := hitems
      cases form with
      | bracket =>
          rw [outline]
          exact ((Nested.ofTokens _ _ _).append
            (nested_outlineAll scope next false query query items hitems)).append (.ofTokens ..)
      | group =>
          rw [outline]
          exact ((Nested.ofTokens _ _ _).append
            (nested_outlineAll scope next false _ _ items hitems)).append (.ofTokens ..)
      | lambda =>
          have hinside := nested_outlineAll (some next) (next + 1) false false false items hitems
          have hbraces := first_le_last hcount
          rw [outline, Outline.append_assoc, Outline.append_assoc]
          refine ((Nested.ofTokens _ _ _).append (hinside.append (.ofTokens ..))).region _ ?_ ?_
          · intro m hm
            simp only [Outline.marked_append, Outline.marked_ofTokens, List.map_singleton,
              List.mem_append, List.mem_singleton] at hm
            rcases hm with rfl | hm | rfl
            · exact ⟨Nat.le_refl _, hbraces⟩
            · have htoken : m.token ∈ allTokens items := by
                rw [← token_outlineAll (some next) (next + 1) false false false items]
                exact List.mem_map_of_mem hm
              have hbetween := between_of_mem_items hcount htoken
              exact ⟨Nat.le_of_lt hbetween.1, Nat.le_of_lt hbetween.2⟩
            · exact ⟨hbraces, Nat.le_refl _⟩
          · intro r hr
            simp only [Outline.regions_append, Outline.regions_ofTokens, List.nil_append,
              List.append_nil] at hr
            obtain ⟨brace, hbrace, close, hclose, hfirst, hlast⟩ := exists_braces_of_mem_regions hr
            rw [hfirst, hlast]
            exact ⟨(between_of_mem_items hcount hbrace).1, (between_of_mem_items hcount hclose).2⟩
      | params gap =>
          rw [outline]
          exact ((Nested.ofTokens _ _ _).append (nested_paramOutlines scope items)).append
            (.ofTokens ..)

/-- Every outline is nested. -/
theorem nested_outlineAll (scope : Option ScopeId) (next : Nat) (script initial query : Bool)
    {start : Nat} : ∀ nodes : List Node, Token.CountFrom start (allTokens nodes) →
    Nested scope (outlineAll scope next script initial query nodes)
  | [], _ => by
      rw [outlineAll]
      exact .empty scope
  | node :: rest, hcount => by
      rw [allTokens_cons, Token.countFrom_append] at hcount
      rw [outlineAll]
      exact (nested_outline scope next query _ node hcount.1).append
        (nested_outlineAll scope _ script initial _ rest hcount.2)

end

/-! ### The order of regions -/

mutual

theorem first_outline_sublist (scope : Option ScopeId) (next : Nat) (query : Bool)
    (sign : Option Assignment) : ∀ node : Node,
    ((node.outline scope next query sign).regions.map (·.first)).Sublist (node.tokens.map (·.index))
  | .leaf form token | .assignment parts | .quoted first content last => by
      rw [outline]
      exact List.nil_sublist _
  | .enclosed form first items last => by
      cases form with
      | bracket =>
          simpa [outline, tokens, Enclosure.gap] using
            ((first_outlineAll_sublist scope next false query query items).trans
              (List.sublist_append_left _ [last.index])).cons first.index
      | group =>
          simpa [outline, tokens, Enclosure.gap] using
            ((first_outlineAll_sublist scope next false _ _ items).trans
              (List.sublist_append_left _ [last.index])).cons first.index
      | lambda =>
          simpa [outline, tokens, Enclosure.gap] using
            (first_outlineAll_sublist (some next) (next + 1) false false false items).trans
              (List.sublist_append_left _ [last.index])
      | params gap => simp [outline, regions_paramOutlines]

/-- Regions come in the order of their opening braces. -/
theorem first_outlineAll_sublist (scope : Option ScopeId) (next : Nat)
    (script initial query : Bool) : ∀ nodes : List Node,
    ((outlineAll scope next script initial query nodes).regions.map (·.first)).Sublist
      ((allTokens nodes).map (·.index))
  | [] => by simp [outlineAll, Outline.empty]
  | node :: rest => by
      rw [outlineAll, Outline.regions_append, List.map_append, allTokens_cons, List.map_append]
      exact (first_outline_sublist scope next query _ node).append
        (first_outlineAll_sublist scope _ script initial _ rest)

end

end Node

/-! ### Trees -/

section

variable {tokens : List Token} {nodes : List Node} (hnumbered : Token.Numbered tokens)
  (h : parse tokens = .ok nodes)

include hnumbered h

theorem nested_outline_parse : (outline nodes).Nested none :=
  Node.nested_outlineAll none 0 true false false nodes
    (by rw [allTokens_parse h]; exact hnumbered.countFrom)

/-- The opening braces of scopes come one behind the other. -/
theorem pairwise_first_regions :
    (outline nodes).regions.Pairwise fun r r' => r.first < r'.first := by
  refine List.pairwise_map.1 ?_
  refine List.Pairwise.sublist (Node.first_outlineAll_sublist none 0 true false false nodes) ?_
  rw [allTokens_parse h, hnumbered]
  exact List.pairwise_lt_range

omit hnumbered h in
/-- A region is known by its number. -/
theorem region_eq_of_id_eq {r r' : Region} (hr : r ∈ (outline nodes).regions)
    (hr' : r' ∈ (outline nodes).regions) (heq : r.id = r'.id) : r = r' := by
  have hnodup : ((outline nodes).regions.map (·.id)).Nodup := by
    rw [(ranked_outline nodes).ids]
    exact List.nodup_range'
  exact List.inj_on_of_nodup_map hnodup hr hr' heq

/-- A token of a region stands between its braces, or is one of them. -/
theorem scope_encloses {m : Marked} (hm : m ∈ (outline nodes).marked) {r : Region}
    (hr : r ∈ (outline nodes).regions) (hscope : m.scope = some r.id) :
    r.first ≤ m.token.index ∧ m.token.index ≤ r.last := by
  rcases (nested_outline_parse hnumbered h).scope m hm with hnone | ⟨r', hr', hid, hbetween⟩
  · simp [hscope] at hnone
  · rwa [region_eq_of_id_eq hr hr' (Option.some.inj (hscope.symm.trans hid))]

/-- A region stands between the braces of the one around it. -/
theorem parent_encloses {r r' : Region} (hr : r ∈ (outline nodes).regions)
    (hr' : r' ∈ (outline nodes).regions) (hparent : r.parent = some r'.id) :
    r'.first < r.first ∧ r.last < r'.last := by
  rcases (nested_outline_parse hnumbered h).parent r hr with hnone | ⟨r'', hr'', hid, hbetween⟩
  · simp [hparent] at hnone
  · rwa [region_eq_of_id_eq hr' hr'' (Option.some.inj (hparent.symm.trans hid))]

end

end QSource
