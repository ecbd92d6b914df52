/-
**The regions of an outline**: they are numbered in order, each stands inside an older one or in the
region around the outline, and no token is put into a region that the outline does not have.

An outline is put together from left to right while a supply of numbers is threaded through, so all
three facts are proved of outlines that begin at any number and in any region.

Main definitions:

* `QSource.Outline.Ranked` — **the numbers in an outline**;
* `QSource.Node.outside` — the nodes of a tree that do not stand in a parameter list.

Main results:

* `QSource.Node.ranked_outlineAll` — every outline is ranked;
* `QSource.Node.exists_lambda_of_mem_regions` — **a region is a lambda outside parameter lists**;
* `QSource.Node.eq_of_first_index_eq` — a lambda is known by the number of its opening brace.
-/

import QSource.Proofs.Scope.Outline
import QSource.Proofs.Tree.Shape

set_option relaxedAutoImplicit false
set_option autoImplicit false

namespace QSource

/-! ### Numbers of regions -/

/-- **The numbers in an outline** of something that stands in the region `scope`, where `next` is the
number of the next region. -/
structure Outline.Ranked (scope : Option ScopeId) (next : Nat) (o : Outline) : Prop where
  ids : o.regions.map (·.id) = List.range' next o.regions.length
  parent : ∀ r ∈ o.regions, r.parent = scope ∨ ∃ p : Nat, r.parent = some p ∧ next ≤ p ∧ p < r.id
  scope : ∀ m ∈ o.marked, m.scope = scope ∨
    ∃ id : Nat, m.scope = some id ∧ next ≤ id ∧ id < next + o.regions.length

namespace Outline.Ranked

theorem empty (scope : Option ScopeId) (next : Nat) : Ranked scope next Outline.empty where
  ids := rfl
  parent := by
    intro r hr
    simp [Outline.empty] at hr
  scope := by
    intro m hm
    simp [Outline.empty] at hm

theorem ofTokens (scope : Option ScopeId) (next : Nat) (mark : Mark) (tokens : List Token) :
    Ranked scope next (Outline.ofTokens scope mark tokens) where
  ids := rfl
  parent := by
    intro r hr
    simp at hr
  scope := by
    intro m hm
    rw [marked_ofTokens] at hm
    obtain ⟨t, -, rfl⟩ := List.mem_map.1 hm
    exact Or.inl rfl

theorem append {scope : Option ScopeId} {next : Nat} {a b : Outline}
    (ha : Ranked scope next a) (hb : Ranked scope (next + a.regions.length) b) :
    Ranked scope next (a ++ b) where
  ids := by
    rw [regions_append, List.map_append, ha.ids, hb.ids, List.length_append, List.range'_append_1]
  parent := by
    intro r hr
    rcases List.mem_append.1 hr with hr | hr
    · exact ha.parent r hr
    · refine (hb.parent r hr).imp id ?_
      rintro ⟨p, hp, hge, hlt⟩
      exact ⟨p, hp, by omega, hlt⟩
  scope := by
    intro m hm
    rw [regions_append, List.length_append]
    rcases List.mem_append.1 hm with hm | hm
    · refine (ha.scope m hm).imp id ?_
      rintro ⟨id, hid, hge, hlt⟩
      exact ⟨id, hid, hge, by omega⟩
    · refine (hb.scope m hm).imp id ?_
      rintro ⟨id, hid, hge, hlt⟩
      exact ⟨id, hid, by omega, by omega⟩

/-- Tokens put before an outline take no number. -/
theorem ofTokens_append {scope : Option ScopeId} {next : Nat} {o : Outline} (mark : Mark)
    (tokens : List Token) (h : Ranked scope next o) :
    Ranked scope next (Outline.ofTokens scope mark tokens ++ o) :=
  (ofTokens scope next mark tokens).append (by simpa using h)

theorem append_ofTokens {scope : Option ScopeId} {next : Nat} {o : Outline} (mark : Mark)
    (tokens : List Token) (h : Ranked scope next o) :
    Ranked scope next (o ++ Outline.ofTokens scope mark tokens) :=
  h.append (ofTokens scope _ mark tokens)

/-- A region takes the next number, and what stands in it takes those behind. -/
theorem region {scope : Option ScopeId} {next : Nat} {o : Outline} (first last : Nat)
    (declared : Option (List (String × Nat))) (h : Ranked (some next) (next + 1) o) :
    Ranked scope next (⟨[], [⟨next, scope, first, last, declared⟩]⟩ ++ o) where
  ids := by
    rw [regions_append, List.map_append, h.ids, List.length_append]
    simp [Nat.add_comm 1, List.range'_succ]
  parent := by
    intro r hr
    rcases List.mem_append.1 hr with hr | hr
    · obtain rfl := List.mem_singleton.1 hr
      exact Or.inl rfl
    · -- regions directly inside have the new one as their parent
      right
      have hid : r.id ∈ o.regions.map (·.id) := List.mem_map_of_mem hr
      rw [h.ids, List.mem_range'_1] at hid
      rcases h.parent r hr with hp | ⟨p, hp, hge, hlt⟩
      · exact ⟨next, hp, Nat.le_refl _, by omega⟩
      · exact ⟨p, hp, by omega, hlt⟩
  scope := by
    intro m hm
    rw [regions_append, List.length_append, List.length_singleton]
    rcases List.mem_append.1 hm with hm | hm
    · simp at hm
    · right
      rcases h.scope m hm with hs | ⟨id, hid, hge, hlt⟩
      · exact ⟨next, hs, Nat.le_refl _, by omega⟩
      · exact ⟨id, hid, by omega, by omega⟩

end Outline.Ranked

namespace Node

open Outline (Ranked)

theorem ranked_paramOutlines (scope : Option ScopeId) (next : Nat) (items : List Node) :
    Ranked scope next ((items.map (paramOutline scope)).foldr (· ++ ·) .empty) := by
  induction items generalizing next with
  | nil => exact .empty scope next
  | cons item items ih =>
      rw [List.map_cons, List.foldr_cons]
      unfold paramOutline
      split <;> exact (ih next).ofTokens_append _ _

mutual

theorem ranked_outline (scope : Option ScopeId) (next : Nat) (query : Bool)
    (sign : Option Assignment) : ∀ node : Node, Ranked scope next (node.outline scope next query sign)
  | .leaf form token => by
      rw [outline]
      exact .ofTokens ..
  | .assignment parts => by
      rw [outline]
      exact .ofTokens ..
  | .quoted first content last => by
      rw [outline]
      exact .ofTokens ..
  | .enclosed .bracket first items last => by
      rw [outline]
      exact ((ranked_outlineAll scope next false query query items).ofTokens_append _ _
        ).append_ofTokens _ _
  | .enclosed .group first items last => by
      rw [outline]
      exact ((ranked_outlineAll scope next false _ _ items).ofTokens_append _ _).append_ofTokens _ _
  | .enclosed .lambda first items last => by
      have hitems := ranked_outlineAll (some next) (next + 1) false false false items
      rw [outline, Outline.append_assoc, Outline.append_assoc]
      exact ((hitems.append_ofTokens _ _).ofTokens_append _ _).region _ _ _
  | .enclosed (.params gap) first items last => by
      rw [outline]
      exact ((ranked_paramOutlines scope next items).ofTokens_append _ _).append_ofTokens _ _

/-- Every outline is ranked. -/
theorem ranked_outlineAll (scope : Option ScopeId) (next : Nat) (script initial query : Bool) :
    ∀ nodes : List Node, Ranked scope next (outlineAll scope next script initial query nodes)
  | [] => by
      rw [outlineAll]
      exact .empty scope next
  | node :: rest => by
      rw [outlineAll]
      exact (ranked_outline scope next query _ node).append
        (ranked_outlineAll scope _ script initial _ rest)

end

/-! ### Regions and lambdas -/

mutual

/-- A node and the nodes below it, as far as they do not stand in a parameter list. -/
def outsideSubtrees : Node → List Node
  | .enclosed (.params _) _ _ _ => []
  | .enclosed form first items last => .enclosed form first items last :: outside items
  | node => [node]

/-- The nodes of a sequence and the nodes below them, as far as they do not stand in a parameter
list. -/
def outside : List Node → List Node
  | [] => []
  | node :: nodes => node.outsideSubtrees ++ outside nodes

end

theorem outsideSubtrees_enclosed {form : Enclosure} (hform : ∀ gap, form ≠ .params gap)
    (first : Token) (items : List Node) (last : Token) :
    outsideSubtrees (.enclosed form first items last) =
      .enclosed form first items last :: outside items := by
  cases form with
  | params gap => exact absurd rfl (hform gap)
  | bracket => simp [outsideSubtrees]
  | group => simp [outsideSubtrees]
  | lambda => simp [outsideSubtrees]

mutual

theorem outsideSubtrees_subset : ∀ node : Node, node.outsideSubtrees ⊆ node.subtrees
  | .leaf _ _ | .assignment _ | .quoted _ _ _ => by simp [outsideSubtrees]
  | .enclosed (.params gap) first items last => by simp [outsideSubtrees]
  | .enclosed .bracket first items last | .enclosed .group first items last
  | .enclosed .lambda first items last => by
      rw [outsideSubtrees_enclosed (by simp), subtrees_enclosed]
      exact List.cons_subset_cons _ (outside_subset items)

/-- The nodes outside parameter lists are nodes of the tree. -/
theorem outside_subset : ∀ nodes : List Node, outside nodes ⊆ all nodes
  | [] => by simp [outside]
  | node :: nodes => by
      rw [outside, all_cons]
      exact List.append_subset.2
        ⟨List.subset_append_of_subset_left _ (outsideSubtrees_subset node),
          List.subset_append_of_subset_right _ (outside_subset nodes)⟩

end

/-- The node is the lambda that opens the region. -/
def Opens (node : Node) (r : Region) : Prop :=
  ∃ first items last, node = .enclosed .lambda first items last ∧
    r.first = first.index ∧ r.last = last.index ∧ r.declared = declaredParams items

theorem regions_paramOutlines (scope : Option ScopeId) (items : List Node) :
    (items.map (paramOutline scope)).flatMap Outline.regions = [] := by
  induction items with
  | nil => rfl
  | cons item items ih =>
      rw [List.map_cons, List.flatMap_cons, ih]
      unfold paramOutline
      split <;> rfl

mutual

theorem exists_opens_of_mem_regions {r : Region} (scope : Option ScopeId) (next : Nat)
    (query : Bool) (sign : Option Assignment) : ∀ node : Node,
    r ∈ (node.outline scope next query sign).regions → ∃ x ∈ node.outsideSubtrees, x.Opens r
  | .leaf form token, h => by simp [outline] at h
  | .assignment parts, h => by simp [outline] at h
  | .quoted first content last, h => by simp [outline] at h
  | .enclosed .bracket first items last, h => by
      obtain ⟨x, hx, hopens⟩ := exists_lambda_of_mem_regions scope next false query query items
        (by simpa [outline] using h)
      exact ⟨x, by simp [outsideSubtrees, hx], hopens⟩
  | .enclosed .group first items last, h => by
      obtain ⟨x, hx, hopens⟩ := exists_lambda_of_mem_regions scope next false _ _ items
        (by simpa [outline] using h)
      exact ⟨x, by simp [outsideSubtrees, hx], hopens⟩
  | .enclosed .lambda first items last, h => by
      simp only [outline, Outline.regions_append, Outline.regions_ofTokens, List.append_nil,
        List.singleton_append, List.mem_cons] at h
      rcases h with rfl | h
      · exact ⟨_, by simp [outsideSubtrees], first, items, last, rfl, rfl, rfl, rfl⟩
      · obtain ⟨x, hx, hopens⟩ := exists_lambda_of_mem_regions _ _ _ _ _ items h
        exact ⟨x, by simp [outsideSubtrees, hx], hopens⟩
  | .enclosed (.params gap) first items last, h => by
      simp [outline, regions_paramOutlines] at h

/-- **A region is a lambda outside parameter lists.** -/
theorem exists_lambda_of_mem_regions {r : Region} (scope : Option ScopeId) (next : Nat)
    (script initial query : Bool) : ∀ nodes : List Node,
    r ∈ (outlineAll scope next script initial query nodes).regions →
      ∃ x ∈ outside nodes, x.Opens r
  | [], h => by simp [outlineAll, Outline.empty] at h
  | node :: rest, h => by
      rw [outlineAll, Outline.regions_append, List.mem_append] at h
      rw [outside]
      rcases h with h | h
      · obtain ⟨x, hx, hopens⟩ := exists_opens_of_mem_regions scope next query _ node h
        exact ⟨x, List.mem_append_left _ hx, hopens⟩
      · obtain ⟨x, hx, hopens⟩ := exists_lambda_of_mem_regions scope _ script initial _ rest h
        exact ⟨x, List.mem_append_right _ hx, hopens⟩

end

/-! ### Opening delimiters -/

/-- The opening delimiter of a node, if it has one. -/
def first? : Node → Option Token
  | .enclosed _ first _ _ => some first
  | _ => none

mutual

theorem filterMap_first?_subtrees : ∀ node : Node,
    (node.subtrees.filterMap first?).Sublist node.tokens
  | .leaf form token => by
      rw [subtrees_leaf]
      exact List.nil_sublist _
  | .assignment parts => by
      rw [subtrees_assignment]
      exact List.nil_sublist _
  | .quoted first content last => by
      rw [subtrees_quoted]
      exact List.nil_sublist _
  | .enclosed form first items last => by
      have hfirst : (enclosed form first items last).first? = some first := rfl
      rw [subtrees_enclosed, List.filterMap_cons_some hfirst, Node.tokens, List.append_assoc]
      refine List.Sublist.trans ?_ (List.sublist_append_right _ _)
      exact ((filterMap_first?_all items).trans (List.sublist_append_left _ _)).cons_cons first

/-- The opening delimiters of the nodes of a tree are in the order of the tokens. -/
theorem filterMap_first?_all : ∀ nodes : List Node,
    ((all nodes).filterMap first?).Sublist (allTokens nodes)
  | [] => by simp
  | node :: nodes => by
      rw [all_cons, List.filterMap_append, allTokens_cons]
      exact (filterMap_first?_subtrees node).append (filterMap_first?_all nodes)

end

/-- A pair of delimiters is known by the number of the opening one. -/
theorem eq_of_first_index_eq {tokens : List Token} {nodes : List Node}
    (hnumbered : Token.Numbered tokens) (h : parse tokens = .ok nodes) {x y : Node}
    (hx : x ∈ all nodes) (hy : y ∈ all nodes) {a b : Token} (ha : x.first? = some a)
    (hb : y.first? = some b) (heq : a.index = b.index) : x = y := by
  have hincreasing : tokens.Pairwise fun t u => t.index < u.index := by
    refine List.pairwise_map.1 ?_
    rw [hnumbered]
    exact List.pairwise_lt_range
  rw [← allTokens_parse h] at hincreasing
  have hfirst := List.pairwise_filterMap.1 (hincreasing.sublist (filterMap_first?_all nodes))
  refine List.Pairwise.forall_of_forall_of_flip
    (R := fun x y => ∀ a b, x.first? = some a → y.first? = some b → a.index = b.index → x = y)
    ?_ ?_ ?_ hx hy a b ha hb heq
  · intro x hx a b ha hb heq
    rfl
  · refine hfirst.imp fun hlt a b ha hb heq => ?_
    exact absurd (hlt a ha b hb) (by omega)
  · refine hfirst.imp fun hlt a b ha hb heq => ?_
    exact absurd (hlt b hb a ha) (by omega)

end Node

end QSource
