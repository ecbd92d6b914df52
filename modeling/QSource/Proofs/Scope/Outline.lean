/-
**The outline marks every token once.**

Main results:

* `QSource.token_outlineAll` — **the marked tokens of an outline are the tokens of the tree, in their
  order**;
* `QSource.toToken_analyze` — the annotated tokens of an analysis are the tokens of the tree.
-/

import QSource.Proofs.Tree.Steps
import QSource.Scope.Resolution

set_option relaxedAutoImplicit false
set_option autoImplicit false

namespace QSource

namespace Outline

theorem append_assoc (a b c : Outline) : a ++ b ++ c = a ++ (b ++ c) := by
  change Outline.mk _ _ = Outline.mk _ _
  simp

@[simp] theorem marked_ofTokens (scope : Option ScopeId) (mark : Mark) (tokens : List Token) :
    (ofTokens scope mark tokens).marked = tokens.map (⟨·, scope, mark⟩) := rfl

@[simp] theorem regions_ofTokens (scope : Option ScopeId) (mark : Mark) (tokens : List Token) :
    (ofTokens scope mark tokens).regions = [] := rfl

@[simp] theorem map_token_mk (scope : Option ScopeId) (mark : Mark) (tokens : List Token) :
    tokens.map (Marked.token ∘ fun t => ⟨t, scope, mark⟩) = tokens := List.map_id _

/-- Outlines put one behind the other have the marked tokens of all of them. -/
@[simp] theorem marked_foldr (outlines : List Outline) :
    (outlines.foldr (· ++ ·) Outline.empty).marked = outlines.flatMap Outline.marked := by
  induction outlines with
  | nil => rfl
  | cons o outlines ih => rw [List.foldr_cons, marked_append, ih, List.flatMap_cons]

@[simp] theorem regions_foldr (outlines : List Outline) :
    (outlines.foldr (· ++ ·) Outline.empty).regions = outlines.flatMap Outline.regions := by
  induction outlines with
  | nil => rfl
  | cons o outlines ih => rw [List.foldr_cons, regions_append, ih, List.flatMap_cons]

end Outline

/-! ### The tokens of an outline -/

theorem Node.token_paramOutline (scope : Option ScopeId) (node : Node) :
    (node.paramOutline scope).marked.map Marked.token = node.tokens := by
  unfold Node.paramOutline
  split <;> simp [Node.tokens]

theorem Node.token_paramOutlines (scope : Option ScopeId) (items : List Node) :
    ((items.map (Node.paramOutline scope)).flatMap Outline.marked).map Marked.token =
      Node.allTokens items := by
  induction items with
  | nil => simp
  | cons node items ih =>
      rw [List.map_cons, List.flatMap_cons, List.map_append, ih, Node.token_paramOutline,
        Node.allTokens_cons]

mutual

theorem Node.token_outline (scope : Option ScopeId) (next : ScopeId) (query : Bool)
    (sign : Option Assignment) :
    ∀ node : Node, (node.outline scope next query sign).marked.map Marked.token = node.tokens
  | .leaf form token => by simp [Node.outline, Node.tokens]
  | .assignment parts => by simp [Node.outline, Node.tokens]
  | .quoted first content last => by simp [Node.outline, Node.tokens]
  | .enclosed .bracket first items last => by
      simp [Node.outline, Node.tokens, Enclosure.gap,
        Node.token_outlineAll scope next false query query items]
  | .enclosed .group first items last => by
      simp [Node.outline, Node.tokens, Enclosure.gap,
        Node.token_outlineAll scope next false _ _ items]
  | .enclosed .lambda first items last => by
      simp [Node.outline, Node.tokens, Enclosure.gap,
        Node.token_outlineAll (some next) (next + 1) false false false items]
  | .enclosed (.params gap) first items last => by
      simp [Node.outline, Node.tokens, Enclosure.gap, Node.token_paramOutlines]

/-- **The marked tokens of an outline are the tokens of the tree, in their order.** -/
theorem Node.token_outlineAll (scope : Option ScopeId) (next : ScopeId)
    (script initial query : Bool) : ∀ nodes : List Node,
    (Node.outlineAll scope next script initial query nodes).marked.map Marked.token =
      Node.allTokens nodes
  | [] => by simp [Node.outlineAll, Outline.empty]
  | node :: rest => by
      simp [Node.outlineAll, Node.token_outline scope next query _ node,
        Node.token_outlineAll scope _ script initial _ rest]

end

/-! ### The tokens of an analysis -/

@[simp] theorem Marked.toToken_annotate (scopes : List Scope) (m : Marked) :
    (m.annotate scopes).toToken = m.token := by
  unfold Marked.annotate
  split <;> rfl

/-- The annotated tokens of an analysis are the tokens of the tree, in their order. -/
theorem toToken_analyze (nodes : List Node) :
    (analyze nodes).tokens.map AnnotatedToken.toToken = Node.allTokens nodes := by
  have hmap : (analyze nodes).tokens.map AnnotatedToken.toToken =
      (outline nodes).marked.map Marked.token := by simp [analyze]
  rw [hmap, outline, Node.token_outlineAll]

section

variable {tokens : List Token} {nodes : List Node}

theorem toToken_mem_of_mem_analyze (h : parse tokens = .ok nodes) {t : AnnotatedToken}
    (ht : t ∈ (analyze nodes).tokens) : t.toToken ∈ tokens := by
  rw [← allTokens_parse h, ← toToken_analyze]
  exact List.mem_map_of_mem ht

theorem length_analyze (h : parse tokens = .ok nodes) :
    (analyze nodes).tokens.length = tokens.length := by
  rw [← allTokens_parse h, ← toToken_analyze, List.length_map]

end

end QSource
