/-
**The nodes of a tree**, and where their tokens stand.

A node is made up of tokens that follow one another: the tokens of every node of a tree stand without
a gap among the tokens of the tree.  So whatever has to be known about the numbers of the tokens in
one node can be read off that node alone.

Main definitions:

* `QSource.Node.subtrees`, `QSource.Node.all` — the nodes of a tree, without their depths.

Main results:

* `QSource.Node.infix_allTokens` — **the tokens of a node follow one another in the tree**;
* `QSource.Node.countFrom_of_mem_all` — the numbers of the tokens of a node count up;
* `QSource.Node.mem_or_exists_of_mem_all` — a node of a tree stands in its outermost sequence or
  between two delimiters.
-/

import QSource.Proofs.Token.Place
import QSource.Proofs.Tree.Steps

set_option relaxedAutoImplicit false
set_option autoImplicit false

namespace QSource

namespace Node

/-! ### Nodes without their depths -/

/-- A node and the nodes below it. -/
def subtrees (node : Node) : List Node := (node.withDepth 0).map Prod.snd

/-- The nodes of a sequence and the nodes below them. -/
def all (nodes : List Node) : List Node := (preorder 0 nodes).map Prod.snd

mutual

theorem map_snd_withDepth (depth depth' : Nat) : ∀ node : Node,
    (node.withDepth depth).map Prod.snd = (node.withDepth depth').map Prod.snd
  | .leaf form token => by simp [withDepth]
  | .assignment parts => by simp [withDepth]
  | .quoted first content last => by simp [withDepth]
  | .enclosed form first items last => by
      simp [withDepth, map_snd_preorder (depth + 1) (depth' + 1) items]

/-- The depth at which a walk starts says nothing about the nodes that it meets. -/
theorem map_snd_preorder (depth depth' : Nat) : ∀ nodes : List Node,
    (preorder depth nodes).map Prod.snd = (preorder depth' nodes).map Prod.snd
  | [] => by simp [preorder]
  | node :: nodes => by
      simp [preorder, map_snd_withDepth depth depth' node, map_snd_preorder depth depth' nodes]

end

@[simp] theorem subtrees_leaf (form : LeafForm) (token : Token) :
    subtrees (.leaf form token) = [.leaf form token] := by simp [subtrees, withDepth]

@[simp] theorem subtrees_assignment (parts : Assignment) :
    subtrees (.assignment parts) = [.assignment parts] := by simp [subtrees, withDepth]

@[simp] theorem subtrees_quoted (first : Token) (content : List Token) (last : Token) :
    subtrees (.quoted first content last) = [.quoted first content last] := by
  simp [subtrees, withDepth]

@[simp] theorem subtrees_enclosed (form : Enclosure) (first : Token) (items : List Node)
    (last : Token) :
    subtrees (.enclosed form first items last) = .enclosed form first items last :: all items := by
  simp [subtrees, all, withDepth, map_snd_preorder (0 + 1) 0 items]

@[simp] theorem all_nil : all [] = [] := by simp [all, preorder]

@[simp] theorem all_cons (node : Node) (nodes : List Node) :
    all (node :: nodes) = node.subtrees ++ all nodes := by
  simp [all, subtrees, preorder]

theorem all_eq_flatMap (nodes : List Node) : all nodes = nodes.flatMap subtrees := by
  induction nodes with
  | nil => simp
  | cons node nodes ih => rw [all_cons, ih, List.flatMap_cons]

@[simp] theorem mem_all_reverse {node : Node} {nodes : List Node} :
    node ∈ all nodes.reverse ↔ node ∈ all nodes := by
  simp [all_eq_flatMap]

theorem self_mem_subtrees (node : Node) : node ∈ node.subtrees := by
  cases node <;> simp

theorem mem_all_of_mem {node : Node} {nodes : List Node} (h : node ∈ nodes) : node ∈ all nodes := by
  rw [all_eq_flatMap]
  exact List.mem_flatMap.2 ⟨node, h, node.self_mem_subtrees⟩

/-! ### What the nodes of a tree have in common -/

mutual

theorem mem_all_items_of_mem_subtrees {form : Enclosure} {first last : Token} {items : List Node}
    {x : Node} (hx : x ∈ all items) : ∀ node : Node,
    .enclosed form first items last ∈ node.subtrees → x ∈ node.subtrees
  | .leaf _ _, h | .assignment _, h | .quoted _ _ _, h => by simp at h
  | .enclosed form' first' items' last', h => by
      rw [subtrees_enclosed, List.mem_cons] at h ⊢
      rcases h with h | h
      · obtain ⟨-, -, rfl, -⟩ := Node.enclosed.inj h
        exact Or.inr hx
      · exact Or.inr (mem_all_items hx items' h)

/-- The nodes between the delimiters of a node of a tree are nodes of that tree. -/
theorem mem_all_items {form : Enclosure} {first last : Token} {items : List Node} {x : Node}
    (hx : x ∈ all items) : ∀ nodes : List Node, .enclosed form first items last ∈ all nodes →
    x ∈ all nodes
  | [], h => by simp at h
  | node :: nodes, h => by
      rw [all_cons, List.mem_append] at h ⊢
      exact h.imp (mem_all_items_of_mem_subtrees hx node) (mem_all_items hx nodes)

end

mutual

theorem eq_or_exists_of_mem_subtrees {x : Node} : ∀ node : Node, x ∈ node.subtrees →
    x = node ∨ ∃ form first items last,
      .enclosed form first items last ∈ node.subtrees ∧ x ∈ items
  | .leaf _ _, h | .assignment _, h | .quoted _ _ _, h => by
      left
      simpa using h
  | .enclosed form first items last, h => by
      rw [subtrees_enclosed, List.mem_cons] at h
      rcases h with rfl | h
      · exact Or.inl rfl
      · right
        rcases mem_or_exists_of_mem_all items h with hx | ⟨form', first', items', last', hnode, hx⟩
        · exact ⟨form, first, items, last, by simp, hx⟩
        · exact ⟨form', first', items', last', by simp [hnode], hx⟩

/-- A node of a tree stands in the outermost sequence or between the delimiters of a node of the
tree. -/
theorem mem_or_exists_of_mem_all {x : Node} : ∀ nodes : List Node, x ∈ all nodes →
    x ∈ nodes ∨ ∃ form first items last,
      .enclosed form first items last ∈ all nodes ∧ x ∈ items
  | [], h => by simp at h
  | node :: nodes, h => by
      rw [all_cons, List.mem_append] at h
      rcases h with h | h
      · rcases eq_or_exists_of_mem_subtrees node h with
          rfl | ⟨form, first, items, last, hnode, hx⟩
        · exact Or.inl (List.mem_cons_self ..)
        · exact Or.inr ⟨form, first, items, last, by simp [hnode], hx⟩
      · rcases mem_or_exists_of_mem_all nodes h with hx | ⟨form, first, items, last, hnode, hx⟩
        · exact Or.inl (List.mem_cons_of_mem _ hx)
        · exact Or.inr ⟨form, first, items, last, by simp [hnode], hx⟩

end

/-! ### The tokens of a node -/

mutual

theorem infix_tokens {x : Node} : ∀ node : Node, x ∈ node.subtrees → x.tokens <:+: node.tokens
  | .leaf _ _, h | .assignment _, h | .quoted _ _ _, h => by
      obtain rfl : x = _ := by simpa using h
      exact List.infix_rfl
  | .enclosed form first items last, h => by
      rw [subtrees_enclosed, List.mem_cons] at h
      rcases h with rfl | h
      · exact List.infix_rfl
      · refine (infix_allTokens items h).trans ⟨form.gap ++ [first], [last], ?_⟩
        simp [Node.tokens]

/-- **The tokens of a node follow one another in the tree.** -/
theorem infix_allTokens {x : Node} : ∀ nodes : List Node, x ∈ all nodes →
    x.tokens <:+: allTokens nodes
  | [], h => by simp at h
  | node :: nodes, h => by
      rw [all_cons, List.mem_append] at h
      rw [allTokens_cons]
      rcases h with h | h
      · exact (infix_tokens node h).trans (List.prefix_append _ _).isInfix
      · exact (infix_allTokens nodes h).trans (List.suffix_append _ _).isInfix

end

theorem mem_allTokens_of_mem_all {x : Node} {nodes : List Node} (h : x ∈ all nodes) {t : Token}
    (ht : t ∈ x.tokens) : t ∈ allTokens nodes := (infix_allTokens nodes h).subset ht

/-- The numbers of the tokens of a node count up. -/
theorem countFrom_of_mem_all {index : Nat} {x : Node} {nodes : List Node}
    (hcount : Token.CountFrom index (allTokens nodes)) (h : x ∈ all nodes) :
    ∃ start, Token.CountFrom start x.tokens := by
  obtain ⟨before, behind, heq⟩ := infix_allTokens nodes h
  rw [← heq] at hcount
  exact ⟨_, (Token.countFrom_append.1 (Token.countFrom_append.1 hcount).1).2⟩

end Node

end QSource
