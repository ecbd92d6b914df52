/-
**Trees of tokens with further line breaks among them.**

A line break is nothing but a leaf: no sign takes it in, no parameter list has it before itself, and it
cannot stand in a quoted text.  So further line breaks may be put behind any line breaks.  The pass
reads them one after the other where it has just read the first, and the tree is the same with the new
leaves behind the old ones.

Main definitions:

* `QSource.PadsBreaks` — line breaks that are put behind line breaks;
* `QSource.Node.padded`, `QSource.Node.allPadded`, `QSource.Nesting.padded` — a node, a sequence and a
  pass with these line breaks in them.

Main results:

* `QSource.Nesting.Step.padded` — where the pass read one token, it reads the new ones as well;
* `QSource.parse_padded` — **the tree of tokens with further line breaks among them**.
-/

import QSource.Proofs.Tree.Context

set_option relaxedAutoImplicit false
set_option autoImplicit false

namespace QSource

/-- `after` puts line breaks behind line breaks, and nothing behind any other token. -/
structure PadsBreaks (after : Token → List Token) : Prop where
  kind : ∀ t, ∀ e ∈ after t, e.kind = .lineBreak
  behind : ∀ t, t.kind ≠ .lineBreak → after t = []

theorem ne_lineBreak_of_leafForm? {kind : Kind} {form : LeafForm}
    (h : kind.leafForm? = some form) (hform : form ≠ .lineBreak) : kind ≠ .lineBreak := by
  rintro rfl
  exact hform (Option.some.inj h).symm

section

variable (after : Token → List Token)

/-! ### Nodes -/

/-- The new leaves behind a node. -/
def Node.breaksBehind : Node → List Node
  | .leaf .lineBreak t => (after t).map (.leaf .lineBreak)
  | _ => []

mutual

/-- A node with the new line breaks in what it encloses. -/
def Node.padded : Node → Node
  | .enclosed form first items last => .enclosed form first (Node.allPadded items) last
  | node => node

/-- A sequence with the new line breaks. -/
def Node.allPadded : List Node → List Node
  | [] => []
  | node :: rest => node.padded :: (node.breaksBehind after ++ Node.allPadded rest)

end

/-- A sequence with the new line breaks, where the latest node comes first. -/
def Node.latestPadded (nodes : List Node) : List Node := (Node.allPadded after nodes.reverse).reverse

@[simp] theorem Node.padded_leaf (form : LeafForm) (t : Token) :
    (Node.leaf form t).padded after = .leaf form t := by rw [Node.padded]; simp

@[simp] theorem Node.padded_assignment (parts : Assignment) :
    (Node.assignment parts).padded after = .assignment parts := by rw [Node.padded]; simp

@[simp] theorem Node.padded_quoted (first : Token) (content : List Token) (last : Token) :
    (Node.quoted first content last).padded after = .quoted first content last := by
  rw [Node.padded]; simp

@[simp] theorem Node.padded_enclosed (form : Enclosure) (first : Token) (items : List Node)
    (last : Token) : (Node.enclosed form first items last).padded after =
      .enclosed form first (Node.allPadded after items) last := by rw [Node.padded]

@[simp] theorem Node.allPadded_nil : Node.allPadded after [] = [] := by rw [Node.allPadded]

@[simp] theorem Node.allPadded_cons (node : Node) (rest : List Node) :
    Node.allPadded after (node :: rest) =
      node.padded after :: (node.breaksBehind after ++ Node.allPadded after rest) := by
  rw [Node.allPadded]

@[simp] theorem Node.allPadded_append (before behind : List Node) :
    Node.allPadded after (before ++ behind) =
      Node.allPadded after before ++ Node.allPadded after behind := by
  induction before with
  | nil => simp
  | cons node before ih => simp [ih]

@[simp] theorem Node.latestPadded_nil : Node.latestPadded after [] = [] := by
  simp [Node.latestPadded]

@[simp] theorem Node.latestPadded_cons (node : Node) (nodes : List Node) :
    Node.latestPadded after (node :: nodes) =
      (node.breaksBehind after).reverse ++ node.padded after :: Node.latestPadded after nodes := by
  simp [Node.latestPadded]

@[simp] theorem Node.reverse_latestPadded (nodes : List Node) :
    (Node.latestPadded after nodes).reverse = Node.allPadded after nodes.reverse := by
  simp [Node.latestPadded]

/-- What comes latest in a sequence and is no line break came latest before. -/
theorem Node.exists_of_latestPadded_eq_cons {after : Token → List Token} {nodes rest : List Node}
    {form : LeafForm} {t : Token} (hform : form ≠ .lineBreak)
    (h : Node.latestPadded after nodes = .leaf form t :: rest) :
    ∃ nodes', nodes = .leaf form t :: nodes' ∧ rest = Node.latestPadded after nodes' := by
  cases nodes with
  | nil => simp at h
  | cons node nodes =>
      rw [Node.latestPadded_cons] at h
      cases node with
      | leaf form' u =>
          cases form' with
          | lineBreak =>
              -- the new leaves are line breaks, and so is the one before them
              rw [Node.breaksBehind, ← List.map_reverse] at h
              cases hbreaks : (after u).reverse <;> rw [hbreaks] at h <;>
                exact absurd (Node.leaf.inj (List.cons.inj h).1).1.symm hform
          | _ =>
              obtain ⟨hleaf, rfl⟩ := List.cons.inj h
              exact ⟨nodes, by rw [← hleaf, Node.padded_leaf], rfl⟩
      | _ => simp [Node.breaksBehind] at h

/-! ### Passes -/

/-- An open delimiter with the new line breaks before it. -/
def Opened.padded (d : Opened) : Opened := ⟨d.pair, d.first, Node.latestPadded after d.before⟩

namespace Nesting

/-- A pass that has read the new line breaks as well. -/
def padded (p : Nesting) : Nesting :=
  ⟨Node.latestPadded after p.nodes, p.opened.map (Opened.padded after), p.quote⟩

theorem blanks?_latestPadded (nodes : List Node) :
    blanks? (Node.latestPadded after nodes) = blanks? nodes := by
  induction nodes with
  | nil => rw [Node.latestPadded_nil]
  | cons node nodes ih =>
      rw [Node.latestPadded_cons]
      cases node with
      | leaf form t =>
          cases form with
          | space => simp [Node.breaksBehind, blanks?, ih]
          | lineBreak =>
              rw [Node.breaksBehind, ← List.map_reverse]
              cases (after t).reverse <;> simp [blanks?]
          | _ => simp [Node.breaksBehind, blanks?]
      | _ => simp [Node.breaksBehind, blanks?]

theorem assign_latestPadded (nodes : List Node) (colon : Token) :
    assign (Node.latestPadded after nodes) colon =
      Node.latestPadded after (assign nodes colon) := by
  fun_cases assign nodes colon with
  | case1 operator nodes => simp [Node.breaksBehind, assign]
  | case2 gap operator nodes hgap => simp [Node.breaksBehind, assign, hgap]
  | case3 gap operator nodes hgap => simp [Node.breaksBehind, assign, hgap]
  | case4 _ hoperator hspace =>
      rw [assign_of_not_operator]
      · simp [Node.breaksBehind]
      · intro t rest heq
        obtain ⟨nodes, rfl, -⟩ := Node.exists_of_latestPadded_eq_cons (by simp) heq
        exact hoperator t nodes rfl
      · intro gap t rest heq
        obtain ⟨nodes, rfl, hrest⟩ := Node.exists_of_latestPadded_eq_cons (by simp) heq
        obtain ⟨nodes, rfl, -⟩ := Node.exists_of_latestPadded_eq_cons (by simp) hrest.symm
        exact hspace gap t nodes rfl

theorem enclose_padded (d : Opened) (around : Option Delimiter) (items : List Node) (last : Token) :
    enclose (d.padded after) around (Node.allPadded after items) last =
      Node.latestPadded after (enclose d around items last) := by
  obtain ⟨pair, first, before⟩ := d
  cases pair with
  | paren => simp [enclose, Opened.padded, Node.breaksBehind]
  | brace => simp [enclose, Opened.padded, Node.breaksBehind]
  | bracket =>
      simp only [enclose, Opened.padded, blanks?_latestPadded]
      split <;> simp [Node.breaksBehind]

/-- Line breaks are read one after the other, as leaves. -/
theorem reads_breaks {breaks : List Token} (h : ∀ e ∈ breaks, e.kind = .lineBreak)
    (nodes : List Node) (opened : List Opened) :
    Reads ⟨nodes, opened, none⟩ breaks
      ⟨(breaks.map (Node.leaf .lineBreak)).reverse ++ nodes, opened, none⟩ := by
  induction breaks generalizing nodes with
  | nil => exact .nil
  | cons e breaks ih =>
      obtain ⟨he, hbreaks⟩ := List.forall_mem_cons.1 h
      have hrest := ih hbreaks (.leaf .lineBreak e :: nodes)
      rw [List.map_cons, List.reverse_cons, List.append_assoc, List.singleton_append]
      exact .cons (.leaf (by rw [he]; rfl)) hrest

variable {after} (hpads : PadsBreaks after)

include hpads

/-- **Where the pass read one token, it reads the new line breaks behind it as well.** -/
theorem Step.padded {p q : Nesting} {token : Token} (h : Step p token q) :
    Reads (p.padded after) (token :: after token) (q.padded after) := by
  cases h with
  | piece hkind =>
      rw [hpads.behind token (by rcases hkind with hkind | hkind <;> simp [hkind])]
      exact .cons (.piece hkind) .nil
  | @closeQuote nodes opened first _ content hkind =>
      rw [hpads.behind token (by simp [hkind])]
      refine .cons (q := ⟨_, _, none⟩) (.closeQuote hkind) ?_
      simpa [Nesting.padded, Node.breaksBehind] using Reads.nil
  | openQuote hkind =>
      rw [hpads.behind token (by simp [hkind])]
      exact .cons (.openQuote hkind) .nil
  | @opening nodes opened _ pair hkind hdepth =>
      rw [hpads.behind token (by simp [hkind])]
      refine .cons (.opening hkind (by rwa [List.length_map])) ?_
      simpa [Nesting.padded, Opened.padded] using Reads.nil
  | @closing nodes d rest _ hkind =>
      rw [hpads.behind token (by simp [hkind])]
      have haround : (rest.map (Opened.padded after)).head?.map Opened.pair =
          rest.head?.map Opened.pair := by
        cases rest <;> rfl
      have hclosing := @Step.closing (Node.latestPadded after nodes) (d.padded after)
        (rest.map (Opened.padded after)) token hkind
      rw [Node.reverse_latestPadded, enclose_padded, haround] at hclosing
      exact .cons hclosing .nil
  | @sign nodes opened _ hkind =>
      rw [hpads.behind token (by rcases hkind with hkind | hkind <;> simp [hkind])]
      have hsign := @Step.sign (Node.latestPadded after nodes) (opened.map (Opened.padded after))
        token hkind
      rw [assign_latestPadded] at hsign
      exact .cons hsign .nil
  | @leaf nodes opened _ form hkind =>
      refine .cons (.leaf hkind) ?_
      by_cases hbreak : form = .lineBreak
      · subst hbreak
        simpa [Nesting.padded, Node.breaksBehind] using
          reads_breaks (hpads.kind token) (.leaf .lineBreak token :: Node.latestPadded after nodes)
            (opened.map (Opened.padded after))
      · have hother := ne_lineBreak_of_leafForm? hkind hbreak
        have hnone : (Node.leaf form token).breaksBehind after = [] := by
          cases form <;> simp_all [Node.breaksBehind]
        rw [hpads.behind token hother]
        simpa [Nesting.padded, hnone] using Reads.nil

theorem run_padded {p : Nesting} {tokens : List Token} {nodes : List Node}
    (h : p.run tokens = .ok nodes) :
    (p.padded after).run (tokens.flatMap fun t => t :: after t) = .ok (Node.allPadded after nodes) := by
  induction tokens generalizing p with
  | nil =>
      obtain rfl := eq_of_finish h
      simp [run, finish, Nesting.padded]
  | cons token tokens ih =>
      obtain ⟨q, hstep, hrun⟩ := exists_step_of_run h
      rw [List.flatMap_cons, (hstep.padded hpads).run_append]
      exact ih hrun

end Nesting

end

/-- **The tree of tokens with further line breaks among them** is the tree with these line breaks in
it. -/
theorem parse_padded {after : Token → List Token} (hpads : PadsBreaks after) {tokens : List Token}
    {nodes : List Node} (h : parse tokens = .ok nodes) :
    parse (tokens.flatMap fun t => t :: after t) = .ok (Node.allPadded after nodes) :=
  Nesting.run_padded hpads h

/-! ### Tokens that are no line breaks -/

theorem Node.Fits.ne_lineBreak_assignment {parts : Assignment} (h : (Node.assignment parts).Fits) :
    ∀ t ∈ parts.tokens, t.kind ≠ .lineBreak := by
  intro t ht
  rcases h.kind_of_mem_assignment ht with hkind | hkind | hkind | hkind <;> simp [hkind]

theorem Node.Fits.ne_lineBreak_quoted {first last : Token} {content : List Token}
    (h : (Node.quoted first content last).Fits) :
    ∀ t ∈ first :: content ++ [last], t.kind ≠ .lineBreak := by
  obtain ⟨hfirst, hlast, hcontent⟩ := h
  intro t ht
  simp only [List.cons_append, List.mem_cons, List.mem_append, List.not_mem_nil, or_false] at ht
  rcases ht with rfl | ht | rfl
  · simp [hfirst]
  · rcases hcontent t ht with ht | ht <;> simp [ht]
  · simp [hlast]

theorem Node.Fits.ne_lineBreak_first {form : Enclosure} {first last : Token} {items : List Node}
    (h : (Node.enclosed form first items last).Fits) :
    ∀ t ∈ form.gap ++ [first], t.kind ≠ .lineBreak := by
  intro t ht
  rcases h.kind_of_mem_first ht with hkind | hkind <;> simp [hkind]

theorem Node.Fits.ne_lineBreak_last {form : Enclosure} {first last : Token} {items : List Node}
    (h : (Node.enclosed form first items last).Fits) : ∀ t ∈ [last], t.kind ≠ .lineBreak := by
  intro t ht
  rw [List.mem_singleton] at ht
  simp [ht, h.2.1]

theorem PadsBreaks.flatMap_eq_self {after : Token → List Token} (hpads : PadsBreaks after)
    {tokens : List Token} (h : ∀ t ∈ tokens, t.kind ≠ .lineBreak) :
    (tokens.flatMap fun t => t :: after t) = tokens := by
  induction tokens with
  | nil => rfl
  | cons t tokens ih =>
      obtain ⟨ht, htokens⟩ := List.forall_mem_cons.1 h
      rw [List.flatMap_cons, hpads.behind t ht, ih htokens, List.singleton_append]

/-! ### The tokens of a tree -/

/-- A node either is a line break or has nothing new behind it. -/
theorem Node.lineBreak_or (after : Token → List Token) (node : Node) :
    (∃ t, node = .leaf .lineBreak t) ∨
      (∀ t, node ≠ .leaf .lineBreak t) ∧ node.breaksBehind after = [] := by
  cases node with
  | leaf form t => cases form <;> simp [Node.breaksBehind]
  | _ => simp [Node.breaksBehind]

@[simp] theorem Node.allTokens_breaks (breaks : List Token) :
    Node.allTokens (breaks.map (Node.leaf .lineBreak)) = breaks := by
  induction breaks with
  | nil => simp
  | cons e breaks ih => simp [Node.tokens, ih]

mutual

theorem Node.tokens_padded {after : Token → List Token} (hpads : PadsBreaks after) :
    ∀ node : Node, (∀ x ∈ node.subtrees, x.Fits) → (∀ t, node ≠ .leaf .lineBreak t) →
      (node.padded after).tokens = node.tokens.flatMap fun t => t :: after t
  | .leaf form t, hfits, hnode => by
      have ht : t.kind ≠ .lineBreak := ne_lineBreak_of_leafForm? (hfits _ (Node.self_mem_subtrees _))
        fun hform => hnode t (by rw [hform])
      rw [Node.padded_leaf, Node.tokens, hpads.flatMap_eq_self (by simpa using ht)]
  | .assignment parts, hfits, _ => by
      rw [Node.padded_assignment, Node.tokens, hpads.flatMap_eq_self
        (hfits _ (Node.self_mem_subtrees _)).ne_lineBreak_assignment]
  | .quoted first content last, hfits, _ => by
      rw [Node.padded_quoted, Node.tokens, hpads.flatMap_eq_self
        (hfits _ (Node.self_mem_subtrees _)).ne_lineBreak_quoted]
  | .enclosed form first items last, hfits, _ => by
      have hitems := Node.allTokens_padded hpads items fun x hx => hfits x (by simp [hx])
      have hnode := hfits _ (Node.self_mem_subtrees _)
      have hfirst := hpads.flatMap_eq_self hnode.ne_lineBreak_first
      have hlast := hpads.flatMap_eq_self hnode.ne_lineBreak_last
      have htokens : (Node.enclosed form first items last).tokens =
          (form.gap ++ [first]) ++ Node.allTokens items ++ [last] := by simp [Node.tokens]
      rw [htokens, List.flatMap_append, List.flatMap_append, hfirst, hlast, ← hitems]
      simp [Node.tokens]

/-- The tokens of a sequence with the new line breaks in it. -/
theorem Node.allTokens_padded {after : Token → List Token} (hpads : PadsBreaks after) :
    ∀ nodes : List Node, (∀ x ∈ Node.all nodes, x.Fits) →
    Node.allTokens (Node.allPadded after nodes) =
      (Node.allTokens nodes).flatMap fun t => t :: after t
  | [], _ => by simp
  | node :: rest, hfits => by
      rw [Node.all_cons] at hfits
      obtain ⟨hhead, htail⟩ := List.forall_mem_append.1 hfits
      have hrest := Node.allTokens_padded hpads rest htail
      rcases node.lineBreak_or after with ⟨t, rfl⟩ | ⟨hnode, hbreaks⟩
      · simp [Node.breaksBehind, Node.tokens, hrest]
      · simp [hbreaks, Node.tokens_padded hpads node hhead hnode, hrest]

end

end QSource
