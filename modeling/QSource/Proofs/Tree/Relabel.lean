/-
**Trees of tokens that are replaced.**

A pass over tokens looks at their kinds alone.  So when every token is replaced by one of the same
kind, with whatever text and place, the pass does the same: it comes to the tree with the new tokens
in it, or to the same error with the new token to blame.

Main definitions:

* `QSource.Node.map`, `QSource.Nesting.map`, `QSource.ParseError.map` — nodes, a pass under way and
  an error with their tokens replaced.

Main results:

* `QSource.Nesting.read_map` — a step is the same step on the new tokens;
* `QSource.parse_map` — **the tree of replaced tokens is the tree with its tokens replaced**.
-/

import QSource.Proofs.Tree.Nodes

set_option relaxedAutoImplicit false
set_option autoImplicit false

namespace QSource

section

variable (f : Token → Token)

/-! ### Nodes -/

/-- An assignment sign with its tokens replaced. -/
def Assignment.map (a : Assignment) : Assignment := ⟨a.operator.map f, a.gap.map f, f a.colon⟩

/-- An enclosure with its tokens replaced. -/
def Enclosure.map : Enclosure → Enclosure
  | .params gap => .params (gap.map f)
  | form => form

mutual

/-- A node with all of its tokens replaced. -/
def Node.map : Node → Node
  | .leaf form token => .leaf form (f token)
  | .assignment parts => .assignment (parts.map f)
  | .quoted first content last => .quoted (f first) (content.map f) (f last)
  | .enclosed form first items last => .enclosed (form.map f) (f first) (Node.mapAll items) (f last)

/-- The nodes of a sequence with all of their tokens replaced. -/
def Node.mapAll : List Node → List Node
  | [] => []
  | node :: nodes => node.map :: Node.mapAll nodes

end

theorem Node.mapAll_eq_map (nodes : List Node) : Node.mapAll f nodes = nodes.map (Node.map f) := by
  induction nodes with
  | nil => rw [mapAll, List.map_nil]
  | cons node nodes ih => rw [mapAll, ih, List.map_cons]

@[simp] theorem Node.map_leaf (form : LeafForm) (token : Token) :
    (Node.leaf form token).map f = .leaf form (f token) := by rw [Node.map]

@[simp] theorem Node.map_assignment (parts : Assignment) :
    (Node.assignment parts).map f = .assignment (parts.map f) := by rw [Node.map]

@[simp] theorem Node.map_quoted (first : Token) (content : List Token) (last : Token) :
    (Node.quoted first content last).map f = .quoted (f first) (content.map f) (f last) := by
  rw [Node.map]

@[simp] theorem Node.map_enclosed (form : Enclosure) (first : Token) (items : List Node)
    (last : Token) : (Node.enclosed form first items last).map f =
      .enclosed (form.map f) (f first) (items.map (Node.map f)) (f last) := by
  rw [Node.map, Node.mapAll_eq_map]

theorem Node.exists_of_map_eq_leaf {f : Token → Token} {node : Node} {form : LeafForm} {t : Token}
    (h : node.map f = .leaf form t) : ∃ u, node = .leaf form u := by
  cases node with
  | leaf form' u =>
      rw [Node.map_leaf, Node.leaf.injEq] at h
      exact ⟨u, by rw [h.1]⟩
  | _ => simp at h

@[simp] theorem Assignment.tokens_map (a : Assignment) :
    (a.map f).tokens = a.tokens.map f := by
  obtain ⟨operator, gap, colon⟩ := a
  cases operator <;> simp [Assignment.tokens, Assignment.map]

@[simp] theorem Enclosure.gap_map (form : Enclosure) : (form.map f).gap = form.gap.map f := by
  cases form <;> rfl

mutual

@[simp] theorem Node.tokens_map : ∀ node : Node, (node.map f).tokens = node.tokens.map f
  | .leaf form token => by simp [Node.tokens]
  | .assignment parts => by simp [Node.tokens]
  | .quoted first content last => by simp [Node.tokens]
  | .enclosed form first items last => by simp [Node.tokens, Node.allTokens_map items]

@[simp] theorem Node.allTokens_map : ∀ nodes : List Node,
    Node.allTokens (nodes.map (Node.map f)) = (Node.allTokens nodes).map f
  | [] => by simp
  | node :: nodes => by simp [Node.tokens_map node, Node.allTokens_map nodes]

end

/-- An open delimiter with its token and the tokens before it replaced. -/
def Opened.map (d : Opened) : Opened := ⟨d.pair, f d.first, d.before.map (Node.map f)⟩

@[simp] theorem Opened.pair_map (d : Opened) : (d.map f).pair = d.pair := rfl

/-- An error with the token to blame replaced. -/
def ParseError.map (e : ParseError) : ParseError := ⟨e.fault, f e.token⟩

/-! ### Passes -/

namespace Nesting

/-- A pass with the tokens that it has read replaced. -/
def map (p : Nesting) : Nesting :=
  ⟨p.nodes.map (Node.map f), p.opened.map (Opened.map f),
    p.quote.map fun quote => (f quote.1, quote.2.map f)⟩

/-- An assignment sign that finds no operator before it takes in nothing. -/
theorem assign_of_not_operator {nodes : List Node}
    (hoperator : ∀ t rest, nodes ≠ .leaf .operator t :: rest)
    (hspace : ∀ gap t rest, nodes ≠ .leaf .space gap :: .leaf .operator t :: rest) (colon : Token) :
    assign nodes colon = .assignment ⟨none, [], colon⟩ :: nodes := by
  unfold assign
  split
  · next t rest => exact absurd rfl (hoperator t rest)
  · next gap t rest => exact absurd rfl (hspace gap t rest)
  · rfl

variable {f} (hkind : ∀ t, (f t).kind = t.kind)

include hkind

theorem blanks?_map (nodes : List Node) :
    blanks? (nodes.map (Node.map f)) = (blanks? nodes).map (List.map f) := by
  induction nodes with
  | nil => rfl
  | cons node nodes ih =>
      cases node with
      | leaf form token =>
          cases form with
          | space =>
              by_cases hblank : token.kind = .whitespace
              · simp [blanks?, hkind, hblank, ih, Option.map_map, Function.comp_def]
              · simp [blanks?, hkind, hblank]
          | _ => simp [blanks?]
      | _ => simp [blanks?]

theorem assign_map (nodes : List Node) (colon : Token) :
    assign (nodes.map (Node.map f)) (f colon) = (assign nodes colon).map (Node.map f) := by
  fun_cases assign nodes colon with
  | case1 operator nodes => simp [assign, Assignment.map]
  | case2 gap operator nodes hgap => simp [assign, Assignment.map, hkind, hgap]
  | case3 gap operator nodes hgap => simp [assign, Assignment.map, hkind, hgap]
  | case4 _ hoperator hspace =>
      rw [assign_of_not_operator]
      · simp [Assignment.map]
      · intro t rest heq
        obtain ⟨node, nodes, rfl, hnode, -⟩ := List.map_eq_cons_iff.1 heq
        obtain ⟨u, rfl⟩ := Node.exists_of_map_eq_leaf hnode
        exact hoperator u nodes rfl
      · intro gap t rest heq
        obtain ⟨node, nodes, rfl, hnode, hrest⟩ := List.map_eq_cons_iff.1 heq
        obtain ⟨node', nodes, rfl, hnode', -⟩ := List.map_eq_cons_iff.1 hrest
        obtain ⟨u, rfl⟩ := Node.exists_of_map_eq_leaf hnode
        obtain ⟨v, rfl⟩ := Node.exists_of_map_eq_leaf hnode'
        exact hspace u v nodes rfl

theorem enclose_map (d : Opened) (around : Option Delimiter) (items : List Node) (last : Token) :
    enclose (d.map f) around (items.map (Node.map f)) (f last) =
      (enclose d around items last).map (Node.map f) := by
  obtain ⟨pair, first, before⟩ := d
  cases pair with
  | paren => simp [enclose, Opened.map, Enclosure.map]
  | brace => simp [enclose, Opened.map, Enclosure.map]
  | bracket =>
      simp only [enclose, Opened.map, blanks?_map hkind]
      by_cases haround : around = some .brace
      · simp only [haround, if_true]
        cases blanks? before with
        | none => simp [Enclosure.map]
        | some gap => simp [Enclosure.map]
      · simp [haround, Enclosure.map]

omit hkind in
theorem map_pair_map (opened : List Opened) :
    (opened.map (Opened.map f)).head?.map Opened.pair = opened.head?.map Opened.pair := by
  cases opened <;> rfl

theorem readPlain_map (p : Nesting) (hquote : p.quote = none) (token : Token) :
    (p.map f).readPlain (f token) = match p.readPlain token with
      | .ok q => .ok (q.map f)
      | .error e => .error (e.map f) := by
  obtain ⟨nodes, opened, quote⟩ := p
  subst hquote
  cases htoken : token.kind with
  | openQuote => simp [readPlain, hkind, htoken, Nesting.map]
  | opening pair =>
      simp only [readPlain, hkind, htoken, Nesting.map, List.length_map]
      by_cases hdepth : opened.length < maxDepth <;>
        simp [hdepth, Opened.map, ParseError.map]
  | closing pair =>
      cases opened with
      | nil => simp [readPlain, hkind, htoken, Nesting.map, ParseError.map]
      | cons d rest =>
          by_cases hpair : d.pair = pair
          · have henclose : enclose (d.map f) ((rest.map (Opened.map f)).head?.map Opened.pair)
                (nodes.map (Node.map f)).reverse (f token) =
                  (enclose d (rest.head?.map Opened.pair) nodes.reverse token).map (Node.map f) := by
              rw [map_pair_map, ← List.map_reverse, enclose_map hkind]
            simp only [readPlain, hkind, htoken, Nesting.map, List.map_cons, Opened.pair_map, hpair,
              if_true, henclose, Option.map_none]
          · simp [readPlain, hkind, htoken, Nesting.map, Opened.map, hpair, ParseError.map]
  | colon | doubleColon => simp [readPlain, hkind, htoken, Nesting.map, assign_map hkind]
  | quotedText | quotedEscape | closeQuote =>
      simp [readPlain, hkind, htoken, Kind.leafForm?, ParseError.map]
  | _ => simp [readPlain, hkind, htoken, Kind.leafForm?, Nesting.map]

theorem readQuoted_map (p : Nesting) (first : Token) (content : List Token) (token : Token) :
    (p.map f).readQuoted (f first) (content.map f) (f token) =
      match p.readQuoted first content token with
      | .ok q => .ok (q.map f)
      | .error e => .error (e.map f) := by
  cases htoken : token.kind with
  | quotedText | quotedEscape | closeQuote => simp [readQuoted, hkind, htoken, Nesting.map]
  | _ => simp [readQuoted, hkind, htoken, ParseError.map]

/-- **A step is the same step on the new tokens.** -/
theorem read_map (p : Nesting) (token : Token) :
    (p.map f).read (f token) = match p.read token with
      | .ok q => .ok (q.map f)
      | .error e => .error (e.map f) := by
  obtain ⟨nodes, opened, quote⟩ := p
  cases quote with
  | none => exact readPlain_map hkind ⟨nodes, opened, none⟩ rfl token
  | some quote => exact readQuoted_map hkind ⟨nodes, opened, some quote⟩ quote.1 quote.2 token

theorem Step.map {p q : Nesting} {token : Token} (h : Step p token q) :
    Step (p.map f) (f token) (q.map f) :=
  .of_read (by rw [read_map hkind, h.read_eq])

theorem run_map (p : Nesting) (tokens : List Token) :
    (p.map f).run (tokens.map f) = match p.run tokens with
      | .ok nodes => .ok (nodes.map (Node.map f))
      | .error e => .error (e.map f) := by
  induction tokens generalizing p with
  | nil =>
      obtain ⟨nodes, opened, quote⟩ := p
      cases quote with
      | some quote => rfl
      | none =>
          cases opened with
          | cons d rest => rfl
          | nil => simp [run, finish, Nesting.map]
  | cons token tokens ih =>
      rw [List.map_cons, run, run, read_map hkind]
      cases p.read token with
      | error e => rfl
      | ok q => exact ih q

end Nesting

/-- **The tree of replaced tokens is the tree with its tokens replaced**, and an error blames the new
token for the same fault. -/
theorem parse_map {f : Token → Token} (hkind : ∀ t, (f t).kind = t.kind) (tokens : List Token) :
    parse (tokens.map f) = match parse tokens with
      | .ok nodes => .ok (nodes.map (Node.map f))
      | .error e => .error (e.map f) :=
  Nesting.run_map hkind .start tokens

end

end QSource
