/-
**Statements nest independently of each other.**

Two sequences of tokens that nest are put one behind the other with a semicolon between them.  Their
tokens get new numbers, bytes and positions, and nothing else happens: the pass reads the first
sequence as it did, and at the semicolon nothing is open.  From there on it does what it does at the
start, because a semicolon is nothing that an assignment sign or a parameter list takes in.

Main definitions:

* `QSource.Places`, `QSource.Token.moved` — where tokens of given numbers stand, and a token that is
  moved there;
* `QSource.Node.moved` — a node with its tokens moved there;
* `QSource.Nesting.onto` — a pass with further nodes before all that it has read.

Main results:

* `QSource.Node.map_moved_eq_map` — moving nodes is replacing their tokens;
* `QSource.Nesting.Step.onto` — **a step stays a step behind a semicolon**;
* `QSource.parse_statements` — the tree of two sequences with a semicolon between them.
-/

import QSource.Proofs.Token.Place
import QSource.Proofs.Tree.Relabel

set_option relaxedAutoImplicit false
set_option autoImplicit false

namespace QSource

open Text

/-! ### Moving tokens -/

/-- The bytes and the positions of the tokens of a sequence, by their numbers. -/
structure Places where
  span : Nat → Span
  position : Nat → Position

/-- A token moved on by `d` numbers. Its kind and its text stay. -/
def Token.moved (places : Places) (d : Nat) (t : Token) : Token :=
  ⟨t.toLexeme, t.index + d, places.span (t.index + d), places.position (t.index + d)⟩

section

variable (places : Places) (d : Nat)

@[simp] theorem Token.toLexeme_moved (t : Token) : (t.moved places d).toLexeme = t.toLexeme := rfl

@[simp] theorem Token.index_moved (t : Token) : (t.moved places d).index = t.index + d := rfl

theorem Token.CountFrom.moved {index : Nat} {tokens : List Token}
    (h : Token.CountFrom index tokens) :
    Token.CountFrom (index + d) (tokens.map (Token.moved places d)) := by
  induction tokens generalizing index with
  | nil => exact Token.countFrom_nil _
  | cons t tokens ih =>
      obtain ⟨rfl, hrest⟩ := Token.countFrom_cons.1 h
      have hmoved := ih hrest
      rw [Nat.add_right_comm] at hmoved
      exact Token.countFrom_cons.2 ⟨rfl, hmoved⟩

/-- An assignment sign with its tokens moved. -/
def Assignment.moved (a : Assignment) : Assignment :=
  ⟨a.operator.map (Token.moved places d), a.gap.map (Token.moved places d), a.colon.moved places d⟩

/-- An enclosure with its tokens moved. -/
def Enclosure.moved : Enclosure → Enclosure
  | .params gap => .params (gap.map (Token.moved places d))
  | form => form

mutual

/-- A node with all of its tokens moved. -/
def Node.moved : Node → Node
  | .leaf form token => .leaf form (token.moved places d)
  | .assignment parts => .assignment (parts.moved places d)
  | .quoted first content last =>
    .quoted (first.moved places d) (content.map (Token.moved places d)) (last.moved places d)
  | .enclosed form first items last =>
    .enclosed (form.moved places d) (first.moved places d) (Node.allMoved items)
      (last.moved places d)

/-- The nodes of a sequence with all of their tokens moved. -/
def Node.allMoved : List Node → List Node
  | [] => []
  | node :: nodes => node.moved :: Node.allMoved nodes

end

theorem Node.allMoved_eq_map (nodes : List Node) :
    Node.allMoved places d nodes = nodes.map (Node.moved places d) := by
  induction nodes with
  | nil => rw [allMoved, List.map_nil]
  | cons node nodes ih => rw [allMoved, ih, List.map_cons]

mutual

theorem Node.moved_eq_map : ∀ node : Node, node.moved places d = node.map (Token.moved places d)
  | .leaf form token => by rw [Node.moved, Node.map_leaf]
  | .assignment parts => by
      rw [Node.moved, Node.map_assignment]
      rfl
  | .quoted first content last => by rw [Node.moved, Node.map_quoted]
  | .enclosed form first items last => by
      have hform : form.moved places d = form.map (Token.moved places d) := by cases form <;> rfl
      rw [Node.moved, Node.map_enclosed, Node.allMoved_eq_map, Node.map_moved_eq_map items, hform]

/-- Moving nodes is replacing their tokens. -/
theorem Node.map_moved_eq_map : ∀ nodes : List Node,
    nodes.map (Node.moved places d) = nodes.map (Node.map (Token.moved places d))
  | [] => rfl
  | node :: nodes => by
      rw [List.map_cons, List.map_cons, Node.moved_eq_map node, Node.map_moved_eq_map nodes]

end

end

/-! ### A pass behind a semicolon -/

/-- Open delimiters with further nodes before all that they stand behind. -/
def Opened.allOnto (base : List Node) : List Opened → List Opened
  | [] => []
  | [d] => [{ d with before := d.before ++ base }]
  | d :: e :: rest => d :: Opened.allOnto base (e :: rest)

@[simp] theorem Opened.length_allOnto (base : List Node) (opened : List Opened) :
    (Opened.allOnto base opened).length = opened.length := by
  fun_induction Opened.allOnto base opened with
  | case1 => rfl
  | case2 d => rfl
  | case3 d e rest ih => exact congrArg (· + 1) ih

theorem Opened.map_pair_allOnto (base : List Node) (opened : List Opened) :
    (Opened.allOnto base opened).head?.map Opened.pair = opened.head?.map Opened.pair := by
  fun_cases Opened.allOnto base opened <;> rfl

namespace Nesting

/-- A pass with further nodes before all that it has read, the latest first. -/
def onto (base : List Node) (p : Nesting) : Nesting :=
  match p.opened with
  | [] => ⟨p.nodes ++ base, [], p.quote⟩
  | d :: rest => ⟨p.nodes, Opened.allOnto base (d :: rest), p.quote⟩

/-- Behind an opening delimiter of the script itself there is no lambda to have parameters. -/
theorem enclose_onto (base : List Node) (d : Opened) (items : List Node) (last : Token) :
    enclose { d with before := d.before ++ base } none items last =
      enclose d none items last ++ base := by
  obtain ⟨pair, first, before⟩ := d
  cases pair <;> simp [enclose]

/-- An assignment sign takes in nothing beyond a semicolon. -/
theorem assign_append {base : List Node} {t : Token}
    (hbase : base.head? = some (.leaf .semicolon t)) (nodes : List Node) (colon : Token) :
    assign (nodes ++ base) colon = assign nodes colon ++ base := by
  obtain ⟨base, rfl⟩ := List.head?_eq_some_iff.1 hbase
  fun_cases assign nodes colon with
  | case1 operator nodes => simp [assign]
  | case2 gap operator nodes hgap => simp [assign, hgap]
  | case3 gap operator nodes hgap => simp [assign, hgap]
  | case4 _ hoperator hspace =>
      rw [assign_of_not_operator, List.cons_append]
      · intro u rest heq
        rcases List.append_eq_cons_iff.1 heq with ⟨rfl, hnode⟩ | ⟨nodes, rfl, -⟩
        · simp at hnode
        · exact hoperator u nodes rfl
      · intro gap u rest heq
        rcases List.append_eq_cons_iff.1 heq with ⟨rfl, hnode⟩ | ⟨nodes, rfl, hrest⟩
        · simp at hnode
        · rcases List.append_eq_cons_iff.1 hrest.symm with ⟨rfl, hnode⟩ | ⟨nodes, rfl, -⟩
          · simp at hnode
          · exact hspace gap u nodes rfl

/-- **A step stays a step behind a semicolon.** -/
theorem Step.onto {base : List Node} {t : Token} (hbase : base.head? = some (.leaf .semicolon t))
    {p q : Nesting} {token : Token} (h : Step p token q) : Step (p.onto base) token (q.onto base) := by
  cases h with
  | @piece nodes opened first token content hkind =>
      cases opened with
      | nil => exact .piece hkind
      | cons d rest => exact .piece hkind
  | @closeQuote nodes opened first token content hkind =>
      cases opened with
      | nil => exact .closeQuote hkind
      | cons d rest => exact .closeQuote hkind
  | @openQuote nodes opened token hkind =>
      cases opened with
      | nil => exact .openQuote hkind
      | cons d rest => exact .openQuote hkind
  | @opening nodes opened token pair hkind hdepth =>
      cases opened with
      | nil => exact .opening hkind hdepth
      | cons d rest => exact .opening hkind (by rwa [Opened.length_allOnto])
  | @closing nodes d rest token hkind =>
      cases rest with
      | nil =>
          change Step ⟨nodes, [{ d with before := d.before ++ base }], none⟩ token
            ⟨enclose d none nodes.reverse token ++ base, [], none⟩
          rw [← enclose_onto]
          exact .closing hkind
      | cons e rest =>
          change Step ⟨nodes, d :: Opened.allOnto base (e :: rest), none⟩ token
            ⟨enclose d ((e :: rest).head?.map Opened.pair) nodes.reverse token,
              Opened.allOnto base (e :: rest), none⟩
          rw [← Opened.map_pair_allOnto base (e :: rest)]
          exact .closing hkind
  | @sign nodes opened token hkind =>
      cases opened with
      | nil =>
          change Step ⟨nodes ++ base, [], none⟩ token ⟨assign nodes token ++ base, [], none⟩
          rw [← assign_append hbase]
          exact .sign hkind
      | cons d rest => exact .sign hkind
  | @leaf nodes opened token form hkind =>
      cases opened with
      | nil => exact .leaf hkind
      | cons d rest => exact .leaf hkind

end Nesting

/-- **The tree of two sequences with a semicolon between them** has the nodes of the first, the
semicolon, and the nodes of the second, with all tokens moved to their new places. -/
theorem parse_statements {first second : List Token} {nodes₁ nodes₂ : List Node}
    (hfirst : parse first = .ok nodes₁) (hsecond : parse second = .ok nodes₂) (places : Places)
    (d : Nat) {sep : Token} (hsep : sep.kind = .semicolon) :
    parse (first.map (Token.moved places 0) ++ sep :: second.map (Token.moved places d)) =
      .ok (nodes₁.map (Node.moved places 0) ++
        .leaf .semicolon sep :: nodes₂.map (Node.moved places d)) := by
  rw [Node.map_moved_eq_map, Node.map_moved_eq_map]
  have hleft := Nesting.run_simulation (Nesting.Step.map (f := Token.moved places 0) fun _ => rfl)
    hfirst (sep :: second.map (Token.moved places d))
  -- behind the first sequence nothing is open, so the semicolon is a leaf of the script
  generalize hbase : nodes₁.map (Node.map (Token.moved places 0)) = base
  have hread : Nesting.read ⟨base.reverse, [], none⟩ sep =
      .ok ⟨.leaf .semicolon sep :: base.reverse, [], none⟩ :=
    Nesting.Step.read_eq (.leaf (by rw [hsep]; rfl))
  have hright := Nesting.run_simulation
    (f := fun p => (p.map (Token.moved places d)).onto (.leaf .semicolon sep :: base.reverse))
    (fun h => (h.map (f := Token.moved places d) fun _ => rfl).onto rfl) hsecond []
  rw [List.append_nil] at hright
  calc parse (first.map (Token.moved places 0) ++ sep :: second.map (Token.moved places d))
      = Nesting.run ⟨nodes₁.reverse.map (Node.map (Token.moved places 0)), [], none⟩
          (sep :: second.map (Token.moved places d)) := hleft
    _ = Nesting.run ⟨.leaf .semicolon sep :: base.reverse, [], none⟩
          (second.map (Token.moved places d)) := by rw [Nesting.run, List.map_reverse, hbase, hread]
    _ = Nesting.finish ⟨nodes₂.reverse.map (Node.map (Token.moved places d)) ++
          .leaf .semicolon sep :: base.reverse, [], none⟩ := hright
    _ = .ok (base ++ .leaf .semicolon sep :: nodes₂.map (Node.map (Token.moved places d))) := by
      simp [Nesting.finish]

end QSource
