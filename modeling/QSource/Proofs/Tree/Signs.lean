/-
**Assignment signs in the sequence of tokens.**

Whether an assignment sign comes next can be told from the kinds of the tokens, without a tree: a scan
goes over blanks and comments to the first other token, and that is a colon, or an operator with a
colon behind it.  A tree says the same, because a pass leaves no operator before a sign that could
have taken it in, and because a sequence ends with the text or before a closing delimiter.

Main definitions:

* `QSource.signScan` — **the scan for an assignment sign**;
* `QSource.Node.Joined`, `QSource.Node.SignsJoined` — no operator stands before a sign that has none;
* `QSource.ClosesOrEnds` — what may follow behind a sequence.

Main results:

* `QSource.Nesting.Step.joined` — **a pass leaves no operator before a sign**;
* `QSource.joined_parse`, `QSource.signsJoined_parse` — nor does a tree have one there;
* `QSource.colonNext_allTokens` — no colon comes behind an operator that is no part of a sign.
-/

import QSource.Proofs.Tree.Shape

set_option relaxedAutoImplicit false
set_option autoImplicit false

namespace QSource

/-! ### The scan -/

/-- Whether a colon comes next, or one behind a blank. -/
def colonNext : List Kind → Bool
  | .whitespace :: kinds => kinds.head?.any Kind.isColon
  | kinds => kinds.head?.any Kind.isColon

/-- **The scan for an assignment sign**, over blanks and comments: whether there is one, and if so,
whether it has an operator. -/
def signScan : List Kind → Option Bool
  | .whitespace :: kinds | .comment _ :: kinds => signScan kinds
  | .colon :: _ | .doubleColon :: _ => some false
  | .operator :: kinds => if colonNext kinds then some true else none
  | _ => none

/-- What may follow behind a sequence: a closing delimiter, or nothing. -/
def ClosesOrEnds : List Kind → Prop
  | .closing _ :: _ | [] => True
  | _ => False

theorem signScan_of_closesOrEnds {kinds : List Kind} (h : ClosesOrEnds kinds) :
    signScan kinds = none := by
  unfold ClosesOrEnds at h
  split at h <;> simp_all [signScan]

theorem not_isColon_of_closesOrEnds {kinds : List Kind} (h : ClosesOrEnds kinds) :
    kinds.head?.any Kind.isColon = false := by
  unfold ClosesOrEnds at h
  split at h <;> simp_all [Kind.isColon]

theorem colonNext_of_isColon {kind : Kind} (h : kind.isColon = true) (kinds : List Kind) :
    colonNext (kind :: kinds) = true := by
  cases kind <;> first | rfl | simp [Kind.isColon] at h

theorem Kind.eq_operator {kind : Kind} (h : kind.leafForm? = some .operator) : kind = .operator := by
  cases kind <;> first | rfl | simp [leafForm?] at h

theorem signScan_space {kind : Kind} (h : kind.leafForm? = some .space) (kinds : List Kind) :
    signScan (kind :: kinds) = signScan kinds := by
  cases kind <;> first | rfl | simp [Kind.leafForm?] at h

/-- The scan stops at a leaf that is neither a blank nor an operator. -/
theorem signScan_leaf {kind : Kind} {form : LeafForm} (h : kind.leafForm? = some form)
    (hspace : form ≠ .space) (hoperator : form ≠ .operator) (kinds : List Kind) :
    signScan (kind :: kinds) = none := by
  cases kind <;> first | rfl | simp_all [Kind.leafForm?]

/-- Blanks before an opening delimiter lead to no sign. -/
theorem signScan_opening {gap : List Kind} (h : ∀ kind ∈ gap, kind = .whitespace)
    (pair : Delimiter) (kinds : List Kind) : signScan (gap ++ .opening pair :: kinds) = none := by
  induction gap with
  | nil => rfl
  | cons kind gap ih =>
      obtain ⟨rfl, hgap⟩ := List.forall_mem_cons.1 h
      exact ih hgap

/-! ### Operators and signs -/

namespace Node

/-- Nodes, the latest first, that end in an operator, perhaps with a blank behind it. -/
def EndsInOperator : List Node → Prop
  | .leaf .operator _ :: _ => True
  | .leaf .space gap :: .leaf .operator _ :: _ => gap.kind = .whitespace
  | _ => False

/-- **No operator stands before a sign that has none**, among nodes with the latest first. -/
def Joined : List Node → Prop
  | .assignment a :: nodes => (a.operator = none → ¬EndsInOperator nodes) ∧ Joined nodes
  | _ :: nodes => Joined nodes
  | [] => True

/-- The same between the delimiters of a node. -/
def SignsJoined : Node → Prop
  | .enclosed _ _ items _ => Joined items.reverse
  | _ => True

theorem Joined.tail {node : Node} {nodes : List Node} (h : Joined (node :: nodes)) :
    Joined nodes := by
  cases node with
  | assignment a => exact h.2
  | _ => exact h

theorem Joined.earlier {nodes before : List Node} (h : Joined (nodes ++ before)) :
    Joined before := by
  induction nodes with
  | nil => exact h
  | cons node nodes ih => exact ih h.tail

theorem EndsInOperator.append {nodes : List Node} (h : EndsInOperator nodes) (before : List Node) :
    EndsInOperator (nodes ++ before) := by
  unfold EndsInOperator at h
  split at h
  · trivial
  · exact h
  · exact h.elim

theorem Joined.later {nodes before : List Node} (h : Joined (nodes ++ before)) : Joined nodes := by
  induction nodes with
  | nil => trivial
  | cons node nodes ih =>
      cases node with
      | assignment a => exact ⟨fun ha hends => h.1 ha (hends.append before), ih h.2⟩
      | leaf | quoted | enclosed => exact ih h

end Node

namespace Nesting

open Node (Joined SignsJoined)

/-- Nodes that leave no operator before a sign, neither among themselves nor below. -/
def JoinedAll (nodes : List Node) : Prop :=
  Joined nodes ∧ ∀ x ∈ Node.all nodes, x.SignsJoined

theorem JoinedAll.tail {node : Node} {nodes : List Node} (h : JoinedAll (node :: nodes)) :
    JoinedAll nodes :=
  ⟨h.1.tail, fun x hx => h.2 x (by simp [hx])⟩

theorem JoinedAll.cons_enclosed {before nodes : List Node} (hbefore : JoinedAll before)
    (hnodes : JoinedAll nodes) (form : Enclosure) (first last : Token) :
    JoinedAll (.enclosed form first nodes.reverse last :: before) := by
  refine ⟨hbefore.1, fun x hx => ?_⟩
  rw [Node.all_cons, Node.subtrees_enclosed, List.cons_append, List.mem_cons, List.mem_append] at hx
  rcases hx with rfl | hx | hx
  · change Joined nodes.reverse.reverse
    rw [List.reverse_reverse]
    exact hnodes.1
  · exact hnodes.2 x (Node.mem_all_reverse.1 hx)
  · exact hbefore.2 x hx

/-- An assignment sign takes in the operator before it. -/
theorem joinedAll_assign {nodes : List Node} (h : JoinedAll nodes) (colon : Token) :
    JoinedAll (assign nodes colon) := by
  have hcons : ∀ (a : Assignment) {nodes : List Node}, JoinedAll nodes →
      (a.operator = none → ¬Node.EndsInOperator nodes) → JoinedAll (.assignment a :: nodes) := by
    intro a nodes h ha
    refine ⟨⟨ha, h.1⟩, fun x hx => ?_⟩
    rw [Node.all_cons, Node.subtrees_assignment, List.singleton_append, List.mem_cons] at hx
    rcases hx with rfl | hx
    · trivial
    · exact h.2 x hx
  unfold assign
  split
  · exact hcons _ h.tail (by simp)
  · next gap operator nodes =>
      split
      · exact hcons _ h.tail.tail (by simp)
      · next hgap => exact hcons _ h fun _ => hgap
  · next hoperator hspace =>
      refine hcons _ h fun _ hends => ?_
      unfold Node.EndsInOperator at hends
      split at hends
      · next operator nodes => exact hoperator operator nodes rfl
      · next gap operator nodes => exact hspace gap operator nodes rfl
      · exact hends

theorem joinedAll_enclose {d : Opened} {nodes : List Node} (hbefore : JoinedAll d.before)
    (hnodes : JoinedAll nodes) (around : Option Delimiter) (last : Token) :
    JoinedAll (enclose d around nodes.reverse last) := by
  obtain ⟨pair, first, before⟩ := d
  cases pair with
  | paren => exact hbefore.cons_enclosed hnodes .group first last
  | brace => exact hbefore.cons_enclosed hnodes .lambda first last
  | bracket =>
      have hnil : JoinedAll [] := ⟨trivial, by simp⟩
      simp only [enclose]
      split
      · exact hnil.cons_enclosed hnodes _ first last
      · exact hbefore.cons_enclosed hnodes .bracket first last

/-- **The invariant of a pass**: no operator stands before a sign that has none. -/
def JoinedPass (p : Nesting) : Prop := JoinedAll p.nodes ∧ ∀ d ∈ p.opened, JoinedAll d.before

/-- **A pass leaves no operator before a sign.** -/
theorem Step.joined {p q : Nesting} {token : Token} (h : Step p token q) (hp : p.JoinedPass) :
    q.JoinedPass := by
  obtain ⟨hnodes, hopened⟩ := hp
  cases h with
  | piece | openQuote => exact ⟨hnodes, hopened⟩
  | closeQuote => exact ⟨⟨hnodes.1, by simpa [SignsJoined] using hnodes.2⟩, hopened⟩
  | leaf => exact ⟨⟨hnodes.1, by simpa [SignsJoined] using hnodes.2⟩, hopened⟩
  | opening =>
      refine ⟨⟨trivial, by simp⟩, List.forall_mem_cons.2 ⟨hnodes, hopened⟩⟩
  | closing =>
      obtain ⟨hbefore, hrest⟩ := List.forall_mem_cons.1 hopened
      exact ⟨joinedAll_enclose hbefore hnodes _ _, hrest⟩
  | sign => exact ⟨joinedAll_assign hnodes _, hopened⟩

end Nesting

section

variable {tokens : List Token} {nodes : List Node}

theorem joinedAll_parse (h : parse tokens = .ok nodes) : Nesting.JoinedAll nodes.reverse :=
  (Nesting.parse_invariant (fun p _ => p.JoinedPass) (fun hp hstep => hstep.joined hp)
    ⟨⟨trivial, by simp [Nesting.start]⟩, by simp [Nesting.start]⟩ h).1

/-- No sign in a tree leaves an operator before it. -/
theorem joined_parse (h : parse tokens = .ok nodes) : Node.Joined nodes.reverse :=
  (joinedAll_parse h).1

theorem signsJoined_parse (h : parse tokens = .ok nodes) : ∀ x ∈ Node.all nodes, x.SignsJoined :=
  fun x hx => (joinedAll_parse h).2 x (Node.mem_all_reverse.2 hx)

end

/-! ### The scan over a sequence -/

section

variable {nodes : List Node} {more : List Kind}

/-- The scan meets a sign at its start. -/
theorem signScan_assignment {a : Assignment} (h : (Node.assignment a).Fits) (kinds : List Kind) :
    signScan (a.tokens.map (·.kind) ++ kinds) = some a.isCompound := by
  obtain ⟨operator, gap, colon⟩ := a
  obtain ⟨hcolon, -, hoperator, hgap⟩ := h
  simp only at hcolon
  cases operator with
  | none =>
      obtain rfl : gap = [] := by simpa using hgap
      rcases hcolon with hk | hk <;> simp [Assignment.tokens, Assignment.isCompound, signScan, hk]
  | some operator =>
      have hk : operator.kind = .operator := hoperator operator rfl
      have hsign : colon.kind.isColon = true := by rcases hcolon with h | h <;> rw [h] <;> rfl
      rcases hgap with rfl | ⟨_, blank, -, rfl, hblank⟩
      · simp [Assignment.tokens, Assignment.isCompound, signScan, hk, colonNext_of_isColon hsign]
      · simp [Assignment.tokens, Assignment.isCompound, signScan, colonNext, hk, hblank, hsign]

/-- Kinds that only longer nodes begin with, blanks aside. -/
def Kind.opensNode : Kind → Bool
  | .operator | .openQuote | .opening _ => true
  | _ => false

/-- How nodes begin that are neither leaves nor signs without an operator. -/
theorem Node.Fits.begins {x : Node} (h : x.Fits) :
    (∃ form token, x = .leaf form token) ∨
      (∃ a, x = .assignment a ∧ a.operator = none ∧ a.tokens = [a.colon]) ∨
      ∃ blanks kind kinds, x.tokens.map (·.kind) = blanks ++ kind :: kinds ∧
        (∀ blank ∈ blanks, blank = .whitespace) ∧ kind.opensNode = true := by
  cases x with
  | leaf form token => exact Or.inl ⟨form, token, rfl⟩
  | assignment a =>
      cases hoperator : a.operator with
      | none =>
          have hgap : a.gap = [] := by simpa [hoperator] using h.2.2.2
          exact Or.inr (Or.inl ⟨a, rfl, hoperator, by simp [Assignment.tokens, hoperator, hgap]⟩)
      | some operator =>
          refine Or.inr (Or.inr ⟨[], operator.kind, (a.gap ++ [a.colon]).map (·.kind), ?_, by simp, ?_⟩)
          · simp [tokens, Assignment.tokens, hoperator]
          · rw [h.2.2.1 operator hoperator]
            rfl
  | quoted first content last =>
      refine Or.inr (Or.inr ⟨[], first.kind, (content ++ [last]).map (·.kind), ?_, by simp, ?_⟩)
      · simp [tokens]
      · rw [h.1]
        rfl
  | enclosed form first items last =>
      obtain ⟨hfirst, -, hgap, -⟩ := h
      refine Or.inr (Or.inr ⟨form.gap.map (·.kind), first.kind,
        (allTokens items ++ [last]).map (·.kind), ?_, by simpa using hgap, ?_⟩)
      · simp [tokens]
      · rw [hfirst]
        rfl

theorem not_isColon_of_opensNode {blanks kinds : List Kind} {kind : Kind}
    (hblanks : ∀ blank ∈ blanks, blank = .whitespace) (hkind : kind.opensNode = true) :
    (blanks ++ kind :: kinds).head?.any Kind.isColon = false := by
  cases blanks with
  | nil => cases kind <;> first | rfl | simp [Kind.opensNode] at hkind
  | cons blank blanks =>
      rw [hblanks blank (List.mem_cons_self ..)]
      rfl

/-- Only a sign without an operator begins with a colon. -/
theorem exists_assignment_of_isColon (hfits : ∀ x ∈ nodes, x.Fits) (hmore : ClosesOrEnds more)
    (h : ((Node.allTokens nodes).map (·.kind) ++ more).head?.any Kind.isColon = true) :
    ∃ a behind, nodes = .assignment a :: behind ∧ a.operator = none := by
  cases nodes with
  | nil => simp [not_isColon_of_closesOrEnds hmore] at h
  | cons x behind =>
      have hx := hfits x (List.mem_cons_self ..)
      rcases hx.begins with ⟨form, token, rfl⟩ | ⟨a, rfl, ha, -⟩ |
        ⟨blanks, kind, kinds, htokens, hblanks, hkind⟩
      · have hform : token.kind.leafForm? = some form := hx
        have hcolon : token.kind.isColon = true := by simpa [Node.tokens] using h
        cases hkind : token.kind <;> simp_all [Kind.leafForm?, Kind.isColon]
      · exact ⟨a, behind, rfl, ha⟩
      · rw [Node.allTokens_cons, List.map_append, htokens, List.append_assoc, List.append_assoc,
          List.cons_append, not_isColon_of_opensNode hblanks hkind] at h
        exact absurd h Bool.false_ne_true

/-- A node that begins with a blank is one, or a parameter list; and no colon comes behind a blank of
that. -/
theorem exists_space_of_whitespace {kinds : List Kind} (hfits : ∀ x ∈ nodes, x.Fits)
    (hmore : ClosesOrEnds more)
    (h : (Node.allTokens nodes).map (·.kind) ++ more = .whitespace :: kinds)
    (hcolon : kinds.head?.any Kind.isColon = true) :
    ∃ gap behind, nodes = .leaf .space gap :: behind ∧ gap.kind = .whitespace ∧
      kinds = (Node.allTokens behind).map (·.kind) ++ more := by
  cases nodes with
  | nil =>
      rw [Node.allTokens_nil, List.map_nil, List.nil_append] at h
      subst h
      exact hmore.elim
  | cons x behind =>
      have hx := hfits x (List.mem_cons_self ..)
      rw [Node.allTokens_cons, List.map_append, List.append_assoc] at h
      rcases hx.begins with ⟨form, token, rfl⟩ | ⟨a, rfl, -, htokens⟩ |
        ⟨blanks, kind, kinds', htokens, hblanks, hkind⟩
      · have hform : token.kind.leafForm? = some form := hx
        obtain ⟨hkind, rfl⟩ : token.kind = .whitespace ∧ _ = kinds := List.cons.inj h
        rw [hkind, Kind.leafForm?, Option.some.injEq] at hform
        exact ⟨token, behind, by rw [hform], hkind, rfl⟩
      · rw [Node.tokens, htokens] at h
        obtain ⟨hkind, -⟩ : a.colon.kind = .whitespace ∧ _ = kinds := List.cons.inj h
        rcases hx.1 with hcolon | hcolon <;> simp [hkind] at hcolon
      · rw [htokens, List.append_assoc, List.cons_append] at h
        cases blanks with
        | nil =>
            obtain ⟨rfl, -⟩ := List.cons.inj h
            simp [Kind.opensNode] at hkind
        | cons blank blanks =>
            rw [List.cons_append, List.cons.injEq] at h
            rw [← h.2, not_isColon_of_opensNode (List.forall_mem_cons.1 hblanks).2 hkind] at hcolon
            exact absurd hcolon Bool.false_ne_true

/-- No colon comes behind an operator that stands on its own. -/
theorem colonNext_allTokens {operator : Token} (hfits : ∀ x ∈ nodes, x.Fits)
    (hjoined : Node.Joined (nodes.reverse ++ [.leaf .operator operator]))
    (hmore : ClosesOrEnds more) :
    colonNext ((Node.allTokens nodes).map (·.kind) ++ more) = false := by
  by_contra hnext
  rw [Bool.not_eq_false] at hnext
  unfold colonNext at hnext
  split at hnext
  · next kinds heq =>
      obtain ⟨gap, behind, rfl, hgap, rfl⟩ := exists_space_of_whitespace hfits hmore heq hnext
      obtain ⟨a, behind, rfl, ha⟩ := exists_assignment_of_isColon
        (fun x hx => hfits x (List.mem_cons_of_mem _ hx)) hmore hnext
      rw [List.reverse_cons, List.reverse_cons, List.append_assoc, List.append_assoc] at hjoined
      exact hjoined.earlier.1 ha hgap
  · obtain ⟨a, behind, rfl, ha⟩ := exists_assignment_of_isColon hfits hmore hnext
    rw [List.reverse_cons, List.append_assoc] at hjoined
    exact hjoined.earlier.1 ha trivial

end

end QSource
