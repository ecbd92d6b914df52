/-
**The nodes of a tree fit their tokens.**

A leaf, an assignment sign, a quoted text and a pair of delimiters are each made of tokens of certain
kinds, and a parameter list stands nowhere but at the start of a lambda.  Every step of a pass keeps
this, so it holds of every node of every tree.

Main definitions:

* `QSource.Node.Fits` — a node is made of tokens of the right kinds;
* `QSource.Node.Sequence` — nodes that may stand one behind the other in an open sequence;
* `QSource.Nesting.Shaped` — **the invariant of a pass**.

Main results:

* `QSource.Nesting.Step.shaped` — every step keeps the invariant;
* `QSource.fits_parse` — **every node of a tree fits its tokens**;
* `QSource.not_isParams_parse`, `QSource.exists_of_params_mem_all` — a parameter list is the first
  item of a lambda.
-/

import QSource.Proofs.Tree.Nodes

set_option relaxedAutoImplicit false
set_option autoImplicit false

namespace QSource

/-! ### Nodes and kinds -/

/-- The delimiters that enclose. -/
def Enclosure.pair : Enclosure → Delimiter
  | .bracket | .params _ => .bracket
  | .group => .paren
  | .lambda => .brace

namespace Node

/-- A parameter list. -/
def isParams : Node → Bool
  | .enclosed (.params _) _ _ _ => true
  | _ => false

/-- The node is made of tokens of the right kinds.  Of the items between two delimiters only the
first of a lambda may be a parameter list. -/
def Fits : Node → Prop
  | .leaf form token => token.kind.leafForm? = some form
  | .assignment parts =>
    (parts.colon.kind = .colon ∨ parts.colon.kind = .doubleColon) ∧
    (parts.isGlobal = true ↔ parts.colon.kind = .doubleColon) ∧
    (∀ operator ∈ parts.operator, operator.kind = .operator) ∧
    (parts.gap = [] ∨ ∃ operator blank,
      parts.operator = some operator ∧ parts.gap = [blank] ∧ blank.kind = .whitespace)
  | .quoted first content last =>
    first.kind = .openQuote ∧ last.kind = .closeQuote ∧
    ∀ t ∈ content, t.kind = .quotedText ∨ t.kind = .quotedEscape
  | .enclosed form first items last =>
    first.kind = .opening form.pair ∧ last.kind = .closing form.pair ∧
    (∀ t ∈ form.gap, t.kind = .whitespace) ∧
    ∀ x ∈ (if form = .lambda then items.tail else items), x.isParams = false

/-- The kinds of the tokens of an assignment sign. -/
theorem Fits.kind_of_mem_assignment {parts : Assignment} (h : (Node.assignment parts).Fits)
    {t : Token} (ht : t ∈ parts.tokens) :
    t.kind = .operator ∨ t.kind = .whitespace ∨ t.kind = .colon ∨ t.kind = .doubleColon := by
  obtain ⟨hcolon, -, hoperator, hgap⟩ := h
  simp only [Assignment.tokens, List.mem_append, Option.mem_toList, List.mem_singleton] at ht
  rcases ht with (ht | ht) | rfl
  · exact Or.inl (hoperator t ht)
  · rcases hgap with hgap | ⟨-, blank, -, hgap, hblank⟩
    · simp [hgap] at ht
    · obtain rfl : t = blank := by simpa [hgap] using ht
      exact Or.inr (Or.inl hblank)
  · exact Or.inr (Or.inr hcolon)

/-- The kinds of the tokens with which an enclosure starts. -/
theorem Fits.kind_of_mem_first {form : Enclosure} {first last : Token} {items : List Node}
    (h : (Node.enclosed form first items last).Fits) {t : Token} (ht : t ∈ form.gap ++ [first]) :
    t.kind = .whitespace ∨ t.kind = .opening form.pair := by
  obtain ⟨hfirst, -, hgap, -⟩ := h
  rw [List.mem_append, List.mem_singleton] at ht
  rcases ht with ht | rfl
  · exact Or.inl (hgap t ht)
  · exact Or.inr hfirst

/-- Nodes that may stand one behind the other behind an open delimiter, the latest first. -/
structure Sequence (around : Option Delimiter) (nodes : List Node) : Prop where
  fits : ∀ x ∈ all nodes, x.Fits
  later : ∀ x ∈ nodes.dropLast, x.isParams = false
  first : around ≠ some .brace → ∀ x ∈ nodes, x.isParams = false

namespace Sequence

theorem nil (around : Option Delimiter) : Sequence around [] where
  fits := by simp
  later := by simp
  first := by simp

theorem cons {around : Option Delimiter} {nodes : List Node} (h : Sequence around nodes) {x : Node}
    (hfits : ∀ y ∈ x.subtrees, y.Fits) (hparams : x.isParams = false) :
    Sequence around (x :: nodes) where
  fits := by
    intro y hy
    rw [all_cons, List.mem_append] at hy
    exact hy.elim (hfits y) (h.fits y)
  later := by
    intro y hy
    cases nodes with
    | nil => simp at hy
    | cons z nodes =>
        rw [List.dropLast_cons_cons, List.mem_cons] at hy
        rcases hy with rfl | hy
        · exact hparams
        · exact h.later y hy
  first := by
    intro haround y hy
    rcases List.mem_cons.1 hy with rfl | hy
    · exact hparams
    · exact h.first haround y hy

theorem tail {around : Option Delimiter} {nodes : List Node} {x : Node}
    (h : Sequence around (x :: nodes)) : Sequence around nodes where
  fits := by
    intro y hy
    exact h.fits y (by simp [hy])
  later := by
    intro y hy
    cases nodes with
    | nil => simp at hy
    | cons z nodes =>
        refine h.later y ?_
        rw [List.dropLast_cons_cons]
        exact List.mem_cons_of_mem _ hy
  first := by
    intro haround y hy
    exact h.first haround y (List.mem_cons_of_mem _ hy)

theorem head {around : Option Delimiter} {nodes : List Node} {x : Node}
    (h : Sequence around (x :: nodes)) : x.Fits := h.fits x (by simp [self_mem_subtrees])

end Sequence

end Node

namespace Nesting

open Node (Sequence)

/-! ### The invariant of a pass -/

/-- The open delimiters are of the right kinds, and so are the nodes before each of them. -/
def OpenShaped : List Opened → Prop
  | [] => True
  | d :: rest =>
    d.first.kind = .opening d.pair ∧ Sequence (rest.head?.map Opened.pair) d.before ∧
      OpenShaped rest

/-- **The invariant of a pass**: all that it has read so far is of the right kinds. -/
structure Shaped (p : Nesting) : Prop where
  nodes : Sequence (p.opened.head?.map Opened.pair) p.nodes
  opened : OpenShaped p.opened
  quote : ∀ first content, p.quote = some (first, content) →
    first.kind = .openQuote ∧ ∀ t ∈ content, t.kind = .quotedText ∨ t.kind = .quotedEscape

theorem shaped_start : start.Shaped where
  nodes := .nil _
  opened := trivial
  quote := by
    intro first content h
    simp [start] at h

theorem kind_of_blanks? {nodes : List Node} {gap : List Token} (h : blanks? nodes = some gap) :
    ∀ t ∈ gap, t.kind = .whitespace := by
  fun_induction blanks? nodes generalizing gap with
  | case1 =>
      rw [Option.some.injEq] at h
      simp [← h]
  | case2 token nodes hkind ih =>
      obtain ⟨rest, hrest, rfl⟩ := Option.map_eq_some_iff.1 h
      intro t ht
      rcases List.mem_cons.1 ht with rfl | ht
      · exact hkind
      · exact ih hrest t ht
  | case3 => simp at h
  | case4 => simp at h

/-- An assignment sign may stand behind any sequence. -/
theorem sequence_assign {around : Option Delimiter} {nodes : List Node}
    (h : Sequence around nodes) {colon : Token}
    (hkind : colon.kind = .colon ∨ colon.kind = .doubleColon) :
    Sequence around (assign nodes colon) := by
  have hglobal : ∀ a : Assignment, a.isGlobal = true ↔ a.colon.kind = .doubleColon := by
    intro a
    simp [Assignment.isGlobal]
  -- a leaf that counts as an operator is one
  have hoperator : ∀ operator : Token, (Node.leaf .operator operator).Fits →
      operator.kind = .operator := by
    intro operator hfits
    cases hk : operator.kind <;> simp [Node.Fits, hk, Kind.leafForm?] at hfits ⊢
  unfold assign
  split
  · next operator nodes =>
      refine h.tail.cons ?_ rfl
      simp [Node.Fits, hkind, hglobal, hoperator operator h.head]
  · next gap operator nodes =>
      split
      · next hgap =>
          -- the operator and the blank behind it leave the sequence
          refine h.tail.tail.cons ?_ rfl
          simp [Node.Fits, hkind, hglobal, hgap, hoperator operator h.tail.head]
      · refine h.cons ?_ rfl
        simp [Node.Fits, hkind, hglobal]
  · refine h.cons ?_ rfl
    simp [Node.Fits, hkind, hglobal]

/-- A closed pair may stand where its opening delimiter stood. -/
theorem sequence_enclose {d : Opened} {rest : List Opened} {nodes : List Node} {last : Token}
    (hopened : OpenShaped (d :: rest)) (h : Sequence (some d.pair) nodes)
    (hlast : last.kind = .closing d.pair) :
    Sequence (rest.head?.map Opened.pair)
      (enclose d (rest.head?.map Opened.pair) nodes.reverse last) := by
  obtain ⟨hfirst, hbefore, -⟩ := hopened
  -- the items of the pair fit already, so that only the pair itself is in question
  have hall : ∀ {form : Enclosure},
      (Node.enclosed form d.first nodes.reverse last).Fits →
      ∀ x ∈ (Node.enclosed form d.first nodes.reverse last).subtrees, x.Fits := by
    intro form hfits x hx
    rw [Node.subtrees_enclosed, List.mem_cons] at hx
    rcases hx with rfl | hx
    · exact hfits
    · exact h.fits x (Node.mem_all_reverse.1 hx)
  obtain ⟨pair, first, before⟩ := d
  cases pair with
  | paren =>
      have hitems : ∀ x ∈ nodes.reverse, x.isParams = false := by simpa using h.first (by simp)
      exact hbefore.cons (hall ⟨hfirst, hlast, by simp [Enclosure.gap], hitems⟩) rfl
  | brace =>
      have hitems : ∀ x ∈ nodes.reverse.tail, x.isParams = false := by
        simpa [List.tail_reverse] using h.later
      exact hbefore.cons (hall ⟨hfirst, hlast, by simp [Enclosure.gap], hitems⟩) rfl
  | bracket =>
      have hitems : ∀ x ∈ nodes.reverse, x.isParams = false := by simpa using h.first (by simp)
      simp only [enclose]
      split
      · next gap hgap =>
          have hbrace : rest.head?.map Opened.pair = some .brace ∧ blanks? before = some gap := by
            split at hgap
            · next hbrace => exact ⟨hbrace, hgap⟩
            · simp at hgap
          have hblanks : ∀ t ∈ gap.reverse, t.kind = .whitespace := by
            simpa using kind_of_blanks? hbrace.2
          -- the parameter list is all that stands behind the brace
          rw [hbrace.1]
          refine ⟨?_, by simp, by simp⟩
          rw [Node.all_cons, Node.all_nil, List.append_nil]
          exact hall ⟨hfirst, hlast, hblanks, hitems⟩
      · exact hbefore.cons (hall ⟨hfirst, hlast, by simp [Enclosure.gap], hitems⟩) rfl

/-- **Every step keeps the invariant.** -/
theorem Step.shaped {p q : Nesting} {token : Token} (hp : p.Shaped) (h : Step p token q) :
    q.Shaped := by
  obtain ⟨hnodes, hopened, hquote⟩ := hp
  cases h with
  | @piece nodes opened first _ content hkind =>
      refine ⟨hnodes, hopened, ?_⟩
      intro first' content' heq
      obtain ⟨rfl, rfl⟩ : first = first' ∧ token :: content = content' := by simpa using heq
      obtain ⟨hfirst, hcontent⟩ := hquote first content rfl
      exact ⟨hfirst, List.forall_mem_cons.2 ⟨hkind, hcontent⟩⟩
  | @closeQuote nodes opened first _ content hkind =>
      obtain ⟨hfirst, hcontent⟩ := hquote first content rfl
      refine ⟨hnodes.cons ?_ rfl, hopened, by simp⟩
      simpa [Node.Fits, hfirst, hkind] using hcontent
  | openQuote hkind =>
      refine ⟨hnodes, hopened, ?_⟩
      intro first content heq
      obtain ⟨rfl, rfl⟩ : token = first ∧ [] = content := by simpa using heq
      exact ⟨hkind, by simp⟩
  | opening hkind hdepth => exact ⟨.nil _, ⟨hkind, hnodes, hopened⟩, by simp⟩
  | closing hkind => exact ⟨sequence_enclose hopened hnodes hkind, hopened.2.2, by simp⟩
  | sign hkind => exact ⟨sequence_assign hnodes hkind, hopened, by simp⟩
  | leaf hkind =>
      refine ⟨hnodes.cons ?_ rfl, hopened, by simp⟩
      simpa [Node.Fits] using hkind

end Nesting

/-! ### Trees -/

variable {tokens : List Token} {nodes : List Node}

theorem sequence_parse (h : parse tokens = .ok nodes) : Node.Sequence none nodes.reverse :=
  (Nesting.parse_invariant (fun p _ => p.Shaped) (fun hp hstep => hstep.shaped hp)
    Nesting.shaped_start h).nodes

/-- **Every node of a tree fits its tokens.** -/
theorem fits_parse (h : parse tokens = .ok nodes) : ∀ x ∈ Node.all nodes, x.Fits := by
  intro x hx
  exact (sequence_parse h).fits x (Node.mem_all_reverse.2 hx)

/-- No parameter list stands outside all lambdas. -/
theorem not_isParams_parse (h : parse tokens = .ok nodes) : ∀ x ∈ nodes, x.isParams = false := by
  intro x hx
  exact (sequence_parse h).first (by simp) x (List.mem_reverse.2 hx)

/-- A parameter list is the first item of a lambda. -/
theorem exists_of_params_mem_all (h : parse tokens = .ok nodes) {gap : List Token} {first : Token}
    {items : List Node} {last : Token}
    (hx : .enclosed (.params gap) first items last ∈ Node.all nodes) :
    ∃ brace body close,
      .enclosed .lambda brace (.enclosed (.params gap) first items last :: body) close ∈
        Node.all nodes := by
  rcases Node.mem_or_exists_of_mem_all nodes hx with hx | ⟨form, brace, items', close, hnode, hx⟩
  · exact absurd (not_isParams_parse h _ hx) (by simp [Node.isParams])
  · obtain ⟨-, -, -, hlater⟩ := fits_parse h _ hnode
    by_cases hform : form = .lambda
    · subst hform
      cases items' with
      | nil => simp at hx
      | cons y body =>
          rcases List.mem_cons.1 hx with rfl | hx
          · exact ⟨brace, body, close, hnode⟩
          · exact absurd (hlater _ hx) (by simp [Node.isParams])
    · rw [if_neg hform] at hlater
      exact absurd (hlater _ hx) (by simp [Node.isParams])

end QSource
