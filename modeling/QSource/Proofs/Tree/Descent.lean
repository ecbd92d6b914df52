/-
**A descent comes to the tree that a pass comes to.**

A descent reads a sequence node by node, calls itself for what delimiters enclose, and looks ahead for
assignment signs, parameter lists and closing quotes.  A pass takes one token after the other, keeps the open
delimiters on a stack, and never looks ahead: it looks back over what it has read.  Both come to the same
tree, or blame the same token for the same fault.

The pass follows the descent.  When the descent has read a node, the pass stands behind the same tokens, and
has the node as the last one on the level that it is in.  That is so because of what both look at: an
operator before a sign is taken by it and never stands alone, and the bracket that opens a lambda is its
parameter list.  So what is asked of the nodes before is that no sign which comes could still take them.

A descent therefore comes to the verdict of the automaton that sees nothing but the kinds of the tokens.

Main definitions:

* `QSource.SignAt` — a sign at the start of tokens;
* `QSource.Nesting.Settled` — nodes that nothing behind them changes;
* `QSource.Descent.Follows`, `QSource.Descent.FollowsNode` — a pass is where a descent has come to;
* `QSource.Descent.Matches` — the open delimiters of a pass are those that a descent has entered;
* `QSource.Descent.FollowsSequence` — **a pass follows a descent into the sequence at a place**.

Main results:

* `QSource.Descent.signAt_of_sign?`, `QSource.Descent.exists_sign?_of_signAt` — looking ahead finds the
  signs;
* `QSource.Descent.follows_enclosed`, `QSource.Descent.follows_params`, `QSource.Descent.follows_lambda`,
  `QSource.Descent.follows_expression` — one case for each part of the descent;
* `QSource.Descent.followsSequence` — **the pass follows the descent into a sequence**;
* `QSource.descend_eq_parse` — **a descent comes to the tree that a pass comes to**;
* `QSource.verdict_descend` — **a descent comes to the verdict of the automaton**.
-/

import QSource.Proofs.Tree.Automaton
import QSource.Proofs.Tree.Signs
import QSource.Tree.Descent

set_option relaxedAutoImplicit false
set_option autoImplicit false

namespace QSource

open Nesting

/-! ### Signs at the start of tokens -/

/-- A sign at the start of tokens, and the tokens behind it. -/
inductive SignAt : List Token → Assignment → List Token → Prop
  | plain {colon : Token} {rest : List Token} (hcolon : colon.kind.isColon = true) :
      SignAt (colon :: rest) ⟨none, [], colon⟩ rest
  | compound {operator colon : Token} {rest : List Token} (hoperator : operator.kind = .operator)
      (hcolon : colon.kind.isColon = true) :
      SignAt (operator :: colon :: rest) ⟨some operator, [], colon⟩ rest
  | spaced {operator gap colon : Token} {rest : List Token} (hoperator : operator.kind = .operator)
      (hgap : gap.kind = .whitespace) (hcolon : colon.kind.isColon = true) :
      SignAt (operator :: gap :: colon :: rest) ⟨some operator, [gap], colon⟩ rest

theorem Kind.isPiece_iff {kind : Kind} :
    kind.isPiece = true ↔ kind = .quotedText ∨ kind = .quotedEscape := by
  cases kind <;> simp [isPiece]

@[simp] theorem Kind.isColon_operator : Kind.operator.isColon = false := rfl

@[simp] theorem Kind.isColon_whitespace : Kind.whitespace.isColon = false := rfl

namespace Descent

variable {tokens : List Token}

theorem drop_of_getElem? {i : Nat} {t : Token} (h : tokens[i]? = some t) :
    tokens.drop i = t :: tokens.drop (i + 1) := by
  obtain ⟨hi, rfl⟩ := List.getElem?_eq_some_iff.1 h
  exact List.drop_eq_getElem_cons hi

theorem getElem?_of_drop {i : Nat} {t : Token} {rest : List Token}
    (h : tokens.drop i = t :: rest) : tokens[i]? = some t ∧ tokens.drop (i + 1) = rest := by
  constructor
  · rw [← Nat.add_zero i, ← List.getElem?_drop, h, List.getElem?_cons_zero]
  · rw [← List.drop_drop, h, List.drop_succ_cons, List.drop_zero]

/-- **Looking ahead finds the sign at a place**, if there is one. -/
theorem signAt_of_sign? {start colon : Nat} {sign : Assignment}
    (h : sign? tokens start = some (sign, colon)) :
    SignAt (tokens.drop start) sign (tokens.drop (colon + 1)) := by
  obtain ⟨first, hfirst, h⟩ := Option.bind_eq_some_iff.1 h
  rw [drop_of_getElem? hfirst]
  split at h
  · next hcolon =>
      cases h
      exact .plain hcolon
  · rw [Option.ite_none_right_eq_some] at h
    obtain ⟨hoperator, h⟩ := h
    obtain ⟨second, hsecond, h⟩ := Option.bind_eq_some_iff.1 h
    rw [drop_of_getElem? hsecond]
    split at h
    · next hcolon =>
        cases h
        exact .compound hoperator hcolon
    · rw [Option.ite_none_right_eq_some] at h
      obtain ⟨hgap, h⟩ := h
      obtain ⟨third, hthird, h⟩ := Option.bind_eq_some_iff.1 h
      rw [Option.ite_none_right_eq_some] at h
      obtain ⟨hcolon, h⟩ := h
      rw [drop_of_getElem? hthird]
      cases h
      exact .spaced hoperator hgap hcolon

theorem exists_sign?_of_signAt {start : Nat} {sign : Assignment} {rest : List Token}
    (h : SignAt (tokens.drop start) sign rest) : ∃ colon, sign? tokens start = some (sign, colon) := by
  generalize htokens : tokens.drop start = s at h
  cases h with
  | plain hcolon =>
      obtain ⟨hfirst, -⟩ := getElem?_of_drop htokens
      exact ⟨start, by simp [sign?, hfirst, hcolon]⟩
  | compound hoperator hcolon =>
      obtain ⟨hfirst, htokens⟩ := getElem?_of_drop htokens
      obtain ⟨hsecond, -⟩ := getElem?_of_drop htokens
      exact ⟨start + 1, by simp [sign?, hfirst, hsecond, hoperator, hcolon]⟩
  | spaced hoperator hgap hcolon =>
      obtain ⟨hfirst, htokens⟩ := getElem?_of_drop htokens
      obtain ⟨hsecond, htokens⟩ := getElem?_of_drop htokens
      obtain ⟨hthird, -⟩ := getElem?_of_drop htokens
      exact ⟨start + 2, by simp [sign?, hfirst, hsecond, hthird, hoperator, hgap, hcolon]⟩

end Descent

/-! ### A pass step by step -/

namespace Nesting

theorem run_of_step {p q : Nesting} {token : Token} (h : Step p token q) (rest : List Token) :
    p.run (token :: rest) = q.run rest := by
  rw [run, h.read_eq]

/-- **What a pass may not look back at**: no operator before it is taken in by a sign that comes next
or behind a token of blanks, and if it is at the start of a lambda, no bracket comes next, with blanks
before it or not. -/
structure Settled (around : Option Delimiter) (nodes : List Node) (rest : List Token) : Prop where
  sign : ∀ colon ∈ rest.head?, colon.kind.isColon = true →
    assign nodes colon = .assignment ⟨none, [], colon⟩ :: nodes
  blank : ∀ gap colon behind, rest = gap :: colon :: behind → gap.kind = .whitespace →
    colon.kind.isColon = true → assign (.leaf .space gap :: nodes) colon =
      .assignment ⟨none, [], colon⟩ :: .leaf .space gap :: nodes
  list : around = some .brace → (blanks? nodes).isSome →
    ∀ t ∈ (rest.dropWhile fun t => t.kind = .whitespace).head?, t.kind ≠ .opening .bracket

/-- A node that cannot be part of a sign or stand before a parameter list. -/
def IsPlain : Node → Prop
  | .leaf .operator _ | .leaf .space _ => False
  | _ => True

theorem Settled.of_isPlain {x : Node} (hx : IsPlain x) (around : Option Delimiter)
    (nodes : List Node) (rest : List Token) : Settled around (x :: nodes) rest := by
  have hassign : ∀ colon, assign (x :: nodes) colon = .assignment ⟨none, [], colon⟩ :: x :: nodes := by
    intro colon
    cases x with
    | leaf form t => cases form <;> first | rfl | exact absurd hx id
    | assignment | quoted | enclosed => rfl
  have hblanks : blanks? (x :: nodes) = none := by
    cases x with
    | leaf form t => cases form <;> first | rfl | exact absurd hx id
    | assignment | quoted | enclosed => rfl
  refine ⟨fun colon _ _ => hassign colon, fun gap colon _ _ _ _ => ?_, fun _ h => ?_⟩
  · cases x with
    | leaf form t => cases form <;> first | rfl | exact absurd hx id
    | assignment | quoted | enclosed => rfl
  · simp [hblanks] at h

/-- At the start of a sequence nothing stands before. -/
theorem Settled.nil {around : Option Delimiter} {rest : List Token}
    (h : around = some .brace →
      ∀ t ∈ (rest.dropWhile fun t => t.kind = .whitespace).head?, t.kind ≠ .opening .bracket) :
    Settled around [] rest :=
  ⟨fun _ _ _ => rfl, fun _ _ _ _ _ _ => rfl, fun haround _ => h haround⟩

/-- Behind an operator that is no part of a sign. -/
theorem Settled.operator {token : Token} {rest : List Token} (hkind : token.kind = .operator)
    (hsign : ∀ sign behind, ¬ SignAt (token :: rest) sign behind) (around : Option Delimiter)
    (nodes : List Node) : Settled around (.leaf .operator token :: nodes) rest where
  sign := by
    intro colon hcolon hisColon
    obtain ⟨behind, rfl⟩ := List.head?_eq_some_iff.1 hcolon
    exact absurd (.compound hkind hisColon) (hsign _ _)
  blank := by
    rintro gap colon behind rfl hgap hcolon
    exact absurd (.spaced hkind hgap hcolon) (hsign _ _)
  list := by simp [blanks?]

/-- Behind blanks or a comment. -/
theorem Settled.space {token : Token} {rest : List Token} {around : Option Delimiter}
    {nodes : List Node} (h : Settled around nodes (token :: rest)) :
    Settled around (.leaf .space token :: nodes) rest where
  sign := by
    intro colon hcolon hisColon
    obtain ⟨behind, rfl⟩ := List.head?_eq_some_iff.1 hcolon
    by_cases hblank : token.kind = .whitespace
    · exact h.blank token colon behind rfl hblank hisColon
    · cases nodes with
      | nil => rfl
      | cons x nodes =>
          cases x with
          | leaf form t => cases form <;> simp [assign, hblank]
          | assignment | quoted | enclosed => rfl
  blank := fun _ _ _ _ _ _ => rfl
  list := by
    intro haround hblanks
    have hblank : token.kind = .whitespace ∧ (blanks? nodes).isSome := by
      rw [blanks?] at hblanks
      split at hblanks <;> simp_all
    have hlist := h.list haround hblank.2
    rwa [List.dropWhile_cons_of_pos (by simp [hblank.1])] at hlist

/-- A bracket that comes next is no parameter list. -/
theorem Settled.enclose_bracket {around : Option Delimiter} {nodes : List Node} {first : Token}
    {rest : List Token} (h : Settled around nodes (first :: rest))
    (hkind : first.kind = .opening .bracket) (items : List Node) (last : Token) :
    enclose ⟨.bracket, first, nodes⟩ around items last = .enclosed .bracket first items last :: nodes := by
  have hlist : (if around = some .brace then blanks? nodes else none) = none := by
    split
    · next haround =>
        by_contra hblanks
        refine h.list haround (Option.isSome_iff_ne_none.2 hblanks) first ?_ hkind
        rw [List.dropWhile_cons_of_neg (by simp [hkind])]
        rfl
    · rfl
  simp [enclose, hlist]

/-- A sign at the start of the tokens is read as a whole. -/
theorem run_signAt {tokens rest : List Token} {sign : Assignment} (h : SignAt tokens sign rest)
    {around : Option Delimiter} {nodes : List Node} (hsettled : Settled around nodes tokens)
    (opened : List Opened) :
    run ⟨nodes, opened, none⟩ tokens = run ⟨.assignment sign :: nodes, opened, none⟩ rest := by
  have hstep : ∀ {colon : Token} (nodes' : List Node), colon.kind.isColon = true →
      Step ⟨nodes', opened, none⟩ colon ⟨assign nodes' colon, opened, none⟩ := by
    intro colon nodes' hcolon
    refine .sign ?_
    cases hkind : colon.kind <;> simp_all [Kind.isColon]
  have hleaf : ∀ {operator : Token}, operator.kind = .operator →
      Step ⟨nodes, opened, none⟩ operator ⟨.leaf .operator operator :: nodes, opened, none⟩ :=
    fun hoperator => .leaf (by rw [hoperator]; rfl)
  cases h with
  | plain hcolon =>
      rw [run_of_step (hstep nodes hcolon), hsettled.sign _ rfl hcolon]
  | compound hoperator hcolon =>
      rw [run_of_step (hleaf hoperator), run_of_step (hstep _ hcolon)]
      rfl
  | @spaced operator gap colon _ hoperator hgap hcolon =>
      have hspace : Step ⟨.leaf .operator operator :: nodes, opened, none⟩ gap
          ⟨.leaf .space gap :: .leaf .operator operator :: nodes, opened, none⟩ :=
        .leaf (by rw [hgap]; rfl)
      rw [run_of_step (hleaf hoperator), run_of_step hspace, run_of_step (hstep _ hcolon)]
      simp [assign, hgap]

/-- Blanks are put aside. -/
theorem run_blanks {gap : List Token} (h : ∀ t ∈ gap, t.kind = .whitespace) (nodes : List Node)
    (opened : List Opened) (rest : List Token) :
    run ⟨nodes, opened, none⟩ (gap ++ rest) =
      run ⟨(gap.map (Node.leaf .space)).reverse ++ nodes, opened, none⟩ rest := by
  induction gap generalizing nodes with
  | nil => rfl
  | cons t gap ih =>
      obtain ⟨ht, hgap⟩ := List.forall_mem_cons.1 h
      have hstep : Step ⟨nodes, opened, none⟩ t ⟨.leaf .space t :: nodes, opened, none⟩ :=
        .leaf (by rw [ht]; rfl)
      rw [List.cons_append, run_of_step hstep, ih hgap]
      simp

/-- Behind a leaf that is no part of a sign. -/
theorem Settled.leaf {token : Token} {rest : List Token} {form : LeafForm}
    (hform : token.kind.leafForm? = some form)
    (hsign : ∀ sign behind, ¬ SignAt (token :: rest) sign behind) {around : Option Delimiter}
    {nodes : List Node} (h : Settled around nodes (token :: rest)) :
    Settled around (.leaf form token :: nodes) rest := by
  cases form with
  | operator => exact .operator (Kind.eq_operator hform) hsign ..
  | space => exact h.space
  | _ => exact .of_isPlain (by simp [IsPlain]) ..

/-- What is no leaf, no part of a sign, no delimiter and no opening quote must not stand there. -/
theorem read_of_leafForm?_eq_none {token : Token} (hform : token.kind.leafForm? = none)
    (hcolon : token.kind.isColon = false) (hopening : ∀ pair, token.kind ≠ .opening pair)
    (hclosing : ∀ pair, token.kind ≠ .closing pair) (hquote : token.kind ≠ .openQuote)
    (nodes : List Node) (opened : List Opened) :
    read ⟨nodes, opened, none⟩ token = .error ⟨.unexpected, token⟩ := by
  have hpiece : token.kind.isPiece = true ∨ token.kind = .closeQuote := by
    cases hkind : token.kind with
    | opening pair => exact absurd hkind (hopening pair)
    | closing pair => exact absurd hkind (hclosing pair)
    | openQuote => exact absurd hkind hquote
    | quotedText | quotedEscape => exact .inl rfl
    | closeQuote => exact .inr rfl
    | colon | doubleColon => simp [hkind, Kind.isColon] at hcolon
    | _ => simp [hkind, Kind.leafForm?] at hform
  cases hkind : token.kind with
  | quotedText | quotedEscape | closeQuote => simp [read, readPlain, hkind, Kind.leafForm?]
  | _ => simp [hkind, Kind.isPiece] at hpiece

theorem blanks?_spaces {gap : List Token} (h : ∀ t ∈ gap, t.kind = .whitespace) :
    blanks? (gap.map (Node.leaf .space)) = some gap := by
  induction gap with
  | nil => rfl
  | cons t gap ih =>
      obtain ⟨ht, hgap⟩ := List.forall_mem_cons.1 h
      simp [blanks?, ht, ih hgap]

end Nesting

namespace Descent

variable {tokens : List Token}

/-! ### Looking ahead over several tokens -/

theorem getElem?_of_kindAt? {i : Nat} {kind : Kind} (h : kindAt? tokens i = some kind) :
    ∃ t, tokens[i]? = some t ∧ t.kind = kind := Option.map_eq_some_iff.1 h

theorem drop_eq_extract_append {i j : Nat} (h : i ≤ j) :
    tokens.drop i = tokens.extract i j ++ tokens.drop j := by
  obtain ⟨n, rfl⟩ := Nat.exists_eq_add_of_le h
  rw [List.extract_eq_take_drop, Nat.add_sub_cancel_left, ← List.drop_drop, List.take_append_drop]

theorem extract_of_getElem? {i j : Nat} {t : Token} (ht : tokens[i]? = some t) (h : i < j) :
    tokens.extract i j = t :: tokens.extract (i + 1) j := by
  have hlength : j - i = (j - (i + 1)) + 1 := by omega
  rw [List.extract_eq_take_drop, List.extract_eq_take_drop, drop_of_getElem? ht, hlength,
    List.take_succ_cons]

theorem kind_of_mem_extract_skipBlanks {i : Nat} :
    ∀ t ∈ tokens.extract i (skipBlanks tokens i), t.kind = .whitespace := by
  fun_induction skipBlanks tokens i with
  | case1 i hblank ih =>
      obtain ⟨t, ht, hkind⟩ := getElem?_of_kindAt? hblank
      rw [extract_of_getElem? ht (le_skipBlanks _)]
      exact List.forall_mem_cons.2 ⟨hkind, ih⟩
  | case2 i hother => simp

theorem kindAt?_skipBlanks (i : Nat) : kindAt? tokens (skipBlanks tokens i) ≠ some .whitespace := by
  fun_induction skipBlanks tokens i with
  | case1 i hblank ih => exact ih
  | case2 i hother => exact hother

/-- The blanks at a place are those that looking ahead skips. -/
theorem dropWhile_drop (i : Nat) :
    (tokens.drop i).dropWhile (fun t => t.kind = .whitespace) = tokens.drop (skipBlanks tokens i) := by
  rw [drop_eq_extract_append (le_skipBlanks i), List.dropWhile_append_of_pos
    fun t ht => decide_eq_true (kind_of_mem_extract_skipBlanks t ht)]
  cases hdrop : tokens.drop (skipBlanks tokens i) with
  | nil => rfl
  | cons t rest =>
      have hnot : kindAt? tokens (skipBlanks tokens i) ≠ some .whitespace := kindAt?_skipBlanks i
      refine List.dropWhile_cons_of_neg fun hkind => hnot ?_
      rw [kindAt?, (getElem?_of_drop hdrop).1, Option.map_some, of_decide_eq_true hkind]

theorem isPiece_of_mem_extract_closing? {i last : Nat} (h : closing? tokens i = some last) :
    ∀ t ∈ tokens.extract i last, t.kind.isPiece = true := by
  have hcons : ∀ {i : Nat} {kind : Kind}, kindAt? tokens i = some kind → kind.isPiece = true →
      closing? tokens (i + 1) = some last →
      (∀ t ∈ tokens.extract (i + 1) last, t.kind.isPiece = true) →
      ∀ t ∈ tokens.extract i last, t.kind.isPiece = true := by
    intro i kind hkind hpiece hclosing hrest
    obtain ⟨t, ht, rfl⟩ := getElem?_of_kindAt? hkind
    rw [extract_of_getElem? ht (of_closing? hclosing).1]
    exact List.forall_mem_cons.2 ⟨hpiece, hrest⟩
  fun_induction closing? tokens i with
  | case1 i hquote => simp [← Option.some.inj h]
  | case2 i htext ih => exact hcons htext rfl h (ih h)
  | case3 i hescape ih => exact hcons hescape rfl h (ih h)
  | case4 => simp at h

/-- Without a closing quote something else stands behind the pieces, or nothing. -/
theorem exists_of_closing?_eq_none {i : Nat} (h : closing? tokens i = none) :
    ∃ pieces rest, tokens.drop i = pieces ++ rest ∧ (∀ t ∈ pieces, t.kind.isPiece = true) ∧
      ∀ t ∈ rest.head?, t.kind.isPiece = false ∧ t.kind ≠ .closeQuote := by
  have hcons : ∀ {i : Nat} {kind : Kind}, kindAt? tokens i = some kind → kind.isPiece = true →
      (∃ pieces rest, tokens.drop (i + 1) = pieces ++ rest ∧ (∀ t ∈ pieces, t.kind.isPiece = true) ∧
        ∀ t ∈ rest.head?, t.kind.isPiece = false ∧ t.kind ≠ .closeQuote) →
      ∃ pieces rest, tokens.drop i = pieces ++ rest ∧ (∀ t ∈ pieces, t.kind.isPiece = true) ∧
        ∀ t ∈ rest.head?, t.kind.isPiece = false ∧ t.kind ≠ .closeQuote := by
    rintro i kind hkind hpiece ⟨pieces, rest, hdrop, hpieces, hrest⟩
    obtain ⟨t, ht, rfl⟩ := getElem?_of_kindAt? hkind
    exact ⟨t :: pieces, rest, by rw [drop_of_getElem? ht, hdrop, List.cons_append],
      List.forall_mem_cons.2 ⟨hpiece, hpieces⟩, hrest⟩
  fun_induction closing? tokens i with
  | case1 => simp at h
  | case2 i htext ih => exact hcons htext rfl (ih h)
  | case3 i hescape ih => exact hcons hescape rfl (ih h)
  | case4 i hquote htext hescape =>
      refine ⟨[], tokens.drop i, rfl, by simp, fun t ht => ?_⟩
      have hkind : kindAt? tokens i = some t.kind := by
        rw [kindAt?, ← List.head?_drop, ht, Option.map_some]
      rw [hkind] at hquote htext hescape
      refine ⟨Bool.eq_false_iff.2 fun hpiece => ?_, fun hlast => hquote (congrArg some hlast)⟩
      rcases Kind.isPiece_iff.1 hpiece with hpiece | hpiece
      · exact htext (congrArg some hpiece)
      · exact hescape (congrArg some hpiece)

/-! ### The pass follows the descent -/

/-- **The pass follows the descent** from a place on: it comes to the same error, or goes on behind the
nodes that the descent has read. -/
def Follows (tokens : List Token) (opened : List Opened) (nodes : List Node) (s : Cursor) :
    Except ParseError (List Node × Cursor) → Prop
  | .error e => run ⟨nodes, opened, none⟩ (tokens.drop s.position) = .error e
  | .ok (found, behind) => run ⟨nodes, opened, none⟩ (tokens.drop s.position) =
      run ⟨found.reverse ++ nodes, opened, none⟩ (tokens.drop behind.position)

/-- The same for one node, behind which there is nothing to look back at. -/
def FollowsNode (tokens : List Token) (opened : List Opened) (nodes : List Node) (s : Cursor) :
    Except ParseError (Expression s) → Prop
  | .error e => run ⟨nodes, opened, none⟩ (tokens.drop s.position) = .error e
  | .ok r => run ⟨nodes, opened, none⟩ (tokens.drop s.position) =
        run ⟨r.node :: nodes, opened, none⟩ (tokens.drop r.behind.position) ∧
      Settled (opened.head?.map Opened.pair) (r.node :: nodes) (tokens.drop r.behind.position)

/-- The pass stands where a descent does: as many delimiters are open, and the innermost of them is the
one that waits around the sequence. -/
structure Matches (around : Option (Waiting tokens)) (s : Cursor) (opened : List Opened) : Prop where
  depth_eq : s.depth = opened.length
  around_eq : opened.head?.map (fun d => (d.pair, d.first)) =
    around.map fun w => (w.pair, tokens[w.place])

/-- The pass follows the descent into the sequence at a place. -/
def FollowsSequence (tokens : List Token) (s : Cursor) : Prop :=
  ∀ (around : Option (Waiting tokens)) (opened : List Opened) (nodes : List Node),
    Matches around s opened →
    Settled (opened.head?.map Opened.pair) nodes (tokens.drop s.position) →
    Follows tokens opened nodes s ((sequence tokens around s).map fun r => (r.nodes, r.stop))

theorem run_opening {s : Cursor} {h : s.position < tokens.length} {pair : Delimiter}
    (hkind : tokens[s.position].kind = .opening pair) {opened : List Opened}
    (hdepth : s.depth = opened.length) (nodes : List Node) :
    match enter tokens s h with
    | .error e => run ⟨nodes, opened, none⟩ (tokens.drop s.position) = .error e
    | .ok inner => run ⟨nodes, opened, none⟩ (tokens.drop s.position) =
        run ⟨[], ⟨pair, tokens[s.position], nodes⟩ :: opened, none⟩ (tokens.drop inner.1.position) := by
  rw [enter, List.drop_eq_getElem_cons h]
  by_cases hdeep : maxDepth ≤ s.depth
  · rw [if_pos hdeep]
    have hread : Nesting.read ⟨nodes, opened, none⟩ tokens[s.position] =
        .error ⟨.tooDeep, tokens[s.position]⟩ := by
      simp [Nesting.read, readPlain, hkind, ← hdepth, hdeep]
    rw [run, hread]
  · rw [if_neg hdeep]
    exact run_of_step (.opening hkind (by omega)) _

/-- The pass closes the pair that a sequence has stopped at. -/
theorem run_closing {w : Waiting tokens} {position : Nat} (h : Stops tokens (some w) position)
    {d : Opened} (hpair : d.pair = w.pair) (nodes : List Node) (opened : List Opened) :
    run ⟨nodes, d :: opened, none⟩ (tokens.drop position) =
      run ⟨enclose d (opened.head?.map Opened.pair) nodes.reverse (tokens.get ⟨position, h.lt_length⟩),
        opened, none⟩ (tokens.drop (position + 1)) := by
  obtain ⟨t, ht, hkind⟩ := getElem?_of_kindAt? h
  obtain ⟨hlt, rfl⟩ := List.getElem?_eq_some_iff.1 ht
  rw [List.drop_eq_getElem_cons hlt]
  exact run_of_step (.closing (hpair ▸ hkind)) _

section

variable {i : Nat} {h : i < tokens.length} (hkind : tokens[i].kind = .openQuote) (nodes : List Node)
  (opened : List Opened)

include hkind

/-- The pass reads a quoted text up to the closing quote that looking ahead finds. -/
theorem run_quoted {last : Nat} (hlast : closing? tokens (i + 1) = some last) :
    run ⟨nodes, opened, none⟩ (tokens.drop i) =
      run ⟨.quoted tokens[i] (tokens.extract (i + 1) last)
          (tokens.get ⟨last, lt_of_kindAt? (of_closing? hlast).2⟩) :: nodes, opened, none⟩
        (tokens.drop (last + 1)) := by
  obtain ⟨hle, hquote⟩ := of_closing? hlast
  obtain ⟨t, ht, hclose⟩ := getElem?_of_kindAt? hquote
  obtain ⟨hlt, rfl⟩ := List.getElem?_eq_some_iff.1 ht
  rw [List.drop_eq_getElem_cons h, run_of_step (.openQuote hkind), drop_eq_extract_append hle,
    run_pieces (isPiece_of_mem_extract_closing? hlast), List.drop_eq_getElem_cons hlt,
    run_closeQuote hclose]
  simp

/-- The pass blames the opening quote if looking ahead finds no closing quote. -/
theorem run_unclosed (hlast : closing? tokens (i + 1) = none) :
    run ⟨nodes, opened, none⟩ (tokens.drop i) = .error ⟨.unmatched, tokens[i]⟩ := by
  obtain ⟨pieces, rest, hpieces, hkinds, hrest⟩ := exists_of_closing?_eq_none hlast
  rw [List.drop_eq_getElem_cons h, run_of_step (.openQuote hkind), hpieces, run_pieces hkinds,
    run_of_not_piece hrest]

end

section

variable {s : Cursor} {h : s.position < tokens.length}
  (hseq : ∀ s' : Cursor, s.position < s'.position → FollowsSequence tokens s')
  {opened : List Opened} (hdepth : s.depth = opened.length)

include hseq hdepth

/-- What a pair encloses is read as a sequence of its own. -/
theorem follows_enclosed {pair : Delimiter} (hkind : tokens[s.position].kind = .opening pair)
    (hpair : pair ≠ .brace) (form : Enclosure) (nodes : List Node) :
    match enclosed tokens form pair s h with
    | .error e => run ⟨nodes, opened, none⟩ (tokens.drop s.position) = .error e
    | .ok r => ∃ items last, r.node = .enclosed form tokens[s.position] items last ∧
        run ⟨nodes, opened, none⟩ (tokens.drop s.position) =
          run ⟨enclose ⟨pair, tokens[s.position], nodes⟩ (opened.head?.map Opened.pair) items last,
            opened, none⟩ (tokens.drop r.behind.position) := by
  have hopening := run_opening (h := h) hkind hdepth nodes
  rw [enclosed]
  cases henter : enter tokens s h with
  | error e =>
      rw [henter] at hopening
      exact hopening
  | ok inner =>
      obtain ⟨inner, rfl⟩ := inner
      rw [henter] at hopening
      have hitems := hseq ⟨s.position + 1, s.depth + 1⟩ (Nat.lt_succ_self _)
        (some ⟨pair, s.position, h⟩) (⟨pair, tokens[s.position], nodes⟩ :: opened) []
        ⟨by simp [hdepth], rfl⟩ (.nil fun haround => absurd (Option.some.inj haround) hpair)
      simp only [bind, Except.bind, pure, Except.pure]
      cases hsequence : sequence tokens (some ⟨pair, s.position, h⟩) ⟨s.position + 1, s.depth + 1⟩ with
      | error e =>
          rw [hsequence] at hitems
          exact hopening.trans hitems
      | ok items =>
          rw [hsequence] at hitems
          refine ⟨items.nodes, _, rfl, hopening.trans (hitems.trans ?_)⟩
          rw [run_closing items.stops rfl, List.append_nil, List.reverse_reverse]
          rfl

end

/-- Blanks between the brace of a lambda and a bracket are put aside with it. -/
theorem enclose_blanks {gap : List Token} (h : ∀ t ∈ gap, t.kind = .whitespace) (first : Token)
    (items : List Node) (last : Token) :
    enclose ⟨.bracket, first, (gap.map (Node.leaf .space)).reverse⟩ (some .brace) items last =
      [.enclosed (.params gap) first items last] := by
  have hblanks : blanks? (gap.map (Node.leaf .space)).reverse = some gap.reverse := by
    rw [← List.map_reverse, blanks?_spaces fun t ht => h t (List.mem_reverse.1 ht)]
  simp [enclose, hblanks]

/-- The blanks that looking ahead skips are put aside. -/
theorem run_skipBlanks (i : Nat) (opened : List Opened) :
    run ⟨[], opened, none⟩ (tokens.drop i) =
      run ⟨((tokens.extract i (skipBlanks tokens i)).map (Node.leaf .space)).reverse, opened, none⟩
        (tokens.drop (skipBlanks tokens i)) := by
  rw [drop_eq_extract_append (le_skipBlanks i), run_blanks kind_of_mem_extract_skipBlanks,
    List.append_nil]

/-- The pass follows the descent into the parameter list of a lambda. -/
theorem follows_params {s : Cursor}
    (hseq : ∀ s' : Cursor, s.position < s'.position → FollowsSequence tokens s') {d : Opened}
    (hd : d.pair = .brace) {opened : List Opened} (hdepth : s.depth = (d :: opened).length) :
    match params tokens s with
    | .error e => run ⟨[], d :: opened, none⟩ (tokens.drop s.position) = .error e
    | .ok r => run ⟨[], d :: opened, none⟩ (tokens.drop s.position) =
        run ⟨r.nodes.reverse, d :: opened, none⟩ (tokens.drop r.behind.position) ∧
      Settled (some .brace) r.nodes.reverse (tokens.drop r.behind.position) := by
  have hgap : ∀ t ∈ tokens.extract s.position (skipBlanks tokens s.position), t.kind = .whitespace :=
    kind_of_mem_extract_skipBlanks
  have hle : s.position ≤ skipBlanks tokens s.position := le_skipBlanks _
  rw [params]
  by_cases hbracket : kindAt? tokens (skipBlanks tokens s.position) = some (.opening .bracket)
  · obtain ⟨t, ht, hkind⟩ := getElem?_of_kindAt? hbracket
    obtain ⟨hlt, rfl⟩ := List.getElem?_eq_some_iff.1 ht
    have hlist := follows_enclosed (s := ⟨skipBlanks tokens s.position, s.depth⟩) (h := hlt)
      (fun s' hs' => hseq s' (Nat.lt_of_le_of_lt hle hs')) hdepth hkind (by decide)
      (.params (tokens.extract s.position (skipBlanks tokens s.position)))
      ((tokens.extract s.position (skipBlanks tokens s.position)).map (Node.leaf .space)).reverse
    have hblanks := @run_skipBlanks tokens s.position (d :: opened)
    simp only [hbracket, dite_true, bind, Except.bind, pure, Except.pure]
    cases hresult : enclosed tokens (.params (tokens.extract s.position (skipBlanks tokens s.position)))
        .bracket ⟨skipBlanks tokens s.position, s.depth⟩ hlt with
    | error e =>
        rw [hresult] at hlist
        exact hblanks.trans hlist
    | ok r =>
        rw [hresult] at hlist
        obtain ⟨items, last, hnode, hrun⟩ := hlist
        rw [List.head?_cons, Option.map_some, hd, enclose_blanks hgap, ← hnode] at hrun
        exact ⟨hblanks.trans hrun, .of_isPlain (by simp [hnode, IsPlain]) ..⟩
  · simp only [hbracket, dite_false, pure, Except.pure]
    refine ⟨rfl, .nil fun _ t ht hkind => hbracket ?_⟩
    rw [dropWhile_drop, List.head?_drop] at ht
    rw [kindAt?, ht, Option.map_some, hkind]

section

variable {s : Cursor} {h : s.position < tokens.length}
  (hseq : ∀ s' : Cursor, s.position < s'.position → FollowsSequence tokens s')
  {opened : List Opened} (hdepth : s.depth = opened.length)

include hseq hdepth

/-- The pass follows the descent into a lambda. -/
theorem follows_lambda (hkind : tokens[s.position].kind = .opening .brace) (nodes : List Node) :
    FollowsNode tokens opened nodes s (lambda tokens s h) := by
  have hopening := run_opening (h := h) hkind hdepth nodes
  rw [lambda]
  cases henter : enter tokens s h with
  | error e =>
      rw [henter] at hopening
      exact hopening
  | ok inner =>
      obtain ⟨inner, rfl⟩ := inner
      rw [henter] at hopening
      have hbrace : (⟨.brace, tokens[s.position], nodes⟩ : Opened).pair = .brace := rfl
      have hinner : s.depth + 1 = ((⟨.brace, tokens[s.position], nodes⟩ : Opened) :: opened).length := by
        rw [List.length_cons, hdepth]
      have hlist := follows_params (s := ⟨s.position + 1, s.depth + 1⟩)
        (fun s' hs' => hseq s' (Nat.lt_of_succ_lt hs')) hbrace hinner
      simp only [bind, Except.bind, pure, Except.pure]
      cases hparams : params tokens ⟨s.position + 1, s.depth + 1⟩ with
      | error e =>
          rw [hparams] at hlist
          exact hopening.trans hlist
      | ok list =>
          rw [hparams] at hlist
          obtain ⟨hrun, hsettled⟩ := hlist
          have hbody := hseq list.behind (Nat.lt_of_succ_le list.le) (some ⟨.brace, s.position, h⟩)
            (⟨.brace, tokens[s.position], nodes⟩ :: opened) list.nodes.reverse
            ⟨by simp [list.depth_eq, hdepth], rfl⟩ hsettled
          simp only
          cases hsequence : sequence tokens (some ⟨.brace, s.position, h⟩) list.behind with
          | error e =>
              rw [hsequence] at hbody
              exact (hopening.trans hrun).trans hbody
          | ok body =>
              rw [hsequence] at hbody
              refine ⟨(hopening.trans hrun).trans (hbody.trans ?_), .of_isPlain (by simp [IsPlain]) ..⟩
              rw [run_closing body.stops rfl]
              simp [enclose, leave]

/-- The pass follows the descent into a pair that is a node of its own. -/
theorem follows_pair {pair : Delimiter} (hkind : tokens[s.position].kind = .opening pair)
    (hpair : pair ≠ .brace) {form : Enclosure} {nodes : List Node}
    (hform : ∀ items last, enclose ⟨pair, tokens[s.position], nodes⟩ (opened.head?.map Opened.pair)
      items last = .enclosed form tokens[s.position] items last :: nodes) :
    FollowsNode tokens opened nodes s (enclosed tokens form pair s h) := by
  have hpairs := follows_enclosed (h := h) hseq hdepth hkind hpair form nodes
  cases hresult : enclosed tokens form pair s h with
  | error e => rwa [hresult] at hpairs
  | ok r =>
      rw [hresult] at hpairs
      obtain ⟨items, last, hnode, hrun⟩ := hpairs
      rw [hform, ← hnode] at hrun
      exact ⟨hrun, .of_isPlain (by simp [hnode, IsPlain]) ..⟩

/-- **The pass follows the descent into a node.** -/
theorem follows_expression (hclosing : ∀ pair, tokens[s.position].kind ≠ .closing pair)
    {nodes : List Node}
    (hsettled : Settled (opened.head?.map Opened.pair) nodes (tokens.drop s.position)) :
    FollowsNode tokens opened nodes s (expression tokens s h) := by
  have hdrop := List.drop_eq_getElem_cons h
  generalize hresult : expression tokens s h = result
  rw [expression] at hresult
  split at hresult
  · next sign colon hsign =>
      subst hresult
      exact ⟨run_signAt (signAt_of_sign? hsign) hsettled opened,
        .of_isPlain (x := .assignment sign) trivial ..⟩
  · next hsign =>
    have hnone : ∀ sign behind, ¬ SignAt (tokens.drop s.position) sign behind := by
      intro sign behind hsignAt
      obtain ⟨colon, hcolon⟩ := exists_sign?_of_signAt hsignAt
      simp [hsign] at hcolon
    rw [hdrop] at hsettled hnone
    split at hresult
    · next hkind =>
        subst hresult
        exact follows_lambda hseq hdepth hkind nodes
    · next hkind =>
        subst hresult
        exact follows_pair hseq hdepth hkind (by decide) (hsettled.enclose_bracket hkind)
    · next hkind =>
        subst hresult
        exact follows_pair hseq hdepth hkind (by decide) fun _ _ => rfl
    · next hkind =>
        split at hresult
        · next last hlast =>
            subst hresult
            exact ⟨run_quoted hkind nodes opened hlast, .of_isPlain (by simp [IsPlain]) ..⟩
        · next hlast =>
            subst hresult
            exact run_unclosed hkind nodes opened hlast
    · next hnobrace hnobracket hnoparen hnoquote =>
        split at hresult
        · next form hform =>
            subst hresult
            exact ⟨hdrop ▸ run_of_step (.leaf hform) _, hsettled.leaf hform hnone⟩
        · next hform =>
            subst hresult
            have hnocolon : tokens[s.position].kind.isColon = false :=
              Bool.eq_false_iff.2 fun hcolon => hnone _ _ (.plain hcolon)
            have hnoopening : ∀ pair, tokens[s.position].kind ≠ .opening pair := by
              rintro (_ | _ | _)
              · exact hnoparen
              · exact hnobracket
              · exact hnobrace
            rw [FollowsNode, hdrop, run,
              read_of_leafForm?_eq_none hform hnocolon hnoopening hclosing hnoquote]

end

theorem Matches.eq_nil {s : Cursor} {opened : List Opened}
    (h : Matches (none : Option (Waiting tokens)) s opened) : opened = [] := by
  cases opened with
  | nil => rfl
  | cons d rest => cases h.around_eq

theorem Matches.exists_eq_cons {w : Waiting tokens} {s : Cursor} {opened : List Opened}
    (h : Matches (some w) s opened) :
    ∃ d rest, opened = d :: rest ∧ d.pair = w.pair ∧ d.first = tokens.get w.place := by
  cases opened with
  | nil => cases h.around_eq
  | cons d rest =>
      obtain ⟨hpair, hfirst⟩ := Prod.mk.inj (Option.some.inj h.around_eq)
      exact ⟨d, rest, rfl, hpair, hfirst⟩

/-- At the end of the tokens. -/
theorem follows_ended {around : Option (Waiting tokens)} {s : Cursor} {opened : List Opened}
    (hmatches : Matches around s opened) (h : kindAt? tokens s.position = none) (nodes : List Node) :
    Follows tokens opened nodes s ((ended tokens around s h).map fun r => (r.nodes, r.stop)) := by
  cases around with
  | none => rfl
  | some w =>
      obtain ⟨d, rest, rfl, -, hfirst⟩ := hmatches.exists_eq_cons
      have hdrop : tokens.drop s.position = [] :=
        List.drop_eq_nil_of_le (List.getElem?_eq_none_iff.1 (Option.map_eq_none_iff.1 h))
      change run _ (tokens.drop s.position) = .error ⟨.unmatched, tokens[w.place]⟩
      simp [hdrop, run, finish, hfirst]

/-- At a closing delimiter. -/
theorem follows_closed {around : Option (Waiting tokens)} {s : Cursor} {opened : List Opened}
    (hmatches : Matches around s opened) {pair : Delimiter}
    (h : kindAt? tokens s.position = some (.closing pair)) (nodes : List Node) :
    Follows tokens opened nodes s ((closed tokens around s h).map fun r => (r.nodes, r.stop)) := by
  obtain ⟨t, ht, hkind⟩ := getElem?_of_kindAt? h
  obtain ⟨hlt, rfl⟩ := List.getElem?_eq_some_iff.1 ht
  have hblame : ∀ {e : ParseError}, Nesting.read ⟨nodes, opened, none⟩ tokens[s.position] = .error e →
      run ⟨nodes, opened, none⟩ (tokens.drop s.position) = .error e := by
    intro e hread
    rw [List.drop_eq_getElem_cons hlt, run, hread]
  cases around with
  | none =>
      obtain rfl := hmatches.eq_nil
      exact hblame (by simp [Nesting.read, readPlain, hkind])
  | some w =>
      obtain ⟨d, rest, rfl, hd, hfirst⟩ := hmatches.exists_eq_cons
      rw [closed]
      by_cases hpair : pair = w.pair
      · rw [dif_pos hpair]
        rfl
      · rw [dif_neg hpair]
        refine hblame ?_
        simp [Nesting.read, readPlain, hkind, hd, Ne.symm hpair, hfirst, Waiting.error]

/-- **The pass follows the descent into a sequence.**  A sequence is read node by node, so the induction
is on the number of tokens that are left. -/
theorem followsSequence (s : Cursor) : FollowsSequence tokens s := by
  induction hleft : tokens.length - s.position using Nat.strongRecOn generalizing s with
  | ind n ih =>
    intro around opened nodes hmatches hsettled
    rw [sequence]
    split
    · next hend => exact follows_ended hmatches hend nodes
    · next pair hclosing => exact follows_closed hmatches hclosing nodes
    · next kind hnot hkind =>
        obtain ⟨t, ht, hkind'⟩ := getElem?_of_kindAt? hkind
        obtain ⟨hlt, rfl⟩ := List.getElem?_eq_some_iff.1 ht
        have hseq : ∀ s' : Cursor, s.position < s'.position → FollowsSequence tokens s' :=
          fun s' hs' => ih _ (by omega) s' rfl
        have hnode := follows_expression (h := hlt) hseq hmatches.depth_eq
          (fun pair hpair => hnot pair (hkind' ▸ hpair)) hsettled
        simp only [bind, Except.bind, pure, Except.pure]
        cases hfirst : expression tokens s hlt with
        | error e =>
            rw [hfirst] at hnode
            exact hnode
        | ok first =>
            rw [hfirst] at hnode
            have hrest := hseq first.behind first.lt around opened (first.node :: nodes)
              ⟨first.depth_eq.trans hmatches.depth_eq, hmatches.around_eq⟩ hnode.2
            simp only
            cases hsequence : sequence tokens around first.behind with
            | error e =>
                rw [hsequence] at hrest
                exact hnode.1.trans hrest
            | ok rest =>
                rw [hsequence] at hrest
                refine (hnode.1.trans hrest).trans ?_
                simp

end Descent

/-- **A descent comes to the tree that a pass comes to**, and to the same error. -/
theorem descend_eq_parse (tokens : List Token) : descend tokens = parse tokens := by
  have hfollows := @Descent.followsSequence tokens ⟨0, 0⟩ none [] [] ⟨rfl, rfl⟩ (.nil (by simp))
  rw [parse, start]
  rw [descend]
  cases hresult : Descent.sequence tokens none ⟨0, 0⟩ with
  | error e =>
      rw [hresult] at hfollows
      exact hfollows.symm
  | ok all =>
      rw [hresult] at hfollows
      have hend : tokens.drop all.stop.position = [] :=
        List.drop_eq_nil_of_le (List.getElem?_eq_none_iff.1 (Option.map_eq_none_iff.1 all.stops))
      refine Eq.symm (hfollows.trans ?_)
      rw [hend]
      simp [run, finish]
      rfl

/-- **A descent comes to the verdict of the automaton**, so there is a tree exactly if the automaton
accepts, and it is that of the pass.  If there is none, the token to blame stands at the place that the
automaton names, and the message says so. -/
theorem verdict_descend {tokens : List Token} (h : Token.Numbered tokens) :
    descend tokens = parse tokens ∧
    verdict (descend tokens) = balance 0 [] (tokens.map (·.kind)) ∧
    ∀ e, descend tokens = .error e →
      tokens[e.token.index]? = some e.token ∧
      e.message = s!"parse error at token {e.token.index}: {e.fault.words e.token.text}" := by
  have hpass := descend_eq_parse tokens
  obtain ⟨hverdict, hmessage⟩ := verdict_parse h
  refine ⟨hpass, ?_, fun e he => ?_⟩
  · rw [hpass]
    exact hverdict
  · rw [hpass] at he
    exact hmessage e he

/-- Behind the parameter list of a lambda and a sign with a gap, a bracket that closes nothing is not blamed
as long as a parenthesis is open: the parenthesis is. -/
theorem verdict_descend_crossed :
    let tokens := Lexeme.layOut [⟨.opening .brace, "\x7b"⟩, ⟨.whitespace, " "⟩,
      ⟨.opening .bracket, "["⟩, ⟨.identifier, "a"⟩, ⟨.closing .bracket, "]"⟩, ⟨.identifier, "b"⟩,
      ⟨.operator, "+"⟩, ⟨.whitespace, " "⟩, ⟨.colon, ":"⟩, ⟨.openQuote, "\""⟩, ⟨.quotedText, "c"⟩,
      ⟨.closeQuote, "\""⟩, ⟨.opening .paren, "("⟩, ⟨.closing .bracket, "]"⟩]
    Token.Numbered tokens ∧ descend tokens = parse tokens ∧
    verdict (descend tokens) = .error ⟨.unmatched, 12⟩ ∧
    ∀ e, descend tokens = .error e →
      tokens[e.token.index]? = some e.token ∧
      e.message = s!"parse error at token {e.token.index}: {e.fault.words e.token.text}" := by
  intro tokens
  have hnumbered : Token.Numbered tokens := Token.numbered_layOut _
  obtain ⟨hpass, hverdict, hmessage⟩ := verdict_descend hnumbered
  refine ⟨hnumbered, hpass, ?_, hmessage⟩
  rw [hverdict]
  decide +kernel

end QSource
