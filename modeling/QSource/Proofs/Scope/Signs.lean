/-
**What a scan for assignment signs says about names.**

An outline finds the leaf that a sign writes to in its own sequence, and sequences lie in delimiters,
tables and lambdas.  A name is written, though, just if a scan over the tokens behind it meets a sign:
a scan that knows of no tree at all.  Only in a parameter list, where signs write to nothing, do the
two disagree.

Main definitions:

* `QSource.Marked.Agrees` — the mark of a token says what the scan behind it says;
* `QSource.AllAgree` — the same of all tokens of an outline but the listed ones;
* `QSource.Listed` — a token in a parameter list.

Main results:

* `QSource.signScan_allTokens` — the scan meets the sign that comes next in the tree;
* `QSource.allAgree_outlineAll` — the tokens of an outline agree with the scan behind them;
* `QSource.analyze_signScan` — **keywords, literals and names are written where the scan meets a
  sign**.
-/

import QSource.Proofs.Scope.Owners
import QSource.Proofs.Tree.Signs

set_option relaxedAutoImplicit false
set_option autoImplicit false

namespace QSource

open Node (outlineAll)

/-! ### The sign ahead -/

/-- **The scan meets the sign that comes next in the tree.** -/
theorem signScan_allTokens {nodes : List Node} {more : List Kind} (hfits : ∀ x ∈ nodes, x.Fits)
    (hjoined : Node.Joined nodes.reverse) (hmore : ClosesOrEnds more) :
    signScan ((Node.allTokens nodes).map (·.kind) ++ more) =
      (signAhead? nodes).map Assignment.isCompound := by
  fun_induction signAhead? nodes with
  | case1 token rest ih =>
      have hform : token.kind.leafForm? = some .space := hfits _ (List.mem_cons_self ..)
      rw [List.reverse_cons] at hjoined
      rw [← ih (fun x hx => hfits x (List.mem_cons_of_mem _ hx)) hjoined.later]
      exact signScan_space hform _
  | case2 a rest =>
      rw [Node.allTokens_cons, Node.tokens, List.map_append, List.append_assoc]
      exact signScan_assignment (hfits _ (List.mem_cons_self ..)) _
  | case3 rest hspace hassignment =>
      cases rest with
      | nil => exact signScan_of_closesOrEnds hmore
      | cons x behind =>
          have hx := hfits x (List.mem_cons_self ..)
          cases x with
          | leaf form token =>
              have hform : token.kind.leafForm? = some form := hx
              have hbehind := fun x hx => hfits x (List.mem_cons_of_mem _ hx)
              rw [List.reverse_cons] at hjoined
              by_cases hoperator : form = .operator
              · subst hoperator
                have hnext := colonNext_allTokens hbehind hjoined hmore
                simp [Node.tokens, signScan, Kind.eq_operator hform, hnext]
              · exact signScan_leaf hform (fun h => hspace token behind (by rw [h])) hoperator _
          | assignment a => exact absurd rfl (hassignment a behind)
          | quoted first content last => simp [Node.tokens, signScan, hx.1]
          | enclosed form first items last =>
              obtain ⟨hfirst, -, hgap, -⟩ := hx
              simp only [Node.allTokens_cons, Node.tokens, List.map_append, List.map_cons,
                List.append_assoc, List.cons_append, hfirst]
              exact signScan_opening (by simpa using hgap) _ _

/-! ### Marks and the scan -/

/-- The leaves that can stand to the left of an assignment sign. -/
def LeafForm.isWritable : LeafForm → Bool
  | .identifier | .keyword | .literal => true
  | _ => false

/-- The same of tokens. -/
def Kind.isWritable (kind : Kind) : Bool := kind.leafForm?.any LeafForm.isWritable

/-- A token that can be written to is marked as a leaf with that sign behind it that the scan meets
there. -/
def Marked.Agrees (ahead : Option Bool) (m : Marked) : Prop :=
  ∀ form, m.token.kind.leafForm? = some form → form.isWritable = true →
    ∃ query sign, m.mark = form.mark query sign ∧ sign.map Assignment.isCompound = ahead

/-- Every token agrees with the scan over the tokens behind it and the kinds `more` behind them all,
except for the listed tokens. -/
def AllAgree (listed : Token → Prop) (more : List Kind) : List Marked → Prop
  | [] => True
  | m :: marked =>
    (¬listed m.token → m.Agrees (signScan (marked.map (·.token.kind) ++ more))) ∧
      AllAgree listed more marked

namespace AllAgree

variable {listed : Token → Prop} {more : List Kind}

theorem append {a b : List Marked} (ha : AllAgree listed (b.map (·.token.kind) ++ more) a)
    (hb : AllAgree listed more b) : AllAgree listed more (a ++ b) := by
  induction a with
  | nil => exact hb
  | cons m a ih =>
      refine ⟨fun hm => ?_, ih ha.2⟩
      have hagrees := ha.1 hm
      rwa [← List.append_assoc, ← List.map_append] at hagrees

theorem of_tokens {marked : List Marked}
    (h : ∀ t ∈ marked.map Marked.token, listed t ∨ t.kind.isWritable = false) :
    AllAgree listed more marked := by
  induction marked with
  | nil => trivial
  | cons m marked ih =>
      rw [List.map_cons] at h
      obtain ⟨hm, hmarked⟩ := List.forall_mem_cons.1 h
      refine ⟨fun hlisted form hform hwritable => ?_, ih hmarked⟩
      have hkind := hm.resolve_left hlisted
      simp [Kind.isWritable, hform, hwritable] at hkind

/-- A token of the list agrees with the scan behind it. -/
theorem agrees {marked before behind : List Marked} {m : Marked} (h : AllAgree listed more marked)
    (heq : marked = before ++ m :: behind) (hm : ¬listed m.token) :
    m.Agrees (signScan (behind.map (·.token.kind) ++ more)) := by
  subst heq
  induction before with
  | nil => exact h.1 hm
  | cons _ before ih => exact ih h.2

end AllAgree

/-! ### Outlines and the scan -/

/-- A node of a tree: it fits its tokens, no sign in it leaves an operator before it, and the tokens
of a parameter list are listed. -/
structure Node.Scannable (listed : Token → Prop) (x : Node) : Prop where
  fits : x.Fits
  joined : x.SignsJoined
  listed : ∀ gap first params last, x = .enclosed (.params gap) first params last →
    ∀ t ∈ Node.allTokens params, listed t

theorem isWritable_of_mem_assignment {a : Assignment} (h : (Node.assignment a).Fits) {t : Token}
    (ht : t ∈ (Node.assignment a).tokens) : t.kind.isWritable = false := by
  obtain ⟨hcolon, -, hoperator, hgap⟩ := h
  rw [Node.tokens, Assignment.tokens, List.mem_append, List.mem_append, Option.mem_toList,
    List.mem_singleton] at ht
  rcases ht with (ht | ht) | rfl
  · rw [hoperator t ht]
    rfl
  · rcases hgap with hgap | ⟨_, blank, -, hgap, hblank⟩
    · simp [hgap] at ht
    · rw [hgap, List.mem_singleton] at ht
      rw [ht, hblank]
      rfl
  · rcases hcolon with h | h <;> rw [h] <;> rfl

theorem isWritable_of_mem_quoted {first last : Token} {content : List Token}
    (h : (Node.quoted first content last).Fits) {t : Token}
    (ht : t ∈ (Node.quoted first content last).tokens) : t.kind.isWritable = false := by
  obtain ⟨hfirst, hlast, hcontent⟩ := h
  rw [Node.tokens, List.cons_append, List.mem_cons, List.mem_append, List.mem_singleton] at ht
  rcases ht with rfl | ht | rfl
  · rw [hfirst]
    rfl
  · rcases hcontent t ht with h | h <;> rw [h] <;> rfl
  · rw [hlast]
    rfl

section

variable {listed : Token → Prop}

theorem map_kind_outlineAll (scope : Option ScopeId) (next : Nat) (script initial query : Bool)
    (nodes : List Node) :
    (outlineAll scope next script initial query nodes).marked.map (·.token.kind) =
      (Node.allTokens nodes).map (·.kind) := by
  rw [← Node.token_outlineAll scope next script initial query nodes, List.map_map]
  rfl

mutual

theorem allAgree_outline (scope : Option ScopeId) (next : Nat) (query : Bool)
    (sign : Option Assignment) : ∀ (node : Node) {more : List Kind},
      (∀ x ∈ node.subtrees, x.Scannable listed) →
      signScan more = sign.map Assignment.isCompound →
      AllAgree listed more (node.outline scope next query sign).marked
  | .leaf form token, more, hnode, hsign => by
      rw [Node.outline, Outline.marked_ofTokens, List.map_singleton]
      refine ⟨fun _ form' hform' _ => ?_, trivial⟩
      have hform : token.kind.leafForm? = some form := (hnode _ (Node.self_mem_subtrees _)).fits
      obtain rfl : form = form' := Option.some.inj (hform.symm.trans hform')
      exact ⟨query, sign, rfl, hsign.symm⟩
  | .assignment parts, more, hnode, _ => AllAgree.of_tokens fun t ht => by
      rw [Node.token_outline] at ht
      exact Or.inr (isWritable_of_mem_assignment (hnode _ (Node.self_mem_subtrees _)).fits ht)
  | .quoted first content last, more, hnode, _ => AllAgree.of_tokens fun t ht => by
      rw [Node.token_outline] at ht
      exact Or.inr (isWritable_of_mem_quoted (hnode _ (Node.self_mem_subtrees _)).fits ht)
  | .enclosed form first items last, more, hnode, _ => by
      obtain ⟨⟨hfirst, hlast, hgap, -⟩, hjoined, hlisted⟩ := hnode _ (Node.self_mem_subtrees _)
      have hopening : first.kind.isWritable = false := by rw [hfirst]; rfl
      have hclosing : last.kind.isWritable = false := by rw [hlast]; rfl
      rcases form.params_or with ⟨gap, rfl⟩ | hform
      · refine AllAgree.of_tokens fun t ht => ?_
        rw [Node.token_outline, Node.tokens, List.append_assoc, List.mem_append, List.cons_append,
          List.mem_cons, List.mem_append, List.mem_singleton] at ht
        rcases ht with ht | rfl | ht | rfl
        · rw [hgap t ht]
          exact Or.inr rfl
        · exact Or.inr hopening
        · exact Or.inl (hlisted gap first items last rfl t ht)
        · exact Or.inr hclosing
      · obtain ⟨scope', next', initial', query', hmarked⟩ :=
          exists_marked_enclosed hform first items last scope next query sign
        rw [hmarked, List.cons_append, ← List.singleton_append]
        have hcloses : ClosesOrEnds (last.kind :: more) := by rw [hlast]; trivial
        have hitems := allAgree_outlineAll scope' next' false initial' query' items
          (fun x hx => hnode x (by simp [hx])) hjoined hcloses
        exact (AllAgree.of_tokens (by simp [hopening])).append
          (hitems.append (AllAgree.of_tokens (by simp [hclosing])))

/-- **The tokens of an outline agree with the scan behind them**, where nothing follows the sequence
or what closes it. -/
theorem allAgree_outlineAll (scope : Option ScopeId) (next : Nat) (script initial query : Bool) :
    ∀ (nodes : List Node) {more : List Kind}, (∀ x ∈ Node.all nodes, x.Scannable listed) →
      Node.Joined nodes.reverse → ClosesOrEnds more →
      AllAgree listed more (outlineAll scope next script initial query nodes).marked
  | [], _, _, _, _ => trivial
  | node :: rest, more, hnodes, hjoined, hmore => by
      rw [Node.all_cons] at hnodes
      obtain ⟨hhead, htail⟩ := List.forall_mem_append.1 hnodes
      rw [List.reverse_cons] at hjoined
      rw [outlineAll, Outline.marked_append]
      refine (allAgree_outline scope next query _ node hhead ?_).append
        (allAgree_outlineAll scope _ script initial _ rest htail hjoined.later hmore)
      rw [map_kind_outlineAll]
      exact signScan_allTokens (fun x hx => (htail x (Node.mem_all_of_mem hx)).fits) hjoined.later
        hmore

end

end

/-! ### Annotations and the scan -/

namespace Marked.Agrees

variable {ahead : Option Bool} {m : Marked} {scopes : List Scope}

theorem usage_iff (h : m.Agrees ahead) (hkind : m.token.kind = .keyword ∨ m.token.kind.isLiteral) :
    (m.annotate scopes).usage = some .assignment ↔ ahead.isSome = true := by
  cases htoken : m.token.kind with
  | keyword =>
      obtain ⟨query, sign, hmark, rfl⟩ := h .keyword (by rw [htoken]; rfl) rfl
      cases sign <;> simp [annotate, htoken, hmark, LeafForm.mark, Mark.usage]
  | literal form =>
      obtain ⟨query, sign, hmark, rfl⟩ := h .literal (by rw [htoken]; rfl) rfl
      cases sign <;> simp [annotate, htoken, hmark, LeafForm.mark]
  | _ => simp [htoken, Kind.isLiteral] at hkind

/-- A name is read if no sign is ahead.  Otherwise it is written, or the name of a column. -/
theorem usage_identifier (h : m.Agrees ahead) (hkind : m.token.kind = .identifier) :
    ahead = none ∧ (m.annotate scopes).usage = some .reference ∧
        (m.annotate scopes).reversed = false ∨
      ∃ isCompound, ahead = some isCompound ∧
        ((m.annotate scopes).usage = some .assignment ∧
            (m.annotate scopes).reversed = isCompound ∨
          (m.annotate scopes).usage = none ∧ (m.annotate scopes).role = none ∧
            (m.annotate scopes).reversed = false) := by
  obtain ⟨query, sign, hmark, rfl⟩ := h .identifier (by rw [hkind]; rfl) rfl
  cases sign with
  | none =>
      exact Or.inl (by simp [annotate, hkind, hmark, LeafForm.mark, Mark.usage, Mark.isCompound])
  | some a =>
      refine Or.inr ⟨a.isCompound, rfl, ?_⟩
      cases query with
      | true => exact Or.inr (by simp [annotate, hkind, hmark, LeafForm.mark])
      | false =>
          refine Or.inl ?_
          cases hglobal : a.isGlobal <;>
            simp [annotate, hkind, hmark, LeafForm.mark, hglobal, Mark.usage, Mark.isCompound]

end Marked.Agrees

section

variable {tokens : List Token} {nodes : List Node} {m : Marked}

/-- A token in a parameter list of the tree. -/
def Listed (nodes : List Node) (t : Token) : Prop :=
  ∃ gap opening params closing, .enclosed (.params gap) opening params closing ∈ Node.all nodes ∧
    t ∈ Node.allTokens params

theorem allAgree_outline_parse (h : parse tokens = .ok nodes) :
    AllAgree (Listed nodes) [] (outline nodes).marked :=
  allAgree_outlineAll none 0 true false false nodes
    (fun x hx => ⟨fits_parse h x hx, signsJoined_parse h x hx,
      fun gap first params last heq _ ht => ⟨gap, first, params, last, heq ▸ hx, ht⟩⟩)
    (joined_parse h) trivial

theorem agrees_of_mem_marked (hnumbered : Token.Numbered tokens) (h : parse tokens = .ok nodes)
    (hm : m ∈ (outline nodes).marked) (houtside : ¬Listed nodes m.token) :
    m.Agrees (signScan ((tokens.drop (m.token.index + 1)).map (·.kind))) := by
  obtain ⟨before, behind, heq⟩ := List.append_of_mem hm
  have htokens : tokens = before.map Marked.token ++ m.token :: behind.map Marked.token := by
    rw [← allTokens_parse h, ← Node.token_outlineAll none 0 true false false nodes]
    change (outline nodes).marked.map Marked.token = _
    rw [heq, List.map_append, List.map_cons]
  have hindex : m.token.index = before.length := hnumbered.index_eq (by simp [htokens])
  have hdrop : tokens.drop (m.token.index + 1) = behind.map Marked.token := by
    rw [htokens, hindex, List.drop_append]
    simp
  have hagrees := (allAgree_outline_parse h).agrees heq houtside
  rwa [hdrop, List.map_map, ← List.append_nil (List.map _ behind)]

/-- **Assignments can be told from the tokens alone.**  A keyword, a literal or a name outside the
parameter lists is followed by an assignment sign just if the scan over the tokens behind it meets
one.  Keywords and literals are written there and nowhere else.  A name without a sign is read; one
with a sign is written, unless it names a column, and it is read before that where the sign has an
operator. -/
theorem analyze_signScan (hnumbered : Token.Numbered tokens) (h : parse tokens = .ok nodes)
    {t : AnnotatedToken} (ht : t ∈ (analyze nodes).tokens) (houtside : ¬Listed nodes t.toToken) :
    let ahead := signScan ((tokens.drop (t.index + 1)).map (·.kind))
    (t.kind = .keyword ∨ t.kind.isLiteral = true →
      (t.usage = some .assignment ↔ ahead.isSome = true)) ∧
    (t.kind = .identifier →
      (t.usage = some .reference ↔ ahead = none) ∧
      (ahead ≠ none → t.usage = some .assignment ∨ t.usage = none ∧ t.role = none) ∧
      (t.reversed = true ↔ t.usage = some .assignment ∧ ahead = some true)) := by
  intro ahead
  obtain ⟨m, hm, heq⟩ := exists_marked_of_mem_analyze ht
  have htoken : t.toToken = m.token := by rw [heq, Marked.toToken_annotate]
  have hagrees : m.Agrees ahead := by
    have hscan := agrees_of_mem_marked hnumbered h hm (by rwa [← htoken])
    rwa [← htoken] at hscan
  rw [htoken, heq]
  refine ⟨fun hkind => hagrees.usage_iff hkind, fun hkind => ?_⟩
  rcases @Marked.Agrees.usage_identifier _ _ (analyze nodes).scopes.reverse hagrees hkind with
    ⟨hahead, husage, hreversed⟩ | ⟨isCompound, hahead, hwritten | hcolumn⟩
  · simp [hahead, husage, hreversed]
  · simp [hahead, hwritten]
  · simp [hahead, hcolumn]

end

/-- An assignment with an operator to a parameter, of a table with a column.  The parameter is read
before it is written, the name of the column is neither read nor written, and in the parameter list
the scan does not matter. -/
theorem analyze_signScan_column :
    let xs : List Lexeme := [⟨.opening .brace, "\x7b"⟩, ⟨.opening .bracket, "["⟩,
      ⟨.identifier, "a"⟩, ⟨.closing .bracket, "]"⟩, ⟨.identifier, "a"⟩, ⟨.operator, "+"⟩,
      ⟨.whitespace, " "⟩, ⟨.colon, ":"⟩, ⟨.opening .paren, "("⟩, ⟨.opening .bracket, "["⟩,
      ⟨.closing .bracket, "]"⟩, ⟨.identifier, "c"⟩, ⟨.colon, ":"⟩, ⟨.identifier, "b"⟩,
      ⟨.closing .paren, ")"⟩, ⟨.closing .brace, "\x7d"⟩]
    let tokens := Lexeme.layOut xs
    let ahead (index : Nat) := signScan ((tokens.drop (index + 1)).map (·.kind))
    ∃ nodes, parse tokens = .ok nodes ∧
      ((analyze nodes).tokens.filter (·.isIdentifier)).map
        (fun t => (t.text, t.usage, t.reversed, ahead t.index)) =
          [("a", none, false, none), ("a", some .assignment, true, some true),
            ("c", none, false, some false), ("b", some .reference, false, none)] ∧
      ∀ t ∈ (analyze nodes).tokens, t.kind = .identifier → 3 < t.index →
        (t.usage = some .reference ↔ ahead t.index = none) ∧
        (t.reversed = true ↔ t.usage = some .assignment ∧ ahead t.index = some true) := by
  intro xs tokens ahead
  let nodes := (parse tokens).toOption.getD []
  have hnodes : parse tokens = .ok nodes := rfl
  have hparams : (Node.all nodes).all (fun x => !x.isParams || x.tokens.all (·.index ≤ 3)) := by
    decide +kernel
  refine ⟨nodes, hnodes, by decide +kernel, fun t ht hkind hindex => ?_⟩
  have houtside : ¬Listed nodes t.toToken := by
    rintro ⟨gap, opening, params, closing, hmem, hlisted⟩
    have hbefore : ∀ u ∈ (Node.enclosed (.params gap) opening params closing).tokens,
        u.index ≤ 3 := by
      simpa [Node.isParams] using List.all_eq_true.1 hparams _ hmem
    have hle := hbefore t.toToken (by simp [Node.tokens, hlisted])
    omega
  obtain ⟨-, hname⟩ := analyze_signScan (Token.numbered_layOut xs) hnodes ht houtside
  obtain ⟨hread, -, hreversed⟩ := hname hkind
  exact ⟨hread, hreversed⟩

end QSource
