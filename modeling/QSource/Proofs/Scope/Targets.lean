/-
**The targets of assignments.**

An outline marks a leaf as written when it reaches it, by looking at what comes next and at what it
knows about columns.  A tree says the same without a walk: the leaf and the assignment sign stand in
one sequence, with nothing but blanks and comments between them.

Main definitions:

* `QSource.WrittenIn` — an assignment sign writes to a leaf of a sequence;
* `QSource.IsTarget` — **the same anywhere in a tree**, as far as some of its nodes are looked into;
* `QSource.IsWritten` — some assignment sign of a tree writes to a token, which can be decided.

Main results:

* `QSource.exists_isTarget_of_mark` — a token that is marked as a target is one;
* `QSource.exists_marked_of_isTarget` — a target is marked by its assignment sign;
* `QSource.mark_of_isTarget` — a name that is a target is marked as one, or as a column.
-/

import Mathlib.Data.List.Nodup
import QSource.Proofs.Scope.Regions

set_option relaxedAutoImplicit false
set_option autoImplicit false

namespace QSource

open Node (outlineAll outside outsideSubtrees)

/-! ### Targets in a tree -/

/-- The sign `a` writes to the leaf of `t`: it comes next in the sequence, blanks and comments
aside. -/
def WrittenIn (nodes : List Node) (t : Token) (a : Assignment) : Prop :=
  ∃ before form gap behind, nodes = before ++ .leaf form t :: (gap ++ .assignment a :: behind) ∧
    ∀ x ∈ gap, x.isSpace = true

/-- The sign `a` writes to the leaf of `t` in what one of the nodes encloses. -/
def WrittenBelow (among : List Node) (t : Token) (a : Assignment) : Prop :=
  ∃ form first items last, .enclosed form first items last ∈ among ∧ WrittenIn items t a

/-- **The token `t` is the target of the assignment sign `a`**, in the sequence `nodes` or in what one
of the nodes `among` encloses. -/
def IsTarget (among nodes : List Node) (t : Token) (a : Assignment) : Prop :=
  WrittenIn nodes t a ∨ WrittenBelow among t a

theorem WrittenBelow.mono {among among' : List Node} (h : among ⊆ among') {t : Token}
    {a : Assignment} (hw : WrittenBelow among t a) : WrittenBelow among' t a := by
  obtain ⟨form, first, items, last, hmem, hwritten⟩ := hw
  exact ⟨form, first, items, last, h hmem, hwritten⟩

theorem WrittenIn.cons {nodes : List Node} {t : Token} {a : Assignment} (h : WrittenIn nodes t a)
    (node : Node) : WrittenIn (node :: nodes) t a := by
  obtain ⟨before, form, gap, behind, rfl, hgap⟩ := h
  exact ⟨node :: before, form, gap, behind, rfl, hgap⟩

/-- A target among the items of a node that is no parameter list is a target below it. -/
theorem IsTarget.below {form : Enclosure} {first last : Token} {items : List Node} {t : Token}
    {a : Assignment} (hform : ∀ gap, form ≠ .params gap) (h : IsTarget (outside items) items t a) :
    WrittenBelow (outsideSubtrees (.enclosed form first items last)) t a := by
  rw [Node.outsideSubtrees_enclosed hform]
  rcases h with h | h
  · exact ⟨form, first, items, last, List.mem_cons_self .., h⟩
  · exact h.mono (List.subset_cons_self _ _)

theorem signAhead?_eq_some {rest : List Node} {a : Assignment} :
    signAhead? rest = some a ↔
      ∃ gap behind, rest = gap ++ .assignment a :: behind ∧ ∀ x ∈ gap, x.isSpace = true := by
  fun_induction signAhead? rest with
  | case1 token rest ih =>
      rw [ih]
      constructor
      · rintro ⟨gap, behind, rfl, hgap⟩
        exact ⟨.leaf .space token :: gap, behind, rfl, List.forall_mem_cons.2 ⟨rfl, hgap⟩⟩
      · rintro ⟨gap, behind, heq, hgap⟩
        cases gap with
        | nil => simp at heq
        | cons x gap =>
            rw [List.cons_append, List.cons.injEq] at heq
            exact ⟨gap, behind, heq.2, (List.forall_mem_cons.1 hgap).2⟩
  | case2 sign rest =>
      constructor
      · rintro ⟨⟩
        exact ⟨[], rest, rfl, by simp⟩
      · rintro ⟨gap, behind, heq, hgap⟩
        cases gap with
        | nil =>
            rw [List.nil_append, List.cons.injEq, Node.assignment.injEq] at heq
            rw [heq.1]
        | cons x gap =>
            rw [List.cons_append, List.cons.injEq] at heq
            have hx := hgap x (List.mem_cons_self ..)
            simp [← heq.1, Node.isSpace] at hx
  | case3 rest hspace hsign =>
      constructor
      · intro h
        simp at h
      · rintro ⟨gap, behind, rfl, hgap⟩
        cases gap with
        | nil => exact absurd rfl (hsign a behind)
        | cons x gap =>
            have hx := hgap x (List.mem_cons_self ..)
            unfold Node.isSpace at hx
            split at hx
            · next token => exact absurd rfl (hspace token (gap ++ .assignment a :: behind))
            · simp at hx

/-! ### Deciding what is written -/

/-- The nodes that a node encloses. -/
def Node.items : Node → List Node
  | .enclosed _ _ items _ => items
  | _ => []

/-- The tokens of the leaves of a sequence that an assignment sign writes to. -/
def writtenLeaves : List Node → List Token
  | [] => []
  | .leaf _ t :: rest => (if (signAhead? rest).isSome then [t] else []) ++ writtenLeaves rest
  | _ :: rest => writtenLeaves rest

theorem mem_writtenLeaves {nodes : List Node} {t : Token} :
    t ∈ writtenLeaves nodes ↔ ∃ a, WrittenIn nodes t a := by
  have hcons : ∀ (node : Node) (rest : List Node), (∃ a, WrittenIn (node :: rest) t a) ↔
      ((∃ form, node = .leaf form t) ∧ (signAhead? rest).isSome) ∨ ∃ a, WrittenIn rest t a := by
    intro node rest
    constructor
    · rintro ⟨a, before, form, gap, behind, heq, hgap⟩
      rcases List.cons_eq_append_iff.1 heq with ⟨rfl, hcons⟩ | ⟨before', rfl, rfl⟩
      · obtain ⟨rfl, rfl⟩ := List.cons.inj hcons
        exact Or.inl ⟨⟨form, rfl⟩, Option.isSome_of_eq_some
          (signAhead?_eq_some.2 ⟨gap, behind, rfl, hgap⟩)⟩
      · exact Or.inr ⟨a, before', form, gap, behind, rfl, hgap⟩
    · rintro (⟨⟨form, rfl⟩, hsign⟩ | ⟨a, hwritten⟩)
      · obtain ⟨a, ha⟩ := Option.isSome_iff_exists.1 hsign
        obtain ⟨gap, behind, rfl, hgap⟩ := signAhead?_eq_some.1 ha
        exact ⟨a, [], form, gap, behind, rfl, hgap⟩
      · exact ⟨a, hwritten.cons node⟩
  induction nodes with
  | nil => simp [writtenLeaves, WrittenIn]
  | cons node rest ih =>
      rw [hcons]
      cases node with
      | leaf form u =>
          rw [writtenLeaves, List.mem_append]
          refine or_congr ?_ ih
          by_cases hsign : (signAhead? rest).isSome = true <;> simp [hsign, eq_comm]
      | _ => exact ih.trans (or_iff_right (by simp)).symm

/-- **An assignment sign writes to the token**, outside parameter lists. -/
def IsWritten (nodes : List Node) (t : Token) : Prop :=
  ∃ a, IsTarget (Node.outside nodes) nodes t a

theorem isWritten_iff {nodes : List Node} {t : Token} :
    IsWritten nodes t ↔
      t ∈ writtenLeaves nodes ∨ ∃ x ∈ Node.outside nodes, t ∈ writtenLeaves x.items := by
  simp only [IsWritten, IsTarget, exists_or, mem_writtenLeaves, WrittenBelow]
  refine or_congr_right ⟨?_, ?_⟩
  · rintro ⟨a, form, first, items, last, hmem, hwritten⟩
    exact ⟨_, hmem, a, hwritten⟩
  · rintro ⟨x, hx, a, hwritten⟩
    cases x with
    | enclosed form first items last => exact ⟨a, form, first, items, last, hx, hwritten⟩
    | _ => simp [Node.items, WrittenIn] at hwritten

instance (nodes : List Node) (t : Token) : Decidable (IsWritten nodes t) :=
  decidable_of_iff _ isWritten_iff.symm

/-! ### Marks and outlines -/

theorem LeafForm.exists_of_mark {form : LeafForm} {query : Bool} {sign : Option Assignment}
    {isGlobal isCompound : Bool} (h : form.mark query sign = .target isGlobal isCompound) :
    ∃ a, sign = some a ∧ form.mark query sign = .target a.isGlobal a.isCompound := by
  cases sign with
  | none => cases form <;> simp [LeafForm.mark] at h
  | some a =>
      refine ⟨a, rfl, ?_⟩
      cases form <;> cases query <;> simp [LeafForm.mark] at h ⊢

/-- What a node encloses is outlined between its delimiters, unless it is a parameter list.  A lambda
opens a region before that. -/
theorem exists_outline_enclosed {form : Enclosure} (hform : ∀ gap, form ≠ .params gap)
    (first : Token) (items : List Node) (last : Token) (scope : Option ScopeId) (next : Nat)
    (query : Bool) (sign : Option Assignment) :
    ∃ regions scope' initial' query',
      (Node.enclosed form first items last).outline scope next query sign =
        ⟨[], regions⟩ ++ .ofTokens scope' .plain [first] ++
          outlineAll scope' (next + regions.length) false initial' query' items ++
          .ofTokens scope' .plain [last] := by
  cases form with
  | params gap => exact absurd rfl (hform gap)
  | bracket => exact ⟨[], scope, query, query, by simp [Node.outline]; rfl⟩
  | group =>
      exact ⟨[], scope, query || isTable items, query || isTable items, by simp [Node.outline]; rfl⟩
  | lambda =>
      exact ⟨[⟨next, scope, first.index, last.index, declaredParams items⟩], some next, false, false,
        by simp [Node.outline]⟩

theorem exists_marked_enclosed {form : Enclosure} (hform : ∀ gap, form ≠ .params gap)
    (first : Token) (items : List Node) (last : Token) (scope : Option ScopeId) (next : Nat)
    (query : Bool) (sign : Option Assignment) :
    ∃ scope' next' initial' query',
      ((Node.enclosed form first items last).outline scope next query sign).marked =
        ⟨first, scope', .plain⟩ :: (outlineAll scope' next' false initial' query' items).marked ++
          [⟨last, scope', .plain⟩] := by
  obtain ⟨regions, scope', initial', query', houtline⟩ :=
    exists_outline_enclosed hform first items last scope next query sign
  exact ⟨scope', next + regions.length, initial', query', by simp [houtline]⟩

theorem Enclosure.params_or (form : Enclosure) :
    (∃ gap, form = .params gap) ∨ ∀ gap, form ≠ .params gap := by
  cases form <;> simp

/-! ### From marks to targets -/

section

variable {m : Marked} {isGlobal isCompound : Bool}

theorem mark_ofTokens {scope : Option ScopeId} {mark : Mark} {tokens : List Token}
    (h : m ∈ (Outline.ofTokens scope mark tokens).marked) : m.mark = mark := by
  rw [Outline.marked_ofTokens] at h
  obtain ⟨t, -, rfl⟩ := List.mem_map.1 h
  rfl

theorem not_target_of_mem_paramOutlines {scope : Option ScopeId} {items : List Node}
    (h : m ∈ (items.map (Node.paramOutline scope)).flatMap Outline.marked) :
    m.mark ≠ .target isGlobal isCompound := by
  obtain ⟨o, ho, hm⟩ := List.mem_flatMap.1 h
  obtain ⟨item, -, rfl⟩ := List.mem_map.1 ho
  unfold Node.paramOutline at hm
  split at hm <;> simp [mark_ofTokens hm]

mutual

theorem exists_of_mark_outline (hmark : m.mark = .target isGlobal isCompound)
    (scope : Option ScopeId) (next : Nat) (query : Bool) (sign : Option Assignment) :
    ∀ node : Node, m ∈ (node.outline scope next query sign).marked →
      ∃ a, m.mark = .target a.isGlobal a.isCompound ∧
        ((∃ form, node = .leaf form m.token ∧ sign = some a) ∨
          WrittenBelow node.outsideSubtrees m.token a)
  | .leaf form token, h => by
      rw [Node.outline, Outline.marked_ofTokens, List.map_singleton, List.mem_singleton] at h
      subst h
      obtain ⟨a, hsign, ha⟩ := LeafForm.exists_of_mark hmark
      exact ⟨a, ha, Or.inl ⟨form, rfl, hsign⟩⟩
  | .assignment parts, h => by
      rw [Node.outline] at h
      simp [mark_ofTokens h] at hmark
  | .quoted first content last, h => by
      rw [Node.outline] at h
      simp [mark_ofTokens h] at hmark
  | .enclosed form first items last, h => by
      rcases form.params_or with ⟨gap, rfl⟩ | hform
      · simp only [Node.outline, Outline.marked_append, Outline.marked_foldr, List.mem_append] at h
        rcases h with (h | h) | h
        · simp [mark_ofTokens h] at hmark
        · exact absurd hmark (not_target_of_mem_paramOutlines h)
        · simp [mark_ofTokens h] at hmark
      · obtain ⟨scope', next', initial', query', hmarked⟩ :=
          exists_marked_enclosed hform first items last scope next query sign
        rw [hmarked] at h
        -- the delimiters are no targets, so the token is one of the items
        have hm : m ∈ (outlineAll scope' next' false initial' query' items).marked := by
          rcases List.mem_append.1 h with h | h
          · rcases List.mem_cons.1 h with rfl | h
            · simp at hmark
            · exact h
          · rw [List.mem_singleton] at h
            simp [h] at hmark
        obtain ⟨a, ha, htarget⟩ := exists_of_mark_outlineAll hmark _ _ _ _ _ items hm
        exact ⟨a, ha, Or.inr (htarget.below hform)⟩

theorem exists_of_mark_outlineAll (hmark : m.mark = .target isGlobal isCompound)
    (scope : Option ScopeId) (next : Nat) (script initial query : Bool) :
    ∀ nodes : List Node, m ∈ (outlineAll scope next script initial query nodes).marked →
      ∃ a, m.mark = .target a.isGlobal a.isCompound ∧ IsTarget (outside nodes) nodes m.token a
  | [], h => by simp [outlineAll, Outline.empty] at h
  | node :: rest, h => by
      rw [outlineAll, Outline.marked_append, List.mem_append] at h
      rw [outside]
      rcases h with h | h
      · obtain ⟨a, ha, ⟨form, rfl, hsign⟩ | hbelow⟩ :=
          exists_of_mark_outline hmark scope next query _ node h
        · obtain ⟨gap, behind, rfl, hgap⟩ := signAhead?_eq_some.1 hsign
          exact ⟨a, ha, Or.inl ⟨[], form, gap, behind, rfl, hgap⟩⟩
        · exact ⟨a, ha, Or.inr (hbelow.mono (List.subset_append_left _ _))⟩
      · obtain ⟨a, ha, hin | hbelow⟩ := exists_of_mark_outlineAll hmark scope _ script initial _ rest h
        · exact ⟨a, ha, Or.inl (hin.cons node)⟩
        · exact ⟨a, ha, Or.inr (hbelow.mono (List.subset_append_right _ _))⟩

end

/-- **A token that is marked as a target is one.** -/
theorem exists_isTarget_of_mark {nodes : List Node} (hm : m ∈ (outline nodes).marked)
    (hmark : m.mark = .target isGlobal isCompound) :
    ∃ a, m.mark = .target a.isGlobal a.isCompound ∧ IsTarget (outside nodes) nodes m.token a :=
  exists_of_mark_outlineAll hmark none 0 true false false nodes hm

end

/-! ### From targets to marks -/

/-- A leaf before an assignment sign of its sequence is marked by that sign. -/
theorem exists_marked_of_writtenIn {nodes : List Node} {t : Token} {a : Assignment}
    (h : WrittenIn nodes t a) (hfits : ∀ x ∈ nodes, x.Fits) (scope : Option ScopeId) (next : Nat)
    (script initial query : Bool) :
    ∃ m ∈ (outlineAll scope next script initial query nodes).marked, m.token = t ∧
      ∃ form query', t.kind.leafForm? = some form ∧ m.mark = form.mark query' (some a) := by
  obtain ⟨before, form, gap, behind, rfl, hgap⟩ := h
  induction before generalizing next query with
  | nil =>
      have hsign : signAhead? (gap ++ .assignment a :: behind) = some a :=
        signAhead?_eq_some.2 ⟨gap, behind, rfl, hgap⟩
      refine ⟨⟨t, scope, form.mark query (some a)⟩, ?_, rfl, form, query, ?_, rfl⟩
      · rw [List.nil_append, outlineAll, hsign]
        simp [Node.outline]
      · exact hfits (.leaf form t) (List.mem_cons_self ..)
  | cons node before ih =>
      -- what comes before the leaf changes no more than the numbers and whether columns are named
      rw [List.cons_append] at hfits ⊢
      obtain ⟨m, hm, hmark⟩ := ih _ _ fun x hx => hfits x (List.mem_cons_of_mem _ hx)
      refine ⟨m, ?_, hmark⟩
      rw [outlineAll]
      exact List.mem_append_right _ hm

mutual

theorem exists_outlineAll_of_mem_outsideSubtrees {form : Enclosure} {first last : Token}
    {items : List Node} (scope : Option ScopeId) (next : Nat) (query : Bool)
    (sign : Option Assignment) : ∀ node : Node,
    .enclosed form first items last ∈ node.outsideSubtrees →
      ∃ scope' next' initial' query', (outlineAll scope' next' false initial' query' items).marked ⊆
        (node.outline scope next query sign).marked
  | .leaf _ _, h | .assignment _, h | .quoted _ _ _, h => by simp [outsideSubtrees] at h
  | .enclosed form' first' items' last', h => by
      rcases form'.params_or with ⟨gap, rfl⟩ | hform
      · simp [outsideSubtrees] at h
      · obtain ⟨scope', next', initial', query', hmarked⟩ :=
          exists_marked_enclosed hform first' items' last' scope next query sign
        have hitems : (outlineAll scope' next' false initial' query' items').marked ⊆
            (Node.outline scope next query sign (.enclosed form' first' items' last')).marked := by
          intro m hm
          rw [hmarked]
          exact List.mem_append_left _ (List.mem_cons_of_mem _ hm)
        rw [Node.outsideSubtrees_enclosed hform, List.mem_cons] at h
        rcases h with h | h
        · obtain ⟨-, -, rfl, -⟩ := Node.enclosed.inj h
          exact ⟨scope', next', initial', query', hitems⟩
        · obtain ⟨_, _, _, _, hsub⟩ :=
            exists_outlineAll_of_mem_outside scope' next' false initial' query' items' h
          exact ⟨_, _, _, _, List.Subset.trans hsub hitems⟩

/-- The outline of a tree holds the outlines of all that its nodes enclose. -/
theorem exists_outlineAll_of_mem_outside {form : Enclosure} {first last : Token}
    {items : List Node} (scope : Option ScopeId) (next : Nat) (script initial query : Bool) :
    ∀ nodes : List Node, .enclosed form first items last ∈ outside nodes →
      ∃ scope' next' initial' query', (outlineAll scope' next' false initial' query' items).marked ⊆
        (outlineAll scope next script initial query nodes).marked
  | [], h => by simp [outside] at h
  | node :: rest, h => by
      rw [outside, List.mem_append] at h
      rw [outlineAll, Outline.marked_append]
      rcases h with h | h
      · obtain ⟨_, _, _, _, hsub⟩ :=
          exists_outlineAll_of_mem_outsideSubtrees scope next query (signAhead? rest) node h
        exact ⟨_, _, _, _, List.Subset.trans hsub (List.subset_append_left _ _)⟩
      · obtain ⟨_, _, _, _, hsub⟩ := exists_outlineAll_of_mem_outside _ _ script initial _ rest h
        exact ⟨_, _, _, _, List.Subset.trans hsub (List.subset_append_right _ _)⟩

end

section

variable {tokens : List Token} {nodes : List Node}

/-- A token has one mark. -/
theorem marked_eq_of_token_eq (hnumbered : Token.Numbered tokens) (h : parse tokens = .ok nodes)
    {m m' : Marked} (hm : m ∈ (outline nodes).marked)
    (hm' : m' ∈ (outline nodes).marked) (heq : m.token = m'.token) : m = m' := by
  have htokens : (outline nodes).marked.map Marked.token = tokens := by
    rw [outline, Node.token_outlineAll, allTokens_parse h]
  have hnodup : ((outline nodes).marked.map Marked.token).Nodup := by
    rw [htokens]
    refine List.Nodup.of_map (·.index) ?_
    rw [hnumbered]
    exact List.nodup_range
  exact List.inj_on_of_nodup_map hnodup hm hm' heq

/-- A target is marked by its assignment sign. -/
theorem exists_marked_of_isTarget (h : parse tokens = .ok nodes) {t : Token} {a : Assignment}
    (htarget : IsTarget (outside nodes) nodes t a) :
    ∃ m ∈ (outline nodes).marked, m.token = t ∧
      ∃ form query, t.kind.leafForm? = some form ∧ m.mark = form.mark query (some a) := by
  rcases htarget with hin | ⟨form, first, items, last, hmem, hin⟩
  · exact exists_marked_of_writtenIn hin
      (fun x hx => fits_parse h x (Node.mem_all_of_mem hx)) none 0 true false false
  · have hitems : ∀ x ∈ items, x.Fits := by
      intro x hx
      exact fits_parse h x
        (Node.mem_all_items (Node.mem_all_of_mem hx) nodes (Node.outside_subset nodes hmem))
    obtain ⟨scope, next, initial, query, hsub⟩ :=
      exists_outlineAll_of_mem_outside none 0 true false false nodes hmem
    obtain ⟨m, hm, hmark⟩ := exists_marked_of_writtenIn hin hitems scope next false initial query
    exact ⟨m, hsub hm, hmark⟩

/-- **A name that is a target is marked as one, or as a column.** -/
theorem mark_of_isTarget (hnumbered : Token.Numbered tokens) (h : parse tokens = .ok nodes)
    {m : Marked} (hm : m ∈ (outline nodes).marked) (hkind : m.token.kind = .identifier)
    {a : Assignment} (htarget : IsTarget (outside nodes) nodes m.token a) :
    m.mark = .column ∨ m.mark = .target a.isGlobal a.isCompound := by
  -- some occurrence of the token has the right mark, and there is only one occurrence
  obtain ⟨m', hm', htoken, form, query, hform, hmark⟩ := exists_marked_of_isTarget h htarget
  rw [← marked_eq_of_token_eq hnumbered h hm' hm htoken, hmark]
  rw [hkind] at hform
  obtain rfl : form = .identifier := (Option.some.inj hform).symm
  cases query <;> simp [LeafForm.mark]

end

end QSource
