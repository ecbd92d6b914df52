/-
**Every scope has a budget of its own.**

A rule on sizes hands over its things in one row, those of all scopes mixed.  For each scope that has
more distinct keys than allowed, the row has one place at which the number of its keys comes to be one
more than that, and the rule blames the tokens at these places, in order.  The scopes do not disturb
one another: what is blamed for a scope is what would be blamed if its things stood alone, and neither
things that repeat a key nor things behind the place change it.

So it does no harm to stop counting for a scope once it has too many keys.

Main definitions:

* `QSource.excessPlace` — the place of the thing with which a scope has one key too many;
* `QSource.excessToken` — the token there;
* `QSource.OwnBudget` — **what is blamed for one scope** among the things of all of them;
* `QSource.cappedExcess` — the tokens to blame, where the keys of a scope are no longer kept once there
  are too many.

Main results:

* `QSource.excessPlace_eq_some` — at that place stands the thing that is one too many;
* `QSource.excessesFrom_eq_filter_zipIdx`, `QSource.filter_scope_excessesFrom` — the things that are one
  too many, by their places and by their scopes;
* `QSource.cappedExcess_eq` — **nothing is lost by no longer counting**;
* `QSource.firstExcess_by_scope` — **every scope has a budget of its own**.
-/

import QSource.Proofs.Lint.Counting

set_option relaxedAutoImplicit false
set_option autoImplicit false

namespace QSource

variable {κ : Type} [DecidableEq κ]

/-! ### Places -/

/-- The place of the thing with which the number of distinct keys of a scope first becomes one more than
the limit. -/
def excessPlace (limit : Nat) (scope : ScopeId) (items : List (Counted κ)) : Option Nat :=
  (List.range items.length).find? fun i => (keysOf scope (items.take (i + 1))).card = limit + 1

/-- The token of that thing. -/
def excessToken (limit : Nat) (scope : ScopeId) (items : List (Counted κ)) : Option AnnotatedToken :=
  (excessPlace limit scope items).bind fun i => items[i]?.map Counted.token

/-- A thing brings one key at most. -/
theorem card_keysOf_concat_le (scope : ScopeId) (items : List (Counted κ)) (item : Counted κ) :
    (keysOf scope (items ++ [item])).card ≤ (keysOf scope items).card + 1 := by
  by_cases hscope : item.scope = scope
  · subst hscope
    rw [keysOf_concat_self]
    exact Finset.card_insert_le _ _
  · rw [keysOf_concat_of_ne hscope]
    exact Nat.le_succ _

/-- **At that place stands the thing that is one too many of its scope**: the number of keys grows by
steps of one, so it does not pass the limit before it becomes one more. -/
theorem excessPlace_eq_some {limit i : Nat} {scope : ScopeId} {items : List (Counted κ)} :
    excessPlace limit scope items = some i ↔ ∃ before item behind,
      items = before ++ item :: behind ∧ before.length = i ∧ item.scope = scope ∧
        Exceeds limit before item := by
  simp only [excessPlace, List.find?_range_eq_some, decide_eq_true_eq, Bool.not_eq_true',
    decide_eq_false_iff_not]
  constructor
  · rintro ⟨hcard, hi, hbefore⟩
    have hi : i < items.length := List.mem_range.1 hi
    have hle : ∀ j ≤ i, (keysOf scope (items.take j)).card ≤ limit := by
      intro j hj
      induction j with
      | zero => simp
      | succ j ih =>
          have hstep := card_keysOf_concat_le scope (items.take j) items[j]
          rw [List.take_concat_get' _ _ (by omega)] at hstep
          have hne := hbefore j hj
          have hprev := ih (by omega)
          omega
    have hlt : limit < (keysOf scope (items.take i ++ [items[i]])).card := by
      rw [List.take_concat_get' _ _ hi, hcard]
      exact Nat.lt_succ_self limit
    exact ⟨items.take i, items[i], items.drop (i + 1), by simp, by simp [hi.le],
      exceeds_of_card_lt (hle i le_rfl) hlt⟩
  · rintro ⟨before, item, behind, rfl, rfl, rfl, hexceeds⟩
    obtain ⟨hcard, hnew⟩ := exceeds_iff.1 hexceeds
    refine ⟨?_, by simp, fun j hj => ?_⟩
    · have htake : (before ++ item :: behind).take (before.length + 1) = before ++ [item] := by
        simp [List.take_append, List.take_of_length_le]
      rw [htake, keysOf_concat_self, Finset.card_insert_of_notMem hnew, hcard]
    · have hprefix := card_keysOf_le_append item.scope (before.take (j + 1)) (before.drop (j + 1))
      rw [List.take_append_drop, hcard] at hprefix
      rw [List.take_append_of_le_length (by omega)]
      omega

/-- Among the things of all scopes, the thing that is one too many of a scope is the first up to which
there are more keys than the limit. -/
theorem excessToken_eq (limit : Nat) (scope : ScopeId) (items : List (Counted κ)) :
    excessToken limit scope items =
      (firstAbove limit (fun items => (keysOf scope items).card) items).map Counted.token := by
  ext t
  simp only [excessToken, Option.bind_eq_some_iff, Option.map_eq_some_iff, excessPlace_eq_some,
    firstAbove_eq_some (Nat.zero_le limit) (card_keysOf_le_append _)]
  constructor
  · rintro ⟨_, ⟨before, item, behind, rfl, rfl, rfl, hexceeds⟩, found, hfound, rfl⟩
    obtain rfl : item = found := by simpa using hfound
    exact ⟨item, ⟨before, behind, rfl, hexceeds.card_le, hexceeds.lt_card⟩, rfl⟩
  · rintro ⟨item, ⟨before, behind, rfl, hle, hlt⟩, rfl⟩
    exact ⟨before.length, ⟨before, item, behind, rfl, rfl, exceeds_of_card_lt hle hlt⟩, item, by simp,
      rfl⟩

/-- There is such a place just if the scope has more keys than the limit. -/
theorem isSome_excessPlace_iff (limit : Nat) (scope : ScopeId) (items : List (Counted κ)) :
    (excessPlace limit scope items).isSome ↔ limit < (keysOf scope items).card := by
  rw [← isSome_firstAbove_iff (Nat.zero_le limit) (card_keysOf_le_append scope)]
  simp only [Option.isSome_iff_exists, excessPlace_eq_some,
    firstAbove_eq_some (Nat.zero_le limit) (card_keysOf_le_append scope)]
  constructor
  · rintro ⟨_, before, item, behind, heq, -, rfl, hexceeds⟩
    exact ⟨item, before, behind, heq, hexceeds.card_le, hexceeds.lt_card⟩
  · rintro ⟨item, before, behind, heq, hle, hlt⟩
    exact ⟨_, before, item, behind, heq, rfl, exceeds_of_card_lt hle hlt⟩

/-! ### In the order of the things -/

/-- **The things that are one too many, by their places.** -/
theorem excessesFrom_eq_filter_zipIdx (limit : Nat) (before items : List (Counted κ)) :
    excessesFrom limit before items = ((items.zipIdx before.length).filter fun (item, i) =>
      excessPlace limit item.scope (before ++ items) = some i).map Prod.fst := by
  induction items generalizing before with
  | nil => rfl
  | cons item rest ih =>
      have hplace : excessPlace limit item.scope (before ++ item :: rest) = some before.length ↔
          Exceeds limit before item := by
        rw [excessPlace_eq_some]
        constructor
        · rintro ⟨before', item', behind, heq, hlength, -, hexceeds⟩
          obtain ⟨rfl, hcons⟩ := List.append_inj heq hlength.symm
          obtain ⟨rfl, -⟩ := List.cons.inj hcons
          exact hexceeds
        · intro hexceeds
          exact ⟨before, item, rest, rfl, rfl, rfl, hexceeds⟩
      have hrest := ih (before ++ [item])
      rw [List.length_append, List.length_singleton, List.append_assoc, List.singleton_append] at hrest
      rw [excessesFrom, List.zipIdx_cons, List.filter_cons, hrest]
      by_cases hexceeds : Exceeds limit before item
      · simp [hexceeds, hplace.2 hexceeds]
      · simp [hexceeds, mt hplace.1 hexceeds]

/-! ### Scope by scope -/

/-- Behind the thing that is one too many of a scope there is no other one. -/
theorem pairwise_scope_excessesFrom (limit : Nat) (before items : List (Counted κ)) :
    (excessesFrom limit before items).Pairwise fun a b => a.scope ≠ b.scope := by
  induction items generalizing before with
  | nil => exact .nil
  | cons item rest ih =>
      rw [excessesFrom]
      split
      · next hexceeds =>
        refine List.pairwise_cons.2 ⟨fun later hlater hscope => ?_, ih _⟩
        obtain ⟨middle, behind, -, hle, -⟩ := mem_excessesFrom_iff.1 hlater
        have hmore := card_keysOf_le_append item.scope (before ++ [item]) middle
        have hlt := hexceeds.lt_card
        rw [hscope] at hmore hlt
        omega
      · exact ih _

/-- A list without repetitions that holds one thing at most. -/
theorem eq_toList_of_mem_iff {α : Type} {xs : List α} (hnodup : xs.Nodup) {o : Option α}
    (h : ∀ x, x ∈ xs ↔ o = some x) : xs = o.toList := by
  cases o with
  | none => exact List.eq_nil_iff_forall_not_mem.2 fun x hx => by simpa using (h x).1 hx
  | some y =>
      refine List.perm_singleton.1 ((List.perm_ext_iff_of_nodup hnodup (List.nodup_singleton y)).2 ?_)
      intro x
      rw [h, Option.some.injEq, List.mem_singleton, eq_comm]

/-- **The things that are one too many, by their scopes**: there is one at most for each. -/
theorem filter_scope_excessesFrom (limit : Nat) (scope : ScopeId) (items : List (Counted κ)) :
    (excessesFrom limit [] items).filter (fun item => item.scope == scope) =
      (firstAbove limit (fun items => (keysOf scope items).card) items).toList := by
  refine eq_toList_of_mem_iff ?_ fun item => ?_
  · refine ((pairwise_scope_excessesFrom limit [] items).filter _).imp ?_
    rintro a b hne rfl
    exact hne rfl
  · rw [List.mem_filter, mem_excessesFrom_iff, beq_iff_eq,
      firstAbove_eq_some (Nat.zero_le limit) (card_keysOf_le_append _)]
    constructor
    · rintro ⟨⟨before, behind, rfl, hexceeds⟩, rfl⟩
      exact ⟨before, behind, rfl, hexceeds.card_le, hexceeds.lt_card⟩
    · rintro ⟨before, behind, rfl, hle, hlt⟩
      obtain ⟨hscope, hexceeds⟩ := exceeds_of_card_lt hle hlt
      exact ⟨⟨before, behind, rfl, hexceeds⟩, hscope⟩

/-- The token of a scope is told by the things that are one too many. -/
theorem toList_excessToken (limit : Nat) (scope : ScopeId) (items : List (Counted κ)) :
    (excessToken limit scope items).toList =
      ((excessesFrom limit [] items).filter (fun item => item.scope == scope)).map Counted.token := by
  rw [filter_scope_excessesFrom, excessToken_eq, Option.toList_map]

/-- The keys of a scope are those of its own things. -/
theorem keysOf_filter_scope (scope : ScopeId) (items : List (Counted κ)) :
    keysOf scope (items.filter fun item => item.scope == scope) = keysOf scope items := by
  rw [keysOf, List.filter_filter]
  simp [keysOf]

/-- The things of other scopes make no difference to the token of a scope. -/
theorem excessToken_filter_scope (limit : Nat) (scope : ScopeId) (items : List (Counted κ)) :
    excessToken limit scope (items.filter fun item => item.scope == scope) =
      excessToken limit scope items := by
  rw [excessToken_eq, excessToken_eq,
    ← firstAbove_filter (Nat.zero_le limit) (card_keysOf_le_append scope)]
  simp only [keysOf_filter_scope]

/-! ### Repeated keys -/

theorem excessesFrom_append (limit : Nat) (before items items' : List (Counted κ)) :
    excessesFrom limit before (items ++ items') =
      excessesFrom limit before items ++ excessesFrom limit (before ++ items) items' := by
  induction items generalizing before with
  | nil => rw [List.nil_append, excessesFrom, List.nil_append, List.append_nil]
  | cons item rest ih =>
      rw [List.cons_append, excessesFrom, excessesFrom, ih, List.append_assoc, List.append_assoc,
        List.singleton_append]

/-- What stands before counts by its keys alone. -/
theorem excessesFrom_congr {limit : Nat} {before before' items : List (Counted κ)}
    (h : ∀ scope, keysOf scope before = keysOf scope before') :
    excessesFrom limit before items = excessesFrom limit before' items := by
  induction items generalizing before before' with
  | nil => rfl
  | cons item rest ih =>
      have hexceeds : Exceeds limit before item ↔ Exceeds limit before' item := by
        rw [exceeds_iff, exceeds_iff, h]
      have hnext : ∀ scope, keysOf scope (before ++ [item]) = keysOf scope (before' ++ [item]) := by
        intro scope
        by_cases hscope : item.scope = scope
        · subst hscope
          rw [keysOf_concat_self, keysOf_concat_self, h]
        · rw [keysOf_concat_of_ne hscope, keysOf_concat_of_ne hscope, h]
      rw [excessesFrom, excessesFrom, ih hnext, if_congr hexceeds rfl rfl]

/-- A thing whose key is known already makes no difference. -/
theorem excessesFrom_repeated {limit : Nat} {before behind : List (Counted κ)} {item : Counted κ}
    (h : item.key ∈ keysOf item.scope before) :
    excessesFrom limit [] (before ++ item :: behind) = excessesFrom limit [] (before ++ behind) := by
  have hnot : ¬ Exceeds limit before item := fun hexceeds => (exceeds_iff.1 hexceeds).2 h
  rw [excessesFrom_append, excessesFrom_append, List.nil_append, excessesFrom, if_neg hnot,
    List.nil_append, excessesFrom_congr (keysOf_concat_of_mem h)]

/-! ### When to stop counting -/

/-- The tokens to blame, where a set of keys is kept for each scope and nothing is added to it any more
once it is above the limit. -/
def cappedExcess (limit : Nat) (kept : ScopeId → Finset κ) :
    List (Counted κ) → List AnnotatedToken
  | [] => []
  | item :: rest =>
    if limit < (kept item.scope).card then cappedExcess limit kept rest
    else
      (if item.key ∉ kept item.scope ∧ limit < (insert item.key (kept item.scope)).card then
        [item.token] else []) ++
        cappedExcess limit
          (Function.update kept item.scope (insert item.key (kept item.scope))) rest

/-- What is kept of the things before: for each scope all of its keys, or too many of them. -/
def Keeps (limit : Nat) (kept : ScopeId → Finset κ) (before : List (Counted κ)) : Prop :=
  ∀ scope, kept scope = keysOf scope before ∨
    limit < (kept scope).card ∧ limit < (keysOf scope before).card

namespace Keeps

variable {limit : Nat} {kept : ScopeId → Finset κ} {before : List (Counted κ)} {item : Counted κ}

theorem nil : Keeps limit (fun _ => (∅ : Finset κ)) [] := fun _ => Or.inl rfl

/-- There are too many keys of a scope just if too many are kept. -/
theorem lt_card_iff (h : Keeps limit kept before) (scope : ScopeId) :
    limit < (kept scope).card ↔ limit < (keysOf scope before).card := by
  rcases h scope with heq | ⟨hkept, hkeys⟩
  · rw [heq]
  · exact iff_of_true hkept hkeys

/-- What is kept of a scope that does not have too many keys is all of them. -/
theorem eq_keysOf (h : Keeps limit kept before) {scope : ScopeId} (hle : ¬ limit < (kept scope).card) :
    kept scope = keysOf scope before :=
  (h scope).resolve_right fun hlt => hle hlt.1

/-- Of a scope with too many keys nothing more need be kept. -/
theorem concat_of_lt (h : Keeps limit kept before) (hlt : limit < (kept item.scope).card) :
    Keeps limit kept (before ++ [item]) := by
  intro scope
  by_cases hscope : item.scope = scope
  · subst hscope
    exact Or.inr ⟨hlt, Nat.lt_of_lt_of_le ((h.lt_card_iff _).1 hlt) (card_keysOf_le_append _ _ _)⟩
  · rw [keysOf_concat_of_ne hscope]
    exact h scope

theorem concat_of_not_lt (h : Keeps limit kept before) (hle : ¬ limit < (kept item.scope).card) :
    Keeps limit (Function.update kept item.scope (insert item.key (kept item.scope)))
      (before ++ [item]) := by
  intro scope
  by_cases hscope : item.scope = scope
  · subst hscope
    rw [Function.update_self, keysOf_concat_self, h.eq_keysOf hle]
    exact Or.inl rfl
  · rw [Function.update_of_ne (Ne.symm hscope), keysOf_concat_of_ne hscope]
    exact h scope

end Keeps

/-- **Nothing is lost by no longer counting** for a scope with too many keys: the induction is on the
things that are left, and of the others is kept what tells which of these are one too many. -/
theorem cappedExcess_eq {limit : Nat} {kept : ScopeId → Finset κ} {before items : List (Counted κ)}
    (h : Keeps limit kept before) :
    cappedExcess limit kept items = (excessesFrom limit before items).map Counted.token := by
  induction items generalizing kept before with
  | nil => rfl
  | cons item rest ih =>
      rw [cappedExcess, excessesFrom, List.map_append]
      split
      · next hlt =>
        have hnot : ¬ Exceeds limit before item := fun hexceeds =>
          Nat.not_lt.2 hexceeds.card_le ((h.lt_card_iff _).1 hlt)
        rw [if_neg hnot, ih (h.concat_of_lt hlt), List.map_nil, List.nil_append]
      · next hle =>
        have hexceeds : (item.key ∉ kept item.scope ∧
            limit < (insert item.key (kept item.scope)).card) ↔ Exceeds limit before item := by
          have hkept := h.eq_keysOf hle
          rw [hkept] at hle ⊢
          rw [exceeds_iff]
          constructor
          · rintro ⟨hnew, hlt⟩
            rw [Finset.card_insert_of_notMem hnew] at hlt
            exact ⟨by omega, hnew⟩
          · rintro ⟨hcard, hnew⟩
            exact ⟨hnew, by rw [Finset.card_insert_of_notMem hnew]; omega⟩
        rw [ih (h.concat_of_not_lt hle), if_congr hexceeds rfl rfl, apply_ite (List.map Counted.token),
          List.map_cons, List.map_nil]

/-! ### Budgets -/

/-- **What is blamed for one scope** among the things of all of them. -/
structure OwnBudget [BEq κ] (limit : Nat) (scope : ScopeId) (items : List (Counted κ)) : Prop where
  /-- Something is blamed just if there are more distinct keys than allowed. -/
  isSome_iff : (excessPlace limit scope items).isSome ↔ limit < (keysOf scope items).card
  /-- It is one of the scope's own things. -/
  own : ∀ i, excessPlace limit scope items = some i → ∃ item, items[i]? = some item ∧
    item.scope = scope
  /-- It is what is blamed if these stand alone, so those of other scopes may stand anywhere. -/
  alone : firstExcess limit (items.filter fun item => item.scope == scope) =
    (excessToken limit scope items).toList
  /-- A thing with a key that its scope has already may be left out. -/
  repeated : ∀ before item behind, items = before ++ item :: behind →
    item.key ∈ keysOf item.scope before →
      excessToken limit scope (before ++ behind) = excessToken limit scope items
  /-- What comes later changes nothing. -/
  later : ∀ behind t, excessToken limit scope items = some t →
    excessToken limit scope (items ++ behind) = some t

section

variable [BEq κ] [LawfulBEq κ]

theorem ownBudget (limit : Nat) (scope : ScopeId) (items : List (Counted κ)) :
    OwnBudget limit scope items where
  isSome_iff := isSome_excessPlace_iff limit scope items
  own := by
    intro i hi
    obtain ⟨before, item, behind, rfl, rfl, hscope, -⟩ := excessPlace_eq_some.1 hi
    exact ⟨item, by simp, hscope⟩
  alone := by
    have hown : ∀ item ∈ excessesFrom limit [] (items.filter fun item => item.scope == scope),
        (item.scope == scope) = true := by
      intro item hitem
      obtain ⟨middle, behind, heq, -⟩ := mem_excessesFrom_iff.1 hitem
      have hmem : item ∈ items.filter fun item => item.scope == scope := by simp [heq]
      exact (List.mem_filter.1 hmem).2
    rw [firstExcess_eq, ← excessToken_filter_scope, toList_excessToken, List.filter_eq_self.2 hown]
  repeated := by
    rintro before item behind rfl hkey
    have htokens : (excessToken limit scope (before ++ behind)).toList =
        (excessToken limit scope (before ++ item :: behind)).toList := by
      rw [toList_excessToken, toList_excessToken, excessesFrom_repeated hkey]
    simpa only [Option.head?_toList] using congrArg List.head? htokens
  later := by
    intro behind t ht
    rw [excessToken_eq, Option.map_eq_some_iff] at ht ⊢
    simp only [firstAbove_eq_some (Nat.zero_le limit) (card_keysOf_le_append _)] at ht ⊢
    obtain ⟨item, ⟨before, rest, rfl, hcount⟩, rfl⟩ := ht
    exact ⟨item, ⟨before, rest ++ behind, by simp, hcount⟩, rfl⟩

/-- **Every scope has a budget of its own.**  The tokens to blame are those at the places where the
number of distinct keys of a scope first becomes one more than the limit, in the order of the things.
There is one place for each scope with more keys than that and none for the others, and it depends on
nothing but the keys of the scope's own things up to there.  The same tokens are found if nothing more
is kept of a scope with too many keys. -/
theorem firstExcess_by_scope (limit : Nat) (items : List (Counted κ)) :
    firstExcess limit items = (items.zipIdx.filter fun (item, i) =>
        excessPlace limit item.scope items = some i).map (fun (item, _) => item.token) ∧
      (∀ scope, OwnBudget limit scope items) ∧
      firstExcess limit items = cappedExcess limit (fun _ => ∅) items := by
  refine ⟨?_, fun scope => ownBudget limit scope items, ?_⟩
  · rw [firstExcess_eq, excessesFrom_eq_filter_zipIdx, List.map_map]
    rfl
  · rw [firstExcess_eq, cappedExcess_eq .nil]

end

/-- Two scopes take turns.  With one key allowed the inner one, which comes second, has a second key
first; of the outer one a repeated key does not count, and its third key is not blamed. -/
theorem firstExcess_by_scope_turns :
    let token := fun i : Nat =>
      (⟨⟨⟨.identifier, "n"⟩, i, ⟨i, i + 1⟩, ⟨0, i⟩⟩, none, none, none, false, none⟩ : AnnotatedToken)
    let items : List (Counted String) := [⟨0, "a", token 0⟩, ⟨1, "a", token 1⟩, ⟨0, "a", token 2⟩,
      ⟨1, "b", token 3⟩, ⟨0, "c", token 4⟩, ⟨2, "c", token 5⟩, ⟨0, "d", token 6⟩]
    LawfulBEq String ∧ firstExcess 1 items = [token 3, token 4] ∧
      firstExcess 1 (items.filter fun item => item.scope == 0) = [token 4] ∧
      excessToken 1 1 (items ++ [⟨1, "c", token 7⟩]) = some (token 3) ∧
      ¬ (excessPlace 1 2 items).isSome := by
  intro token items
  obtain ⟨hplaces, hscopes, -⟩ := firstExcess_by_scope 1 items
  exact ⟨inferInstance, hplaces.trans (by decide +kernel),
    (hscopes 0).alone.trans (by decide +kernel),
    (hscopes 1).later _ _ (by decide +kernel), mt (hscopes 2).isSome_iff.1 (by decide +kernel)⟩

end QSource
