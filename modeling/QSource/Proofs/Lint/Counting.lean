/-
**The first thing too many.**

A rule on sizes goes through the things of all scopes at once and keeps what it has seen of each.  It
blames the thing with which the number of distinct keys of a scope comes to be above the limit.  What
the things of other scopes do in between makes no difference: for each scope this is the first thing
up to which there are more keys than the limit, and there is one just if all of them are more.

Main definitions:

* `QSource.firstAbove` — the entry of a list with which a count comes to be above a limit;
* `QSource.keysOf` — the distinct keys of a scope;
* `QSource.Exceeds` — a thing is the first too many of its scope;
* `QSource.excessesFrom` — the things that are, among some that are left;
* `QSource.Recalls` — what has been seen are the keys of the things before.

Main results:

* `QSource.firstAbove_eq_some`, `QSource.isSome_firstAbove_iff` — where a count that never decreases
  comes to be above a limit, and that it does;
* `QSource.firstExcess_eq`, `QSource.mem_firstExcess_iff` — **the tokens of the things that are one too
  many**.
-/

import Mathlib.Data.Finset.Dedup
import Mathlib.Data.Finset.Card
import QSource.Lint.Counting

set_option relaxedAutoImplicit false
set_option autoImplicit false

namespace QSource

/-! ### The first above a limit -/

section

variable {α β : Type}

/-- The entry of a list with which a count of its entries first comes to be above the limit. -/
def firstAbove (limit : Nat) (count : List α → Nat) (xs : List α) : Option α :=
  ((List.range xs.length).find? fun i => limit < count (xs.take (i + 1))).bind (xs[·]?)

variable {limit : Nat} {count : List α → Nat} {xs : List α} {x : α}

theorem firstAbove_congr {count' : List α → Nat} (h : ∀ ys, ys <+: xs → count ys = count' ys) :
    firstAbove limit count xs = firstAbove limit count' xs := by
  simp only [firstAbove, h _ (List.take_prefix _ _)]

theorem mem_of_firstAbove_eq_some (h : firstAbove limit count xs = some x) : x ∈ xs := by
  obtain ⟨i, -, hi⟩ := Option.bind_eq_some_iff.1 h
  exact List.mem_of_getElem? hi

/-- A count that never decreases comes to be above the limit where it was not before. -/
theorem firstAbove_eq_some (hnil : count [] ≤ limit)
    (hmono : ∀ ys zs, count ys ≤ count (ys ++ zs)) :
    firstAbove limit count xs = some x ↔ ∃ before behind,
      xs = before ++ x :: behind ∧ count before ≤ limit ∧ limit < count (before ++ [x]) := by
  rw [firstAbove, Option.bind_eq_some_iff]
  simp only [List.find?_range_eq_some, decide_eq_true_eq, Bool.not_eq_true', decide_eq_false_iff_not,
    Nat.not_lt]
  constructor
  · rintro ⟨i, ⟨hlt, hi, hbefore⟩, hx⟩
    have hi : i < xs.length := List.mem_range.1 hi
    obtain rfl : xs[i] = x := List.getElem_eq_iff hi |>.2 hx
    refine ⟨xs.take i, xs.drop (i + 1), by simp, ?_, by rwa [List.take_concat_get' _ _ hi]⟩
    cases i with
    | zero => exact hnil
    | succ i => exact hbefore i (Nat.lt_succ_self i)
  · rintro ⟨before, behind, rfl, hle, hlt⟩
    refine ⟨before.length, ⟨?_, by simp, ?_⟩, by simp⟩
    · simpa [List.take_append, List.take_of_length_le] using hlt
    · intro i hi
      have hsplit : before.take (i + 1) ++ before.drop (i + 1) = before := List.take_append_drop ..
      have hcount := hmono (before.take (i + 1)) (before.drop (i + 1))
      rw [hsplit] at hcount
      rw [List.take_append_of_le_length (by omega)]
      omega

/-- There is such an entry just if all of them together are above the limit. -/
theorem isSome_firstAbove_iff (hnil : count [] ≤ limit)
    (hmono : ∀ ys zs, count ys ≤ count (ys ++ zs)) :
    (firstAbove limit count xs).isSome ↔ limit < count xs := by
  constructor
  · intro h
    obtain ⟨x, hx⟩ := Option.isSome_iff_exists.1 h
    obtain ⟨before, behind, rfl, -, hlt⟩ := (firstAbove_eq_some hnil hmono).1 hx
    have hcount := hmono (before ++ [x]) behind
    rw [List.append_assoc, List.singleton_append] at hcount
    omega
  · intro hlt
    have hlength : 0 < xs.length := by
      refine List.length_pos_iff.2 ?_
      rintro rfl
      omega
    have hfound : ((List.range xs.length).find? fun i => limit < count (xs.take (i + 1))).isSome := by
      refine List.find?_isSome.2 ⟨xs.length - 1, List.mem_range.2 (by omega), ?_⟩
      rwa [decide_eq_true_eq, Nat.sub_add_cancel hlength, List.take_length]
    obtain ⟨i, hi⟩ := Option.isSome_iff_exists.1 hfound
    have hi' := List.mem_range.1 (List.mem_of_find?_eq_some hi)
    rw [firstAbove, hi, Option.bind_some, List.getElem?_eq_getElem hi']
    rfl

/-- What is above the limit among some entries is made of the entry of the whole list. -/
theorem firstAbove_filterMap {f : α → Option β} {count : List β → Nat} (hnil : count [] ≤ limit)
    (hmono : ∀ ys zs, count ys ≤ count (ys ++ zs)) :
    (firstAbove limit (fun ys => count (ys.filterMap f)) xs).bind f =
      firstAbove limit count (xs.filterMap f) := by
  ext y
  rw [Option.bind_eq_some_iff, firstAbove_eq_some hnil hmono]
  have hfirst := fun x => @firstAbove_eq_some _ limit (fun ys => count (ys.filterMap f)) xs x hnil
    fun ys zs => by simpa using hmono _ _
  constructor
  · rintro ⟨x, hx, hf⟩
    obtain ⟨before, behind, rfl, hle, hlt⟩ := (hfirst x).1 hx
    exact ⟨before.filterMap f, behind.filterMap f, by simp [hf], hle, by simpa [hf] using hlt⟩
  · rintro ⟨_, _, heq, hle, hlt⟩
    obtain ⟨before, rest, rfl, rfl, hrest⟩ := List.filterMap_eq_append_iff.1 heq
    obtain ⟨skipped, x, behind, rfl, hskipped, hf, rfl⟩ := List.filterMap_eq_cons_iff.1 hrest
    have hnone : skipped.filterMap f = [] := List.filterMap_eq_nil_iff.2 hskipped
    refine ⟨x, (hfirst x).2 ⟨before ++ skipped, behind, by simp, ?_, ?_⟩, hf⟩
    · simpa [hnone] using hle
    · simpa [hnone, hf] using hlt

/-- Where only some entries are counted, the entry is one of those. -/
theorem firstAbove_filter {p : α → Bool} (hnil : count [] ≤ limit)
    (hmono : ∀ ys zs, count ys ≤ count (ys ++ zs)) :
    firstAbove limit (fun ys => count (ys.filter p)) xs = firstAbove limit count (xs.filter p) := by
  have hfilter : ∀ ys : List α, ys.filterMap (Option.guard p) = ys.filter p := fun ys => by
    rw [List.filterMap_eq_filter]
  rw [← hfilter xs, ← firstAbove_filterMap hnil hmono]
  ext x
  simp only [hfilter, Option.bind_eq_some_iff, Option.guard_eq_some_iff]
  constructor
  · intro hx
    obtain ⟨before, behind, -, hle, hlt⟩ := (@firstAbove_eq_some _ limit
      (fun ys => count (ys.filter p)) xs x hnil
      fun ys zs => by rw [List.filter_append]; exact hmono _ _).1 hx
    refine ⟨x, hx, rfl, ?_⟩
    by_contra hp
    rw [List.filter_append, List.filter_cons_of_neg hp, List.filter_nil, List.append_nil] at hlt
    omega
  · rintro ⟨y, hy, rfl, -⟩
    exact hy

/-- The entry with which there are more than `limit` of a kind is the one with that number. -/
theorem firstAbove_length_filter (p : α → Bool) :
    firstAbove limit (fun ys => (ys.filter p).length) xs = (xs.filter p)[limit]? := by
  ext x
  rw [firstAbove_eq_some (by simp) (by simp)]
  constructor
  · rintro ⟨before, behind, rfl, hle, hlt⟩
    by_cases hp : p x = true
    · have hlength : (before.filter p).length = limit := by
        simp only [List.filter_append, List.filter_cons_of_pos hp, List.filter_nil,
          List.length_append, List.length_singleton] at hlt
        omega
      simp [List.filter_cons_of_pos hp, ← hlength]
    · simp only [List.filter_append, List.filter_cons_of_neg hp, List.filter_nil,
        List.append_nil] at hlt
      exact absurd hlt (Nat.not_lt.2 hle)
  · intro hx
    obtain ⟨hlt, rfl⟩ := List.getElem?_eq_some_iff.1 hx
    have hsplit : xs.filter p = (xs.filter p).take limit ++
        (xs.filter p)[limit] :: (xs.filter p).drop (limit + 1) := by simp
    obtain ⟨before, rest, hxs, hbefore, hrest⟩ := List.filter_eq_append_iff.1 hsplit
    obtain ⟨skipped, behind, rfl, hskipped, hp, -⟩ := List.filter_eq_cons_iff.1 hrest
    have hlength : (before.filter p).length = limit := by
      rw [hbefore, List.length_take, Nat.min_eq_left (Nat.le_of_lt hlt)]
    have hnone : skipped.filter p = [] := List.filter_eq_nil_iff.2 hskipped
    refine ⟨before ++ skipped, behind, by rw [List.append_assoc]; exact hxs, ?_, ?_⟩
    · rw [List.filter_append, hnone, List.append_nil, hlength]
    · rw [List.filter_append, List.filter_append, hnone, List.append_nil, List.length_append, hlength,
        List.filter_cons_of_pos hp]
      exact Nat.lt_succ_self limit

end

variable {κ : Type} [DecidableEq κ]

/-! ### Distinct keys -/

/-- The distinct keys that the things of a scope have. -/
def keysOf (scope : ScopeId) (items : List (Counted κ)) : Finset κ :=
  ((items.filter fun item => item.scope == scope).map Counted.key).toFinset

@[simp] theorem keysOf_nil (scope : ScopeId) : keysOf scope ([] : List (Counted κ)) = ∅ := rfl

theorem mem_keysOf {scope : ScopeId} {items : List (Counted κ)} {key : κ} :
    key ∈ keysOf scope items ↔ ∃ item ∈ items, item.scope = scope ∧ item.key = key := by
  simp [keysOf, and_assoc]

theorem keysOf_mono {scope : ScopeId} {items items' : List (Counted κ)} (h : items ⊆ items') :
    keysOf scope items ⊆ keysOf scope items' := by
  intro key hkey
  obtain ⟨item, hitem, hscope⟩ := mem_keysOf.1 hkey
  exact mem_keysOf.2 ⟨item, h hitem, hscope⟩

theorem keysOf_concat_self (items : List (Counted κ)) (item : Counted κ) :
    keysOf item.scope (items ++ [item]) = insert item.key (keysOf item.scope items) := by
  ext key
  simp only [mem_keysOf, List.mem_append, List.mem_singleton, or_and_right, exists_or,
    exists_eq_left, true_and, Finset.mem_insert]
  rw [or_comm, eq_comm]

theorem keysOf_concat_of_ne {scope : ScopeId} {item : Counted κ} (h : item.scope ≠ scope)
    (items : List (Counted κ)) : keysOf scope (items ++ [item]) = keysOf scope items := by
  ext key
  simp only [mem_keysOf, List.mem_append, List.mem_singleton, or_and_right, exists_or,
    exists_eq_left, h, false_and, or_false]

/-- A known key of a scope adds nothing to the keys of any. -/
theorem keysOf_concat_of_mem {items : List (Counted κ)} {item : Counted κ}
    (h : item.key ∈ keysOf item.scope items) (scope : ScopeId) :
    keysOf scope (items ++ [item]) = keysOf scope items := by
  by_cases hscope : item.scope = scope
  · subst hscope
    rw [keysOf_concat_self, Finset.insert_eq_of_mem h]
  · exact keysOf_concat_of_ne hscope items

theorem card_keysOf_le_append (scope : ScopeId) (items items' : List (Counted κ)) :
    (keysOf scope items).card ≤ (keysOf scope (items ++ items')).card :=
  Finset.card_le_card (keysOf_mono (List.subset_append_left _ _))

/-! ### One too many -/

/-- The thing is the first too many of its scope: with it the scope comes to have more than `limit`
distinct keys. -/
structure Exceeds (limit : Nat) (before : List (Counted κ)) (item : Counted κ) : Prop where
  card_le : (keysOf item.scope before).card ≤ limit
  lt_card : limit < (keysOf item.scope (before ++ [item])).card

/-- A thing that is one too many has a new key, and as many keys as are allowed stand before it. -/
theorem exceeds_iff {limit : Nat} {before : List (Counted κ)} {item : Counted κ} :
    Exceeds limit before item ↔
      (keysOf item.scope before).card = limit ∧ item.key ∉ keysOf item.scope before := by
  constructor
  · rintro ⟨hle, hlt⟩
    rw [keysOf_concat_self] at hlt
    by_cases hkey : item.key ∈ keysOf item.scope before
    · rw [Finset.insert_eq_of_mem hkey] at hlt
      omega
    · rw [Finset.card_insert_of_notMem hkey] at hlt
      exact ⟨by omega, hkey⟩
  · rintro ⟨hcard, hkey⟩
    refine ⟨Nat.le_of_eq hcard, ?_⟩
    rw [keysOf_concat_self, Finset.card_insert_of_notMem hkey]
    omega

/-- A scope comes to have more keys than the limit with a thing of its own. -/
theorem exceeds_of_card_lt {limit : Nat} {scope : ScopeId} {before : List (Counted κ)}
    {item : Counted κ} (hle : (keysOf scope before).card ≤ limit)
    (hlt : limit < (keysOf scope (before ++ [item])).card) :
    item.scope = scope ∧ Exceeds limit before item := by
  have hscope : item.scope = scope := by
    by_contra hne
    rw [keysOf_concat_of_ne hne] at hlt
    omega
  subst hscope
  exact ⟨rfl, hle, hlt⟩

/-- Where each entry of a list counts for one thing at most, the entry that is one too many of a scope
counts for a thing of that scope. -/
theorem exists_of_firstAbove_keysOf {α : Type} {limit : Nat} {f : α → Option (Counted κ)}
    {scope : ScopeId} {xs : List α} {x : α}
    (h : firstAbove limit (fun ys => (keysOf scope (ys.filterMap f)).card) xs = some x) :
    ∃ item, f x = some item ∧ item.scope = scope := by
  obtain ⟨before, behind, -, hle, hlt⟩ := (firstAbove_eq_some (Nat.zero_le limit)
    fun ys zs => by rw [List.filterMap_append]; exact card_keysOf_le_append _ _ _).1 h
  rw [List.filterMap_append] at hlt
  cases hitem : f x with
  | some item =>
      rw [List.filterMap_cons_some hitem, List.filterMap_nil] at hlt
      exact ⟨item, rfl, (exceeds_of_card_lt hle hlt).1⟩
  | none =>
      rw [List.filterMap_cons_none hitem, List.filterMap_nil, List.append_nil] at hlt
      omega

instance {limit : Nat} {before : List (Counted κ)} {item : Counted κ} :
    Decidable (Exceeds limit before item) :=
  decidable_of_iff _ exceeds_iff.symm

/-- The things that are one too many of their scopes, among those that are left behind some others. -/
def excessesFrom (limit : Nat) (before : List (Counted κ)) : List (Counted κ) → List (Counted κ)
  | [] => []
  | item :: rest =>
    (if Exceeds limit before item then [item] else []) ++ excessesFrom limit (before ++ [item]) rest

theorem mem_excessesFrom_iff {limit : Nat} {before items : List (Counted κ)} {item : Counted κ} :
    item ∈ excessesFrom limit before items ↔ ∃ middle behind,
      items = middle ++ item :: behind ∧ Exceeds limit (before ++ middle) item := by
  induction items generalizing before with
  | nil => simp [excessesFrom]
  | cons first rest ih =>
      rw [excessesFrom, List.mem_append, ih, List.mem_ite_nil_right, List.mem_singleton]
      constructor
      · rintro (⟨hexceeds, rfl⟩ | ⟨middle, behind, rfl, hexceeds⟩)
        · exact ⟨[], rest, rfl, by rwa [List.append_nil]⟩
        · exact ⟨first :: middle, behind, rfl, by rwa [List.append_cons]⟩
      · rintro ⟨middle, behind, heq, hexceeds⟩
        rcases List.cons_eq_append_iff.1 heq with ⟨rfl, hcons⟩ | ⟨middle', rfl, rfl⟩
        · obtain ⟨rfl, -⟩ := List.cons.inj hcons
          exact Or.inl ⟨by rwa [List.append_nil] at hexceeds, rfl⟩
        · exact Or.inr ⟨middle', behind, rfl, by rwa [List.append_cons] at hexceeds⟩

/-! ### The tokens to blame -/

/-- What has been seen are the distinct keys of the things before, scope by scope. -/
structure Recalls (seen : List (ScopeId × κ)) (before : List (Counted κ)) : Prop where
  nodup : seen.Nodup
  mem_iff : ∀ scope key, (scope, key) ∈ seen ↔ key ∈ keysOf scope before

namespace Recalls

theorem nil : Recalls ([] : List (ScopeId × κ)) [] := ⟨List.nodup_nil, by simp⟩

variable {seen : List (ScopeId × κ)} {before : List (Counted κ)} {item : Counted κ}

/-- What has been seen of a scope is counted by the distinct keys of the things before. -/
theorem countP_eq (h : Recalls seen before) (scope : ScopeId) :
    seen.countP (fun entry => entry.1 == scope) = (keysOf scope before).card := by
  have hkeys : keysOf scope before =
      ((seen.filter fun entry => entry.1 == scope).map Prod.snd).toFinset := by
    ext key
    simp [← h.mem_iff]
  have hdistinct : ((seen.filter fun entry => entry.1 == scope).map Prod.snd).Nodup := by
    refine List.Nodup.map_on ?_ (h.nodup.filter _)
    intro entry hentry entry' hentry' heq
    have hfirst := (List.mem_filter.1 hentry).2
    have hfirst' := (List.mem_filter.1 hentry').2
    rw [beq_iff_eq] at hfirst hfirst'
    exact Prod.ext (hfirst.trans hfirst'.symm) heq
  rw [hkeys, List.toFinset_card_of_nodup hdistinct, List.length_map, List.countP_eq_length_filter]

/-- A known key changes nothing. -/
theorem concat_of_mem (h : Recalls seen before) (hold : item.key ∈ keysOf item.scope before) :
    Recalls seen (before ++ [item]) := by
  refine ⟨h.nodup, fun scope key => ?_⟩
  rw [h.mem_iff, keysOf_concat_of_mem hold]

/-- A new key is one more to recall. -/
theorem concat_of_notMem (h : Recalls seen before) (hnew : item.key ∉ keysOf item.scope before) :
    Recalls ((item.scope, item.key) :: seen) (before ++ [item]) := by
  refine ⟨List.nodup_cons.2 ⟨mt (h.mem_iff _ _).1 hnew, h.nodup⟩, fun scope key => ?_⟩
  rw [List.mem_cons, h.mem_iff, Prod.mk.injEq]
  by_cases hscope : item.scope = scope
  · subst hscope
    simp [keysOf_concat_self]
  · rw [keysOf_concat_of_ne hscope]
    simp [Ne.symm hscope]

end Recalls

section

variable [BEq κ] [LawfulBEq κ]

/-- **The tokens that are blamed behind some things**: the induction is on the things that are left,
and what has been seen of the others is all of their keys. -/
theorem firstExcessFrom_eq {limit : Nat} {seen : List (ScopeId × κ)}
    {before items : List (Counted κ)} (h : Recalls seen before) :
    firstExcessFrom limit seen items = (excessesFrom limit before items).map Counted.token := by
  induction items generalizing seen before with
  | nil => rfl
  | cons item rest ih =>
      rw [firstExcessFrom, excessesFrom, List.map_append]
      by_cases hold : item.key ∈ keysOf item.scope before
      · have hnot : ¬ Exceeds limit before item := fun hexceeds => (exceeds_iff.1 hexceeds).2 hold
        rw [if_pos (List.contains_iff_mem.2 ((h.mem_iff _ _).2 hold)), ih (h.concat_of_mem hold),
          if_neg hnot, List.map_nil, List.nil_append]
      · have hnew : ¬ seen.contains (item.scope, item.key) = true := fun hseen =>
          hold ((h.mem_iff _ _).1 (List.contains_iff_mem.1 hseen))
        have hexceeds : Exceeds limit before item ↔ (keysOf item.scope before).card = limit :=
          exceeds_iff.trans (and_iff_left hold)
        rw [if_neg hnew, h.countP_eq, ih (h.concat_of_notMem hold), apply_ite (List.map Counted.token)]
        simp only [hexceeds, List.map_cons, List.map_nil]

theorem firstExcess_eq (limit : Nat) (items : List (Counted κ)) :
    firstExcess limit items = (excessesFrom limit [] items).map Counted.token :=
  firstExcessFrom_eq .nil

/-- **The tokens of the things that are one too many**: for each scope the one with which the number
of its distinct keys first comes to be above the limit. -/
theorem mem_firstExcess_iff {limit : Nat} {items : List (Counted κ)} {t : AnnotatedToken} :
    t ∈ firstExcess limit items ↔ ∃ scope item,
      firstAbove limit (fun items => (keysOf scope items).card) items = some item ∧
        item.token = t := by
  rw [firstExcess_eq, List.mem_map]
  simp only [mem_excessesFrom_iff, firstAbove_eq_some (Nat.zero_le limit) (card_keysOf_le_append _),
    List.nil_append]
  constructor
  · rintro ⟨item, ⟨before, behind, heq, hexceeds⟩, htoken⟩
    exact ⟨item.scope, item, ⟨before, behind, heq, hexceeds.card_le, hexceeds.lt_card⟩, htoken⟩
  · rintro ⟨scope, item, ⟨before, behind, heq, hle, hlt⟩, htoken⟩
    exact ⟨item, ⟨before, behind, heq, (exceeds_of_card_lt hle hlt).2⟩, htoken⟩

/-- The tokens that are blamed where each entry of a list counts for one thing at most. -/
theorem mem_firstExcess_filterMap_iff {α : Type} {limit : Nat} {f : α → Option (Counted κ)}
    {token : α → AnnotatedToken} (hf : ∀ x item, f x = some item → item.token = token x)
    {xs : List α} {t : AnnotatedToken} :
    t ∈ firstExcess limit (xs.filterMap f) ↔ ∃ scope x,
      firstAbove limit (fun ys => (keysOf scope (ys.filterMap f)).card) xs = some x ∧
        token x = t := by
  simp only [mem_firstExcess_iff,
    ← firstAbove_filterMap (Nat.zero_le limit) (card_keysOf_le_append _), Option.bind_eq_some_iff]
  constructor
  · rintro ⟨scope, item, ⟨x, hx, hitem⟩, rfl⟩
    exact ⟨scope, x, hx, (hf x item hitem).symm⟩
  · rintro ⟨scope, x, hx, rfl⟩
    obtain ⟨item, hitem, -⟩ := exists_of_firstAbove_keysOf hx
    exact ⟨scope, item, ⟨x, hx, hitem⟩, hf x item hitem⟩

end

end QSource
