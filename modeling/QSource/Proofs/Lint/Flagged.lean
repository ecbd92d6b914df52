/-
**Rules object to tokens that they are given.**

No rule makes up a token: a finding is always the place of a token of the list that was checked.

Main results:

* `QSource.mem_of_mem_dropRepeats`, `QSource.mem_of_mem_longLinesFrom`,
  `QSource.mem_of_mem_firstExcess` — the same for the parts of which rules are made;
* `QSource.Rule.mem_of_mem_flagged` — **a rule flags tokens of the list**;
* `QSource.mem_findings_iff`, `QSource.exists_of_mem_findings` — the findings are those of the rules, and
  each carries the place of a token of the list.
-/

import Mathlib.Data.List.Pairwise
import QSource.Lint.Findings

set_option relaxedAutoImplicit false
set_option autoImplicit false

namespace QSource

/-! ### Neighbours and lines -/

theorem mem_of_mem_fixedSeeds {t : AnnotatedToken} {tokens : List AnnotatedToken}
    (h : t ∈ fixedSeeds tokens) : t ∈ tokens := by
  fun_induction fixedSeeds tokens with
  | case1 seed draw range rest ih =>
      rcases List.mem_append.1 h with hrange | hrest
      · split at hrange
        · rw [List.mem_singleton.1 hrange]
          simp
        · simp at hrange
      · exact List.mem_cons_of_mem _ (ih hrest)
  | case2 => simp at h

theorem mem_of_mem_dropRepeats {t : AnnotatedToken} {tokens : List AnnotatedToken}
    (h : t ∈ dropRepeats tokens) : t ∈ tokens := by
  induction tokens with
  | nil => simp [dropRepeats] at h
  | cons u rest ih =>
      rw [dropRepeats] at h
      split at h
      · next v others hrest =>
          have htail : t ∈ v :: others → t ∈ u :: rest := by
            intro hv
            exact List.mem_cons_of_mem _ (ih (hrest ▸ hv))
          split at h
          · rcases List.mem_cons.1 h with rfl | h
            · exact List.mem_cons_self ..
            · exact htail (List.mem_cons_of_mem _ h)
          · rcases List.mem_cons.1 h with rfl | h
            · exact List.mem_cons_self ..
            · exact htail h
      · rw [List.mem_singleton.1 h]
        exact List.mem_cons_self ..

theorem LinePiece.token_of_mem_cut {token : AnnotatedToken} {column : Nat} {s : List Char}
    {piece : LinePiece} (h : piece ∈ LinePiece.cut token column s) : piece.token = token := by
  unfold LinePiece.cut at h
  split at h
  · simp at h
  · rcases List.mem_cons.1 h with rfl | h
    · rfl
    · obtain ⟨part, -, rfl⟩ := List.mem_map.1 h
      rfl

/-- The owner of a long line is the one that the line under way has, or the token of a piece. -/
theorem mem_of_mem_longLinesFrom {limit : Nat} {owner : Option AnnotatedToken}
    {prev : Option Char} {pieces : List LinePiece} {t : AnnotatedToken}
    (h : t ∈ longLinesFrom limit owner prev pieces) :
    owner = some t ∨ ∃ piece ∈ pieces, piece.token = t := by
  induction pieces generalizing owner prev with
  | nil => simp [longLinesFrom] at h
  | cons piece rest ih =>
      have howner : owner.getD piece.token = t →
          owner = some t ∨ ∃ piece' ∈ piece :: rest, piece'.token = t := by
        intro heq
        cases owner with
        | none => exact Or.inr ⟨piece, List.mem_cons_self .., heq⟩
        | some u => exact Or.inl (congrArg some heq)
      have hrest : (∃ piece' ∈ rest, piece'.token = t) →
          ∃ piece' ∈ piece :: rest, piece'.token = t := by
        rintro ⟨piece', hmem, htoken⟩
        exact ⟨piece', List.mem_cons_of_mem _ hmem, htoken⟩
      simp only [longLinesFrom] at h
      split at h
      · rcases List.mem_append.1 h with h | h
        · split at h
          · exact howner (List.mem_singleton.1 h).symm
          · simp at h
        · rcases ih h with h | h
          · simp at h
          · exact Or.inr (hrest h)
      · rcases ih h with h | h
        · exact howner (Option.some.inj h)
        · exact Or.inr (hrest h)

/-- Before anything of the first line was read, every owner is one of the tokens. -/
theorem mem_of_mem_longLinesFrom_pieces {limit : Nat} {tokens : List AnnotatedToken}
    {t : AnnotatedToken}
    (h : t ∈ longLinesFrom limit none none (tokens.flatMap AnnotatedToken.pieces)) : t ∈ tokens := by
  rcases mem_of_mem_longLinesFrom h with h | ⟨piece, hpiece, rfl⟩
  · simp at h
  · obtain ⟨u, hu, hcut⟩ := List.mem_flatMap.1 hpiece
    rw [LinePiece.token_of_mem_cut hcut]
    exact hu

theorem mem_of_mem_longLineOwners {limit : Nat} {tokens : List AnnotatedToken} {t : AnnotatedToken}
    (h : t ∈ longLineOwners limit tokens) : t ∈ tokens :=
  mem_of_mem_longLinesFrom_pieces (mem_of_mem_dropRepeats h)

/-! ### Counting -/

theorem mem_of_mem_firstExcessFrom {κ : Type} [BEq κ] {limit : Nat} {seen : List (ScopeId × κ)}
    {items : List (Counted κ)} {t : AnnotatedToken} (h : t ∈ firstExcessFrom limit seen items) :
    ∃ item ∈ items, item.token = t := by
  induction items generalizing seen with
  | nil => simp [firstExcessFrom] at h
  | cons item rest ih =>
      have htail : (∃ other ∈ rest, other.token = t) → ∃ other ∈ item :: rest, other.token = t := by
        rintro ⟨other, hmem, heq⟩
        exact ⟨other, List.mem_cons_of_mem _ hmem, heq⟩
      rw [firstExcessFrom] at h
      split at h
      · exact htail (ih h)
      · rcases List.mem_append.1 h with h | h
        · split at h
          · exact ⟨item, List.mem_cons_self .., (List.mem_singleton.1 h).symm⟩
          · simp at h
        · exact htail (ih h)

/-- What comes to be too much is one of the things counted, so it is a token of the list if all of
them are. -/
theorem mem_of_mem_firstExcess {κ : Type} [BEq κ] {limit : Nat} {items : List (Counted κ)}
    {tokens : List AnnotatedToken} (hitems : ∀ item ∈ items, item.token ∈ tokens)
    {t : AnnotatedToken} (h : t ∈ firstExcess limit items) : t ∈ tokens := by
  obtain ⟨item, hitem, rfl⟩ := mem_of_mem_firstExcessFrom h
  exact hitems item hitem

/-- Things that are counted token by token are blamed on the token that they come from. -/
theorem token_mem_of_mem_filterMap {κ : Type} {counts : AnnotatedToken → Bool}
    {owner : AnnotatedToken → Option ScopeId} {key : AnnotatedToken → κ}
    {tokens : List AnnotatedToken} {item : Counted κ}
    (h : item ∈ tokens.filterMap fun t =>
      if counts t then (owner t).map fun scope => ⟨scope, key t, t⟩ else none) :
    item.token ∈ tokens := by
  obtain ⟨t, ht, hitem⟩ := List.mem_filterMap.1 h
  split at hitem
  · obtain ⟨scope, -, rfl⟩ := Option.map_eq_some_iff.1 hitem
    exact ht
  · simp at hitem

theorem token_eq_of_mem_constantAt {token : AnnotatedToken} {text : String}
    {item : Counted String} (h : item ∈ constantAt token text) : item.token = token := by
  rw [constantAt, Option.mem_toList] at h
  obtain ⟨scope, -, rfl⟩ := Option.map_eq_some_iff.1 h
  rfl

/-- A constant is blamed on the opening quote of the quoted text under way, or on a token of the
list. -/
theorem token_of_mem_constantsFrom {quote : Option (AnnotatedToken × String)}
    {tokens : List AnnotatedToken} {item : Counted String}
    (h : item ∈ constantsFrom quote tokens) :
    quote.map Prod.fst = some item.token ∨ item.token ∈ tokens := by
  induction tokens generalizing quote with
  | nil => simp [constantsFrom] at h
  | cons t rest ih =>
      have htail : item.token ∈ rest → item.token ∈ t :: rest := List.mem_cons_of_mem _
      unfold constantsFrom at h
      split at h
      · rcases ih h with h | h
        · refine Or.inr (List.mem_cons.2 (Or.inl ?_))
          simpa using h.symm
        · exact Or.inr (htail h)
      · rcases ih h with h | h
        · exact Or.inl (by simpa [Option.map_map, Function.comp_def] using h)
        · exact Or.inr (htail h)
      · rcases ih h with h | h
        · exact Or.inl (by simpa [Option.map_map, Function.comp_def] using h)
        · exact Or.inr (htail h)
      · rcases List.mem_append.1 h with h | h
        · split at h
          · rw [token_eq_of_mem_constantAt h]
            exact Or.inl rfl
          · simp at h
        · rcases ih h with h | h
          · simp at h
          · exact Or.inr (htail h)
      · rcases List.mem_append.1 h with h | h
        · split at h
          · simp at h
          · rw [token_eq_of_mem_constantAt h]
            exact Or.inr (List.mem_cons_self ..)
        · exact (ih h).imp_right htail
      · exact (ih h).imp_right htail

theorem token_mem_of_mem_countedConstants {tokens : List AnnotatedToken} {item : Counted String}
    (h : item ∈ countedConstants tokens) : item.token ∈ tokens := by
  rcases token_of_mem_constantsFrom h with h | h
  · simp at h
  · exact h

/-! ### Rules -/

/-- Of two elements of a list in order, one comes before the other. -/
theorem rel_or_rel_of_pairwise {α : Type} {r : α → α → Prop} {xs : List α} (h : xs.Pairwise r)
    {x y : α} (hx : x ∈ xs) (hy : y ∈ xs) (hne : x ≠ y) : r x y ∨ r y x := by
  have : Std.Symm fun x y => r x y ∨ r y x := ⟨fun _ _ => Or.symm⟩
  have hor : xs.Pairwise fun x y => r x y ∨ r y x := h.imp Or.inl
  exact hor.forall hx hy hne

/-- Tokens whose numbers ascend are known by their numbers. -/
theorem AnnotatedToken.eq_of_index_eq {tokens : List AnnotatedToken}
    (h : tokens.Pairwise fun t u => t.index < u.index) {t u : AnnotatedToken} (ht : t ∈ tokens)
    (hu : u ∈ tokens) (heq : t.index = u.index) : t = u := by
  by_contra hne
  rcases rel_or_rel_of_pairwise h ht hu hne with hlt | hlt <;> omega

/-- **A rule flags tokens of the list.** -/
theorem Rule.mem_of_mem_flagged {limits : Thresholds} {tokens : List AnnotatedToken} {rule : Rule}
    {t : AnnotatedToken} (h : t ∈ rule.flagged limits tokens) : t ∈ tokens := by
  cases rule with
  | fixedSeed => exact mem_of_mem_fixedSeeds h
  | lineLength => exact mem_of_mem_longLineOwners h
  | tooManyArguments =>
      exact mem_of_mem_firstExcess (fun _ => token_mem_of_mem_filterMap) h
  | tooManyConstants =>
      exact mem_of_mem_firstExcess (fun _ => token_mem_of_mem_countedConstants) h
  | tooManyGlobals =>
      exact mem_of_mem_firstExcess (fun _ => token_mem_of_mem_filterMap) h
  | tooManyLocals =>
      exact mem_of_mem_firstExcess (fun _ => token_mem_of_mem_filterMap) h
  | _ => exact (List.mem_filter.1 h).1

theorem Rule.mem_all (rule : Rule) : rule ∈ Rule.all := by
  cases rule <;> decide

/-- The findings are those of the rules. -/
theorem mem_findings_iff {limits : Thresholds} {tokens : List AnnotatedToken} {f : Finding} :
    f ∈ findings limits tokens ↔ ∃ t ∈ f.rule.flagged limits tokens, .ofToken f.rule t = f := by
  rw [findings, mem_sort, List.mem_flatMap]
  constructor
  · rintro ⟨rule, -, hrule⟩
    obtain ⟨t, ht, rfl⟩ := List.mem_map.1 hrule
    exact ⟨t, ht, rfl⟩
  · rintro ⟨t, ht, hf⟩
    exact ⟨f.rule, f.rule.mem_all, List.mem_map.2 ⟨t, ht, hf⟩⟩

/-- A finding carries the place of a token of the list. -/
theorem exists_of_mem_findings {limits : Thresholds} {tokens : List AnnotatedToken} {f : Finding}
    (h : f ∈ findings limits tokens) : ∃ t ∈ tokens, f = .ofToken f.rule t := by
  obtain ⟨t, ht, hf⟩ := mem_findings_iff.1 h
  exact ⟨t, Rule.mem_of_mem_flagged ht, hf.symm⟩

theorem Finding.le_iff {a b : Finding} :
    a.le b = true ↔ a.index < b.index ∨ a.index = b.index ∧ a.rule.name ≤ b.rule.name := by
  simp [Finding.le]

theorem Finding.le_trans (a b c : Finding) (hab : a.le b = true) (hbc : b.le c = true) :
    a.le c = true := by
  rw [Finding.le_iff] at *
  rcases hab with hab | ⟨hab, hname⟩
  · rcases hbc with hbc | ⟨hbc, -⟩ <;> omega
  · rcases hbc with hbc | ⟨hbc, hname'⟩
    · omega
    · exact Or.inr ⟨hab.trans hbc, String.le_trans hname hname'⟩

theorem Finding.le_total (a b : Finding) : a.le b = true ∨ b.le a = true := by
  rw [Finding.le_iff, Finding.le_iff]
  rcases Nat.lt_trichotomy a.index b.index with h | h | h
  · exact Or.inl (Or.inl h)
  · exact (String.le_total a.rule.name b.rule.name).imp (Or.inr ⟨h, ·⟩) (Or.inr ⟨h.symm, ·⟩)
  · exact Or.inr (Or.inl h)

theorem filter_rule_findings (limits : Thresholds) (tokens : List AnnotatedToken)
    (rule rule' : Rule) : (rule'.findings limits tokens).filter (·.rule == rule) =
      if rule' = rule then rule'.findings limits tokens else [] := by
  rw [Rule.findings, List.filter_map]
  split
  · next heq =>
      rw [List.filter_eq_self.2 fun t _ => by simpa [Finding.ofToken] using heq]
  · next hne => simp [Finding.ofToken, Function.comp_def, hne]

/-- The findings of one rule are among those of all rules as often as the rule makes them. -/
theorem perm_filter_findings (limits : Thresholds) (tokens : List AnnotatedToken) (rule : Rule) :
    ((findings limits tokens).filter (·.rule == rule)).Perm (rule.findings limits tokens) := by
  have hrule : (Rule.all.flatMap (Rule.findings limits tokens)).filter (·.rule == rule) =
      rule.findings limits tokens := by
    rw [List.filter_flatMap]
    simp only [filter_rule_findings]
    cases rule <;> simp [Rule.all]
  exact hrule ▸ (sort_perm _ _).filter _

/-- Among all findings, those of a rule that flags tokens in order stand in that order. -/
theorem filter_findings {limits : Thresholds} {tokens : List AnnotatedToken} {rule : Rule}
    (h : (rule.flagged limits tokens).Pairwise fun t u => t.index < u.index) :
    (findings limits tokens).filter (·.rule == rule) = rule.findings limits tokens := by
  have hsorted := (pairwise_sort Finding.le_trans Finding.le_total
    (Rule.all.flatMap (Rule.findings limits tokens))).filter (·.rule == rule)
  have hordered : (rule.findings limits tokens).Pairwise fun a b => a.le b = true := by
    exact List.pairwise_map.2 (h.imp fun hlt => Finding.le_iff.2 (Or.inl hlt))
  refine (perm_filter_findings limits tokens rule).eq_of_pairwise ?_ hsorted hordered
  intro a b ha hb hab hba
  obtain ⟨t, ht, rfl⟩ := List.mem_map.1 ((perm_filter_findings limits tokens rule).mem_iff.1 ha)
  obtain ⟨u, hu, rfl⟩ := List.mem_map.1 hb
  have hindex : t.index = u.index := by
    rcases Finding.le_iff.1 hab with hlt | ⟨heq, -⟩
    · rcases Finding.le_iff.1 hba with hlt' | ⟨heq, -⟩
      · exact absurd hlt' (Nat.lt_asymm hlt)
      · exact heq.symm
    · exact heq
  rw [AnnotatedToken.eq_of_index_eq h ht hu hindex]

end QSource
