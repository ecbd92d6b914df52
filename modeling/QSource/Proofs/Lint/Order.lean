/-
**Findings stand in strict order**, whatever the annotations of the tokens are.

Findings are sorted by token and then by the name of the rule.  Such a list is determined by its
members as soon as no two of them are equal in both, and that is so because no rule objects to a
token twice: a rule on single tokens picks some of them, a rule on sizes blames every token for at
most one thing, and the owners of long lines come in order, so that dropping repeats leaves each of
them once.  Nothing here needs tokens that come from a text, only that they are numbered by their
places.

Main definitions:

* `QSource.Finding.Before` — a finding stands before another one by its token and its rule.

Main results:

* `QSource.subperm_constantsFrom` — every token is blamed for at most one constant;
* `QSource.pairwise_longLinesFrom` — the owners of long lines are in order;
* `QSource.Rule.nodup_flagged` — **no rule objects to a token twice**;
* `QSource.filter_findings_eq`, `QSource.filter_findings_map` — the findings of some rules are known by
  their members, and a map that keeps these and their order goes with the findings;
* `QSource.perm_filter_findings_filterMap` — a rule that objects to one token for each of some things;
* `QSource.findings_strictly_ordered` — **the findings stand in strict order, and the order of the
  rules leaves no trace in them**.
-/

import Mathlib.Data.List.Perm.Subperm
import QSource.Proofs.Lint.Lines

set_option relaxedAutoImplicit false
set_option autoImplicit false

namespace QSource

/-! ### Rules on neighbours -/

/-- An infinity that is drawn from stands two places behind its seed. -/
theorem fixedSeeds_sublist (tokens : List AnnotatedToken) :
    (fixedSeeds tokens).Sublist (tokens.drop 2) := by
  fun_induction fixedSeeds tokens with
  | case1 seed draw range rest ih =>
      change (_ ++ _ : List AnnotatedToken).Sublist (range :: rest)
      split
      · exact ih.cons_cons range
      · exact ih.cons range
  | case2 => exact List.nil_sublist _

/-! ### Rules on sizes -/

theorem firstExcessFrom_sublist {κ : Type} [BEq κ] (limit : Nat) (seen : List (ScopeId × κ))
    (items : List (Counted κ)) :
    (firstExcessFrom limit seen items).Sublist (items.map Counted.token) := by
  induction items generalizing seen with
  | nil => exact List.nil_sublist _
  | cons item rest ih =>
      rw [firstExcessFrom, List.map_cons]
      split
      · exact (ih seen).cons item.token
      · split
        · exact (ih _).cons_cons item.token
        · exact (ih _).cons item.token

/-- Things that are counted token by token come from different tokens. -/
theorem token_filterMap_sublist {κ : Type} (counts : AnnotatedToken → Bool)
    (owner : AnnotatedToken → Option ScopeId) (key : AnnotatedToken → κ)
    (tokens : List AnnotatedToken) :
    ((tokens.filterMap fun t => if counts t then (owner t).map fun scope =>
      (⟨scope, key t, t⟩ : Counted κ) else none).map Counted.token).Sublist tokens := by
  induction tokens with
  | nil => exact List.nil_sublist _
  | cons t rest ih =>
      rw [List.filterMap_cons]
      split
      · exact ih.cons t
      · next item hitem =>
          have htoken : item.token = t := by
            split at hitem
            · obtain ⟨scope, -, rfl⟩ := Option.map_eq_some_iff.1 hitem
              rfl
            · simp at hitem
          rw [List.map_cons, htoken]
          exact ih.cons_cons t

theorem token_constantAt_sublist (token : AnnotatedToken) (text : String) :
    ((constantAt token text).map Counted.token).Sublist [token] := by
  cases hscope : token.scope with
  | none => simp [constantAt, hscope]
  | some scope => simp [constantAt, hscope]

/-- **Every token is blamed for at most one constant**: an opening quote for the quoted text behind
it, a literal for itself.  The opening quote of the text under way counts as one more token. -/
theorem subperm_constantsFrom (quote : Option (AnnotatedToken × String))
    (tokens : List AnnotatedToken) :
    ((constantsFrom quote tokens).map Counted.token).Subperm
      ((quote.map Prod.fst).toList ++ tokens) := by
  induction tokens generalizing quote with
  | nil => exact List.nil_subperm
  | cons t rest ih =>
      have hskip : ((quote.map Prod.fst).toList ++ rest).Subperm
          ((quote.map Prod.fst).toList ++ t :: rest) :=
        (List.subperm_append_left _).2 List.Subperm.cons_self
      have hpiece : ((constantsFrom (quote.map fun q => (q.1, q.2 ++ t.text))
          rest).map Counted.token).Subperm ((quote.map Prod.fst).toList ++ t :: rest) := by
        have hquote := ih (quote.map fun q => (q.1, q.2 ++ t.text))
        rw [Option.map_map] at hquote
        exact hquote.trans hskip
      unfold constantsFrom
      split
      · exact (ih (some (t, "\""))).trans (List.sublist_append_right _ _).subperm
      · exact hpiece
      · exact hpiece
      · rw [List.map_append]
        have hclosed := ih none
        cases quote with
        | none => exact hclosed.trans hskip
        | some q =>
            -- the opening quote is spent, and the rest starts without one
            have hfirst := (token_constantAt_sublist q.1 q.2).subperm
            exact (hfirst.append hclosed).trans hskip
      · rw [List.map_append]
        have hliteral : ((if t.isAssignment then [] else constantAt t t.text).map
            Counted.token).Subperm [t] := by
          split
          · exact List.nil_subperm
          · exact (token_constantAt_sublist t t.text).subperm
        -- the literal is blamed before the opening quote: only a permutation of a part
        have hbefore := List.perm_append_comm_assoc [t] (quote.map Prod.fst).toList rest
        exact (hliteral.append (ih quote)).trans hbefore.subperm
      · exact (ih quote).trans hskip

theorem subperm_firstExcess {κ : Type} [BEq κ] (limit : Nat) {items : List (Counted κ)}
    {tokens : List AnnotatedToken} (h : (items.map Counted.token).Subperm tokens) :
    (firstExcess limit items).Subperm tokens :=
  (firstExcessFrom_sublist limit [] items).subperm.trans h

/-! ### Long lines -/

/-- When the tokens of the pieces come in order, so do the owners of long lines; none of them stands
before the owner of the line under way. -/
theorem pairwise_longLinesFrom {limit : Nat} {owner : Option AnnotatedToken} {prev : Option Char}
    {pieces : List LinePiece}
    (h : (owner.toList ++ pieces.map LinePiece.token).Pairwise fun t u => t.index ≤ u.index) :
    (longLinesFrom limit owner prev pieces).Pairwise fun t u => t.index ≤ u.index := by
  induction pieces generalizing owner prev with
  | nil => exact .nil
  | cons piece rest ih =>
      have howner : (owner.getD piece.token :: rest.map LinePiece.token).Pairwise
          fun t u => t.index ≤ u.index := by
        cases owner with
        | none => exact h
        | some u => exact h.sublist ((List.sublist_cons_self _ _).cons_cons u)
      obtain ⟨hfirst, hrest⟩ := List.pairwise_cons.1 howner
      simp only [longLinesFrom]
      split
      · refine List.pairwise_append.2 ⟨?_, @ih none _ hrest, ?_⟩
        · split
          · exact List.pairwise_singleton _ _
          · exact .nil
        · intro t ht u hu
          split at ht
          · rw [List.mem_singleton.1 ht]
            rcases mem_of_mem_longLinesFrom hu with hu | ⟨piece', hpiece', rfl⟩
            · simp at hu
            · exact hfirst _ (List.mem_map_of_mem hpiece')
          · simp at ht
      · exact @ih (some _) _ howner

/-- The pieces of tokens in order come in the order of their tokens. -/
theorem pairwise_pieces {tokens : List AnnotatedToken}
    (h : tokens.Pairwise fun t u => t.index < u.index) :
    ((tokens.flatMap AnnotatedToken.pieces).map LinePiece.token).Pairwise
      fun t u => t.index ≤ u.index := by
  rw [List.pairwise_map, List.pairwise_flatMap]
  refine ⟨fun t _ => ?_, h.imp ?_⟩
  · refine List.pairwise_of_forall_mem_list fun piece hpiece piece' hpiece' => ?_
    rw [LinePiece.token_of_mem_cut hpiece, LinePiece.token_of_mem_cut hpiece']
  · intro t u hlt piece hpiece piece' hpiece'
    rw [LinePiece.token_of_mem_cut hpiece, LinePiece.token_of_mem_cut hpiece']
    exact Nat.le_of_lt hlt

/-! ### Every rule -/

/-- Numbered tokens ascend. -/
theorem pairwise_index_of_numbered {tokens : List AnnotatedToken}
    (h : Token.Numbered (tokens.map (·.toToken))) :
    tokens.Pairwise fun t u => t.index < u.index := by
  have hmap : tokens.map (·.index) = List.range tokens.length := by
    simpa [Token.Numbered, Function.comp_def] using h
  rw [← List.pairwise_map, hmap]
  exact List.pairwise_lt_range

/-- **No rule objects to a token twice.** -/
theorem Rule.nodup_flagged (limits : Thresholds) {tokens : List AnnotatedToken}
    (h : Token.Numbered (tokens.map (·.toToken))) (rule : Rule) :
    ((rule.flagged limits tokens).map (·.index)).Nodup := by
  have hordered := pairwise_index_of_numbered h
  have hnodup : (tokens.map (·.index)).Nodup :=
    List.pairwise_map.2 (hordered.imp Nat.ne_of_lt)
  have hsubperm : ∀ {flagged : List AnnotatedToken}, flagged.Subperm tokens →
      (flagged.map (·.index)).Nodup := by
    intro flagged ⟨kept, hperm, hsublist⟩
    exact (hperm.map _).nodup_iff.1 ((hsublist.map _).nodup hnodup)
  cases rule with
  | fixedSeed =>
      exact hsubperm ((fixedSeeds_sublist tokens).trans (List.drop_sublist 2 tokens)).subperm
  | lineLength =>
      have howners := @pairwise_longLinesFrom limits.lineLength none none _
        (pairwise_pieces hordered)
      exact List.pairwise_map.2 ((pairwise_dropRepeats howners).imp Nat.ne_of_lt)
  | tooManyArguments =>
      exact hsubperm (subperm_firstExcess _ (token_filterMap_sublist _ _ _ tokens).subperm)
  | tooManyConstants => exact hsubperm (subperm_firstExcess _ (subperm_constantsFrom none tokens))
  | tooManyGlobals =>
      exact hsubperm (subperm_firstExcess _ (token_filterMap_sublist _ _ _ tokens).subperm)
  | tooManyLocals =>
      exact hsubperm (subperm_firstExcess _ (token_filterMap_sublist _ _ _ tokens).subperm)
  | _ => exact hsubperm List.filter_sublist.subperm

/-! ### The order of the findings -/

/-- A finding stands before another one if its token does, or at the same token the name of its
rule. -/
def Finding.Before (a b : Finding) : Prop :=
  a.index < b.index ∨ a.index = b.index ∧ a.rule.name < b.rule.name

theorem Finding.Before.asymm {a b : Finding} (h : a.Before b) : ¬b.Before a := by
  rcases h with h | ⟨h, hname⟩
  · rintro (h' | ⟨h', -⟩) <;> omega
  · rintro (h' | ⟨-, hname'⟩)
    · omega
    · exact String.lt_asymm hname hname'

theorem Rule.nodup_all : Rule.all.Nodup := by
  decide

/-- The names tell the rules apart. -/
theorem Rule.name_injective : Function.Injective Rule.name := by
  intro rule rule' h
  exact List.inj_on_of_nodup_map (by decide : (Rule.all.map Rule.name).Nodup) (mem_all rule)
    (mem_all rule') h

/-- Of all the findings of some rules, no two are of one rule at one token. -/
theorem nodup_findings {limits : Thresholds} {tokens : List AnnotatedToken}
    (h : Token.Numbered (tokens.map (·.toToken))) {rules : List Rule} (hrules : rules.Nodup) :
    (rules.flatMap (Rule.findings limits tokens)).Pairwise
      fun a b => a.rule = b.rule → a.index ≠ b.index := by
  refine List.pairwise_flatMap.2 ⟨fun rule _ => ?_, hrules.imp ?_⟩
  · have hnodup := List.pairwise_map.1 (rule.nodup_flagged limits h)
    refine List.pairwise_map.2 (hnodup.imp ?_)
    intro t u hne _
    exact hne
  · intro rule rule' hne a ha b hb heq
    obtain ⟨t, -, rfl⟩ := List.mem_map.1 ha
    obtain ⟨u, -, rfl⟩ := List.mem_map.1 hb
    exact absurd heq hne

/-- The findings of rules, sorted, stand in strict order. -/
theorem pairwise_before_sort {limits : Thresholds} {tokens : List AnnotatedToken}
    (h : Token.Numbered (tokens.map (·.toToken))) {rules : List Rule} (hrules : rules.Nodup) :
    (sort Finding.le (rules.flatMap (Rule.findings limits tokens))).Pairwise Finding.Before := by
  have hdistinct := ((sort_perm Finding.le _).pairwise_iff
    fun hab heq => (hab heq.symm).symm).2 (@nodup_findings limits tokens h rules hrules)
  refine (hdistinct.and (pairwise_sort Finding.le_trans Finding.le_total _)).imp ?_
  -- the sort is not strict, but equal places and names would be one rule at one token
  intro a b ⟨hne, hle⟩
  rcases Finding.le_iff.1 hle with hlt | ⟨heq, hname⟩
  · exact Or.inl hlt
  · refine Or.inr ⟨heq, String.not_le.1 fun hname' => ?_⟩
    exact hne (Rule.name_injective (String.le_antisymm hname hname')) heq

instance : Std.Irrefl Finding.Before := ⟨fun _ h => h.asymm h⟩

instance : Std.Antisymm Finding.Before := ⟨fun _ _ h h' => absurd h' h.asymm⟩

/-- The findings of the rules for which `p` holds. -/
theorem mem_filter_findings {limits : Thresholds} {tokens : List AnnotatedToken} {p : Rule → Bool}
    {f : Finding} : f ∈ (findings limits tokens).filter (p ·.rule) ↔
      ∃ rule : Rule, p rule = true ∧ ∃ t ∈ rule.flagged limits tokens, Finding.ofToken rule t = f := by
  rw [List.mem_filter, mem_findings_iff]
  constructor
  · rintro ⟨⟨t, ht, hf⟩, hp⟩
    exact ⟨f.rule, hp, t, ht, hf⟩
  · rintro ⟨rule, hp, t, ht, rfl⟩
    exact ⟨⟨t, ht, rfl⟩, hp⟩

section

variable {limits : Thresholds} {tokens : List AnnotatedToken}
  (h : Token.Numbered (tokens.map (·.toToken)))

include h

theorem pairwise_before_filter (p : Rule → Bool) :
    ((findings limits tokens).filter (p ·.rule)).Pairwise Finding.Before :=
  (pairwise_before_sort h Rule.nodup_all).filter _

/-- The findings of some rules are known by their members, if they stand in strict order. -/
theorem filter_findings_eq {p : Rule → Bool} {found : List Finding}
    (hordered : found.Pairwise Finding.Before)
    (hmem : ∀ f, f ∈ found ↔
      ∃ rule : Rule, p rule = true ∧ ∃ t ∈ rule.flagged limits tokens, Finding.ofToken rule t = f) :
    (findings limits tokens).filter (p ·.rule) = found :=
  (pairwise_before_filter h p).eq_of_mem_iff hordered fun f =>
    mem_filter_findings.trans (hmem f).symm

/-- If a rule objects to one token at most for each of some things, and no two of these share a token,
then the findings of the rule are one for each thing that has a token. -/
theorem perm_filter_findings_filterMap {ι : Type} {rule : Rule} {things : List ι}
    {blamed : ι → Option AnnotatedToken} (hthings : things.Nodup)
    (hmem : ∀ t, t ∈ rule.flagged limits tokens ↔ ∃ x ∈ things, blamed x = some t)
    (hinj : ∀ x ∈ things, ∀ y ∈ things, ∀ t, blamed x = some t → blamed y = some t → x = y) :
    ((findings limits tokens).filter (·.rule == rule)).Perm
      (things.filterMap fun x => (blamed x).map (Finding.ofToken rule)) := by
  have hflagged : (rule.flagged limits tokens).Nodup := (rule.nodup_flagged limits h).of_map
  have hblamed : (things.filterMap blamed).Nodup := by
    refine List.pairwise_filterMap.2 (hthings.imp_of_mem fun {x y} hx hy hne => ?_)
    rintro t ht _ ht' rfl
    exact hne (hinj x hx y hy t ht ht')
  have hperm : (rule.flagged limits tokens).Perm (things.filterMap blamed) := by
    refine (List.perm_ext_iff_of_nodup hflagged hblamed).2 fun t => ?_
    rw [hmem, List.mem_filterMap]
  have hmap : things.filterMap (fun x => (blamed x).map (Finding.ofToken rule)) =
      (things.filterMap blamed).map (Finding.ofToken rule) := by
    rw [List.map_filterMap]
  rw [hmap]
  exact (perm_filter_findings limits _ rule).trans (hperm.map _)

/-- Where tokens are replaced, the findings of the rules that do not see it stay in their order. -/
theorem filter_findings_map {g : AnnotatedToken → AnnotatedToken} {place : Finding → Finding}
    (hmap : Token.Numbered ((tokens.map g).map (·.toToken))) {p : Rule → Bool}
    (hflagged : ∀ rule : Rule, p rule = true →
      rule.flagged limits (tokens.map g) = (rule.flagged limits tokens).map g)
    (hplace : ∀ rule t, Finding.ofToken rule (g t) = place (.ofToken rule t))
    (hbefore : ∀ a b : Finding, a.Before b → (place a).Before (place b)) :
    (findings limits (tokens.map g)).filter (p ·.rule) =
      ((findings limits tokens).filter (p ·.rule)).map place := by
  refine filter_findings_eq hmap ?_ fun f => ?_
  · exact List.pairwise_map.2 ((pairwise_before_filter h p).imp (hbefore _ _))
  · simp only [List.mem_map, mem_filter_findings]
    constructor
    · rintro ⟨_, ⟨rule, hp, t, ht, rfl⟩, rfl⟩
      refine ⟨rule, hp, g t, ?_, hplace rule t⟩
      rw [hflagged rule hp]
      exact List.mem_map_of_mem ht
    · rintro ⟨rule, hp, u, hu, rfl⟩
      rw [hflagged rule hp] at hu
      obtain ⟨t, ht, rfl⟩ := List.mem_map.1 hu
      exact ⟨_, ⟨rule, hp, t, ht, rfl⟩, (hplace rule t).symm⟩

end

/-- **The findings of numbered tokens stand in strict order**, by token and then by the name of the
rule, since no rule objects to a token twice; so in whatever order the rules run, sorting gives the
same findings. The annotations of the tokens may be any. -/
theorem findings_strictly_ordered (limits : Thresholds) {tokens : List AnnotatedToken}
    (h : Token.Numbered (tokens.map (·.toToken))) :
    (findings limits tokens).Pairwise Finding.Before ∧
      (∀ rule : Rule, ((rule.flagged limits tokens).map (·.index)).Nodup) ∧
      ∀ rules : List Rule, rules.Perm Rule.all →
        sort Finding.le (rules.flatMap (Rule.findings limits tokens)) = findings limits tokens := by
  have hordered := @pairwise_before_sort limits _ h _ Rule.nodup_all
  refine ⟨hordered, Rule.nodup_flagged limits h, ?_⟩
  intro rules hrules
  have hordered' := @pairwise_before_sort limits _ h _ (hrules.nodup_iff.2 Rule.nodup_all)
  have hperm : (sort Finding.le (rules.flatMap (Rule.findings limits tokens))).Perm
      (findings limits tokens) :=
    ((sort_perm _ _).trans (hrules.flatMap_right _)).trans (sort_perm _ _).symm
  exact hperm.eq_of_pairwise (fun a b _ _ hab hba => absurd hba hab.asymm) hordered' hordered

/-- Four rules object to a literal that is a local and starts two long lines, and two to a parameter;
no text has such tokens.  The rules may run in the opposite order. -/
theorem findings_strictly_ordered_literal :
    let literal : AnnotatedToken :=
      ⟨⟨⟨.literal .datetime, "1\nlong\n"⟩, 0, ⟨5, 5⟩, ⟨0, 9⟩⟩, none, some .localVar,
        some .assignment, false, some 7⟩
    let param : AnnotatedToken :=
      ⟨⟨⟨.identifier, "a"⟩, 1, ⟨0, 1⟩, ⟨0, 0⟩⟩, some 3, some .parameter, none, false, none⟩
    let tokens := [literal, param]
    let limits : Thresholds := { lineLength := 3, locals := 0, params := 0 }
    let found := [Finding.ofToken .deprecatedDatetime literal, .ofToken .invalidAssign literal,
      .ofToken .lineLength literal, .ofToken .tooManyLocals literal,
      .ofToken .tooManyArguments param, .ofToken .unusedParam param]
    Token.Numbered (tokens.map (·.toToken)) ∧ findings limits tokens = found ∧
      found.Pairwise Finding.Before ∧
      sort Finding.le (Rule.all.reverse.flatMap (Rule.findings limits tokens)) = found := by
  intro literal param tokens limits found
  have hnumbered : Token.Numbered (tokens.map (·.toToken)) := by decide
  have hfound : findings limits tokens = found := by decide +kernel
  obtain ⟨hordered, -, hrules⟩ := findings_strictly_ordered limits hnumbered
  refine ⟨hnumbered, hfound, hfound ▸ hordered, ?_⟩
  exact (hrules _ (List.reverse_perm _)).trans hfound

end QSource
