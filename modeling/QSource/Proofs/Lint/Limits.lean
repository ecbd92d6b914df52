/-
**Limits on parameters and locals, told by the scope table.**

The two rules never see the table.  They count tokens by their roles and owners, for all scopes at
once.  Still they object to just those scopes of which the table says that they have too many, once to
each: at the declaration with the number of the limit, and at the assignment with which the names of a
scope that have been assigned come to be more than the limit.

Main definitions:

* `QSource.Scope.excessParam` — the declaration of a scope that is one too many;
* `QSource.Scope.assignedNames`, `QSource.Scope.excessLocal` — the own names of a scope that some tokens
  assign, and the assignment with which they come to be too many.

Main results:

* `QSource.mem_flagged_tooManyArguments`, `QSource.mem_flagged_tooManyLocals` — the tokens of the two
  rules;
* `QSource.findings_paramLimit_localLimit` — **the limits on parameters and locals agree with the scope
  table**.
-/

import QSource.Proofs.Lint.Counting
import QSource.Proofs.Lint.Relabel
import QSource.Proofs.Scope.Members

set_option relaxedAutoImplicit false
set_option autoImplicit false

namespace QSource

/-! ### What is too much, by the table -/

/-- The declaration that is one too many in the scope: the one with the number `limit`, counted from
zero. -/
def Scope.excessParam (s : Scope) (limit : Nat) (tokens : List AnnotatedToken) :
    Option AnnotatedToken :=
  s.paramList[limit]?.bind fun param => tokens[param.2]?

/-- The own names of the scope that some of the tokens assign. -/
def Scope.assignedNames (s : Scope) (tokens : List AnnotatedToken) : List String :=
  s.ownNames.filter fun name =>
    tokens.any fun t => t.isAssignment && t.binding == some s.id && t.text == name

/-- The assignment with which more than `limit` own names of the scope have been assigned. -/
def Scope.excessLocal (s : Scope) (limit : Nat) (tokens : List AnnotatedToken) :
    Option AnnotatedToken :=
  firstAbove limit (fun ts => (s.assignedNames ts).length) tokens

section

variable {s : Scope} {tokens tokens' : List AnnotatedToken}

theorem mem_assignedNames {name : String} : name ∈ s.assignedNames tokens ↔
    name ∈ s.ownNames ∧ ∃ t ∈ tokens, t.isAssignment = true ∧ t.binding = some s.id ∧
      t.text = name := by
  simp [Scope.assignedNames, and_assoc]

theorem length_assignedNames_le_append :
    (s.assignedNames tokens).length ≤ (s.assignedNames (tokens ++ tokens')).length := by
  refine (List.monotone_filter_right s.ownNames fun name h => ?_).length_le
  rw [List.any_append, h, Bool.true_or]

theorem assignedNames_nil : s.assignedNames [] = [] := by
  simp [Scope.assignedNames]

/-- The table counts nothing that no token assigns, so it comes to be too much at an assignment of the
scope. -/
theorem of_excessLocal_eq_some {limit : Nat} {t : AnnotatedToken}
    (h : s.excessLocal limit tokens = some t) : t.isAssignment = true ∧ t.binding = some s.id := by
  obtain ⟨before, behind, -, hle, hlt⟩ := (firstAbove_eq_some (by simp [assignedNames_nil])
    fun _ _ => length_assignedNames_le_append).1 h
  by_contra hnot
  have hsame : s.assignedNames (before ++ [t]) = s.assignedNames before := by
    refine List.filter_congr fun name _ => ?_
    rw [List.any_append, List.any_cons, List.any_nil]
    grind
  rw [hsame] at hlt
  omega

end

/-- The keys of a scope, where things are counted token by token. -/
theorem mem_keysOf_filterMap {κ : Type} [DecidableEq κ] {counts : AnnotatedToken → Bool}
    {owner : AnnotatedToken → Option ScopeId} {key : AnnotatedToken → κ}
    {tokens : List AnnotatedToken} {scope : ScopeId} {k : κ} :
    k ∈ keysOf scope (tokens.filterMap fun t =>
      if counts t then (owner t).map fun scope => (⟨scope, key t, t⟩ : Counted κ) else none) ↔
      ∃ t ∈ tokens, counts t = true ∧ owner t = some scope ∧ key t = k := by
  rw [mem_keysOf]
  constructor
  · rintro ⟨item, hitem, rfl, rfl⟩
    obtain ⟨ht, hcounts, howner, hkey⟩ := of_mem_filterMap_counted hitem
    exact ⟨item.token, ht, hcounts, howner, hkey⟩
  · rintro ⟨t, ht, hcounts, howner, rfl⟩
    exact ⟨⟨scope, key t, t⟩, List.mem_filterMap.2 ⟨t, ht, by simp [hcounts, howner]⟩, rfl, rfl⟩

/-- Where things are counted token by token, the tokens that are blamed. -/
theorem mem_firstExcess_counted_iff {κ : Type} [DecidableEq κ] [BEq κ] [LawfulBEq κ]
    {counts : AnnotatedToken → Bool} {owner : AnnotatedToken → Option ScopeId}
    {key : AnnotatedToken → κ} {limit : Nat} {tokens : List AnnotatedToken} {t : AnnotatedToken} :
    t ∈ firstExcess limit (tokens.filterMap fun t =>
      if counts t then (owner t).map fun scope => (⟨scope, key t, t⟩ : Counted κ) else none) ↔
      ∃ scope, firstAbove limit (fun ts => (keysOf scope (ts.filterMap fun t =>
        if counts t then (owner t).map fun scope => (⟨scope, key t, t⟩ : Counted κ) else none)).card)
          tokens = some t := by
  have htoken : ∀ (t : AnnotatedToken) (item : Counted κ), (if counts t then
      (owner t).map fun scope => (⟨scope, key t, t⟩ : Counted κ) else none) = some item →
        item.token = id t := by
    simp only [Option.ite_none_right_eq_some, Option.map_eq_some_iff]
    rintro t _ ⟨-, scope, -, rfl⟩
    rfl
  rw [mem_firstExcess_filterMap_iff htoken]
  simp

section

variable {tokens : List Token} {nodes : List Node} (hnumbered : Token.Numbered tokens)
  (h : parse tokens = .ok nodes)

/-! ### Parameters -/

section

include hnumbered h

/-- As many declarations are counted for a scope as stand in it. -/
theorem card_keysOf_countedParams (id : ScopeId) {ts : List AnnotatedToken}
    (hts : ts <+: (analyze nodes).tokens) :
    (keysOf id (countedParams ts)).card =
      (ts.filter fun t => t.isDeclaration && t.scope == some id).length := by
  have hkeys : keysOf id (countedParams ts) =
      ((ts.filter fun t => t.isDeclaration && t.scope == some id).map (·.index)).toFinset := by
    ext index
    rw [countedParams, mem_keysOf_filterMap]
    simp [and_assoc]
  have hnodup : ((ts.filter fun t => t.isDeclaration && t.scope == some id).map (·.index)).Nodup :=
    List.pairwise_map.2 ((((pairwise_index_of_numbered (numbered_analyze hnumbered h)).sublist
      hts.sublist).filter _).imp Nat.ne_of_lt)
  rw [hkeys, List.toFinset_card_of_nodup hnodup, List.length_map]

/-- The declaration that is one too many is the one with that number among those in the scope. -/
theorem excessParam_eq {s : Scope} (hs : s ∈ (analyze nodes).scopes) (limit : Nat) :
    s.excessParam limit (analyze nodes).tokens =
      ((analyze nodes).tokens.filter fun t => t.isDeclaration && t.scope == some s.id)[limit]? := by
  rw [Scope.excessParam, ← map_declarations_eq hnumbered h hs, List.getElem?_map]
  cases ht : ((analyze nodes).tokens.filter fun t =>
      t.isDeclaration && t.scope == some s.id)[limit]? with
  | none => rfl
  | some t =>
      exact getElem?_index_of_mem_analyze hnumbered h
        (List.mem_filter.1 (List.mem_of_getElem? ht)).1

/-- **The rule on parameters objects to the declarations that are one too many.** -/
theorem mem_flagged_tooManyArguments {limits : Thresholds} {t : AnnotatedToken} :
    t ∈ Rule.tooManyArguments.flagged limits (analyze nodes).tokens ↔
      ∃ s ∈ (analyze nodes).scopes, s.excessParam limits.params (analyze nodes).tokens = some t := by
  rw [Rule.flagged, countedParams, mem_firstExcess_counted_iff]
  have hfirst : ∀ id : ScopeId, firstAbove limits.params (fun ts => (keysOf id
      (countedParams ts)).card) (analyze nodes).tokens =
        ((analyze nodes).tokens.filter fun t =>
          t.isDeclaration && t.scope == some id)[limits.params]? := by
    intro id
    rw [firstAbove_congr fun ts => card_keysOf_countedParams hnumbered h id,
      firstAbove_length_filter]
  constructor
  · rintro ⟨id, hid⟩
    have ht := (hfirst id).symm.trans hid
    obtain ⟨hmem, hdeclaration⟩ := List.mem_filter.1 (List.mem_of_getElem? ht)
    simp only [Bool.and_eq_true, beq_iff_eq] at hdeclaration
    obtain ⟨m, hm, rfl⟩ := exists_marked_of_mem_analyze hmem
    rw [Marked.scope_annotate] at hdeclaration
    obtain ⟨s, hs, rfl⟩ := exists_mem_scopes_of_lt (scope_lt_of_mem_marked hm hdeclaration.2)
    exact ⟨s, hs, (excessParam_eq hnumbered h hs _).trans ht⟩
  · rintro ⟨s, hs, ht⟩
    exact ⟨s.id, (hfirst s.id).trans ((excessParam_eq hnumbered h hs _).symm.trans ht)⟩

end

/-! ### Locals -/

/-- As many assigned names are counted for a scope as own names of it are assigned. -/
theorem card_keysOf_countedLocals {s : Scope} (hs : s ∈ (analyze nodes).scopes)
    {ts : List AnnotatedToken} (hts : ts ⊆ (analyze nodes).tokens) :
    (keysOf s.id (countedLocals ts)).card = (s.assignedNames ts).length := by
  have hkeys : keysOf s.id (countedLocals ts) = (s.assignedNames ts).toFinset := by
    ext name
    rw [countedLocals, mem_keysOf_filterMap, List.mem_toFinset, mem_assignedNames]
    simp only [Bool.and_eq_true, beq_iff_eq]
    constructor
    · rintro ⟨t, ht, ⟨hrole, hassignment⟩, hbinding, rfl⟩
      rcases role_of_owned_assignment hs (hts ht) hassignment hbinding with ⟨hparam, -⟩ | ⟨-, hown⟩
      · simp [hrole] at hparam
      · exact ⟨hown, t, ht, hassignment, hbinding, rfl⟩
    · rintro ⟨hown, t, ht, hassignment, hbinding, rfl⟩
      refine ⟨t, ht, ⟨?_, hassignment⟩, hbinding, rfl⟩
      rcases role_of_owned_assignment hs (hts ht) hassignment hbinding with ⟨-, hparam⟩ | ⟨hrole, -⟩
      · -- an own name is no parameter
        have hnot := (List.mem_filter.1 hown).2
        simp [hparam] at hnot
      · exact hrole
  have hnodup : (s.assignedNames ts).Nodup := (nodup_ownNames hs).filter _
  rw [hkeys, List.toFinset_card_of_nodup hnodup]

/-- **The rule on locals objects to the assignments that bring one too many.** -/
theorem mem_flagged_tooManyLocals {limits : Thresholds} {t : AnnotatedToken} :
    t ∈ Rule.tooManyLocals.flagged limits (analyze nodes).tokens ↔
      ∃ s ∈ (analyze nodes).scopes, s.excessLocal limits.locals (analyze nodes).tokens = some t := by
  rw [Rule.flagged, countedLocals, mem_firstExcess_counted_iff]
  have hfirst : ∀ s ∈ (analyze nodes).scopes, firstAbove limits.locals (fun ts => (keysOf s.id
      (countedLocals ts)).card) (analyze nodes).tokens =
        s.excessLocal limits.locals (analyze nodes).tokens := by
    intro s hs
    exact firstAbove_congr fun ts hts => card_keysOf_countedLocals hs hts.subset
  constructor
  · rintro ⟨id, hid⟩
    -- the assignment counts for the scope, so it is one of the table
    obtain ⟨item, hitem, rfl⟩ := exists_of_firstAbove_keysOf hid
    simp only [Option.ite_none_right_eq_some, Option.map_eq_some_iff] at hitem
    obtain ⟨-, id, hbinding, rfl⟩ := hitem
    obtain ⟨s, hs, rfl⟩ := exists_mem_scopes_of_lt (binding_lt_of_mem_analyze
      (mem_of_firstAbove_eq_some hid) hbinding)
    exact ⟨s, hs, (hfirst s hs).symm.trans hid⟩
  · rintro ⟨s, hs, ht⟩
    exact ⟨s.id, (hfirst s hs).trans ht⟩

/-! ### Both limits -/

section

include hnumbered h

/-- If a rule objects to a token for each of some scopes, and the token tells which, then the findings of
the rule are one for each of these scopes. -/
theorem perm_findings_of_scopes {limits : Thresholds} {rule : Rule}
    {excess : Scope → Option AnnotatedToken} {owner : AnnotatedToken → Option ScopeId}
    (hmem : ∀ t, t ∈ rule.flagged limits (analyze nodes).tokens ↔
      ∃ s ∈ (analyze nodes).scopes, excess s = some t)
    (howner : ∀ s ∈ (analyze nodes).scopes, ∀ t, excess s = some t → owner t = some s.id) :
    ((findings limits (analyze nodes).tokens).filter (·.rule == rule)).Perm
      ((analyze nodes).scopes.filterMap fun s => (excess s).map (Finding.ofToken rule)) := by
  refine perm_filter_findings_filterMap (numbered_analyze hnumbered h) nodup_scopes hmem ?_
  -- the token of two scopes would have two owners
  intro s hs s' hs' t ht ht'
  exact eq_of_id_eq hs hs'
    (Option.some.inj ((howner s hs t ht).symm.trans (howner s' hs' t ht')))

/-- The declaration that is one too many stands in the scope. -/
theorem of_excessParam_eq_some {s : Scope} (hs : s ∈ (analyze nodes).scopes) {limit : Nat}
    {t : AnnotatedToken} (ht : s.excessParam limit (analyze nodes).tokens = some t) :
    t.isDeclaration = true ∧ t.scope = some s.id := by
  rw [excessParam_eq hnumbered h hs] at ht
  simpa using (List.mem_filter.1 (List.mem_of_getElem? ht)).2

theorem isSome_excessParam_iff {s : Scope} (hs : s ∈ (analyze nodes).scopes) (limit : Nat) :
    (s.excessParam limit (analyze nodes).tokens).isSome ↔ limit < s.paramList.length := by
  rw [excessParam_eq hnumbered h hs, ← map_declarations_eq hnumbered h hs, List.length_map]
  simp

end

/-- All own names of a scope are assigned. -/
theorem assignedNames_analyze {s : Scope} (hs : s ∈ (analyze nodes).scopes) :
    s.assignedNames (analyze nodes).tokens = s.ownNames := by
  refine List.filter_eq_self.2 fun name hname => ?_
  obtain ⟨t, ht, hassignment, -, -, hbinding, htext⟩ := exists_assignment_of_mem_ownNames hs hname
  exact List.any_eq_true.2 ⟨t, ht, by simp [hassignment, hbinding, htext]⟩

theorem isSome_excessLocal_iff {s : Scope} (hs : s ∈ (analyze nodes).scopes) (limit : Nat) :
    (s.excessLocal limit (analyze nodes).tokens).isSome ↔ limit < s.ownNames.length := by
  rw [Scope.excessLocal, isSome_firstAbove_iff (by simp [assignedNames_nil])
    fun _ _ => length_assignedNames_le_append, assignedNames_analyze hs]

/-- **The limits on parameters and locals agree with the scope table.**  There is one finding for each
scope that declares more parameters than allowed, at the declaration with the number of the limit; and
one for each scope with more own names than allowed, at the assignment of the scope with which the own
names that have been assigned come to be more than that.  There are no others. -/
theorem findings_paramLimit_localLimit (limits : Thresholds) {tokens : List Token}
    {nodes : List Node} (hnumbered : Token.Numbered tokens) (h : parse tokens = .ok nodes) :
    ((findings limits (analyze nodes).tokens).filter (·.rule == .tooManyArguments)).Perm
        ((analyze nodes).scopes.filterMap fun s =>
          (s.excessParam limits.params (analyze nodes).tokens).map (.ofToken .tooManyArguments)) ∧
      ((findings limits (analyze nodes).tokens).filter (·.rule == .tooManyLocals)).Perm
        ((analyze nodes).scopes.filterMap fun s =>
          (s.excessLocal limits.locals (analyze nodes).tokens).map (.ofToken .tooManyLocals)) ∧
      ∀ s ∈ (analyze nodes).scopes,
        ((s.excessParam limits.params (analyze nodes).tokens).isSome ↔
          limits.params < s.paramList.length) ∧
        (∀ t, s.excessParam limits.params (analyze nodes).tokens = some t →
          t.isDeclaration = true ∧ t.scope = some s.id) ∧
        ((s.excessLocal limits.locals (analyze nodes).tokens).isSome ↔
          limits.locals < s.ownNames.length) ∧
        ∀ t, s.excessLocal limits.locals (analyze nodes).tokens = some t →
          t.isAssignment = true ∧ t.binding = some s.id := by
  refine ⟨?_, ?_, fun s hs => ⟨?_, ?_, ?_, ?_⟩⟩
  · exact perm_findings_of_scopes hnumbered h
      (fun _ => mem_flagged_tooManyArguments hnumbered h)
      fun s hs t ht => (of_excessParam_eq_some hnumbered h hs ht).2
  · exact perm_findings_of_scopes hnumbered h (fun _ => mem_flagged_tooManyLocals)
      fun s _ t ht => (of_excessLocal_eq_some ht).2
  · exact isSome_excessParam_iff hnumbered h hs _
  · exact fun t => of_excessParam_eq_some hnumbered h hs
  · exact isSome_excessLocal_iff hs _
  · exact fun t => of_excessLocal_eq_some

end

/-- In `{[a;b]u:1;{[c]v:b;w:c};a:2;u:3;v:4}` two scopes have two own names each, the outer one although
it assigns its parameter and the name `v` of the inner one too; only the outer one declares two
parameters. -/
theorem findings_paramLimit_localLimit_nested :
    let tokens := Lexeme.layOut [⟨.opening .brace, "\x7b"⟩, ⟨.opening .bracket, "["⟩,
      ⟨.identifier, "a"⟩, ⟨.semicolon, ";"⟩, ⟨.identifier, "b"⟩, ⟨.closing .bracket, "]"⟩,
      ⟨.identifier, "u"⟩, ⟨.colon, ":"⟩, ⟨.literal .number, "1"⟩, ⟨.semicolon, ";"⟩,
      ⟨.opening .brace, "\x7b"⟩, ⟨.opening .bracket, "["⟩, ⟨.identifier, "c"⟩,
      ⟨.closing .bracket, "]"⟩, ⟨.identifier, "v"⟩, ⟨.colon, ":"⟩, ⟨.identifier, "b"⟩,
      ⟨.semicolon, ";"⟩, ⟨.identifier, "w"⟩, ⟨.colon, ":"⟩, ⟨.identifier, "c"⟩,
      ⟨.closing .brace, "\x7d"⟩, ⟨.semicolon, ";"⟩, ⟨.identifier, "a"⟩, ⟨.colon, ":"⟩,
      ⟨.literal .number, "2"⟩, ⟨.semicolon, ";"⟩, ⟨.identifier, "u"⟩, ⟨.colon, ":"⟩,
      ⟨.literal .number, "3"⟩, ⟨.semicolon, ";"⟩, ⟨.identifier, "v"⟩, ⟨.colon, ":"⟩,
      ⟨.literal .number, "4"⟩, ⟨.closing .brace, "\x7d"⟩]
    let limits : Thresholds := { locals := 1, params := 1 }
    ∃ nodes, Token.Numbered tokens ∧ parse tokens = .ok nodes ∧
      ((findings limits (analyze nodes).tokens).filter (·.rule == .tooManyArguments)).map (·.index) =
        [4] ∧
      (((findings limits (analyze nodes).tokens).filter (·.rule == .tooManyLocals)).map
        (·.index)).Perm [31, 18] := by
  intro tokens limits
  have hnumbered : Token.Numbered tokens := Token.numbered_layOut _
  have hparse : parse tokens = .ok _ := rfl
  have hmain := findings_paramLimit_localLimit limits hnumbered hparse
  exact ⟨_, hnumbered, hparse,
    List.perm_singleton.1 ((hmain.1.map _).trans (.of_eq (by decide +kernel))),
    (hmain.2.1.map _).trans (.of_eq (by decide +kernel))⟩

end QSource
