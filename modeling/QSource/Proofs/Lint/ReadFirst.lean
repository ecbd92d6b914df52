/-
**Locals that their own scope reads first.**

The rule looks at every assignment to a local and searches the tokens before it, twice.  What it finds
can be said of each variable as a whole: list the places where the scope itself reads or writes the
name, and nothing of the lambdas inside it.  If the first of them is a read, then the first of them that
writes without reading is reported, and there is no other finding.

Main definitions:

* `QSource.Scope.occurrences` — the places where a scope itself reads or writes a name of its own;
* `QSource.Scope.lateWrite?` — **the assignment that comes too late**, if the name is read first.

Main results:

* `QSource.earlierUses_eq` — what the rule searches is the list of the occurrences before a token;
* `QSource.mem_lateDeclarations_iff` — the tokens that the rule objects to;
* `QSource.findings_lateWrite` — **a local that is read first is reported once, and nothing else is**.
-/

import QSource.Proofs.Lint.Order
import QSource.Proofs.Scope.Bindings

set_option relaxedAutoImplicit false
set_option autoImplicit false

namespace QSource

/-! ### The occurrences of a variable -/

/-- The places where the scope itself reads or writes a name that it owns, in their order. -/
def Scope.occurrences (s : Scope) (name : String) (tokens : List AnnotatedToken) :
    List AnnotatedToken :=
  tokens.filter fun t => t.isIdentifier && t.text == name && t.scope == some s.id &&
    t.binding == some s.id && t.usage.isSome

/-- An occurrence that is written and not read before. -/
def AnnotatedToken.writesPlainly (t : AnnotatedToken) : Bool := t.isAssignment && !t.reversed

/-- **The assignment that comes too late**: if the first occurrence is a read, the first one that is
written and not read before. -/
def Scope.lateWrite? (s : Scope) (name : String) (tokens : List AnnotatedToken) :
    Option AnnotatedToken :=
  if (s.occurrences name tokens).head?.any AnnotatedToken.isReference then
    (s.occurrences name tokens).find? AnnotatedToken.writesPlainly
  else none

section

variable {s : Scope} {name : String} {tokens : List AnnotatedToken} {t : AnnotatedToken}

theorem Scope.mem_occurrences : t ∈ s.occurrences name tokens ↔ t ∈ tokens ∧
    t.isIdentifier = true ∧ t.text = name ∧ t.scope = some s.id ∧ t.binding = some s.id ∧
      t.usage.isSome = true := by
  simp [occurrences, and_assoc]

/-- What is read is not written. -/
theorem AnnotatedToken.isReference_eq_false (h : t.isAssignment = true) : t.isReference = false := by
  simp only [isAssignment, beq_iff_eq] at h
  simp [isReference, h]

/-- Of tokens in order, those before one of them are those with smaller numbers. -/
theorem filter_index_lt {before behind : List AnnotatedToken}
    (h : (before ++ t :: behind).Pairwise fun t u => t.index < u.index) :
    ((before ++ t :: behind).filter fun u => u.index < t.index) = before := by
  obtain ⟨-, hbehind, hbefore⟩ := List.pairwise_append.1 h
  rw [List.filter_append, List.filter_eq_self.2, List.filter_eq_nil_iff.2, List.append_nil]
  · intro u hu
    rcases List.mem_cons.1 hu with rfl | hu
    · simp
    · simpa using Nat.le_of_lt ((List.pairwise_cons.1 hbehind).1 u hu)
  · intro u hu
    simpa using hbefore u hu t (List.mem_cons_self ..)

end

/-! ### The tokens of the rule -/

section

variable {tokens : List Token} {nodes : List Node} (hnumbered : Token.Numbered tokens)
  (h : parse tokens = .ok nodes) {s : Scope} {t : AnnotatedToken}

/-- What the rule searches is the list of the occurrences before the token. -/
theorem earlierUses_eq {tokens : List AnnotatedToken} (hscope : t.scope = some s.id)
    (hbinding : t.binding = some s.id) :
    earlierUses (tokens.filter fun u => u.isIdentifier && u.usage.isSome) t =
      (s.occurrences t.text tokens).filter fun u => u.index < t.index := by
  rw [earlierUses, Scope.occurrences, List.filter_filter, List.filter_filter]
  refine List.filter_congr fun u _ => ?_
  rw [Bool.eq_iff_iff]
  simp only [sameVariable, hscope, hbinding, Bool.and_eq_true, decide_eq_true_eq, bne_iff_ne, ne_eq,
    beq_iff_eq]
  grind

include h in
/-- A plain assignment to a local is an occurrence of a variable in the scope that owns it. -/
theorem exists_occurrences_of_isPlainDeclaration (ht : t ∈ (analyze nodes).tokens)
    (hplain : isPlainDeclaration t = true) : ∃ s ∈ (analyze nodes).scopes, t.text ∈ s.ownNames ∧
      t ∈ s.occurrences t.text (analyze nodes).tokens ∧ t.writesPlainly = true := by
  simp only [isPlainDeclaration, Bool.and_eq_true, Bool.not_eq_true', beq_iff_eq] at hplain
  obtain ⟨⟨⟨hidentifier, hassignment⟩, hreversed⟩, hrole⟩ := hplain
  obtain ⟨id, hid⟩ := Option.ne_none_iff_exists'.1 (binding_ne_none_of_role h ht (Or.inr hrole))
  obtain ⟨s, hs, rfl, -⟩ := exists_mem_scopes_of_binding h ht hid
  have hscope : t.scope = some s.id :=
    (binding_eq_scope_of_assignment h ht hassignment hrole).symm.trans hid
  have husage : t.usage.isSome = true := by
    simp only [AnnotatedToken.isAssignment, beq_iff_eq] at hassignment
    simp [hassignment]
  refine ⟨s, hs, ?_, Scope.mem_occurrences.2 ⟨ht, hidentifier, rfl, hscope, hid, husage⟩, ?_⟩
  · rcases role_of_owned_assignment hs ht hassignment hid with ⟨hparam, -⟩ | ⟨-, hown⟩
    · simp [hrole] at hparam
    · exact hown
  · simp [AnnotatedToken.writesPlainly, hassignment, hreversed]

/-- A plain assignment among the occurrences of an own name is one to a local. -/
theorem isPlainDeclaration_of_mem_occurrences (hs : s ∈ (analyze nodes).scopes) {name : String}
    (hname : name ∈ s.ownNames) (ht : t ∈ s.occurrences name (analyze nodes).tokens)
    (hwrites : t.writesPlainly = true) : isPlainDeclaration t = true := by
  obtain ⟨hmem, hidentifier, rfl, -, hbinding, -⟩ := Scope.mem_occurrences.1 ht
  simp only [AnnotatedToken.writesPlainly, Bool.and_eq_true, Bool.not_eq_true'] at hwrites
  rcases role_of_owned_assignment hs hmem hwrites.1 hbinding with ⟨-, hparam⟩ | ⟨hrole, -⟩
  · have hnot := (List.mem_filter.1 hname).2
    simp [hparam] at hnot
  · simp [isPlainDeclaration, hidentifier, hwrites, hrole]

/-- The two searches of the rule find that the token comes too late. -/
theorem lateWrite?_eq_some_iff {name : String} {found : List AnnotatedToken}
    (hfound : found.Pairwise fun t u => t.index < u.index) (ht : t ∈ s.occurrences name found)
    (hwrites : t.writesPlainly = true) :
    s.lateWrite? name found = some t ↔
      ((s.occurrences name found).filter fun u => u.index < t.index).head?.any
          AnnotatedToken.isReference = true ∧
        ((s.occurrences name found).filter fun u => u.index < t.index).any
          AnnotatedToken.writesPlainly = false := by
  have hordered : (s.occurrences name found).Pairwise fun t u => t.index < u.index :=
    hfound.filter _
  rw [Scope.lateWrite?]
  generalize s.occurrences name found = uses at ht hordered ⊢
  obtain ⟨before, behind, rfl⟩ := List.append_of_mem ht
  rw [filter_index_lt hordered]
  have hbefore := (List.pairwise_append.1 hordered).2.2
  cases before with
  | nil =>
      have hassignment : t.isAssignment = true := (Bool.and_eq_true_iff.1 hwrites).1
      simp [AnnotatedToken.isReference_eq_false hassignment]
  | cons first before =>
      simp only [List.cons_append, List.head?_cons, Option.any_some]
      rw [← List.cons_append, List.find?_append, List.find?_cons_of_pos hwrites]
      cases hfind : (first :: before).find? AnnotatedToken.writesPlainly with
      | none =>
          have hnone : (first :: before).any AnnotatedToken.writesPlainly = false := by
            simpa using hfind
          simp [hnone]
      | some u =>
          -- another one is written plainly before the token
          have hmem := List.mem_of_find?_eq_some hfind
          have hany : (first :: before).any AnnotatedToken.writesPlainly = true :=
            List.any_eq_true.2 ⟨u, hmem, List.find?_some hfind⟩
          have hne : u ≠ t := by
            rintro rfl
            exact Nat.lt_irrefl _ (hbefore u hmem u (List.mem_cons_self ..))
          simp [hany, hne]

/-- What comes too late is an occurrence that is written plainly. -/
theorem of_lateWrite?_eq_some {name : String} {found : List AnnotatedToken}
    (hlate : s.lateWrite? name found = some t) :
    t ∈ s.occurrences name found ∧ t.writesPlainly = true := by
  rw [Scope.lateWrite?] at hlate
  split at hlate
  · exact ⟨List.mem_of_find?_eq_some hlate, List.find?_some hlate⟩
  · simp at hlate

include hnumbered h

/-- **The tokens that the rule objects to** are the assignments that come too late. -/
theorem mem_lateDeclarations_iff : t ∈ lateDeclarations (analyze nodes).tokens ↔
    ∃ s ∈ (analyze nodes).scopes, ∃ name ∈ s.ownNames,
      s.lateWrite? name (analyze nodes).tokens = some t := by
  have hordered := pairwise_index_of_numbered (numbered_analyze hnumbered h)
  rw [lateDeclarations, List.mem_filter, Bool.and_eq_true, Bool.and_eq_true, Bool.not_eq_true']
  constructor
  · rintro ⟨ht, ⟨hplain, hreference⟩, hassignment⟩
    obtain ⟨s, hs, hname, hoccurs, hwrites⟩ := exists_occurrences_of_isPlainDeclaration h ht hplain
    obtain ⟨-, -, -, hscope, hbinding, -⟩ := Scope.mem_occurrences.1 hoccurs
    rw [earlierUses_eq hscope hbinding] at hreference hassignment
    exact ⟨s, hs, _, hname,
      (lateWrite?_eq_some_iff hordered hoccurs hwrites).2 ⟨hreference, hassignment⟩⟩
  · rintro ⟨s, hs, name, hname, hlate⟩
    obtain ⟨hoccurs, hwrites⟩ := of_lateWrite?_eq_some hlate
    obtain ⟨ht, -, rfl, hscope, hbinding, -⟩ := Scope.mem_occurrences.1 hoccurs
    rw [earlierUses_eq hscope hbinding]
    obtain ⟨hreference, hassignment⟩ :=
      (lateWrite?_eq_some_iff hordered hoccurs hwrites).1 hlate
    exact ⟨ht, ⟨isPlainDeclaration_of_mem_occurrences hs hname hoccurs hwrites, hreference⟩,
      hassignment⟩

end

/-! ### The findings -/

/-- Every scope with each of its own names. -/
def ownedNames (scopes : List Scope) : List (Scope × String) :=
  scopes.flatMap fun s => s.ownNames.map fun name => (s, name)

theorem mem_ownedNames {scopes : List Scope} {s : Scope} {name : String} :
    (s, name) ∈ ownedNames scopes ↔ s ∈ scopes ∧ name ∈ s.ownNames := by
  simp [ownedNames]

theorem nodup_ownedNames (nodes : List Node) : (ownedNames (analyze nodes).scopes).Nodup := by
  refine List.pairwise_flatMap.2 ⟨fun s hs => ?_, nodup_scopes.imp fun hne => ?_⟩
  · exact (nodup_ownNames hs).map fun name name' heq => (Prod.mk.inj heq).2
  · simp only [List.mem_map]
    rintro _ ⟨name, -, rfl⟩ _ ⟨name', -, rfl⟩ heq
    exact hne (Prod.mk.inj heq).1

/-- **A local that its scope reads first is reported once, and nothing else is.**  There is one finding
for each scope and each of its own names that has an assignment that comes too late, at that
assignment, which is one of the scope itself to a local of its own. -/
theorem findings_lateWrite (limits : Thresholds) {tokens : List Token} {nodes : List Node}
    (hnumbered : Token.Numbered tokens) (h : parse tokens = .ok nodes) :
    ((findings limits (analyze nodes).tokens).filter (·.rule == .declaredAfterUse)).Perm
        ((ownedNames (analyze nodes).scopes).filterMap fun (s, name) =>
          (s.lateWrite? name (analyze nodes).tokens).map (.ofToken .declaredAfterUse)) ∧
      ∀ s ∈ (analyze nodes).scopes, ∀ name ∈ s.ownNames,
        ((s.lateWrite? name (analyze nodes).tokens).isSome ↔
          (∃ first rest, s.occurrences name (analyze nodes).tokens = first :: rest ∧
            first.isReference = true) ∧
          ∃ t ∈ s.occurrences name (analyze nodes).tokens, t.writesPlainly = true) ∧
        ∀ t, s.lateWrite? name (analyze nodes).tokens = some t →
          t.role = some .localVar ∧ t.scope = some s.id ∧ t.binding = some s.id := by
  refine ⟨?_, fun s hs name hname => ⟨?_, fun t hlate => ?_⟩⟩
  · refine perm_filter_findings_filterMap (numbered_analyze hnumbered h) (nodup_ownedNames nodes)
      (fun t => ?_) ?_
    · rw [Rule.flagged, mem_lateDeclarations_iff hnumbered h]
      simp only [Prod.exists, mem_ownedNames, and_assoc, exists_and_left]
    · -- the scope and the text of an assignment tell the variable
      rintro ⟨s, name⟩ hs ⟨s', name'⟩ hs' t hlate hlate'
      obtain ⟨-, -, rfl, -, hbinding, -⟩ := Scope.mem_occurrences.1 (of_lateWrite?_eq_some hlate).1
      obtain ⟨-, -, rfl, -, hbinding', -⟩ :=
        Scope.mem_occurrences.1 (of_lateWrite?_eq_some hlate').1
      rw [eq_of_id_eq (mem_ownedNames.1 hs).1 (mem_ownedNames.1 hs').1
        (Option.some.inj (hbinding.symm.trans hbinding'))]
  · rw [Scope.lateWrite?]
    cases s.occurrences name (analyze nodes).tokens with
    | nil => simp
    | cons first rest => by_cases hreference : first.isReference = true <;> simp [hreference]
  · obtain ⟨hoccurs, hwrites⟩ := of_lateWrite?_eq_some hlate
    obtain ⟨-, -, -, hscope, hbinding, -⟩ := Scope.mem_occurrences.1 hoccurs
    have hplain := isPlainDeclaration_of_mem_occurrences hs hname hoccurs hwrites
    simp only [isPlainDeclaration, Bool.and_eq_true, beq_iff_eq] at hplain
    exact ⟨hplain.2, hscope, hbinding⟩

/-- In `{a;{b};a:1;b:2;a:3;c+:1;c:4}` the local `a` is read first, and its first assignment is reported;
`b` is read by the inner lambda alone, and `c` is written first. -/
theorem findings_lateWrite_inner :
    let tokens := Lexeme.layOut [⟨.opening .brace, "\x7b"⟩, ⟨.identifier, "a"⟩, ⟨.semicolon, ";"⟩,
      ⟨.opening .brace, "\x7b"⟩, ⟨.identifier, "b"⟩, ⟨.closing .brace, "\x7d"⟩, ⟨.semicolon, ";"⟩,
      ⟨.identifier, "a"⟩, ⟨.colon, ":"⟩, ⟨.literal .number, "1"⟩, ⟨.semicolon, ";"⟩,
      ⟨.identifier, "b"⟩, ⟨.colon, ":"⟩, ⟨.literal .number, "2"⟩, ⟨.semicolon, ";"⟩,
      ⟨.identifier, "a"⟩, ⟨.colon, ":"⟩, ⟨.literal .number, "3"⟩, ⟨.semicolon, ";"⟩,
      ⟨.identifier, "c"⟩, ⟨.operator, "+"⟩, ⟨.colon, ":"⟩, ⟨.literal .number, "1"⟩,
      ⟨.semicolon, ";"⟩, ⟨.identifier, "c"⟩, ⟨.colon, ":"⟩, ⟨.literal .number, "4"⟩,
      ⟨.closing .brace, "\x7d"⟩]
    ∃ nodes, Token.Numbered tokens ∧ parse tokens = .ok nodes ∧
      ((findings {} (analyze nodes).tokens).filter (·.rule == .declaredAfterUse)).map (·.index) =
        [7] := by
  intro tokens
  have hnumbered : Token.Numbered tokens := Token.numbered_layOut _
  have hparse : parse tokens = .ok _ := rfl
  exact ⟨_, hnumbered, hparse,
    List.perm_singleton.1
      (((findings_lateWrite {} hnumbered hparse).1.map _).trans (.of_eq (by decide +kernel)))⟩

end QSource
