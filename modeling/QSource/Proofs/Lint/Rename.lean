/-
**Renaming a variable changes nothing.**

When the variable of a scope is given a name that occurs nowhere, every token keeps its scope, its
role, its usage and its owner.  The rules about names compare the texts of tokens with the same owner,
and those of globals.  The new name belongs to one owner, under which it takes the place of the old
one, and globals have none; so these rules object to the tokens to which they objected before.

Main results:

* `QSource.Renaming.keepsNames` — the rules about names do not see the new name;
* `QSource.analyze_renamed` — **renaming a variable changes nothing**.
-/

import QSource.Proofs.Lint.Statements
import QSource.Proofs.Scope.Rename

set_option relaxedAutoImplicit false
set_option autoImplicit false

namespace QSource

/-! ### Names and globals -/

theorem Marked.kind_of_binding_annotate {table : List Scope} {m : Marked}
    (h : (m.annotate table).binding ≠ none) : m.token.kind = .identifier := by
  by_contra hkind
  refine h ?_
  unfold annotate
  split <;> simp_all

/-- A global has no owner. -/
theorem Marked.binding_of_global {table : List Scope} {m : Marked}
    (h : (m.annotate table).role = some .globalVar) : (m.annotate table).binding = none := by
  rcases m.annotate_cases table with ⟨hmark, -⟩ | ⟨hrole, hbinding⟩ | ⟨-, -, hbinding⟩
  · by_contra hsome
    have hkind := kind_of_binding_annotate hsome
    simp [annotate, hkind, hmark] at h
  · rw [hrole, Option.some.injEq] at h
    rw [hbinding]
    rcases resolve_spec (Scope.enclosing m.scope table) m.token.text with
      ⟨s, -, ⟨hparam, -⟩ | ⟨hlocal, -⟩, -⟩ | hnone
    · simp [h] at hparam
    · simp [h] at hlocal
    · rw [hnone]
  · exact hbinding

section

variable {tokens : List Token} {nodes : List Node} {scope : Scope} {p q : String}

/-- The rules about names do not see the new name. -/
theorem Renaming.keepsNames (hr : Renaming nodes scope p q) (places : Places) :
    KeepsNames 0 0 (AnnotatedToken.renamed places p q scope.id) (analyze nodes).tokens where
  kind _ _ := rfl
  index _ _ := rfl
  scope t _ := by simp [AnnotatedToken.renamed]
  role _ _ := rfl
  usage _ _ := rfl
  reversed _ _ := rfl
  binding t _ := by simp [AnnotatedToken.renamed]
  names := by
    intro t ht u hu hsame
    have hname : ∀ t ∈ (analyze nodes).tokens, t.binding ≠ none → t.isIdentifier = true := by
      intro t ht hbinding
      obtain ⟨m, -, rfl⟩ := exists_marked_of_mem_analyze ht
      simpa [AnnotatedToken.isIdentifier] using Marked.kind_of_binding_annotate hbinding
    have hglobal : ∀ t ∈ (analyze nodes).tokens, t.role = some .globalVar → t.binding = none := by
      intro t ht hrole
      obtain ⟨m, -, rfl⟩ := exists_marked_of_mem_analyze ht
      exact Marked.binding_of_global hrole
    have hbinding : t.binding = u.binding := by
      rcases hsame with hbinding | ⟨ht', hu'⟩
      · exact hbinding
      · rw [hglobal t ht ht', hglobal u hu hu']
    -- with one owner, two names are renamed together or not at all
    have hnames : ∀ t ∈ (analyze nodes).tokens,
        t.names p scope.id = (t.text == p && t.binding == some scope.id) := by
      intro t ht
      by_cases howner : t.binding = some scope.id
      · simp [AnnotatedToken.names, hname t ht (by simp [howner])]
      · rw [AnnotatedToken.names, beq_eq_false_iff_ne.2 howner, Bool.and_false, Bool.and_false]
    change (if t.names p scope.id then q else t.text) = (if u.names p scope.id then q else u.text) ↔ _
    rw [hnames t ht, hnames u hu, hbinding]
    by_cases howner : u.binding = some scope.id
    · have htq := hr.unused t ht
      have huq := hr.unused u hu
      by_cases htp : t.text = p
      · by_cases hup : u.text = p
        · simp [howner, htp, hup]
        · simp [howner, htp, hup, Ne.symm huq, Ne.symm hup]
      · by_cases hup : u.text = p
        · simp [howner, htp, hup, htq]
        · simp [htp, hup]
    · rw [beq_eq_false_iff_ne.2 howner, Bool.and_false, Bool.and_false]
      rfl

theorem numbered_renamed (hnumbered : Token.Numbered tokens) (h : parse tokens = .ok nodes)
    (places : Places) (p q : String) (id : ScopeId) : Token.Numbered
      (((analyze nodes).tokens.map (AnnotatedToken.renamed places p q id)).map (·.toToken)) := by
  have hfound := numbered_analyze hnumbered h
  rw [Token.Numbered, List.map_map, List.length_map] at hfound ⊢
  rw [List.map_map, List.length_map]
  exact hfound

/-- **Renaming a variable changes nothing.**  Let a scope have a variable `p`, declared or written in
it, and let a name `q` occur nowhere, not even as a parameter that scopes have by themselves; neither
of the two has a point in it.  Then the tokens with `q` for `p`, wherever the scope owns it, nest as
they did.  Each has the scope, the role, the usage and the owner that it had, the scopes differ in the
name alone, and the findings about names are at the same tokens. -/
theorem analyze_renamed (hnumbered : Token.Numbered tokens) (h : parse tokens = .ok nodes)
    (hr : Renaming nodes scope p q) (places : Places) :
    let renamed := (analyze nodes).tokens.map (AnnotatedToken.renamed places p q scope.id)
    ∃ nodes', parse (renamed.map (·.toToken)) = .ok nodes' ∧
      (analyze nodes').tokens = renamed ∧
      (analyze nodes').scopes = (analyze nodes).scopes.map (Scope.renamed p q scope.id) ∧
      ∀ limits : Thresholds,
        (findings limits (analyze nodes').tokens).filter (Rule.aboutNames.contains ·.rule) =
          ((findings limits (analyze nodes).tokens).filter (Rule.aboutNames.contains ·.rule)).map
            (Finding.moved places 0) := by
  intro renamed
  have hparse := parse_map (f := Token.renamed places q (occursAt nodes p scope.id))
    (fun _ => rfl) tokens
  rw [map_renamed hnumbered h, h] at hparse
  have hanalysis := hr.analysis_eq hnumbered h places
  refine ⟨_, (congrArg parse (List.map_map ..)).trans hparse, ?_⟩
  rw [hanalysis]
  refine ⟨rfl, rfl, fun limits => ?_⟩
  refine filter_findings_map (numbered_analyze hnumbered h)
    (numbered_renamed hnumbered h places p q scope.id) (fun rule hrule => ?_) (fun _ _ => rfl)
    fun a b hab => hab.moved places 0
  exact (hr.keepsNames places).flagged_map limits (List.contains_iff_mem.1 hrule)

end

/-- A parameter that is read as it stands and in the column part of a query.  A parameter of an inner
lambda, a global and a column go by the same name, and the lambda goes over its limit with another
name as well. -/
theorem analyze_renamed_param :
    let lexemes (name : String) : List Lexeme := [⟨.opening .brace, "\x7b"⟩,
      ⟨.opening .bracket, "["⟩, ⟨.identifier, name⟩, ⟨.closing .bracket, "]"⟩,
      ⟨.identifier, "f"⟩, ⟨.colon, ":"⟩, ⟨.opening .brace, "\x7b"⟩, ⟨.opening .bracket, "["⟩,
      ⟨.identifier, "a"⟩, ⟨.closing .bracket, "]"⟩, ⟨.identifier, "a"⟩,
      ⟨.closing .brace, "\x7d"⟩, ⟨.semicolon, ";"⟩, ⟨.identifier, "a"⟩, ⟨.doubleColon, "::"⟩,
      ⟨.literal .number, "1"⟩, ⟨.semicolon, ";"⟩, ⟨.keyword, "select"⟩, ⟨.whitespace, " "⟩,
      ⟨.identifier, "a"⟩, ⟨.colon, ":"⟩, ⟨.identifier, name⟩, ⟨.whitespace, " "⟩,
      ⟨.keyword, "from"⟩, ⟨.whitespace, " "⟩, ⟨.identifier, "t"⟩, ⟨.closing .brace, "\x7d"⟩]
    let owners (name : String) : List (String × Option Role × Option ScopeId) :=
      [(name, some .parameter, some 0), ("f", some .localVar, some 0),
        ("a", some .parameter, some 1), ("a", some .parameter, some 1),
        ("a", some .globalVar, none), ("a", none, none), (name, some .parameter, some 0),
        ("t", some .globalVar, none)]
    let found := [(Rule.tooManyArguments, 2), (.unusedVar, 4), (.tooManyArguments, 8),
      (.unusedVar, 13)]
    let limits : Thresholds := { params := 0 }
    ∃ nodes nodes', parse (Lexeme.layOut (lexemes "a")) = .ok nodes ∧
      parse (Lexeme.layOut (lexemes "bid")) = .ok nodes' ∧
      ((analyze nodes).tokens.filter (·.isIdentifier)).map
        (fun t => (t.text, t.role, t.binding)) = owners "a" ∧
      ((analyze nodes').tokens.filter (·.isIdentifier)).map
        (fun t => (t.text, t.role, t.binding)) = owners "bid" ∧
      (findings limits (analyze nodes).tokens).map (fun f => (f.rule, f.index)) = found ∧
      ((findings limits (analyze nodes').tokens).filter (Rule.aboutNames.contains ·.rule)).map
        (fun f => (f.rule, f.index)) = found := by
  intro lexemes owners found limits
  let others := Lexeme.layOut (lexemes "bid")
  let places : Places := ⟨fun i => (others[i]?.map (·.span)).getD ⟨0, 0⟩,
    fun i => (others[i]?.map (·.position)).getD ⟨0, 0⟩⟩
  let nodes := (parse (Lexeme.layOut (lexemes "a"))).toOption.getD []
  let scope : Scope := ⟨⟨0, none, 0, 26, some [("a", 2)]⟩, ["f"]⟩
  have hrenaming : Renaming nodes scope "a" "bid" := {
    mem := by decide +kernel
    binds := Or.inl ⟨_, rfl, 2, List.mem_singleton.2 rfl⟩
    old := by decide
    new := by decide
    unused := by decide +kernel
    notDefault := by decide }
  obtain ⟨nodes', hparse, htokens, -, hfindings⟩ :=
    analyze_renamed (Token.numbered_layOut (lexemes "a")) (rfl : parse _ = .ok nodes) hrenaming places
  have hothers : others = ((analyze nodes).tokens.map
      (AnnotatedToken.renamed places "a" "bid" scope.id)).map (·.toToken) := by decide +kernel
  refine ⟨nodes, nodes', rfl, (congrArg parse hothers).trans hparse, by decide +kernel, ?_,
    by decide +kernel, ?_⟩
  · rw [htokens]
    decide +kernel
  · rw [hfindings]
    decide +kernel

end QSource
