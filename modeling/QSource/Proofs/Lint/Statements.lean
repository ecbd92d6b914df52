/-
**Statements are linted independently of each other.**

The analysis of two scripts with a semicolon between them is put together from those of the two, with
numbers of tokens and of scopes moved on.  So the two parts have scopes of their own, and the rules
object to what they objected to in each.  Findings are sorted by their tokens, and all of the first
part come before those of the second.  Only a global that nothing uses in its own part may be used in
the other one.

Main definitions:

* `QSource.Finding.moved` — a finding that is moved on.

Main results:

* `QSource.coherent_analyze` — the annotations of an analysis say the same together;
* `QSource.apart_statements` — two scripts have scopes of their own;
* `QSource.findings_statements` — **two scripts with a semicolon between them are linted apart**, but
  for globals that only the other one uses.
-/

import QSource.Proofs.Lint.Apart
import QSource.Proofs.Lint.Order
import QSource.Proofs.Scope.Owners
import QSource.Proofs.Scope.Statements
import QSource.Proofs.Tree.Balance

set_option relaxedAutoImplicit false
set_option autoImplicit false

namespace QSource

/-! ### Annotations -/

theorem Marked.isAssignment_of_reversed {table : List Scope} {m : Marked}
    (h : (m.annotate table).reversed = true) : (m.annotate table).isAssignment = true := by
  revert h
  unfold annotate
  split
  case h_4 hmark => cases m.mark <;> simp_all [Mark.isCompound, Mark.usage, AnnotatedToken.isAssignment]
  all_goals simp [AnnotatedToken.isAssignment]

/-- The annotations of an analysis say the same together. -/
theorem coherent_analyze {tokens : List Token} {nodes : List Node} (h : parse tokens = .ok nodes) :
    Coherent (analyze nodes).tokens where
  owner _ ht := binding_ne_none_of_role h ht
  written t ht hreversed := by
    obtain ⟨m, -, rfl⟩ := exists_marked_of_mem_analyze ht
    exact Marked.isAssignment_of_reversed hreversed

section

variable {tokens : List AnnotatedToken} (places : Places) (d k : Nat)

/-- The rules do not see that tokens are moved. -/
theorem relabels_moved : Relabels d k id (AnnotatedToken.moved places d k) tokens where
  kind _ _ := rfl
  text _ _ := rfl
  index _ _ := rfl
  scope _ _ := rfl
  role _ _ := rfl
  usage _ _ := rfl
  reversed _ _ := rfl
  binding _ _ := rfl
  injective := Function.injective_id
  append _ _ := rfl
  quote := rfl
  kept _ _ _ := rfl

theorem Coherent.moved (h : Coherent tokens) :
    Coherent (tokens.map (AnnotatedToken.moved places d k)) where
  owner := by
    intro t ht hrole
    obtain ⟨u, hu, rfl⟩ := List.mem_map.1 ht
    exact mt Option.map_eq_none_iff.1 (h.owner u hu hrole)
  written := by
    intro t ht hreversed
    obtain ⟨u, hu, rfl⟩ := List.mem_map.1 ht
    exact h.written u hu hreversed

theorem isReadIn_moved (d' k' : Nat) (t : AnnotatedToken) :
    (t.moved places d' k').isReadIn (tokens.map (AnnotatedToken.moved places d k)) =
      t.isReadIn tokens := by
  rw [AnnotatedToken.isReadIn, List.any_map]
  rfl

/-- Whether a global is read elsewhere stays when both are moved. -/
theorem filter_isReadIn_moved (d' k' : Nat) (flagged : List AnnotatedToken) :
    ((flagged.map (AnnotatedToken.moved places d' k')).filter fun t =>
        !t.isReadIn (tokens.map (AnnotatedToken.moved places d k))) =
      (flagged.filter fun t => !t.isReadIn tokens).map (AnnotatedToken.moved places d' k') :=
  filter_map_congr fun t _ => congrArg not (isReadIn_moved places d k d' k' t)

end

/-! ### Two scripts -/

/-- Numbers below a bound are different from those that are moved on by it. -/
theorem ne_map_add_of_lt {x y : Option ScopeId} {k : Nat} (h : ∀ id : Nat, x = some id → id < k)
    (hx : x.map (· + 0) ≠ none) : x.map (· + 0) ≠ y.map (· + k) := by
  cases x with
  | none => exact absurd rfl hx
  | some id =>
      have hlt := h id rfl
      cases y with
      | none => simp
      | some other =>
          simp only [Option.map_some, ne_eq, Option.some.injEq]
          omega

section

variable {first second : List Token} {nodes₁ nodes₂ : List Node}

theorem index_lt_of_mem_analyze {tokens : List Token} {nodes : List Node}
    (hnumbered : Token.Numbered tokens) (h : parse tokens = .ok nodes) {t : AnnotatedToken}
    (ht : t ∈ (analyze nodes).tokens) : t.index < tokens.length := by
  have hindex := hnumbered.getElem?_index (toToken_mem_of_mem_analyze h ht)
  exact (List.getElem?_eq_some_iff.1 hindex).1

/-- **Two scripts have scopes of their own**, when the numbers of the second are moved on. -/
theorem apart_statements (hnumbered : Token.Numbered first) (hfirst : parse first = .ok nodes₁)
    (places : Places) :
    Apart ((analyze nodes₁).tokens.map (AnnotatedToken.moved places 0 0))
      ((analyze nodes₂).tokens.map (AnnotatedToken.moved places (first.length + 1)
        (analyze nodes₁).scopes.length)) where
  index := by
    intro t' ht' u' hu'
    obtain ⟨t, ht, rfl⟩ := List.mem_map.1 ht'
    obtain ⟨u, hu, rfl⟩ := List.mem_map.1 hu'
    have hlt := index_lt_of_mem_analyze hnumbered hfirst ht
    change t.index + 0 < u.index + (first.length + 1)
    omega
  scope := by
    intro t' ht' u' hu'
    obtain ⟨t, ht, rfl⟩ := List.mem_map.1 ht'
    obtain ⟨u, hu, rfl⟩ := List.mem_map.1 hu'
    obtain ⟨m, hm, rfl⟩ := exists_marked_of_mem_analyze ht
    refine ne_map_add_of_lt fun id hid => scope_lt_of_mem_marked hm ?_
    rwa [Marked.scope_annotate] at hid
  binding := by
    intro t' ht' u' hu'
    obtain ⟨t, ht, rfl⟩ := List.mem_map.1 ht'
    obtain ⟨u, hu, rfl⟩ := List.mem_map.1 hu'
    exact ne_map_add_of_lt fun id hid => binding_lt_of_mem_analyze ht hid

theorem numbered_statements (hnumbered₁ : Token.Numbered first) (hnumbered₂ : Token.Numbered second)
    (places : Places) {sep : Token} (hsep : sep.index = first.length) :
    Token.Numbered (first.map (Token.moved places 0) ++
      sep :: second.map (Token.moved places (first.length + 1))) := by
  have hleft := hnumbered₁.countFrom.moved places 0
  have hright := hnumbered₂.countFrom.moved places (first.length + 1)
  rw [Nat.zero_add] at hright
  rw [Token.numbered_iff_countFrom, Token.countFrom_append, Token.countFrom_cons, List.length_map,
    Nat.zero_add]
  exact ⟨hleft, hsep, hright⟩

end

/-! ### Findings -/

/-- A finding that is moved on by `d` tokens. Its rule stays. -/
def Finding.moved (places : Places) (d : Nat) (f : Finding) : Finding :=
  ⟨f.rule, f.index + d, places.span (f.index + d), places.position (f.index + d)⟩

/-- The findings about unused variables come in the order of the tokens. -/
theorem filter_findings_unusedVar {limits : Thresholds} {tokens : List AnnotatedToken}
    (h : Token.Numbered (tokens.map (·.toToken))) :
    (findings limits tokens).filter (·.rule == .unusedVar) =
      (unusedVars tokens).map (Finding.ofToken .unusedVar) := by
  have hordered : (Rule.unusedVar.flagged limits tokens).Pairwise fun t u => t.index < u.index :=
    (pairwise_index_of_numbered h).filter _
  exact filter_findings hordered

theorem Finding.Before.moved {f g : Finding} (h : f.Before g) (places : Places) (d : Nat) :
    (f.moved places d).Before (g.moved places d) :=
  h.imp (Nat.add_lt_add_right · d) (And.imp_left (congrArg (· + d)))

section

variable {limits : Thresholds} {a b t : List AnnotatedToken} {d k : Nat} {places : Places}

/-- Findings that every rule makes on the one side or the other are the findings of the two sides, one
behind the other. -/
theorem filter_findings_append (ha : Token.Numbered (a.map (·.toToken)))
    (hb : Token.Numbered (b.map (·.toToken))) (ht : Token.Numbered (t.map (·.toToken)))
    (hd : a.length ≤ d) {p : Rule → Bool}
    (h : ∀ rule, p rule = true → rule.flagged limits t =
      (rule.flagged limits a).map (AnnotatedToken.moved places 0 0) ++
        (rule.flagged limits b).map (AnnotatedToken.moved places d k)) :
    (findings limits t).filter (p ·.rule) =
      ((findings limits a).filter (p ·.rule)).map (Finding.moved places 0) ++
        ((findings limits b).filter (p ·.rule)).map (Finding.moved places d) := by
  -- both sides are in strict order, so that they are known by their members
  refine filter_findings_eq ht (List.pairwise_append.2 ⟨?_, ?_, ?_⟩) fun f => ?_
  · exact List.pairwise_map.2
      ((pairwise_before_filter ha p).imp (Finding.Before.moved · places 0))
  · exact List.pairwise_map.2
      ((pairwise_before_filter hb p).imp (Finding.Before.moved · places d))
  · intro f' hf' g' hg'
    obtain ⟨f, hf, rfl⟩ := List.mem_map.1 hf'
    obtain ⟨g, -, rfl⟩ := List.mem_map.1 hg'
    obtain ⟨u, hu, hplace⟩ := exists_of_mem_findings (List.mem_filter.1 hf).1
    have hlt : f.index < a.length := by
      have hindex := (List.getElem?_eq_some_iff.1
        (ha.getElem?_index (List.mem_map_of_mem hu))).1
      rw [List.length_map] at hindex
      rw [hplace]
      exact hindex
    left
    change f.index + 0 < g.index + d
    omega
  · simp only [List.mem_append, List.mem_map, mem_filter_findings]
    constructor
    · rintro (⟨_, ⟨rule, hp, v, hv, rfl⟩, rfl⟩ | ⟨_, ⟨rule, hp, v, hv, rfl⟩, rfl⟩)
      · refine ⟨rule, hp, v.moved places 0 0, ?_, rfl⟩
        rw [h rule hp]
        exact List.mem_append_left _ (List.mem_map_of_mem hv)
      · refine ⟨rule, hp, v.moved places d k, ?_, rfl⟩
        rw [h rule hp]
        exact List.mem_append_right _ (List.mem_map_of_mem hv)
    · rintro ⟨rule, hp, u, hu, rfl⟩
      rw [h rule hp, List.mem_append] at hu
      rcases hu with hu | hu
      · obtain ⟨v, hv, rfl⟩ := List.mem_map.1 hu
        exact Or.inl ⟨_, ⟨rule, hp, v, hv, rfl⟩, rfl⟩
      · obtain ⟨v, hv, rfl⟩ := List.mem_map.1 hu
        exact Or.inr ⟨_, ⟨rule, hp, v, hv, rfl⟩, rfl⟩

end

/-! ### Two scripts with a semicolon between them -/

section

variable {first second : List Token} {nodes₁ nodes₂ : List Node}

theorem closedQuotes_analyze {tokens : List Token} {nodes : List Node}
    (hnumbered : Token.Numbered tokens) (h : parse tokens = .ok nodes) :
    ClosedQuotes ((analyze nodes).tokens.map (·.kind)) := by
  have hclosed := closedQuotes_of_parse hnumbered h
  rwa [← allTokens_parse h, ← toToken_analyze, List.map_map] at hclosed

/-- The tokens of two scripts have nothing to do with each other. -/
theorem separated_statements (hnumbered : Token.Numbered first) (hfirst : parse first = .ok nodes₁)
    (hsecond : parse second = .ok nodes₂) (places : Places) {sep : Token}
    (hsep : sep.kind = .semicolon) (hindex : sep.index = first.length) :
    Separated ((analyze nodes₁).tokens.map (AnnotatedToken.moved places 0 0))
      ⟨sep, none, none, none, false, none⟩
      ((analyze nodes₂).tokens.map (AnnotatedToken.moved places (first.length + 1)
        (analyze nodes₁).scopes.length)) where
  separator := ⟨hsep, rfl, rfl, rfl, rfl, rfl⟩
  apart := apart_statements hnumbered hfirst places
  left := (coherent_analyze hfirst).moved places 0 0
  right := (coherent_analyze hsecond).moved places _ _
  before := by
    intro t' ht'
    obtain ⟨t, ht, rfl⟩ := List.mem_map.1 ht'
    exact (index_lt_of_mem_analyze hnumbered hfirst ht).trans_eq hindex.symm
  behind := by
    intro u' hu'
    obtain ⟨u, hu, rfl⟩ := List.mem_map.1 hu'
    change sep.index < u.index + (first.length + 1)
    omega
  closed := by
    rw [List.map_map]
    exact closedQuotes_analyze hnumbered hfirst

/-- **Two scripts with a semicolon between them are linted apart.** Whatever two sequences of tokens
nest, they nest with a semicolon between them, wherever their tokens then stand.  Apart from long lines
and unused variables, the findings are those of the first, and then those of the second with their
numbers moved on.  Of the unused variables of each, those stay that are no globals, and those globals
that the other does not read: it has neither a reference to them nor an assignment with an
operator. -/
theorem findings_statements (hnumbered₁ : Token.Numbered first) (hnumbered₂ : Token.Numbered second)
    (hfirst : parse first = .ok nodes₁) (hsecond : parse second = .ok nodes₂) (places : Places)
    (text : String) (limits : Thresholds) :
    let d := first.length + 1
    let sep : Token :=
      ⟨⟨.semicolon, text⟩, first.length, places.span first.length, places.position first.length⟩
    let a := (analyze nodes₁).tokens
    let b := (analyze nodes₂).tokens
    let other (rule : Rule) : Bool := rule != .lineLength && rule != .unusedVar
    ∃ nodes, parse (first.map (Token.moved places 0) ++ sep :: second.map (Token.moved places d)) =
        .ok nodes ∧
      (findings limits (analyze nodes).tokens).filter (other ·.rule) =
        ((findings limits a).filter (other ·.rule)).map (Finding.moved places 0) ++
          ((findings limits b).filter (other ·.rule)).map (Finding.moved places d) ∧
      (findings limits (analyze nodes).tokens).filter (·.rule == .unusedVar) =
        (((Rule.unusedVar.flagged limits a).filter fun t => !t.isReadIn b).map fun t =>
            (Finding.ofToken .unusedVar t).moved places 0) ++
          ((Rule.unusedVar.flagged limits b).filter fun t => !t.isReadIn a).map fun t =>
            (Finding.ofToken .unusedVar t).moved places d := by
  intro d sep a b other
  have hanalysis := analysis_statements nodes₁ nodes₂ places d (rfl : sep.kind = .semicolon)
  have hparse := parse_statements hfirst hsecond places d (rfl : sep.kind = .semicolon)
  have hnumbered := numbered_analyze (numbered_statements hnumbered₁ hnumbered₂ places rfl) hparse
  have hseparated := separated_statements hnumbered₁ hfirst hsecond places
    (rfl : sep.kind = .semicolon) rfl
  have hflagged : ∀ {tokens : List AnnotatedToken} (d k : Nat) {rule : Rule}, rule ≠ .lineLength →
      rule.flagged limits (tokens.map (AnnotatedToken.moved places d k)) =
        (rule.flagged limits tokens).map (AnnotatedToken.moved places d k) :=
    fun d k _ hline => (relabels_moved places d k).flagged_map limits hline
  refine ⟨_, hparse, ?_⟩
  rw [hanalysis] at hnumbered ⊢
  constructor
  · refine filter_findings_append (k := (analyze nodes₁).scopes.length)
      (numbered_analyze hnumbered₁ hfirst) (numbered_analyze hnumbered₂ hsecond) hnumbered ?_
      fun rule hrule => ?_
    · rw [length_analyze hfirst]
      exact Nat.le_succ _
    · simp only [other, Bool.and_eq_true, bne_iff_ne] at hrule
      rw [hseparated.flagged_append limits hrule.1 hrule.2, hflagged _ _ hrule.1,
        hflagged _ _ hrule.1]
  · have hvar : Rule.unusedVar ≠ .lineLength := by simp
    have hleft : unusedVars (a.map (AnnotatedToken.moved places 0 0)) = _ := hflagged 0 0 hvar
    have hright : unusedVars (b.map (AnnotatedToken.moved places d _)) = _ :=
      hflagged d (analyze nodes₁).scopes.length hvar
    rw [filter_findings_unusedVar hnumbered, hseparated.unusedVars_append, hleft, hright, List.map_append,
      filter_isReadIn_moved, filter_isReadIn_moved,
      List.map_map, List.map_map]
    rfl

end

/-- Two globals that nothing uses in the first script, the second of which the other script reads. A
local of the same name as the first one is no use of it, and an infinity is not drawn from with the
number before the semicolon. -/
theorem findings_statements_globals :
    let xs : List Lexeme := [⟨.identifier, "a"⟩, ⟨.colon, ":"⟩, ⟨.literal .number, "1"⟩,
      ⟨.semicolon, ";"⟩, ⟨.identifier, "b"⟩, ⟨.colon, ":"⟩, ⟨.literal .number, "5"⟩]
    let ys : List Lexeme := [⟨.operator, "?"⟩, ⟨.literal .infinity, "0w"⟩, ⟨.semicolon, ";"⟩,
      ⟨.identifier, "b"⟩, ⟨.opening .brace, "\x7b"⟩, ⟨.identifier, "a"⟩, ⟨.colon, ":"⟩,
      ⟨.literal .number, "2"⟩, ⟨.closing .brace, "\x7d"⟩]
    let tokens := Lexeme.layOut (xs ++ ⟨.semicolon, ";"⟩ :: ys)
    let limits : Thresholds := { constants := 0 }
    ∃ nodes₁ nodes₂ nodes, parse (Lexeme.layOut xs) = .ok nodes₁ ∧
      parse (Lexeme.layOut ys) = .ok nodes₂ ∧ parse tokens = .ok nodes ∧
      (findings limits (analyze nodes₁).tokens).map (fun f => (f.rule, f.index)) =
        [(.unusedVar, 0), (.unusedVar, 4)] ∧
      (findings limits (analyze nodes₂).tokens).map (fun f => (f.rule, f.index)) =
        [(.unusedVar, 5), (.tooManyConstants, 7)] ∧
      ((findings limits (analyze nodes).tokens).filter fun f =>
        f.rule != .lineLength && f.rule != .unusedVar).map (fun f => (f.rule, f.index)) =
          [(.tooManyConstants, 15)] ∧
      ((findings limits (analyze nodes).tokens).filter (·.rule == .unusedVar)).map
        (fun f => (f.rule, f.index)) = [(.unusedVar, 0), (.unusedVar, 13)] := by
  intro xs ys tokens limits
  let places : Places := ⟨fun i => (tokens[i]?.map (·.span)).getD ⟨0, 0⟩,
    fun i => (tokens[i]?.map (·.position)).getD ⟨0, 0⟩⟩
  have hmoved : tokens = (Lexeme.layOut xs).map (Token.moved places 0) ++
      ⟨⟨.semicolon, ";"⟩, 7, places.span 7, places.position 7⟩ ::
        (Lexeme.layOut ys).map (Token.moved places 8) := by decide +kernel
  obtain ⟨nodes, hparse, hothers, hvars⟩ :=
    findings_statements (Token.numbered_layOut xs) (Token.numbered_layOut ys)
      (rfl : parse (Lexeme.layOut xs) = .ok _) (rfl : parse (Lexeme.layOut ys) = .ok _) places ";"
      limits
  refine ⟨_, _, nodes, rfl, rfl, hmoved ▸ hparse, by decide +kernel, by decide +kernel, ?_, ?_⟩
  · rw [hothers]
    decide +kernel
  · rw [hvars]
    decide +kernel

end QSource
