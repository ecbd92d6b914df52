/-
**Statements are analysed independently of each other.**

A walk over a script carries much from one node to the next: whether columns are being named, the
assignment sign that is ahead, the number of the next region, the tables of names.  None of it gets
past a semicolon of the script, except for the number of the next region.  So the analysis of two
scripts with a semicolon between them is put together from the analyses of the two, the second one
with its numbers moved on.

Main definitions:

* `QSource.AnnotatedToken.moved` — an annotated token that is moved, in scopes that are moved.

Main results:

* `QSource.Node.outlineAll_semicolon` — the outline of a sequence falls apart at a semicolon;
* `QSource.Outline.analysis_append` — outlines with numbers of their own are analysed apart;
* `QSource.Outline.analysis_map_moved` — the analysis of a moved outline is the moved analysis;
* `QSource.analyze_statements` — **two scripts with a semicolon between them are analysed apart**.
-/

import QSource.Proofs.Scope.Regions
import QSource.Proofs.Scope.Relabel
import QSource.Proofs.Tree.Statements

set_option relaxedAutoImplicit false
set_option autoImplicit false

namespace QSource

/-! ### Outlines fall apart at a semicolon -/

@[simp] theorem signAhead?_semicolon (nodes behind : List Node) (sep : Token) :
    signAhead? (nodes ++ .leaf .semicolon sep :: behind) = signAhead? nodes := by
  induction nodes with
  | nil => rfl
  | cons node nodes ih =>
      cases node with
      | leaf form token => cases form <;> simp [signAhead?, ih]
      | _ => simp [signAhead?]

@[simp] theorem Node.queryAfter_semicolon (script initial query : Bool) (rest behind : List Node)
    (sep : Token) (node : Node) :
    node.queryAfter script initial query (rest ++ .leaf .semicolon sep :: behind) =
      node.queryAfter script initial query rest := by
  have hhead : (rest ++ .leaf .semicolon sep :: behind).head?.any Node.isSpace =
      rest.head?.any Node.isSpace := by
    cases rest <;> simp [Node.isSpace]
  cases node with
  | leaf form token => cases form <;> simp only [Node.queryAfter, hhead]
  | _ => simp only [Node.queryAfter]

@[simp] theorem Outline.empty_append (o : Outline) : Outline.empty ++ o = o := rfl

@[simp] theorem Outline.append_empty (o : Outline) : o ++ Outline.empty = o := by
  change Outline.mk (o.marked ++ []) (o.regions ++ []) = o
  rw [List.append_nil, List.append_nil]

@[simp] theorem Outline.regions_empty : Outline.empty.regions = [] := rfl

/-- **The outline of a sequence falls apart at a semicolon.** What stands behind it is the start of
a statement, whatever stands before it. -/
theorem Node.outlineAll_semicolon (scope : Option ScopeId) (next : ScopeId)
    (script initial query : Bool) (nodes behind : List Node) (sep : Token) :
    Node.outlineAll scope next script initial query (nodes ++ .leaf .semicolon sep :: behind) =
      Node.outlineAll scope next script initial query nodes ++ (.ofTokens scope .plain [sep] ++
        Node.outlineAll scope
          (next + (Node.outlineAll scope next script initial query nodes).regions.length) script
          initial initial behind) := by
  induction nodes generalizing next query with
  | nil => simp [Node.outlineAll, Node.outline, Node.queryAfter, LeafForm.mark]
  | cons node nodes ih =>
      simp only [List.cons_append, Node.outlineAll, signAhead?_semicolon,
        Node.queryAfter_semicolon, ih, Outline.append_assoc, Outline.regions_append,
        List.length_append, Nat.add_assoc]

/-! ### Analyses of outlines -/

theorem Scope.enclosing_append_left {scope : Option ScopeId} {later : List Scope}
    (h : ∀ s ∈ later, scope ≠ some s.id) (older : List Scope) :
    Scope.enclosing scope (later ++ older) = Scope.enclosing scope older := by
  induction later with
  | nil => rfl
  | cons s later ih =>
      cases scope with
      | none => simp [Scope.enclosing]
      | some id =>
          have hid : id ≠ s.id := fun heq => h s (List.mem_cons_self ..) (congrArg some heq)
          rw [List.cons_append, Scope.enclosing, if_neg hid]
          exact ih fun s' hs' => h s' (List.mem_cons_of_mem _ hs')

theorem Scope.enclosing_append_right {scope : Option ScopeId} {table older : List Scope}
    (hscope : ∀ s ∈ older, scope ≠ some s.id)
    (hparent : ∀ s ∈ table, ∀ s' ∈ older, s.parent ≠ some s'.id) :
    Scope.enclosing scope (table ++ older) = Scope.enclosing scope table := by
  induction table generalizing scope with
  | nil =>
      have hnil := Scope.enclosing_append_left hscope []
      rwa [List.append_nil] at hnil
  | cons s table ih =>
      cases scope with
      | none => simp [Scope.enclosing]
      | some id =>
          have hrest : ∀ s ∈ table, ∀ s' ∈ older, s.parent ≠ some s'.id := fun s' hs' =>
            hparent s' (List.mem_cons_of_mem _ hs')
          rw [List.cons_append, Scope.enclosing, Scope.enclosing]
          split
          · rw [ih (hparent s (List.mem_cons_self ..)) hrest]
          · exact ih hscope hrest

theorem Marked.annotate_congr {m : Marked} {table table' : List Scope}
    (h : Scope.enclosing m.scope table = Scope.enclosing m.scope table') :
    m.annotate table = m.annotate table' := by
  simp only [Marked.annotate, h]

theorem filter_scope_eq_nil {targets : List Marked} {id : ScopeId}
    (h : ∀ m ∈ targets, m.scope ≠ some id) :
    (targets.filter fun m => m.scope == some id) = [] :=
  List.filter_eq_nil_iff.2 fun m hm => by simpa using h m hm

theorem localNames_append_left {before : List Marked} {id : ScopeId}
    (h : ∀ m ∈ before, m.scope ≠ some id) (behind : List Marked) :
    localNames (before ++ behind) id = localNames behind id := by
  rw [localNames, List.filter_append, filter_scope_eq_nil h, List.nil_append, localNames]

theorem localNames_append_right {behind : List Marked} {id : ScopeId}
    (h : ∀ m ∈ behind, m.scope ≠ some id) (before : List Marked) :
    localNames (before ++ behind) id = localNames before id := by
  rw [localNames, List.filter_append, filter_scope_eq_nil h, List.append_nil, localNames]

section

variable {next : ScopeId} {a b : Outline}

theorem Outline.Ranked.id_mem (ha : a.Ranked none next) {r : Region} (hr : r ∈ a.regions) :
    next ≤ r.id ∧ r.id < next + a.regions.length := by
  have hid : r.id ∈ a.regions.map (·.id) := List.mem_map_of_mem hr
  rwa [ha.ids, List.mem_range'_1] at hid

/-- Nothing in the first of two outlines stands in a region of the second. -/
theorem Outline.Ranked.scope_ne_right (ha : a.Ranked none next)
    (hb : b.Ranked none (next + a.regions.length)) {m : Marked} (hm : m ∈ a.marked) {r : Region}
    (hr : r ∈ b.regions) : m.scope ≠ some r.id := by
  have hid := (hb.id_mem hr).1
  rcases ha.scope m hm with hnone | ⟨id, hsome, -, hlt⟩
  · simp [hnone]
  · rw [hsome, Ne, Option.some.injEq]
    exact Nat.ne_of_lt (Nat.lt_of_lt_of_le hlt hid)

/-- A number of the second of two outlines is that of no region of the first. -/
theorem Outline.Ranked.ne_of_le (ha : a.Ranked none next) {r : Region} (hr : r ∈ a.regions)
    {id : Nat} (hid : next + a.regions.length ≤ id) : some id ≠ some r.id := by
  rw [Ne, Option.some.injEq]
  exact Nat.ne_of_gt (Nat.lt_of_lt_of_le (ha.id_mem hr).2 hid)

/-- Nothing in the second of two outlines stands in a region of the first. -/
theorem Outline.Ranked.scope_ne_left (ha : a.Ranked none next)
    (hb : b.Ranked none (next + a.regions.length)) {m : Marked} (hm : m ∈ b.marked) {r : Region}
    (hr : r ∈ a.regions) : m.scope ≠ some r.id := by
  rcases hb.scope m hm with hnone | ⟨id, hsome, hge, -⟩
  · simp [hnone]
  · exact hsome ▸ ha.ne_of_le hr hge

theorem Outline.Ranked.parent_ne_left (ha : a.Ranked none next)
    (hb : b.Ranked none (next + a.regions.length)) {r s : Region} (hr : r ∈ b.regions)
    (hs : s ∈ a.regions) : r.parent ≠ some s.id := by
  rcases hb.parent r hr with hnone | ⟨p, hsome, hge, -⟩
  · simp [hnone]
  · exact hsome ▸ ha.ne_of_le hs hge

theorem Outline.toRegion_mem_of_mem_scopes {o : Outline} {s : Scope} (h : s ∈ o.scopes) :
    s.toRegion ∈ o.regions := by
  obtain ⟨r, hr, rfl⟩ := List.mem_map.1 h
  exact hr

theorem Outline.scopes_append (ha : a.Ranked none next)
    (hb : b.Ranked none (next + a.regions.length)) : (a ++ b).scopes = a.scopes ++ b.scopes := by
  simp only [Outline.scopes, Outline.marked_append, Outline.regions_append, List.filter_append,
    List.map_append]
  congr 1
  · refine List.map_congr_left fun r hr => ?_
    rw [localNames_append_right]
    intro m hm
    exact ha.scope_ne_left hb (List.mem_filter.1 hm).1 hr
  · refine List.map_congr_left fun r hr => ?_
    rw [localNames_append_left]
    intro m hm
    exact ha.scope_ne_right hb (List.mem_filter.1 hm).1 hr

/-- **Outlines with numbers of their own are analysed apart.** -/
theorem Outline.analysis_append (ha : a.Ranked none next)
    (hb : b.Ranked none (next + a.regions.length)) :
    (a ++ b).analysis =
      ⟨a.analysis.tokens ++ b.analysis.tokens, a.analysis.scopes ++ b.analysis.scopes⟩ := by
  simp only [Outline.analysis, Outline.scopes_append ha hb, Outline.marked_append,
    List.map_append, List.reverse_append]
  congr 2
  · refine List.map_congr_left fun m hm => Marked.annotate_congr (Scope.enclosing_append_left ?_ _)
    intro s hs
    exact ha.scope_ne_right hb hm (Outline.toRegion_mem_of_mem_scopes (List.mem_reverse.1 hs))
  · refine List.map_congr_left fun m hm => Marked.annotate_congr (Scope.enclosing_append_right ?_ ?_)
    · intro s hs
      exact ha.scope_ne_left hb hm (Outline.toRegion_mem_of_mem_scopes (List.mem_reverse.1 hs))
    · intro s hs s' hs'
      exact ha.parent_ne_left hb (Outline.toRegion_mem_of_mem_scopes (List.mem_reverse.1 hs))
        (Outline.toRegion_mem_of_mem_scopes (List.mem_reverse.1 hs'))

end

/-! ### Analyses of moved outlines -/

/-- An annotated token that is moved by `d` numbers, in scopes that are moved by `k`. -/
def AnnotatedToken.moved (places : Places) (d k : Nat) (t : AnnotatedToken) : AnnotatedToken :=
  { t with
    toToken := t.toToken.moved places d
    scope := t.scope.map (· + k)
    binding := t.binding.map (· + k) }

section

variable (places : Places) (d k : Nat)

theorem AnnotatedToken.moved_eq_map :
    AnnotatedToken.moved places d k = AnnotatedToken.map (Token.moved places d) k := rfl

theorem Node.keepsWords_moved (node : Node) : node.KeepsWords (Token.moved places d) := by
  unfold Node.KeepsWords
  split <;> trivial

/-- The outline of moved nodes. -/
theorem outlineAll_map_moved (nodes : List Node) :
    Node.outlineAll none k true false false (nodes.map (Node.moved places d)) =
      (outline nodes).map (Token.moved places d) d k := by
  have hmap := Node.outlineAll_map (f := Token.moved places d) k (fun _ => rfl) (fun _ => rfl) none
    0 true false false nodes fun x _ => x.keepsWords_moved places d
  rwa [Option.map_none, Nat.zero_add, ← Node.map_moved_eq_map] at hmap

/-- The analysis of a moved outline is the moved analysis. -/
theorem Outline.analysis_map_moved (o : Outline) :
    (o.map (Token.moved places d) d k).analysis =
      ⟨o.analysis.tokens.map (AnnotatedToken.moved places d k),
        o.analysis.scopes.map (Scope.moved d k)⟩ := by
  rw [AnnotatedToken.moved_eq_map]
  exact Outline.analysis_map (f := Token.moved places d) k (fun _ => rfl) fun _ _ _ => rfl

end

/-- Nothing is known about a semicolon of the script. -/
theorem Outline.analysis_semicolon {sep : Token} (hsep : sep.kind = .semicolon) :
    (Outline.ofTokens none .plain [sep]).analysis = ⟨[⟨sep, none, none, none, false, none⟩], []⟩ := by
  simp [Outline.analysis, Outline.scopes, Outline.ofTokens, Marked.annotate, hsep]

/-! ### Scripts with a semicolon between them -/

theorem Scope.moved_zero (scope : Scope) : scope.moved 0 0 = scope := by
  obtain ⟨⟨id, parent, first, last, declared⟩, locals⟩ := scope
  simp [Scope.moved, Region.moved]

theorem AnnotatedToken.moved_zero (places : Places) (t : AnnotatedToken) :
    t.moved places 0 0 = { t with toToken := t.toToken.moved places 0 } := by
  simp [AnnotatedToken.moved]

/-- The outline of two scripts with a semicolon between them. -/
theorem outline_statements (nodes₁ nodes₂ : List Node) (places : Places) (d : Nat) (sep : Token) :
    outline (nodes₁.map (Node.moved places 0) ++
        .leaf .semicolon sep :: nodes₂.map (Node.moved places d)) =
      (outline nodes₁).map (Token.moved places 0) 0 0 ++ (.ofTokens none .plain [sep] ++
        (outline nodes₂).map (Token.moved places d) d (outline nodes₁).regions.length) := by
  rw [outline, Node.outlineAll_semicolon, outlineAll_map_moved, Outline.length_regions_map,
    Nat.zero_add, outlineAll_map_moved]

theorem ranked_moved_outline (nodes : List Node) (places : Places) (d k : Nat) :
    ((outline nodes).map (Token.moved places d) d k).Ranked none k := by
  rw [← outlineAll_map_moved]
  exact Node.ranked_outlineAll none k true false false _

/-- The analysis of two scripts with a semicolon between them. -/
theorem analysis_statements (nodes₁ nodes₂ : List Node) (places : Places) (d : Nat) {sep : Token}
    (hsep : sep.kind = .semicolon) :
    analyze (nodes₁.map (Node.moved places 0) ++
        .leaf .semicolon sep :: nodes₂.map (Node.moved places d)) =
      ⟨(analyze nodes₁).tokens.map (AnnotatedToken.moved places 0 0) ++
          ⟨sep, none, none, none, false, none⟩ :: (analyze nodes₂).tokens.map
            (AnnotatedToken.moved places d (analyze nodes₁).scopes.length),
        (analyze nodes₁).scopes.map (Scope.moved 0 0) ++ (analyze nodes₂).scopes.map
          (Scope.moved d (analyze nodes₁).scopes.length)⟩ := by
  have hlength : (analyze nodes₁).scopes.length = (outline nodes₁).regions.length :=
    List.length_map _
  -- the regions of the two scripts are numbered one behind the other
  have ha := ranked_moved_outline nodes₁ places 0 0
  have hb := ranked_moved_outline nodes₂ places d (outline nodes₁).regions.length
  have hsepb := hb.ofTokens_append .plain [sep]
  rw [analyze_eq_analysis, outline_statements,
    Outline.analysis_append ha (by simpa using hsepb),
    Outline.analysis_append (Outline.Ranked.ofTokens none _ .plain [sep]) (by simpa using hb),
    Outline.analysis_semicolon hsep, Outline.analysis_map_moved, Outline.analysis_map_moved, hlength]
  rfl

/-- **Two scripts with a semicolon between them are analysed apart.** Whatever two sequences of
tokens nest, they nest with a semicolon between them, wherever their tokens then stand: the nodes are
those of the first, the semicolon, and those of the second with their numbers moved on; the scopes
are those of the first and then those of the second, with the numbers of tokens and of scopes moved
on; and the annotations are those of the first, a bare semicolon, and those of the second, with the
numbers of scopes moved on. -/
theorem analyze_statements {first second : List Token} {nodes₁ nodes₂ : List Node}
    (hfirst : parse first = .ok nodes₁) (hsecond : parse second = .ok nodes₂) (places : Places)
    (text : String) :
    let d := first.length + 1
    let k := (analyze nodes₁).scopes.length
    let sep : Token :=
      ⟨⟨.semicolon, text⟩, first.length, places.span first.length, places.position first.length⟩
    let tokens := first.map (Token.moved places 0) ++ sep :: second.map (Token.moved places d)
    let nodes := nodes₁.map (Node.moved places 0) ++
      .leaf .semicolon sep :: nodes₂.map (Node.moved places d)
    (Token.Numbered first → Token.Numbered second → Token.Numbered tokens) ∧
      parse tokens = .ok nodes ∧
      (analyze nodes).scopes = (analyze nodes₁).scopes ++
        (analyze nodes₂).scopes.map (Scope.moved d k) ∧
      (analyze nodes).tokens =
        ((analyze nodes₁).tokens.map fun t => { t with toToken := t.toToken.moved places 0 }) ++
          ⟨sep, none, none, none, false, none⟩ ::
            (analyze nodes₂).tokens.map (AnnotatedToken.moved places d k) := by
  intro d k sep tokens nodes
  have hsep : sep.kind = .semicolon := rfl
  have hanalysis := analysis_statements nodes₁ nodes₂ places d hsep
  refine ⟨?_, parse_statements hfirst hsecond places d hsep, ?_, ?_⟩
  · intro hnumbered hnumbered'
    have hleft := hnumbered.countFrom.moved places 0
    have hright := hnumbered'.countFrom.moved places d
    rw [Nat.zero_add] at hright
    rw [Token.numbered_iff_countFrom, Token.countFrom_append, Token.countFrom_cons,
      List.length_map, Nat.zero_add]
    exact ⟨hleft, rfl, hright⟩
  · rw [hanalysis, funext Scope.moved_zero, List.map_id']
  · rw [hanalysis, funext (AnnotatedToken.moved_zero places)]

/-- A lambda with a parameter list and a query word, and then another lambda: the query is over at the
semicolon, so the name behind it is written, and the second lambda is the second scope. -/
theorem analyze_statements_lambdas :
    let xs : List Lexeme := [⟨.opening .brace, "\x7b"⟩, ⟨.opening .bracket, "["⟩,
      ⟨.identifier, "a"⟩, ⟨.closing .bracket, "]"⟩, ⟨.identifier, "b"⟩, ⟨.colon, ":"⟩,
      ⟨.identifier, "a"⟩, ⟨.closing .brace, "\x7d"⟩, ⟨.keyword, "select"⟩]
    let ys : List Lexeme := [⟨.identifier, "c"⟩, ⟨.colon, ":"⟩, ⟨.opening .brace, "\x7b"⟩,
      ⟨.identifier, "x"⟩, ⟨.closing .brace, "\x7d"⟩]
    let tokens := Lexeme.layOut (xs ++ ⟨.semicolon, ";"⟩ :: ys)
    let places : Places := ⟨fun i => (tokens[i]?.map (·.span)).getD ⟨0, 0⟩,
      fun i => (tokens[i]?.map (·.position)).getD ⟨0, 0⟩⟩
    ∃ nodes₁ nodes₂ nodes, parse (Lexeme.layOut xs) = .ok nodes₁ ∧
      parse (Lexeme.layOut ys) = .ok nodes₂ ∧ parse tokens = .ok nodes ∧
      (analyze nodes).scopes =
        (analyze nodes₁).scopes ++ (analyze nodes₂).scopes.map (Scope.moved 10 1) ∧
      (analyze nodes).tokens.drop 10 =
        (analyze nodes₂).tokens.map (AnnotatedToken.moved places 10 1) ∧
      (analyze nodes₂).tokens.map (fun t => (t.role, t.usage, t.binding)) =
        [(some .globalVar, some .assignment, none), (none, none, none), (none, none, none),
          (some .parameter, some .reference, some 0), (none, none, none)] := by
  intro xs ys tokens places
  have hmoved : tokens = (Lexeme.layOut xs).map (Token.moved places 0) ++
      ⟨⟨.semicolon, ";"⟩, 9, places.span 9, places.position 9⟩ ::
        (Lexeme.layOut ys).map (Token.moved places 10) := by decide +kernel
  obtain ⟨-, hparse, hscopes, htokens⟩ :=
    analyze_statements (rfl : parse (Lexeme.layOut xs) = .ok _)
      (rfl : parse (Lexeme.layOut ys) = .ok _) places ";"
  refine ⟨_, _, _, rfl, rfl, hmoved ▸ hparse, hscopes, ?_, ?_⟩
  · rw [htokens]
    rfl
  · decide +kernel

end QSource
