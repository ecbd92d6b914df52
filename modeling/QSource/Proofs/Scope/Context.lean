/-
**A lambda depends on its surroundings through its free names alone.**

Inside its braces a lambda knows nothing of what is around it: columns are named in it only by its own
query words, and it ends no statement but its own.  So its tokens are marked in the same way wherever
it stands, and its regions are the same up to their numbers.  A name that is looked up in it ends where
it did, as long as it ends in it; and only a name that has no owner there goes on to be looked up in
the lambdas around it.

Main results:

* `QSource.Node.mem_outside_or_exists` — a node that is not outlined stands in a parameter list;
* `QSource.Node.exists_outline_eq_append` — **the outline of a node is a piece of that of the tree**;
* `QSource.exists_placed_lambda` — a lambda is a part of the whole in which it stands;
* `QSource.analyze_lambda_in_context` — **a lambda depends on its surroundings through its free names
  alone**.
-/

import QSource.Proofs.Scope.Placed
import QSource.Proofs.Tree.Context

set_option relaxedAutoImplicit false
set_option autoImplicit false

namespace QSource

/-! ### Outside parameter lists -/

namespace Node

mutual

theorem mem_outsideSubtrees_or_exists {x : Node} : ∀ node : Node, x ∈ node.subtrees →
    x ∈ node.outsideSubtrees ∨ ∃ gap first items last,
      .enclosed (.params gap) first items last ∈ node.subtrees ∧
        (x = .enclosed (.params gap) first items last ∨ x ∈ all items)
  | .leaf _ _, h | .assignment _, h | .quoted _ _ _, h => by
      left
      simpa [outsideSubtrees] using h
  | .enclosed form first items last, h => by
      rw [subtrees_enclosed, List.mem_cons] at h
      rcases form.params_or with ⟨gap, rfl⟩ | hform
      · exact Or.inr ⟨gap, first, items, last, self_mem_subtrees _, h⟩
      · rw [outsideSubtrees_enclosed hform, subtrees_enclosed]
        rcases h with rfl | h
        · exact Or.inl (List.mem_cons_self ..)
        · refine (mem_outside_or_exists items h).imp (List.mem_cons_of_mem _) ?_
          rintro ⟨gap, first', items', last', hparams, hx⟩
          exact ⟨gap, first', items', last', List.mem_cons_of_mem _ hparams, hx⟩

/-- A node of a tree that is not outlined is a parameter list or stands in one. -/
theorem mem_outside_or_exists {x : Node} : ∀ nodes : List Node, x ∈ all nodes →
    x ∈ outside nodes ∨ ∃ gap first items last,
      .enclosed (.params gap) first items last ∈ all nodes ∧
        (x = .enclosed (.params gap) first items last ∨ x ∈ all items)
  | [], h => by simp at h
  | node :: nodes, h => by
      rw [all_cons, List.mem_append] at h
      rw [outside, all_cons]
      rcases h with h | h
      · refine (mem_outsideSubtrees_or_exists node h).imp (List.mem_append_left _) ?_
        rintro ⟨gap, first, items, last, hparams, hx⟩
        exact ⟨gap, first, items, last, List.mem_append_left _ hparams, hx⟩
      · refine (mem_outside_or_exists nodes h).imp (List.mem_append_right _) ?_
        rintro ⟨gap, first, items, last, hparams, hx⟩
        exact ⟨gap, first, items, last, List.mem_append_right _ hparams, hx⟩

end

/-! ### Outlines in pieces -/

mutual

theorem exists_outline_eq_append_of_mem_outsideSubtrees {x : Node} (scope : Option ScopeId)
    (next : Nat) (query : Bool) (sign : Option Assignment) : ∀ node : Node,
    x ∈ node.outsideSubtrees → ∃ before scope' query' sign' behind,
      node.outline scope next query sign =
        before ++ x.outline scope' (next + before.regions.length) query' sign' ++ behind
  | .leaf form token, h | .assignment parts, h | .quoted first content last, h => by
      obtain rfl : x = _ := by simpa [outsideSubtrees] using h
      exact ⟨.empty, scope, query, sign, .empty, by simp⟩
  | .enclosed form first items last, h => by
      rcases form.params_or with ⟨gap, rfl⟩ | hform
      · simp [outsideSubtrees] at h
      · rw [outsideSubtrees_enclosed hform, List.mem_cons] at h
        rcases h with rfl | h
        · exact ⟨.empty, scope, query, sign, .empty, by simp⟩
        · obtain ⟨regions, scope', initial', query', houtline⟩ :=
            exists_outline_enclosed hform first items last scope next query sign
          obtain ⟨before, scope'', query'', sign'', behind, hitems⟩ :=
            exists_outline_eq_append scope' (next + regions.length) false initial' query' items h
          refine ⟨⟨[], regions⟩ ++ .ofTokens scope' .plain [first] ++ before, scope'', query'', sign'',
            behind ++ .ofTokens scope' .plain [last], ?_⟩
          rw [houtline, hitems]
          simp [Outline.append_assoc, Nat.add_assoc]

/-- **The outline of a node is a piece of that of the tree.** -/
theorem exists_outline_eq_append {x : Node} (scope : Option ScopeId) (next : Nat)
    (script initial query : Bool) : ∀ nodes : List Node, x ∈ outside nodes →
    ∃ before scope' query' sign' behind, outlineAll scope next script initial query nodes =
      before ++ x.outline scope' (next + before.regions.length) query' sign' ++ behind
  | [], h => by simp [outside] at h
  | node :: rest, h => by
      rw [outside, List.mem_append] at h
      rcases h with h | h
      · obtain ⟨before, scope', query', sign', behind, hnode⟩ :=
          exists_outline_eq_append_of_mem_outsideSubtrees scope next query (signAhead? rest) node h
        refine ⟨before, scope', query', sign', behind ++ outlineAll scope
          (next + (node.outline scope next query (signAhead? rest)).regions.length) script initial
          (node.queryAfter script initial query rest) rest, ?_⟩
        rw [outlineAll, hnode]
        simp [Outline.append_assoc]
      · obtain ⟨before, scope', query', sign', behind, hrest⟩ := exists_outline_eq_append scope
          (next + (node.outline scope next query (signAhead? rest)).regions.length) script initial
          (node.queryAfter script initial query rest) rest h
        refine ⟨node.outline scope next query (signAhead? rest) ++ before, scope', query', sign',
          behind, ?_⟩
        rw [outlineAll, hrest]
        simp [Outline.append_assoc, Nat.add_assoc]

end

end Node

/-! ### A lambda among other tokens -/

@[simp] theorem Outline.adopt_append (c : Option ScopeId) (a b : Outline) :
    (a ++ b).adopt c = a.adopt c ++ b.adopt c := by
  change Outline.mk (a.marked ++ b.marked) ((a.regions ++ b.regions).map _) =
    Outline.mk (a.marked ++ b.marked) (a.regions.map _ ++ b.regions.map _)
  rw [List.map_append]

/-- What stands in a region already is not put into another one. -/
theorem Outline.Ranked.adopt_eq {id : ScopeId} {next : Nat} {o : Outline}
    (h : o.Ranked (some id) next) (c : Option ScopeId) : o.adopt c = o := by
  have hregions : o.regions.map (Region.adopt c) = o.regions := by
    refine (List.map_congr_left fun r hr => ?_).trans (List.map_id _)
    have hparent : r.parent.or c = r.parent := by
      rcases h.parent r hr with hsome | ⟨p, hsome, -, -⟩ <;> simp [hsome]
    rw [Region.adopt, hparent]
    rfl
  rw [Outline.adopt, hregions]

/-- A lambda is outlined in the same way wherever it stands, but for the region around it. -/
theorem Node.outline_lambda_eq_adopt (first : Token) (items : List Node) (last : Token)
    (scope : Option ScopeId) (next : Nat) (query query' : Bool) (sign sign' : Option Assignment) :
    (Node.enclosed .lambda first items last).outline scope next query sign =
      ((Node.enclosed .lambda first items last).outline none next query' sign').adopt scope := by
  have hitems := Node.ranked_outlineAll (some next) (next + 1) false false false items
  rw [Node.outline, Node.outline, Outline.adopt_append, Outline.adopt_append, Outline.adopt_append,
    hitems.adopt_eq scope]
  rfl

section

variable {tokens before behind : List Token} {first last : Token} {items nodes : List Node}
  {places : Places}

theorem index_first_of_parse_lambda (hnumbered : Token.Numbered tokens)
    (h : parse tokens = .ok [.enclosed .lambda first items last]) :
    first.index = 0 ∧ last.index + 1 = tokens.length := by
  have hcount := hnumbered.countFrom
  obtain ⟨htokens, -⟩ := reads_of_parse_lambda h
  rw [htokens] at hcount ⊢
  obtain ⟨hfirst, hrest⟩ := Token.countFrom_cons.1 hcount
  have hlast := (Token.countFrom_cons.1 (Token.countFrom_append.1 hrest).2).1
  rw [List.length_cons, List.length_append, List.length_singleton]
  omega

variable (hnumbered : Token.Numbered tokens)
  (h : parse tokens = .ok [.enclosed .lambda first items last])
  (hwhole : Token.Numbered (before ++ tokens.map (Token.moved places before.length) ++ behind))
  (hparse : parse (before ++ tokens.map (Token.moved places before.length) ++ behind) = .ok nodes)
  (houtside : ∀ gap opening params closing,
    .enclosed (.params gap) opening params closing ∈ Node.all nodes →
      ¬(opening.index < before.length ∧ before.length < closing.index))

include hnumbered h hwhole hparse houtside

/-- The lambda stands in no parameter list. -/
theorem mem_outside_of_parse_lambda :
    (Node.enclosed .lambda first items last).map (Token.moved places before.length) ∈
      Node.outside nodes := by
  have hmem := mem_all_of_parse_lambda hnumbered h (f := Token.moved places before.length)
    (fun _ => rfl) (fun _ => rfl) hparse
  rcases Node.mem_outside_or_exists nodes hmem with
    hmem | ⟨gap, opening, params, closing, hparams, heq | hinside⟩
  · exact hmem
  · simp [Enclosure.map] at heq
  · have hcount := hwhole.countFrom
    rw [← allTokens_parse hparse] at hcount
    obtain ⟨start, hcount⟩ := Node.countFrom_of_mem_all hcount hparams
    have hfirst : first.moved places before.length ∈ Node.allTokens params :=
      Node.mem_allTokens_of_mem_all hinside (by simp [Node.tokens])
    have hbetween := Node.between_of_mem_items hcount hfirst
    rw [Token.index_moved, (index_first_of_parse_lambda hnumbered h).1, Nat.zero_add] at hbetween
    exact absurd hbetween (houtside gap opening params closing hparams)

/-- The outline of the lambda is a piece of that of the whole, with other numbers, and in the region
around it. -/
theorem exists_outline_in_context : ∃ a c b, outline nodes =
      a ++ ((outline [.enclosed .lambda first items last]).map (Token.moved places before.length)
        before.length a.regions.length).adopt c ++ b ∧
    a.marked.map Marked.token = before ∧ b.marked.map Marked.token = behind := by
  obtain ⟨a, c, query, sign, b, houtline⟩ := Node.exists_outline_eq_append none 0 true false false
    nodes (mem_outside_of_parse_lambda hnumbered h hwhole hparse houtside)
  have hpiece : ((Node.enclosed .lambda first items last).map
      (Token.moved places before.length)).outline c a.regions.length query sign =
        ((outline [.enclosed .lambda first items last]).map (Token.moved places before.length)
          before.length a.regions.length).adopt c := by
    have hform : Enclosure.lambda.map (Token.moved places before.length) = .lambda := rfl
    rw [← outlineAll_map_moved, List.map_singleton, Node.moved_eq_map, Node.map_enclosed, hform,
      Node.outline_lambda_eq_adopt _ _ _ c _ _ false _ none, Node.outlineAll, Node.outlineAll]
    simp [signAhead?]
  rw [Nat.zero_add, hpiece] at houtline
  refine ⟨a, c, b, houtline, ?_⟩
  have htokens := Node.token_outlineAll none 0 true false false nodes
  rw [houtline, allTokens_parse hparse, Outline.marked_append, Outline.marked_append,
    List.map_append, List.map_append] at htokens
  have hmiddle : (((outline [.enclosed .lambda first items last]).map
      (Token.moved places before.length) before.length a.regions.length).adopt c).marked.map
        Marked.token = tokens.map (Token.moved places before.length) := by
    have hmap : (((outline [.enclosed .lambda first items last]).map
        (Token.moved places before.length) before.length a.regions.length).adopt c).marked.map
          Marked.token = ((outline [.enclosed .lambda first items last]).marked.map
            Marked.token).map (Token.moved places before.length) := by
      simp [Outline.adopt, Outline.map, Marked.map, Function.comp_def]
    rw [hmap, outline, Node.token_outlineAll, allTokens_parse h]
  rw [hmiddle] at htokens
  -- the first token of the lambda has the number of the tokens before it
  have hlength : (a.marked.map Marked.token).length = before.length := by
    have hcount := hwhole.countFrom
    rw [← htokens, List.append_assoc, Token.countFrom_append, (reads_of_parse_lambda h).1,
      List.map_cons, List.cons_append, Token.countFrom_cons, Token.index_moved,
      (index_first_of_parse_lambda hnumbered h).1] at hcount
    omega
  rw [List.append_assoc, List.append_assoc] at htokens
  obtain ⟨hbefore, hrest⟩ := List.append_inj htokens hlength
  exact ⟨hbefore, List.append_cancel_left hrest⟩

end

/-! ### Lambdas in a whole -/

section

variable {tokens before behind : List Token} {first last : Token} {items nodes : List Node}
  {places : Places} (hnumbered : Token.Numbered tokens)
  (h : parse tokens = .ok [.enclosed .lambda first items last])

theorem outline_lambda_eq (first : Token) (items : List Node) (last : Token) :
    outline [.enclosed .lambda first items last] =
      ⟨[], [⟨0, none, first.index, last.index, declaredParams items⟩]⟩ ++
        (.ofTokens (some 0) .plain [first] ++
          Node.outlineAll (some 0) 1 false false false items ++ .ofTokens (some 0) .plain [last]) := by
  rw [outline, Node.outlineAll, Node.outlineAll, Node.outline]
  simp [Outline.append_assoc]

theorem scope_ne_none_of_lambda {m : Marked}
    (hm : m ∈ (outline [.enclosed .lambda first items last]).marked) : m.scope ≠ none := by
  have hinside := ((Node.ranked_outlineAll (some 0) 1 false false false items).ofTokens_append
    .plain [first]).append_ofTokens .plain [last]
  rw [outline_lambda_eq] at hm
  rcases hinside.scope m hm with hsome | ⟨id, hsome, -⟩ <;> simp [hsome]

include hnumbered h

theorem exists_placed_lambda
    (hwhole : Token.Numbered (before ++ tokens.map (Token.moved places before.length) ++ behind))
    (hparse : parse (before ++ tokens.map (Token.moved places before.length) ++ behind) = .ok nodes)
    (houtside : ∀ gap opening params closing,
      .enclosed (.params gap) opening params closing ∈ Node.all nodes →
        ¬(opening.index < before.length ∧ before.length < closing.index)) :
    ∃ k c a b, Placed [.enclosed .lambda first items last] nodes places before.length tokens.length
      k c a b := by
  obtain ⟨a, c, b, houtline, hbefore, hbehind⟩ :=
    exists_outline_in_context hnumbered h hwhole hparse houtside
  obtain ⟨hleft, hright⟩ := Token.countFrom_append.1 hwhole.countFrom
  obtain ⟨hfirst, hlast⟩ := index_first_of_parse_lambda hnumbered h
  refine ⟨a.regions.length, c, a, b, houtline, rfl, ?_, ?_, ?_, ?_, ?_⟩
  · intro m hm
    have hmem : m.token ∈ before := hbefore ▸ List.mem_map_of_mem hm
    have hindex := ((Token.countFrom_append.1 hleft).1.index_mem hmem).2
    rwa [Nat.zero_add] at hindex
  · intro m hm
    have hmem : m.token ∈ behind := hbehind ▸ List.mem_map_of_mem hm
    have hindex := (hright.index_mem hmem).1
    rwa [Nat.zero_add, List.length_append, List.length_map] at hindex
  · intro r hr
    obtain ⟨-, -, close, hclose, -, hr⟩ := Node.exists_braces_of_mem_regions hr
    rw [allTokens_parse h] at hclose
    rw [hr]
    have hindex := (hnumbered.countFrom.index_mem hclose).2
    rwa [Nat.zero_add] at hindex
  · refine ⟨⟨0, none, first.index, last.index, declaredParams items⟩, ?_, rfl, hfirst, hlast⟩
    simp [outline_lambda_eq]
  · exact fun m hm => scope_ne_none_of_lambda hm

/-- **A lambda depends on its surroundings through its free names alone.**  Let some tokens nest as one
lambda, and let them nest among other tokens, where they stand in no parameter list.  There every
token has the scope that it had, moved on by the number of scopes that open before the lambda; it is
used as it was, and it stands for something or nothing as it did.  If a scope of the lambda owns it,
that scope still does.  A token without an owner stays as it is, or it is a name that no double colon
writes to, and a scope around the lambda has it as a parameter or a local. -/
theorem analyze_lambda_in_context
    (hwhole : Token.Numbered (before ++ tokens.map (Token.moved places before.length) ++ behind))
    (hparse : parse (before ++ tokens.map (Token.moved places before.length) ++ behind) = .ok nodes)
    (houtside : ∀ gap opening params closing,
      .enclosed (.params gap) opening params closing ∈ Node.all nodes →
        ¬(opening.index < before.length ∧ before.length < closing.index)) :
    let alone := [.enclosed .lambda first items last]
    let k := ((analyze nodes).scopes.filter fun s => s.first < before.length).length
    ∀ t ∈ (analyze alone).tokens,
      ∃ t', (analyze nodes).tokens[before.length + t.index]? = some t' ∧
        t.KeptAs places before.length k t' ∧
        (t.binding = none → t'.role = t.role ∧ t'.binding = none ∨
          t.kind = .identifier ∧
            (∀ a, IsTarget (Node.outside alone) alone t.toToken a → a.isGlobal = false) ∧
            ∃ s ∈ (analyze nodes).scopes,
              s.first < before.length ∧ before.length + tokens.length ≤ s.last ∧
              t'.binding = some s.id ∧ ∃ role, t'.role = some role ∧ s.Gives t.text role) := by
  intro alone k t ht
  obtain ⟨k', c, a, b, hplaced⟩ := exists_placed_lambda hnumbered h hwhole hparse houtside
  obtain rfl : k = k' := hplaced.length_filter_scopes hwhole hparse
  obtain ⟨m, hm, rfl⟩ := exists_marked_of_mem_analyze ht
  have hkept := hplaced.keptAs hwhole hparse hm
  refine ⟨_, ?_, hkept, fun hunowned => ?_⟩
  · have hmem : (m.map (Token.moved places before.length) k).annotate
        (analyze nodes).scopes.reverse ∈ (analyze nodes).tokens := by
      refine List.mem_map_of_mem ?_
      rw [hplaced.marked_eq]
      exact List.mem_append_left _ (List.mem_append_right _ (List.mem_map_of_mem hm))
    have hplace := getElem?_index_of_mem_analyze hwhole hparse hmem
    rwa [hkept.toToken, Token.index_moved, Nat.add_comm] at hplace
  · refine (hplaced.owner_of_unowned hwhole hparse hm hunowned).imp id ?_
    rintro ⟨hkind, hmark, howner⟩
    rw [Marked.toToken_annotate]
    refine ⟨hkind, fun sign htarget => ?_, howner⟩
    have husage : (m.annotate (analyze alone).scopes.reverse).usage ≠ none := by
      simp [(@Marked.annotate_of_resolved (analyze alone).scopes.reverse m hkind hmark).1]
    have htarget := mark_eq_of_isTarget hnumbered h hm hkind husage htarget
    rcases hmark with hmark | ⟨isCompound, hmark⟩
    · simp [hmark] at htarget
    · rw [hmark, Mark.target.injEq] at htarget
      exact htarget.1.symm

end

/-- A lambda that is a column of a query in another lambda.  Its own parameter and its own local stay,
and so does a global that both of them lack; the parameter of the lambda around it is found, and the
target of a double colon is no local of it. -/
theorem analyze_lambda_in_context_column :
    let xs : List Lexeme := [⟨.opening .brace, "\x7b"⟩, ⟨.opening .bracket, "["⟩,
      ⟨.identifier, "a"⟩, ⟨.closing .bracket, "]"⟩, ⟨.identifier, "d"⟩, ⟨.colon, ":"⟩,
      ⟨.literal .number, "1"⟩, ⟨.semicolon, ";"⟩, ⟨.keyword, "select"⟩, ⟨.whitespace, " "⟩,
      ⟨.identifier, "e"⟩, ⟨.colon, ":"⟩]
    let ys : List Lexeme := [⟨.opening .brace, "\x7b"⟩, ⟨.identifier, "a"⟩, ⟨.operator, "+"⟩,
      ⟨.identifier, "b"⟩, ⟨.colon, ":"⟩, ⟨.identifier, "x"⟩, ⟨.semicolon, ";"⟩,
      ⟨.identifier, "d"⟩, ⟨.doubleColon, "::"⟩, ⟨.identifier, "c"⟩, ⟨.closing .brace, "\x7d"⟩]
    let zs : List Lexeme := [⟨.whitespace, " "⟩, ⟨.keyword, "from"⟩, ⟨.whitespace, " "⟩,
      ⟨.identifier, "t"⟩, ⟨.closing .brace, "\x7d"⟩]
    let tokens := Lexeme.layOut (xs ++ ys ++ zs)
    let places : Places := ⟨fun i => (tokens[i]?.map (·.span)).getD ⟨0, 0⟩,
      fun i => (tokens[i]?.map (·.position)).getD ⟨0, 0⟩⟩
    let names (tokens : List AnnotatedToken) := (tokens.filter (·.isIdentifier)).map
      fun t => (t.text, t.role, t.binding)
    ∃ alone nodes, parse (Lexeme.layOut ys) = .ok alone ∧ parse tokens = .ok nodes ∧
      names (analyze alone).tokens = [("a", some .globalVar, none), ("b", some .localVar, some 0),
        ("x", some .parameter, some 0), ("d", some .globalVar, none),
        ("c", some .globalVar, none)] ∧
      names (((analyze nodes).tokens.drop 12).take 11) = [("a", some .parameter, some 0),
        ("b", some .localVar, some 1), ("x", some .parameter, some 1),
        ("d", some .globalVar, none), ("c", some .globalVar, none)] ∧
      ∀ t ∈ (analyze alone).tokens, ∃ t', (analyze nodes).tokens[12 + t.index]? = some t' ∧
        t.KeptAs places 12 1 t' := by
  intro xs ys zs tokens places names
  let own := Lexeme.layOut ys
  let items : List Node := [.leaf .identifier own[1], .leaf .operator own[2],
    .leaf .identifier own[3], .assignment ⟨none, [], own[4]⟩, .leaf .identifier own[5],
    .leaf .semicolon own[6], .leaf .identifier own[7], .assignment ⟨none, [], own[8]⟩,
    .leaf .identifier own[9]]
  let nodes := (parse tokens).toOption.getD []
  have halone : parse own = .ok [.enclosed .lambda own[0] items own[10]] := rfl
  have hnodes : parse tokens = .ok nodes := rfl
  have hlength : (tokens.take 12).length = 12 := rfl
  have hwhole : tokens.take 12 ++ own.map (Token.moved places (tokens.take 12).length) ++
      tokens.drop 23 = tokens := by decide +kernel
  have hopen : ((analyze nodes).scopes.filter fun s => s.first < (tokens.take 12).length).length =
      1 := by decide +kernel
  have houtside : (Node.all nodes).all (fun x => !x.isParams || x.tokens.all (·.index ≤ 12)) := by
    decide +kernel
  refine ⟨_, nodes, halone, hnodes, by decide +kernel, by decide +kernel, fun t ht => ?_⟩
  have hcontext := analyze_lambda_in_context (Token.numbered_layOut ys) halone
    (by rw [hwhole]; exact Token.numbered_layOut _) ((congrArg parse hwhole).trans hnodes)
    (fun gap opening params closing hmem => by
      have hbefore : ∀ u ∈ (Node.enclosed (.params gap) opening params closing).tokens,
          u.index ≤ 12 := by
        simpa [Node.isParams] using List.all_eq_true.1 houtside _ hmem
      have hclosing := hbefore closing (by simp [Node.tokens])
      omega) t ht
  rw [hopen, hlength] at hcontext
  obtain ⟨t', hplace, hkept, -⟩ := hcontext
  exact ⟨t', hplace, hkept⟩

end QSource
