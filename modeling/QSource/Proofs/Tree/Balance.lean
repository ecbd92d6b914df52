/-
**The delimiters of a text decide whether it has a tree.**

Everything in the tokens of a text but its delimiters is in order by itself: a scan closes its quotes,
and no piece of a quoted text stands outside of them.  So a text has a tree exactly if its delimiters
are properly nested and not too many are open at the same time, and otherwise one of the delimiters
is to blame.

Proper nesting is described by a grammar.  A stack of open delimiters is what is left of that grammar
in the middle of a text: each of them still waits for what it encloses, its closing delimiter, and
what comes behind.

Main definitions:

* `QSource.WellNested` — **delimiters that are properly nested** to a depth;
* `QSource.Unwinds` — the delimiters that may follow behind a stack of open ones.

Main results:

* `QSource.unwinds_opening`, `QSource.unwinds_closing` — what the grammar has to say about the next
  delimiter;
* `QSource.balance_eq_ok_iff` — where quotes are closed, the automaton accepts what unwinds the stack;
* `QSource.closedQuotes_of_parse` — tokens that have a tree have their quotes closed;
* `QSource.wellNested_parse` — **the delimiters of a text decide whether it has a tree**.
-/

import QSource.Proofs.Token.Quotes

set_option relaxedAutoImplicit false
set_option autoImplicit false

namespace QSource

/-! ### Proper nesting -/

/-- The token opens or closes a pair. -/
def Kind.isDelimiter : Kind → Bool
  | .opening _ | .closing _ => true
  | _ => false

/-- **Delimiters that are properly nested**, each closed by one of its own pair, with at most `depth`
of them open at the same time. -/
inductive WellNested : Nat → List Kind → Prop
  | nil {depth : Nat} : WellNested depth []
  /-- A pair, what it encloses, and what comes behind it. -/
  | pair {depth : Nat} {pair : Delimiter} {inside behind : List Kind}
      (hinside : WellNested depth inside) (hbehind : WellNested (depth + 1) behind) :
      WellNested (depth + 1) (.opening pair :: (inside ++ .closing pair :: behind))

/-- The delimiters that may follow while those of the stack are open, the innermost first: what is
nested in each of them, its closing delimiter, and at last what is nested in none of them. -/
def Unwinds (limit : Nat) : List Delimiter → List Kind → Prop
  | [], kinds => WellNested limit kinds
  | pair :: stack, kinds => ∃ inside behind, kinds = inside ++ .closing pair :: behind ∧
      WellNested (limit - (stack.length + 1)) inside ∧ Unwinds limit stack behind

theorem not_wellNested_closing {depth : Nat} {pair : Delimiter} {kinds : List Kind} :
    ¬ WellNested depth (.closing pair :: kinds) := by
  intro h
  cases h

/-- A delimiter that closes has to close the innermost open one. -/
theorem unwinds_closing {limit : Nat} {stack : List Delimiter} {pair : Delimiter}
    {kinds : List Kind} :
    Unwinds limit stack (.closing pair :: kinds) ↔
      ∃ below, stack = pair :: below ∧ Unwinds limit below kinds := by
  constructor
  · intro h
    cases stack with
    | nil => exact absurd h not_wellNested_closing
    | cons top below =>
        obtain ⟨inside, behind, heq, hinside, hbehind⟩ := h
        cases inside with
        | nil =>
            obtain ⟨hpair, rfl⟩ := List.cons.inj heq
            obtain rfl := Kind.closing.inj hpair
            exact ⟨below, rfl, hbehind⟩
        | cons kind inside =>
            obtain ⟨rfl, -⟩ := List.cons.inj heq
            exact absurd hinside not_wellNested_closing
  · rintro ⟨below, rfl, h⟩
    exact ⟨[], kinds, rfl, .nil, h⟩

/-- A delimiter that opens has to have a level left, and to be closed before those around it. -/
theorem unwinds_opening {limit : Nat} {stack : List Delimiter} {pair : Delimiter}
    {kinds : List Kind} :
    Unwinds limit stack (.opening pair :: kinds) ↔
      stack.length < limit ∧ Unwinds limit (pair :: stack) kinds := by
  constructor
  · intro h
    cases stack with
    | nil =>
        cases h with
        | pair hinside hbehind => exact ⟨Nat.succ_pos _, _, _, rfl, hinside, hbehind⟩
    | cons top below =>
        obtain ⟨inside, behind, heq, hinside, hbehind⟩ := h
        generalize hdepth : limit - (below.length + 1) = depth at hinside
        cases hinside with
        | nil => simp at heq
        | @pair depth pair' inside behind' hinside hbehind' =>
            -- the pair opens what is nested in the innermost open delimiter
            simp only [List.cons_append, List.append_assoc, List.cons.injEq, Kind.opening.injEq] at heq
            obtain ⟨rfl, rfl⟩ := heq
            have hdepth' : limit - ((top :: below).length + 1) = depth := by
              rw [List.length_cons]
              omega
            refine ⟨by rw [List.length_cons]; omega, inside, behind' ++ .closing top :: behind, rfl,
              hdepth' ▸ hinside, behind', behind, rfl, ?_, hbehind⟩
            rwa [hdepth]
  · rintro ⟨hlimit, inside, behind, rfl, hinside, hbehind⟩
    cases stack with
    | nil =>
        obtain ⟨depth, rfl⟩ := Nat.exists_eq_add_one.2 hlimit
        exact .pair hinside hbehind
    | cons top below =>
        obtain ⟨inside', behind, rfl, hinside', hbehind⟩ := hbehind
        rw [List.length_cons] at hlimit hinside
        obtain ⟨depth, hdepth⟩ := Nat.exists_eq_add_one.2 (Nat.sub_pos_of_lt hlimit)
        have hdepth' : limit - (below.length + 1 + 1) = depth := by omega
        rw [hdepth'] at hinside
        rw [hdepth] at hinside'
        refine ⟨.opening pair :: (inside ++ .closing pair :: inside'), behind, by simp, ?_, hbehind⟩
        rw [hdepth]
        exact .pair hinside hinside'

/-! ### The automaton on closed quotes -/

/-- The automaton steps over all that is neither a delimiter nor in quotes. -/
theorem balance_plain {kind : Kind} (hquote : kind.ofQuote = false)
    (hdelimiter : kind.isDelimiter = false) (index : Nat) (stack : List (Nat × Delimiter))
    (kinds : List Kind) : balance index stack (kind :: kinds) = balance (index + 1) stack kinds := by
  cases kind with
  | opening | closing => simp [Kind.isDelimiter] at hdelimiter
  | openQuote | quotedText | quotedEscape | closeQuote => simp [Kind.ofQuote] at hquote
  | _ => simp [balance]

theorem filter_isDelimiter_of_isPiece {pieces : List Kind}
    (h : ∀ kind ∈ pieces, kind.isPiece = true) : pieces.filter Kind.isDelimiter = [] := by
  rw [List.filter_eq_nil_iff]
  intro kind hkind
  have hpiece := h kind hkind
  cases kind <;> simp [Kind.isPiece] at hpiece <;> simp [Kind.isDelimiter]

/-- **Where quotes are closed, the automaton accepts what unwinds its stack.** -/
theorem balance_eq_ok_iff {kinds : List Kind} (hclosed : ClosedQuotes kinds) (index : Nat)
    (stack : List (Nat × Delimiter)) :
    balance index stack kinds = .ok () ↔
      Unwinds 128 (stack.map Prod.snd) (kinds.filter Kind.isDelimiter) := by
  induction hclosed generalizing index stack with
  | nil =>
      cases stack with
      | nil => simpa [balance, Unwinds] using WellNested.nil
      | cons top below =>
          rw [balance]
          simp [Unwinds]
  | @plain kind kinds hkind hclosed ih =>
      cases kind with
      | opening pair =>
          rw [List.filter_cons_of_pos rfl, unwinds_opening, List.length_map, balance]
          split
          · next hdepth => simp [ih, hdepth]
          · next hdepth => simp [hdepth]
      | closing pair =>
          rw [List.filter_cons_of_pos rfl, unwinds_closing]
          cases stack with
          | nil => simp [balance]
          | cons top below =>
              obtain ⟨place, opened⟩ := top
              by_cases hpair : opened = pair
              · simp [balance, hpair, ih]
              · simp [balance, hpair]
      | openQuote | quotedText | quotedEscape | closeQuote => simp [Kind.ofQuote] at hkind
      | _ => rw [balance_plain hkind rfl, ih, List.filter_cons_of_neg (by simp [Kind.isDelimiter])]
  | @quoted pieces kinds hpieces hclosed ih =>
      rw [balance_quoted hpieces, ih, List.filter_cons_of_neg (by simp [Kind.isDelimiter]),
        List.filter_append, filter_isDelimiter_of_isPiece hpieces, List.nil_append,
        List.filter_cons_of_neg (by simp [Kind.isDelimiter])]

/-- A delimiter is to blame: one of the stack, or one of the tokens from number `index` on. -/
def Blame.AtDelimiter (index : Nat) (stack : List (Nat × Delimiter)) (kinds : List Kind)
    (b : Blame) : Prop :=
  b.fault ≠ .unexpected ∧ (b.index ∈ stack.map Prod.fst ∨
    ∃ k kind, kinds[k]? = some kind ∧ kind.isDelimiter = true ∧ b.index = index + k)

namespace Blame.AtDelimiter

variable {index : Nat} {stack : List (Nat × Delimiter)} {kind : Kind} {kinds : List Kind} {b : Blame}

/-- The first token that is read is to blame. -/
theorem head {fault : Misplacement} (hfault : fault ≠ .unexpected)
    (hkind : kind.isDelimiter = true) : AtDelimiter index stack (kind :: kinds) ⟨fault, index⟩ :=
  ⟨hfault, Or.inr ⟨0, kind, rfl, hkind, rfl⟩⟩

/-- What is to blame behind some tokens is to blame with them. -/
theorem append {read : List Kind} (h : AtDelimiter (index + read.length) stack kinds b) :
    AtDelimiter index stack (read ++ kinds) b := by
  obtain ⟨hfault, hstack | ⟨k, kind, hk, hkind, hindex⟩⟩ := h
  · exact ⟨hfault, Or.inl hstack⟩
  · refine ⟨hfault, Or.inr ⟨read.length + k, kind, ?_, hkind, by omega⟩⟩
    rw [List.getElem?_append_right (Nat.le_add_right _ _), Nat.add_sub_cancel_left]
    exact hk

theorem cons (h : AtDelimiter (index + 1) stack kinds b) :
    AtDelimiter index stack (kind :: kinds) b :=
  show AtDelimiter index stack ([kind] ++ kinds) b from append h

end Blame.AtDelimiter

/-- **Where quotes are closed, the automaton blames a delimiter.** -/
theorem atDelimiter_of_balance_eq_error {kinds : List Kind} (hclosed : ClosedQuotes kinds)
    {index : Nat} {stack : List (Nat × Delimiter)} {b : Blame}
    (h : balance index stack kinds = .error b) : b.AtDelimiter index stack kinds := by
  induction hclosed generalizing index stack with
  | nil =>
      cases stack with
      | nil => simp [balance] at h
      | cons top below =>
          rw [balance] at h
          rw [← Except.error.inj h]
          exact ⟨by simp, Or.inl (by simp)⟩
  | @plain kind kinds hkind hclosed ih =>
      cases kind with
      | opening pair =>
          rw [balance] at h
          split at h
          · -- the stack has got the token that is read
            obtain ⟨hfault, hstack | hbehind⟩ := ih h
            · rw [List.map_cons, List.mem_cons] at hstack
              rcases hstack with hindex | hstack
              · exact ⟨hfault, Or.inr ⟨0, _, rfl, rfl, hindex⟩⟩
              · exact ⟨hfault, Or.inl hstack⟩
            · exact .cons ⟨hfault, Or.inr hbehind⟩
          · rw [← Except.error.inj h]
            exact .head (by simp) rfl
      | closing pair =>
          cases stack with
          | nil =>
              rw [balance] at h
              rw [← Except.error.inj h]
              exact .head (by simp) rfl
          | cons top below =>
              rw [balance] at h
              split at h
              · obtain ⟨hfault, hstack | hbehind⟩ := ih h
                · exact ⟨hfault, Or.inl (List.mem_cons_of_mem _ hstack)⟩
                · exact .cons ⟨hfault, Or.inr hbehind⟩
              · rw [← Except.error.inj h]
                exact ⟨by simp, Or.inl (List.mem_cons_self ..)⟩
      | openQuote | quotedText | quotedEscape | closeQuote => simp [Kind.ofQuote] at hkind
      | _ =>
          rw [balance_plain hkind rfl] at h
          exact .cons (ih h)
  | @quoted pieces kinds hpieces hclosed ih =>
      rw [balance_quoted hpieces, Nat.add_assoc] at h
      have hread : (Kind.openQuote :: (pieces ++ [.closeQuote])).length = pieces.length + 2 := by simp
      have hbehind := ih h
      rw [← hread] at hbehind
      simpa using hbehind.append

/-- What the automaton accepts has its quotes closed. -/
theorem closedQuotes_of_balance {index : Nat} {stack : List (Nat × Delimiter)} {kinds : List Kind}
    (h : balance index stack kinds = .ok ()) : ClosedQuotes kinds := by
  fun_induction balance index stack kinds with
  | case1 => exact .nil
  | case2 | case4 | case5 | case7 | case9 | case10 | case11 | case12 => exact absurd h (by simp)
  | case3 index stack pair kinds hdepth ih => exact .plain rfl (ih h)
  | case6 index kinds top opened below ih => exact .plain rfl (ih h)
  | case8 index stack kinds behind hbehind ih =>
      rw [← List.takeWhile_append_dropWhile (p := Kind.isPiece) (l := kinds), hbehind]
      exact .quoted (List.all_eq_true.1 List.all_takeWhile) (ih h)
  | case13 index stack kind kinds _ _ hquote htext hescape hclose ih =>
      refine .plain ?_ (ih h)
      cases kind <;> first | rfl | simp_all

/-! ### Texts -/

theorem verdict_eq_ok_iff {result : Except ParseError (List Node)} :
    verdict result = .ok () ↔ ∃ nodes, result = .ok nodes := by
  cases result <;> simp [verdict]

/-- Tokens that have a tree have their quotes closed. -/
theorem closedQuotes_of_parse {tokens : List Token} {nodes : List Node}
    (hnumbered : Token.Numbered tokens) (h : parse tokens = .ok nodes) :
    ClosedQuotes (tokens.map (·.kind)) := by
  have hverdict : verdict (parse tokens) = balance 0 [] (tokens.map (·.kind)) :=
    Nesting.verdict_run hnumbered.countFrom [] []
  exact closedQuotes_of_balance (hverdict.symm.trans (verdict_eq_ok_iff.2 ⟨nodes, h⟩))

/-- Where quotes are closed, one of the delimiters is to blame. -/
theorem blamed_of_parse_eq_error {tokens : List Token} (hnumbered : Token.Numbered tokens)
    (hclosed : ClosedQuotes (tokens.map (·.kind))) {e : ParseError} (h : parse tokens = .error e) :
    tokens[e.token.index]? = some e.token ∧ e.token.kind.isDelimiter = true ∧
      e.fault ≠ .unexpected := by
  have hverdict : verdict (parse tokens) = balance 0 [] (tokens.map (·.kind)) :=
    Nesting.verdict_run hnumbered.countFrom [] []
  have hmem : e.token ∈ tokens := Nesting.mem_of_run_error (p := .start) h
  have htoken := hnumbered.getElem?_index hmem
  rw [h] at hverdict
  obtain ⟨hfault, hstack | ⟨k, kind, hk, hkind, hindex⟩⟩ :=
    atDelimiter_of_balance_eq_error hclosed hverdict.symm
  · simp at hstack
  · have hplace : e.token.index = k := by simpa using hindex
    have hk' : tokens[e.token.index]?.map (·.kind) = some kind := by
      rw [← List.getElem?_map, ← hk, hplace]
    rw [htoken] at hk'
    obtain rfl := Option.some.inj hk'
    exact ⟨htoken, hkind, hfault⟩

/-- **The delimiters of a text decide whether it has a tree**: it has one exactly if they are properly
nested with no more than 128 of them open at the same time.  Otherwise one of the delimiters is to
blame, so neither a piece of quoted text out of place nor an opening quote is ever blamed. -/
theorem wellNested_parse {source : String} {tokens : List Token}
    (h : tokenize source = .ok tokens) :
    ((∃ nodes, parse tokens = .ok nodes) ↔
      WellNested 128 ((tokens.map (·.kind)).filter Kind.isDelimiter)) ∧
    ∀ e, parse tokens = .error e → tokens[e.token.index]? = some e.token ∧
      e.token.kind.isDelimiter = true ∧ e.fault ≠ .unexpected := by
  have hnumbered := numbered_of_tokenize h
  have hclosed := closedQuotes_of_tokenize h
  have hverdict : verdict (parse tokens) = balance 0 [] (tokens.map (·.kind)) :=
    Nesting.verdict_run hnumbered.countFrom [] []
  constructor
  · rw [← verdict_eq_ok_iff, hverdict, balance_eq_ok_iff hclosed]
    rfl
  · intro e he
    exact blamed_of_parse_eq_error hnumbered hclosed he

/-- Delimiters in quotes and comments count for nothing, and a bracket that closes a brace is blamed on
the brace. -/
theorem wellNested_parse_braces :
    (∃ tokens nodes, tokenize "\x7bx[\")\";0]\x7d / (" = .ok tokens ∧ parse tokens = .ok nodes ∧
      WellNested 128 ((tokens.map (·.kind)).filter Kind.isDelimiter)) ∧
    ∃ tokens e, tokenize "f:\x7b\"(\"]" = .ok tokens ∧ parse tokens = .error e ∧
      e.token.index = 2 ∧ tokens[e.token.index]? = some e.token ∧
      e.token.kind.isDelimiter = true ∧ e.fault ≠ .unexpected := by
  have hgood : tokenize "\x7bx[\")\";0]\x7d / (" = .ok (Lexeme.layOut [⟨.opening .brace, "\x7b"⟩,
      ⟨.identifier, "x"⟩, ⟨.opening .bracket, "["⟩, ⟨.openQuote, "\""⟩, ⟨.quotedText, ")"⟩,
      ⟨.closeQuote, "\""⟩, ⟨.semicolon, ";"⟩, ⟨.literal .number, "0"⟩, ⟨.closing .bracket, "]"⟩,
      ⟨.closing .brace, "\x7d"⟩, ⟨.whitespace, " "⟩, ⟨.comment .line, "/ ("⟩]) := by decide +kernel
  have hbad : tokenize "f:\x7b\"(\"]" = .ok (Lexeme.layOut [⟨.identifier, "f"⟩, ⟨.colon, ":"⟩,
      ⟨.opening .brace, "\x7b"⟩, ⟨.openQuote, "\""⟩, ⟨.quotedText, "("⟩, ⟨.closeQuote, "\""⟩,
      ⟨.closing .bracket, "]"⟩]) := by decide +kernel
  refine ⟨⟨_, _, hgood, rfl, (wellNested_parse hgood).1.1 ⟨_, rfl⟩⟩, ?_⟩
  exact ⟨_, _, hbad, rfl, rfl, (wellNested_parse hbad).2 _ rfl⟩

end QSource
