/-
**Empty lines.**

One more line break directly behind a line break makes an empty line.  The tokens nest as before, and
every lambda has the same scope.  The annotations stay as they are wherever no clause is open at the
line break, or no blank or comment follows it, or it stands in delimiters.

Where a clause goes on in an indented line of the script, an empty line before that line ends it: the
analysis asks whether the next token is a blank, and the next token is the new line break.  So the
statement is about the line breaks that may be chosen: it holds of all but these, and not of these.

Main definitions:

* `QSource.Token.withBreak`, `QSource.Analysis.withBreak` — tokens and analyses with one more line
  break;
* `QSource.CutsClause` — a clause of the script goes on in the line behind the line break;
* `QSource.EmptyLineIsLayout` — **what an empty line must not change, and what ends a clause**.

Main results:

* `QSource.emptyLineIsLayout_of_not_cutsClause` — **an empty line is layout, unless a clause goes on
  behind it**;
* `QSource.not_emptyLineIsLayout_everywhere` — there it is not.
-/

import Mathlib.Data.List.InsertIdx
import QSource.Proofs.Scope.Owners
import QSource.Proofs.Scope.Padding
import QSource.Proofs.Tree.Statements

set_option relaxedAutoImplicit false
set_option autoImplicit false

namespace QSource

open Node (outlineAll allPadded)

/-! ### One more token -/

/-- The number of a token when one more is put behind the one with the number `n`. -/
def shiftedIndex (n index : Nat) : Nat := if n < index then index + 1 else index

/-- A token when one more is put behind the one with the number `n`. Its kind and its text stay. -/
def Token.shifted (places : Places) (n : Nat) (t : Token) : Token :=
  ⟨t.toLexeme, shiftedIndex n t.index, places.span (shiftedIndex n t.index),
    places.position (shiftedIndex n t.index)⟩

/-- The line break that is put behind the token with the number `n`. -/
def Token.newBreak (places : Places) (text : String) (n : Nat) : Token :=
  ⟨⟨.lineBreak, text⟩, n + 1, places.span (n + 1), places.position (n + 1)⟩

/-- Tokens with one more line break behind the one with the number `n`. -/
def Token.withBreak (places : Places) (text : String) (n : Nat) (tokens : List Token) : List Token :=
  (tokens.map (Token.shifted places n)).insertIdx (n + 1) (Token.newBreak places text n)

/-- An analysis with one more line break behind `brk`, in the scope of `brk`. Nothing else is known
about it, and about the other tokens and the scopes everything that was known. -/
def Analysis.withBreak (places : Places) (text : String) (brk : AnnotatedToken) (a : Analysis) :
    Analysis :=
  ⟨(a.tokens.map fun t => { t with toToken := t.toToken.shifted places brk.index }).insertIdx
      (brk.index + 1) ⟨Token.newBreak places text brk.index, brk.scope, none, none, false, none⟩,
    a.scopes.map (Scope.renumber 0 (shiftedIndex brk.index))⟩

/-- A clause of the script is open at the line break and goes on in the line behind it. -/
def CutsClause (nodes : List Node) (brk : Token) : Prop :=
  ∃ before blank rest, nodes = before ++ .leaf .lineBreak brk :: .leaf .space blank :: rest ∧
    ClauseOpen true before (.leaf .lineBreak brk :: .leaf .space blank :: rest)

/-- **An empty line is layout.**  One more line break directly behind a line break is accepted, and
the scopes stay; so do the annotations, apart from columns of the script that may become variables.
Behind the line breaks that `free` allows nothing is different at all.  And a clause is ended only by
`from`, a semicolon or, in the script itself, a line break that neither a blank nor a comment
follows. -/
structure EmptyLineIsLayout (free : Token → Prop) (tokens : List Token) (nodes : List Node) :
    Prop where
  accepted : ∀ brk ∈ (analyze nodes).tokens, brk.kind = .lineBreak → ∀ places text,
    Token.Numbered (Token.withBreak places text brk.index tokens) ∧
      ∃ nodes', parse (Token.withBreak places text brk.index tokens) = .ok nodes' ∧
        (analyze nodes').scopes = ((analyze nodes).withBreak places text brk).scopes ∧
        List.Forall₂ AnnotatedToken.Freed ((analyze nodes).withBreak places text brk).tokens
          (analyze nodes').tokens
  unchanged : ∀ brk ∈ (analyze nodes).tokens, brk.kind = .lineBreak → free brk.toToken →
    ∀ places text nodes', parse (Token.withBreak places text brk.index tokens) = .ok nodes' →
      analyze nodes' = (analyze nodes).withBreak places text brk
  column : ∀ script sequence, SequenceIn nodes script sequence → ∀ before t rest,
    sequence = before ++ .leaf .identifier t :: rest → (signAhead? rest).isSome →
      ClauseOpen script before (.leaf .identifier t :: rest) →
        ∀ u ∈ (analyze nodes).tokens, u.toToken = t → u.isColumn = true
  written : ∀ before t rest, nodes = before ++ .leaf .identifier t :: rest →
    (signAhead? rest).isSome → ¬ ClauseOpen true before (.leaf .identifier t :: rest) →
      ∀ u ∈ (analyze nodes).tokens, u.toToken = t → u.isAssignment = true

/-! ### Lists with one more entry -/

/-- An entry put behind the one with the number `n`, by a look at every entry. -/
theorem flatMap_eq_insertIdx {α : Type} {add : α → List α} {xs : List α} {n : Nat} {x e : α}
    (hx : xs[n]? = some x) (hadd : add x = [e])
    (hother : ∀ i y, xs[i]? = some y → i ≠ n → add y = []) :
    (xs.flatMap fun y => y :: add y) = xs.insertIdx (n + 1) e := by
  induction xs generalizing n with
  | nil => simp at hx
  | cons y xs ih =>
      have hrest : ∀ i z, xs[i]? = some z → i + 1 ≠ n → add z = [] := fun i z hz hi =>
        hother (i + 1) z (by simpa using hz) hi
      rw [List.flatMap_cons, List.insertIdx_succ_cons]
      cases n with
      | zero =>
          obtain rfl : y = x := by simpa using hx
          have hnone : ∀ z ∈ xs, add z = [] := by
            intro z hz
            obtain ⟨i, hi⟩ := List.mem_iff_getElem?.1 hz
            exact hrest i z hi (by omega)
          rw [hadd, List.insertIdx_zero, List.flatMap_congr fun z hz => by rw [hnone z hz]]
          simp
      | succ n =>
          have hy : add y = [] := hother 0 y (by simp) (by omega)
          rw [hy, List.singleton_append,
            ih (by simpa using hx) fun i z hz hi => hrest i z hz (by omega)]

section

variable {places : Places} {text : String} {n : Nat}

@[simp] theorem Token.kind_shifted (t : Token) : (t.shifted places n).kind = t.kind := rfl

@[simp] theorem Token.index_shifted (t : Token) :
    (t.shifted places n).index = shiftedIndex n t.index := rfl

theorem shiftedIndex_injective : Function.Injective (shiftedIndex n) := by
  intro i j h
  unfold shiftedIndex at h
  split at h <;> split at h <;> omega

/-- The numbers of the tokens are their places again. -/
theorem numbered_withBreak {tokens : List Token} (h : Token.Numbered tokens) (hn : n < tokens.length)
    (places : Places) (text : String) :
    Token.Numbered (Token.withBreak places text n tokens) := by
  have hindex : (tokens.map (Token.shifted places n)).map (·.index) =
      (List.range tokens.length).map (shiftedIndex n) := by
    rw [← h, List.map_map, List.map_map]
    rfl
  rw [Token.Numbered, Token.withBreak, List.map_insertIdx, hindex,
    List.length_insertIdx_of_le_length (by rw [List.length_map]; exact hn), List.length_map]
  refine List.ext_getElem? fun i => ?_
  rw [List.getElem?_insertIdx]
  grind [shiftedIndex, Token.newBreak]

end

/-! ### Line breaks that cut no clause -/

section

variable {cut : Token → Prop} {script initial query : Bool}

theorem uncut_of_forall {nodes : List Node}
    (h : script = true → ∀ before t rest, nodes = before ++ .leaf .lineBreak t :: rest → cut t →
      rest.head?.any Node.isSpace = true →
        Node.queryAlong script initial query before (.leaf .lineBreak t :: rest) = initial) :
    Uncut cut script initial query nodes := by
  induction nodes generalizing query with
  | nil => trivial
  | cons node rest ih =>
      refine ⟨?_, ih fun hscript before t rest' hrest hcut hspace => ?_⟩
      · rintro hscript t rfl hcut hspace
        exact h hscript [] t rest rfl hcut hspace
      · have hnode := h hscript (node :: before) t rest' (by rw [hrest, List.cons_append]) hcut hspace
        rwa [Node.queryAlong, ← hrest] at hnode

theorem uncut_map {f : Token → Token} (htext : ∀ t, (f t).text = t.text) {nodes : List Node}
    (h : Uncut (fun t => cut (f t)) script initial query nodes) :
    Uncut cut script initial query (nodes.map (Node.map f)) := by
  induction nodes generalizing query with
  | nil => trivial
  | cons node rest ih =>
      obtain ⟨hnode, hrest⟩ := h
      refine ⟨?_, ?_⟩
      · intro hscript t ht hcut hspace
        obtain ⟨u, rfl⟩ := Node.exists_of_map_eq_leaf ht
        rw [Node.map_leaf] at ht
        obtain ⟨-, rfl⟩ := Node.leaf.inj ht
        refine hnode hscript u rfl hcut ?_
        cases rest <;> simp_all
      · rw [Node.queryAfter_map fun t _ => htext t]
        exact ih hrest

end

/-! ### Empty lines -/

section

variable {tokens : List Token} {nodes : List Node} {brk : AnnotatedToken} {places : Places}
  {text : String}

/-- The line break that is put behind `brk`, if the token is `brk` with its new number. -/
def breakBehind (places : Places) (text : String) (brk t : Token) : List Token :=
  if t = brk.shifted places brk.index then [.newBreak places text brk.index] else []

theorem padsBreaks_breakBehind {brk : Token} (hkind : brk.kind = .lineBreak) (places : Places)
    (text : String) : PadsBreaks (breakBehind places text brk) where
  kind := by
    intro t e he
    unfold breakBehind at he
    split at he
    · rw [List.mem_singleton.1 he, Token.newBreak]
    · simp at he
  behind := by
    intro t ht
    refine if_neg ?_
    rintro rfl
    exact ht hkind

/-- Only the token with the right number is `brk` with its new number. -/
theorem breakBehind_of_index_ne {brk t : Token} (h : t.index ≠ brk.index) :
    breakBehind places text brk (t.shifted places brk.index) = [] := by
  refine if_neg fun heq => h ?_
  exact shiftedIndex_injective (congrArg Token.index heq)

/-- The tokens with one more line break, by a look at every token. -/
theorem flatMap_breakBehind (hnumbered : Token.Numbered tokens) {brk : Token} (hbrk : brk ∈ tokens) :
    ((tokens.map (Token.shifted places brk.index)).flatMap fun t =>
      t :: breakBehind places text brk t) = Token.withBreak places text brk.index tokens := by
  have hplace : tokens[brk.index]? = some brk := hnumbered.getElem?_index hbrk
  refine flatMap_eq_insertIdx (x := brk.shifted places brk.index) (by simp [hplace])
    (if_pos rfl) ?_
  intro i t ht hi
  obtain ⟨u, hu, rfl⟩ : ∃ u, tokens[i]? = some u ∧ u.shifted places brk.index = t := by
    simpa using ht
  exact breakBehind_of_index_ne (by rwa [hnumbered.index_eq hu])

/-- The analysis with one more line break, by a look at every token. -/
theorem padded_breakBehind (hnumbered : Token.Numbered tokens) (h : parse tokens = .ok nodes)
    (hbrk : brk ∈ (analyze nodes).tokens) :
    Analysis.padded (breakBehind places text brk.toToken)
        ⟨(analyze nodes).tokens.map (AnnotatedToken.map (Token.shifted places brk.index) 0),
          (analyze nodes).scopes.map (Scope.renumber 0 (shiftedIndex brk.index))⟩ =
      (analyze nodes).withBreak places text brk := by
  have hmap : AnnotatedToken.map (Token.shifted places brk.index) 0 =
      fun t => { t with toToken := t.toToken.shifted places brk.index } := by
    funext t
    simp [AnnotatedToken.map]
  have hplace := getElem?_index_of_mem_analyze hnumbered h hbrk
  rw [Analysis.padded, Analysis.withBreak, hmap]
  congr 1
  refine flatMap_eq_insertIdx (x := { brk with toToken := brk.toToken.shifted places brk.index })
    (by simp [hplace]) (by simp [breakBehind]) ?_
  intro i t ht hi
  obtain ⟨u, hu, rfl⟩ : ∃ u, (analyze nodes).tokens[i]? = some u ∧
      { u with toToken := u.toToken.shifted places brk.index } = t := by
    simpa using ht
  have hindex : u.index = i := (numbered_analyze hnumbered h).index_eq (by simp [hu])
  simp [breakBehind_of_index_ne (by rwa [hindex] : u.toToken.index ≠ brk.toToken.index)]

/-- The tree of the tokens with their new numbers. -/
theorem parse_map_shifted (h : parse tokens = .ok nodes) (places : Places) (n : Nat) :
    parse (tokens.map (Token.shifted places n)) =
      .ok (nodes.map (Node.map (Token.shifted places n))) := by
  have hmap := parse_map (f := Token.shifted places n) (fun _ => rfl) tokens
  rwa [h] at hmap

/-- The tree of the tokens with one more line break. -/
theorem parse_withBreak (hnumbered : Token.Numbered tokens) (h : parse tokens = .ok nodes)
    {brk : Token} (hbrk : brk ∈ tokens) (hkind : brk.kind = .lineBreak) (places : Places)
    (text : String) :
    parse (Token.withBreak places text brk.index tokens) =
      .ok (allPadded (breakBehind places text brk)
        (nodes.map (Node.map (Token.shifted places brk.index)))) := by
  rw [← flatMap_breakBehind hnumbered hbrk]
  exact parse_padded (padsBreaks_breakBehind hkind places text) (parse_map_shifted h places _)

/-- The outline of the tokens with their new numbers. -/
theorem outline_map_shifted (nodes : List Node) (places : Places) (n : Nat) :
    outline (nodes.map (Node.map (Token.shifted places n))) =
      (outline nodes).renumber (Token.shifted places n) 0 (shiftedIndex n)
        fun param => (param.1, shiftedIndex n param.2) :=
  Node.outlineAll_renumber (f := Token.shifted places n) 0 (shiftedIndex n) (fun _ => rfl)
    (fun _ => rfl) none 0 true false false nodes fun x _ => by
      unfold Node.Renames
      split <;> trivial

/-- The analysis of the outline of the tokens with their new numbers, with the new line break. -/
theorem analysis_padded_shifted (hnumbered : Token.Numbered tokens) (h : parse tokens = .ok nodes)
    (hbrk : brk ∈ (analyze nodes).tokens) (hkind : brk.kind = .lineBreak) :
    ((outline (nodes.map (Node.map (Token.shifted places brk.index)))).padded
        (breakBehind places text brk.toToken)).analysis =
      (analyze nodes).withBreak places text brk := by
  rw [Outline.analysis_padded (padsBreaks_breakBehind hkind places text), outline_map_shifted,
    Outline.analysis_renumber (f := Token.shifted places brk.index) 0 (shiftedIndex brk.index)
      (fun _ => rfl) fun _ _ _ => rfl,
    ← padded_breakBehind hnumbered h hbrk]
  rfl

/-- Where `brk` cuts no clause, columns are not named across it. -/
theorem uncut_of_not_cutsClause (hnumbered : Token.Numbered tokens) (h : parse tokens = .ok nodes)
    {brk : Token} (hbrk : brk ∈ tokens) (hfree : ¬ CutsClause nodes brk) (places : Places)
    (text : String) :
    Uncut (fun t => breakBehind places text brk t ≠ []) true false false
      (nodes.map (Node.map (Token.shifted places brk.index))) := by
  refine uncut_map (f := Token.shifted places brk.index) (fun _ => rfl) (uncut_of_forall ?_)
  intro _ before t rest hnodes hcut hspace
  have ht : t ∈ tokens := by
    rw [← allTokens_parse h, hnodes]
    simp [Node.tokens]
  obtain rfl : t = brk :=
    hnumbered.eq_of_index_eq ht hbrk (not_imp_comm.1 breakBehind_of_index_ne hcut)
  rw [Bool.eq_false_iff, Ne, queryAlong_eq_true_iff]
  intro hopen
  obtain ⟨blank, rest, rfl⟩ : ∃ blank rest', rest = .leaf .space blank :: rest' := by
    cases rest with
    | nil => simp at hspace
    | cons node rest =>
        cases node with
        | leaf form u =>
            cases form with
            | space => exact ⟨u, rest, rfl⟩
            | _ => simp [Node.isSpace] at hspace
        | _ => simp [Node.isSpace] at hspace
  exact hfree ⟨before, blank, rest, hnodes, hopen⟩

end

/-- **An empty line is layout, unless a clause of the script goes on in the line behind it.** -/
theorem emptyLineIsLayout_of_not_cutsClause {tokens : List Token} {nodes : List Node}
    (hnumbered : Token.Numbered tokens) (h : parse tokens = .ok nodes) :
    EmptyLineIsLayout (fun brk => ¬ CutsClause nodes brk) tokens nodes where
  accepted := by
    intro brk hbrk hkind places text
    have hmem := toToken_mem_of_mem_analyze h hbrk
    have hparse := parse_withBreak hnumbered h hmem hkind places text
    have hfits := fits_parse (parse_map_shifted h places brk.index)
    have hfreed := @Node.freed_outlineAll_padded _ (padsBreaks_breakBehind hkind places text) 0
      false false id _ hfits
    refine ⟨numbered_withBreak hnumbered ?_ places text, _, hparse, ?_⟩
    · exact (List.getElem?_eq_some_iff.1 (hnumbered.getElem?_index hmem)).1
    · rw [← analysis_padded_shifted hnumbered h hbrk hkind]
      exact hfreed.analysis
  unchanged := by
    intro brk hbrk hkind hfree places text nodes' hparse
    have hmem := toToken_mem_of_mem_analyze h hbrk
    rw [parse_withBreak hnumbered h hmem hkind, Except.ok.injEq] at hparse
    subst hparse
    have hfits := fits_parse (parse_map_shifted h places brk.index)
    have huncut := uncut_of_not_cutsClause hnumbered h hmem hfree places text
    rw [← analysis_padded_shifted hnumbered h hbrk hkind, analyze_eq_analysis, outline, outline,
      Node.outlineAll_padded (padsBreaks_breakBehind hkind places text) none 0 true false false _
        hfits huncut]
  column := by
    rintro script sequence hsequence before t rest rfl hsign hopen u hu htoken
    exact isColumn_of_clauseOpen hnumbered h hsequence hsign hopen hu htoken
  written := by
    intro before t rest hnodes hsign hclosed u hu htoken
    exact isAssignment_of_not_clauseOpen hnumbered h hnodes hsign hclosed hu htoken

/-- In a lambda and at the end of a statement line breaks cut nothing: in `{select\n s:x}\nb:1` the name
`s` is a column, and `b` is written. -/
theorem emptyLineIsLayout_of_not_cutsClause_lambda :
    let tokens := Lexeme.layOut [⟨.opening .brace, "\x7b"⟩, ⟨.keyword, "select"⟩, ⟨.lineBreak, "\n"⟩,
      ⟨.whitespace, " "⟩, ⟨.identifier, "s"⟩, ⟨.colon, ":"⟩, ⟨.identifier, "x"⟩,
      ⟨.closing .brace, "\x7d"⟩, ⟨.lineBreak, "\n"⟩, ⟨.identifier, "b"⟩, ⟨.colon, ":"⟩,
      ⟨.literal .number, "1"⟩]
    ∃ nodes, Token.Numbered tokens ∧ parse tokens = .ok nodes ∧
      EmptyLineIsLayout (fun brk => ¬ CutsClause nodes brk) tokens nodes ∧
      (analyze nodes).tokens.map (·.isColumn) =
        [false, false, false, false, true, false, false, false, false, false, false, false] ∧
      ((analyze nodes).tokens.filter (·.isAssignment)).map (·.text) = ["b"] := by
  intro tokens
  have hnumbered : Token.Numbered tokens := Token.numbered_layOut _
  exact ⟨_, hnumbered, rfl, emptyLineIsLayout_of_not_cutsClause hnumbered rfl, by decide +kernel,
    by decide +kernel⟩

/-- **Where a clause goes on in the next line, an empty line is no layout**: in `select a\n s:1` the name
`s` is a column, and in `select a\n\n s:1` it is written. -/
theorem not_emptyLineIsLayout_everywhere :
    let tokens := Lexeme.layOut [⟨.keyword, "select"⟩, ⟨.whitespace, " "⟩, ⟨.identifier, "a"⟩,
      ⟨.lineBreak, "\n"⟩, ⟨.whitespace, " "⟩, ⟨.identifier, "s"⟩, ⟨.colon, ":"⟩,
      ⟨.literal .number, "1"⟩]
    ∃ nodes, Token.Numbered tokens ∧ parse tokens = .ok nodes ∧
      ¬ EmptyLineIsLayout (fun _ => True) tokens nodes := by
  intro tokens
  let tokens' := Lexeme.layOut [⟨.keyword, "select"⟩, ⟨.whitespace, " "⟩, ⟨.identifier, "a"⟩,
    ⟨.lineBreak, "\n"⟩, ⟨.lineBreak, "\n"⟩, ⟨.whitespace, " "⟩, ⟨.identifier, "s"⟩, ⟨.colon, ":"⟩,
    ⟨.literal .number, "1"⟩]
  let places : Places := ⟨fun i => (tokens'[i]?.map (·.span)).getD ⟨0, 0⟩,
    fun i => (tokens'[i]?.map (·.position)).getD ⟨0, 0⟩⟩
  have hbreak : Token.withBreak places "\n" 3 tokens = tokens' := by decide +kernel
  refine ⟨_, Token.numbered_layOut _, rfl, ?_⟩
  intro hlayout
  let brk : AnnotatedToken := ⟨tokens[3], none, none, none, false, none⟩
  have hsame := hlayout.unchanged brk (by decide +kernel) rfl trivial places "\n" _
    (by rw [show brk.index = 3 from rfl, hbreak]; rfl)
  have hwritten := congrArg (fun a => a.tokens.map (·.isAssignment)) hsame
  revert hwritten
  decide +kernel

end QSource
