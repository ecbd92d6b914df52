/-
**A stack automaton decides whether tokens nest**, and blames the same token.

The automaton sees nothing but the kinds of the tokens.  It keeps a stack of open delimiters, steps
over a whole quoted text at once, and stops at the first misplacement.  A pass that builds a tree
does more work on the way: it collects nodes, merges operators into assignment signs, moves the
blanks before a parameter list, and reads quoted text piece by piece.  None of this can be seen in
the verdict.

Main definitions:

* `QSource.Blame` — what is wrong, and the number of the token to blame;
* `QSource.balance` — **the automaton**;
* `QSource.verdict` — what is left of the result of a pass if the tree is forgotten.

Main results:

* `QSource.Nesting.verdict_run` — from any state outside quotes a pass comes to the verdict of the
  automaton;
* `QSource.verdict_parse` — **nesting a sequence of tokens comes to the verdict of the automaton**,
  and the message names the token that is blamed.
-/

import QSource.Proofs.Token.Place
import QSource.Proofs.Tree.Steps

set_option relaxedAutoImplicit false
set_option autoImplicit false

namespace QSource

/-! ### The automaton -/

/-- A misplacement with the number of the token to blame. -/
structure Blame where
  fault : Misplacement
  index : Nat
deriving DecidableEq

/-- The pieces that make up the inside of a quoted text. -/
def Kind.isPiece : Kind → Bool
  | .quotedText | .quotedEscape => true
  | _ => false

/-- **The automaton** on the kinds of the tokens from number `index` on.  The stack holds the open
delimiters with their numbers, the innermost first. -/
def balance (index : Nat) (stack : List (Nat × Delimiter)) : List Kind → Except Blame Unit
  | [] =>
    match stack with
    | [] => .ok ()
    | (top, _) :: _ => .error ⟨.unmatched, top⟩
  | .opening pair :: kinds =>
    if stack.length < 128 then balance (index + 1) ((index, pair) :: stack) kinds
    else .error ⟨.tooDeep, index⟩
  | .closing pair :: kinds =>
    match stack with
    | [] => .error ⟨.unmatched, index⟩
    | (top, opened) :: below =>
      if opened = pair then balance (index + 1) below kinds else .error ⟨.unmatched, top⟩
  | .openQuote :: kinds =>
    match h : kinds.dropWhile Kind.isPiece with
    | .closeQuote :: behind =>
      balance (index + (kinds.takeWhile Kind.isPiece).length + 2) stack behind
    | _ => .error ⟨.unmatched, index⟩
  | .quotedText :: _ | .quotedEscape :: _ | .closeQuote :: _ => .error ⟨.unexpected, index⟩
  | _ :: kinds => balance (index + 1) stack kinds
termination_by kinds => kinds.length
decreasing_by
  all_goals simp_wf
  have := (List.dropWhile_sublist Kind.isPiece (l := kinds)).length_le
  rw [h, List.length_cons] at this
  omega

/-- A quoted text is stepped over as a whole. -/
theorem balance_quoted {pieces : List Kind} (h : ∀ kind ∈ pieces, kind.isPiece = true) (index : Nat)
    (stack : List (Nat × Delimiter)) (behind : List Kind) :
    balance index stack (.openQuote :: (pieces ++ .closeQuote :: behind)) =
      balance (index + pieces.length + 2) stack behind := by
  have hdrop : (pieces ++ .closeQuote :: behind).dropWhile Kind.isPiece = .closeQuote :: behind := by
    rw [List.dropWhile_append_of_pos h]
    rfl
  have htake : (pieces ++ .closeQuote :: behind).takeWhile Kind.isPiece = pieces := by
    rw [List.takeWhile_append_of_pos h]
    simp [Kind.isPiece]
  rw [balance, htake]
  split
  · next behind' heq =>
      rw [hdrop, List.cons.injEq] at heq
      rw [heq.2]
  · next hne => exact absurd hdrop (hne behind)

/-- A quoted text that is not closed is blamed on its opening quote. -/
theorem balance_unclosed {pieces rest : List Kind} (h : ∀ kind ∈ pieces, kind.isPiece = true)
    (hrest : ∀ kind ∈ rest.head?, kind.isPiece = false ∧ kind ≠ .closeQuote) (index : Nat)
    (stack : List (Nat × Delimiter)) :
    balance index stack (.openQuote :: (pieces ++ rest)) = .error ⟨.unmatched, index⟩ := by
  have hdrop : (pieces ++ rest).dropWhile Kind.isPiece = rest := by
    rw [List.dropWhile_append_of_pos h]
    cases rest with
    | nil => rfl
    | cons kind rest => exact List.dropWhile_cons_of_neg (by simp [(hrest kind rfl).1])
  rw [balance]
  split
  · next behind heq =>
      rw [hdrop] at heq
      exact absurd rfl (hrest .closeQuote (by rw [heq]; rfl)).2
  · rfl

/-- Behind an opening quote there are pieces, and then either a closing quote or something that must
not stand there. -/
theorem quote_cases (tokens : List Token) :
    ∃ pieces rest, tokens = pieces ++ rest ∧ (∀ t ∈ pieces, t.kind.isPiece = true) ∧
      ((∃ last behind, rest = last :: behind ∧ last.kind = .closeQuote) ∨
        ∀ t ∈ rest.head?, t.kind.isPiece = false ∧ t.kind ≠ .closeQuote) := by
  induction tokens with
  | nil => exact ⟨[], [], rfl, by simp, Or.inr (by simp)⟩
  | cons t tokens ih =>
      by_cases hpiece : t.kind.isPiece = true
      · obtain ⟨pieces, rest, rfl, hpieces, hrest⟩ := ih
        exact ⟨t :: pieces, rest, rfl, List.forall_mem_cons.2 ⟨hpiece, hpieces⟩, hrest⟩
      · refine ⟨[], t :: tokens, rfl, by simp, ?_⟩
        by_cases hlast : t.kind = .closeQuote
        · exact Or.inl ⟨t, tokens, rfl, hlast⟩
        · exact Or.inr (by simp [hpiece, hlast])

/-- What is left of the result of a pass if the tree is forgotten and the token to blame is known by
its number. -/
def verdict : Except ParseError (List Node) → Except Blame Unit
  | .ok _ => .ok ()
  | .error e => .error ⟨e.fault, e.token.index⟩

/-- The words for a misplacement that is blamed on a token with the given text. -/
def Misplacement.words (text : String) : Misplacement → String
  | .unmatched => s!"unmatched `{text}`"
  | .unexpected => s!"unexpected `{text}`"
  | .tooDeep => "nesting is too deep (maximum 128 levels)"

namespace Nesting

/-! ### Quoted text -/

/-- Pieces are put aside one by one. -/
theorem run_pieces {pieces : List Token} (h : ∀ t ∈ pieces, t.kind.isPiece = true)
    (nodes : List Node) (opened : List Opened) (first : Token) (content rest : List Token) :
    run ⟨nodes, opened, some (first, content)⟩ (pieces ++ rest) =
      run ⟨nodes, opened, some (first, pieces.reverse ++ content)⟩ rest := by
  induction pieces generalizing content with
  | nil => rfl
  | cons t pieces ih =>
      have hread : read ⟨nodes, opened, some (first, content)⟩ t =
          .ok ⟨nodes, opened, some (first, t :: content)⟩ := by
        have ht := h t (List.mem_cons_self ..)
        cases hkind : t.kind <;> simp_all [read, readQuoted, Kind.isPiece]
      rw [List.cons_append, run, hread]
      simp only
      rw [ih fun u hu => h u (List.mem_cons_of_mem _ hu)]
      simp

/-- A closing quote ends the quoted text under way. -/
theorem run_closeQuote {last : Token} (h : last.kind = .closeQuote) (nodes : List Node)
    (opened : List Opened) (first : Token) (content rest : List Token) :
    run ⟨nodes, opened, some (first, content)⟩ (last :: rest) =
      run ⟨.quoted first content.reverse last :: nodes, opened, none⟩ rest := by
  simp [run, read, readQuoted, h]

/-- Neither the end nor anything but a piece or a closing quote may stand in a quoted text. -/
theorem run_of_not_piece {rest : List Token}
    (h : ∀ t ∈ rest.head?, t.kind.isPiece = false ∧ t.kind ≠ .closeQuote) (nodes : List Node)
    (opened : List Opened) (first : Token) (content : List Token) :
    run ⟨nodes, opened, some (first, content)⟩ rest = .error ⟨.unmatched, first⟩ := by
  cases rest with
  | nil => rfl
  | cons t rest =>
      obtain ⟨hpiece, hclose⟩ := h t rfl
      have hread : read ⟨nodes, opened, some (first, content)⟩ t = .error ⟨.unmatched, first⟩ := by
        cases hkind : t.kind <;> simp_all [read, readQuoted, Kind.isPiece]
      rw [run, hread]

/-! ### The automaton follows a pass -/

/-- The stack of the automaton that goes with a pass. -/
def stack (opened : List Opened) : List (Nat × Delimiter) :=
  opened.map fun d => (d.first.index, d.pair)

@[simp] theorem stack_nil : stack [] = [] := rfl

@[simp] theorem stack_cons (d : Opened) (opened : List Opened) :
    stack (d :: opened) = (d.first.index, d.pair) :: stack opened := rfl

@[simp] theorem length_stack (opened : List Opened) : (stack opened).length = opened.length :=
  List.length_map _

/-- **From any state outside quotes a pass comes to the verdict of the automaton.** -/
theorem verdict_run {tokens : List Token} {index : Nat}
    (h : Token.CountFrom index tokens) (nodes : List Node) (opened : List Opened) :
    verdict (run ⟨nodes, opened, none⟩ tokens) =
      balance index (stack opened) (tokens.map (·.kind)) := by
  -- on the number of tokens that are left, because a quoted text takes several at a time
  induction hlen : tokens.length using Nat.strongRecOn generalizing tokens index nodes opened with
  | ind n ih =>
      cases tokens with
      | nil =>
          cases opened with
          | nil => simp [run, finish, verdict, balance, stack]
          | cons d rest => simp [run, finish, verdict, balance, stack]
      | cons t tokens =>
          obtain ⟨hindex, htail⟩ := Token.countFrom_cons.1 h
          rw [List.length_cons] at hlen
          -- what follows a token that leaves the pass outside quotes
          have hnext : ∀ (nodes' : List Node) (opened' : List Opened),
              verdict (run ⟨nodes', opened', none⟩ tokens) =
                balance (index + 1) (stack opened') (tokens.map (·.kind)) :=
            fun nodes' opened' => ih tokens.length (by omega) htail nodes' opened' rfl
          rw [List.map_cons]
          cases hkind : t.kind with
          | opening pair =>
              -- the two depths agree, since the stack has one entry for each open delimiter
              by_cases hdepth : opened.length < 128
              · have hread : read ⟨nodes, opened, none⟩ t =
                    .ok ⟨[], ⟨pair, t, nodes⟩ :: opened, none⟩ := by
                  simp [read, readPlain, hkind, maxDepth, hdepth]
                have hopened := hnext [] (⟨pair, t, nodes⟩ :: opened)
                rw [run, hread, balance, length_stack, if_pos hdepth]
                rwa [stack_cons, hindex] at hopened
              · have hread : read ⟨nodes, opened, none⟩ t = .error ⟨.tooDeep, t⟩ := by
                  simp [read, readPlain, hkind, maxDepth, hdepth]
                rw [run, hread, balance, length_stack, if_neg hdepth, ← hindex]
                rfl
          | closing pair =>
              cases opened with
              | nil => simp [run, read, readPlain, hkind, verdict, balance, hindex]
              | cons d rest =>
                  by_cases hpair : d.pair = pair
                  · simp only [run, read, readPlain, hkind, if_pos hpair]
                    rw [hnext, stack_cons, balance, if_pos hpair]
                  · simp only [run, read, readPlain, hkind, if_neg hpair]
                    rw [stack_cons, balance, if_neg hpair]
                    rfl
          | openQuote =>
              have hread : read ⟨nodes, opened, none⟩ t = .ok ⟨nodes, opened, some (t, [])⟩ := by
                simp [read, readPlain, hkind]
              obtain ⟨pieces, rest, rfl, hpieces, hrest⟩ := quote_cases tokens
              have hkinds : ∀ kind ∈ pieces.map (·.kind), kind.isPiece = true := by
                simpa using hpieces
              -- the automaton is behind the quoted text at once; the pass takes its pieces one by one
              simp only [run, hread]
              rw [run_pieces hpieces, List.map_append]
              rcases hrest with ⟨last, behind, rfl, hlast⟩ | hother
              · obtain ⟨-, hbehind⟩ := Token.countFrom_cons.1 (Token.countFrom_append.1 htail).2
                rw [Nat.add_right_comm index 1] at hbehind
                rw [run_closeQuote hlast, List.map_cons, hlast, balance_quoted hkinds,
                  List.length_map]
                exact ih behind.length (by simp at hlen; omega) hbehind _ _ rfl
              · rw [run_of_not_piece hother, balance_unclosed hkinds (by simpa using hother), ← hindex]
                rfl
          | quotedText =>
              simp [run, read, readPlain, hkind, balance, verdict, hindex, Kind.leafForm?]
          | quotedEscape =>
              simp [run, read, readPlain, hkind, balance, verdict, hindex, Kind.leafForm?]
          | closeQuote =>
              simp [run, read, readPlain, hkind, balance, verdict, hindex, Kind.leafForm?]
          | _ => simp [run, read, readPlain, hkind, balance, Kind.leafForm?, hnext]

/-! ### The token to blame -/

theorem first_mem_tokens {p : Nesting} {d : Opened} (h : d ∈ p.opened) : d.first ∈ p.tokens := by
  have hd : d.first ∈ d.tokens := List.mem_append_right _ (List.mem_singleton.2 rfl)
  refine List.mem_append_left _ (List.mem_append_left _ ?_)
  exact List.mem_flatMap.2 ⟨d, List.mem_reverse.2 h, hd⟩

theorem quote_mem_tokens {p : Nesting} {first : Token} {content : List Token}
    (h : p.quote = some (first, content)) : first ∈ p.tokens := by
  refine List.mem_append_right _ ?_
  rw [h]
  exact List.mem_cons_self ..

/-- Reading blames the token that is read, or one read before. -/
theorem mem_of_read_error {p : Nesting} {token : Token} {e : ParseError}
    (h : p.read token = .error e) : e.token ∈ p.tokens ++ [token] := by
  have hself : token ∈ p.tokens ++ [token] := List.mem_append_right _ (List.mem_singleton.2 rfl)
  rw [read] at h
  split at h
  · next first content hquote =>
      have hblamed : e.token = first := by
        cases hkind : token.kind <;> simp_all [readQuoted] <;> exact h ▸ rfl
      rw [hblamed]
      exact List.mem_append_left _ (quote_mem_tokens hquote)
  · cases hkind : token.kind with
    | closing pair =>
        simp only [readPlain, hkind] at h
        cases hopened : p.opened with
        | nil =>
            rw [hopened] at h
            exact Except.error.inj h ▸ hself
        | cons d rest =>
            rw [hopened] at h
            simp only at h
            split at h
            · simp at h
            · have hd : d ∈ p.opened := hopened ▸ List.mem_cons_self ..
              exact Except.error.inj h ▸ List.mem_append_left _ (first_mem_tokens hd)
    | opening pair =>
        simp only [readPlain, hkind] at h
        split at h
        · simp at h
        · exact Except.error.inj h ▸ hself
    | quotedText | quotedEscape | closeQuote =>
        simp only [readPlain, hkind, Kind.leafForm?] at h
        exact Except.error.inj h ▸ hself
    | _ => simp [readPlain, hkind, Kind.leafForm?] at h

theorem mem_of_finish_error {p : Nesting} {e : ParseError} (h : p.finish = .error e) :
    e.token ∈ p.tokens := by
  rw [finish] at h
  split at h
  · next hquote => exact Except.error.inj h ▸ quote_mem_tokens hquote
  · next hopened =>
      exact Except.error.inj h ▸ first_mem_tokens (hopened ▸ List.mem_cons_self ..)
  · simp at h

/-- A pass blames one of the tokens that it is given. -/
theorem mem_of_run_error {p : Nesting} {tokens : List Token} {e : ParseError}
    (h : p.run tokens = .error e) : e.token ∈ p.tokens ++ tokens := by
  induction tokens generalizing p with
  | nil =>
      rw [List.append_nil]
      exact mem_of_finish_error h
  | cons token tokens ih =>
      rw [run] at h
      rw [← List.singleton_append, ← List.append_assoc]
      split at h
      · next q hread =>
          rw [← (Step.of_read hread).tokens_eq]
          exact ih h
      · next e' hread =>
          rw [← Except.error.inj h]
          exact List.mem_append_left _ (mem_of_read_error hread)

end Nesting

theorem ParseError.message_eq (e : ParseError) :
    e.message = s!"parse error at token {e.token.index}: {e.fault.words e.token.text}" := by
  obtain ⟨fault, token⟩ := e
  cases fault <;> rfl

/-- **Nesting a sequence of tokens comes to the verdict of the automaton**, so there is a tree exactly
if the automaton accepts.  If there is none, the token to blame stands at the place that the
automaton names, and the message says so. -/
theorem verdict_parse {tokens : List Token} (h : Token.Numbered tokens) :
    verdict (parse tokens) = balance 0 [] (tokens.map (·.kind)) ∧
    ∀ e, parse tokens = .error e →
      tokens[e.token.index]? = some e.token ∧
      e.message = s!"parse error at token {e.token.index}: {e.fault.words e.token.text}" := by
  constructor
  · exact Nesting.verdict_run h.countFrom [] []
  · intro e he
    have hmem : e.token ∈ tokens := Nesting.mem_of_run_error (p := .start) he
    exact ⟨h.getElem?_index hmem, e.message_eq⟩

end QSource
