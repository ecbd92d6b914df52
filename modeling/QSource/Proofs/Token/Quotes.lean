/-
**Quotes are closed in a text that is cut into tokens.**

A scan reads a quoted text as a whole, and what it reads outside quotes is never a piece of one.  So
in the tokens of a text every opening quote has its closing quote, with nothing but pieces between
the two, and neither pieces nor closing quotes stand anywhere else.

Main definitions:

* `QSource.ClosedQuotes` — **quoted texts are closed**, said of the kinds of tokens.

Main results:

* `QSource.exists_pieces_of_scanQuoted` — a quoted text ends with its only closing quote;
* `QSource.ClosedQuotes.next` — behind what is outside quotes nothing of a quoted text stands but its
  opening quote;
* `QSource.closedQuotes_of_tokenize` — **the tokens of a text have their quotes closed**.
-/

import QSource.Proofs.Lexicon.Starts
import QSource.Proofs.Token.Cuts
import QSource.Proofs.Token.Scan
import QSource.Proofs.Tree.Automaton

set_option relaxedAutoImplicit false
set_option autoImplicit false

namespace QSource

/-- The token is a quote or stands between quotes. -/
def Kind.ofQuote : Kind → Bool
  | .openQuote | .quotedText | .quotedEscape | .closeQuote => true
  | _ => false

/-- **Quoted texts are closed**: behind an opening quote there are pieces and then a closing quote,
and neither of these stands anywhere else. -/
inductive ClosedQuotes : List Kind → Prop
  | nil : ClosedQuotes []
  /-- A token outside quotes. -/
  | plain {kind : Kind} {kinds : List Kind} (hkind : kind.ofQuote = false)
      (h : ClosedQuotes kinds) : ClosedQuotes (kind :: kinds)
  /-- A whole quoted text. -/
  | quoted {pieces kinds : List Kind} (hpieces : ∀ kind ∈ pieces, kind.isPiece = true)
      (h : ClosedQuotes kinds) : ClosedQuotes (.openQuote :: (pieces ++ .closeQuote :: kinds))

theorem Kind.ofQuote_of_mem_codeKinds {kind : Kind} (h : kind ∈ codeKinds)
    (hkind : kind ≠ .openQuote) : kind.ofQuote = false := by
  have hall : ∀ kind ∈ codeKinds, kind = .openQuote ∨ kind.ofQuote = false := by decide
  exact (hall kind h).resolve_left hkind

theorem Kind.isPiece_of_mem_quotedKinds {kind : Kind} (h : kind ∈ quotedKinds)
    (hkind : kind ≠ .closeQuote) : kind.isPiece = true := by
  have hall : ∀ kind ∈ quotedKinds, kind = .closeQuote ∨ kind.isPiece = true := by decide
  exact (hall kind h).resolve_left hkind

/-- A quoted text ends with its only closing quote. -/
theorem exists_pieces_of_scanQuoted {s : List Char} {body : List Lexeme} {behind : List Char}
    (h : scanQuoted s = some (body, behind)) :
    ∃ pieces, body.map (·.kind) = pieces ++ [.closeQuote] ∧
      ∀ kind ∈ pieces, kind.isPiece = true := by
  fun_induction scanQuoted s generalizing body with
  | case1 => simp at h
  | case2 c rest n hfirst =>
      obtain ⟨rfl, rfl⟩ := Prod.mk.inj (Option.some.inj h)
      exact ⟨[], rfl, by simp⟩
  | case3 c rest kind n hfirst hkind ih =>
      obtain ⟨⟨tail, rest'⟩, htail, heq⟩ := Option.map_eq_some_iff.1 h
      obtain ⟨rfl, rfl⟩ := Prod.mk.inj heq
      obtain ⟨pieces, hbody, hpieces⟩ := ih htail
      have hpiece := Kind.isPiece_of_mem_quotedKinds (Kind.mem_of_first? hfirst).1 hkind
      refine ⟨kind :: pieces, ?_, List.forall_mem_cons.2 ⟨hpiece, hpieces⟩⟩
      rw [List.map_cons, hbody]
      rfl
  | case4 => simp at h

/-- The lexemes of a scan have their quotes closed, whether or not something stopped it. -/
theorem closedQuotes_scan (prev : Option Char) (s : List Char) :
    ClosedQuotes ((scan prev s).lexemes.map (·.kind)) := by
  induction prev, s using scan_induction with
  | done => exact .nil
  | cut prev s xs prev' s' hcut ih =>
      rw [Scan.prepend, List.map_append]
      cases hcut with
      | code hfirst hkind =>
          exact .plain (Kind.ofQuote_of_mem_codeKinds (Kind.mem_of_first? hfirst).1 hkind) ih
      | quoted hfirst hbody =>
          obtain ⟨pieces, hkinds, hpieces⟩ := exists_pieces_of_scanQuoted hbody
          rw [List.map_cons, hkinds, List.cons_append, List.append_assoc, List.singleton_append]
          exact .quoted hpieces ih
  | stuck => exact .nil
  | unclosed => exact .nil

/-- **The tokens of a text have their quotes closed.** -/
theorem closedQuotes_of_tokenize {source : String} {tokens : List Token}
    (h : tokenize source = .ok tokens) : ClosedQuotes (tokens.map (·.kind)) := by
  obtain ⟨rfl, -⟩ := eq_layOut_of_tokenize h
  have hkinds := closedQuotes_scan none source.toList
  rw [← Token.map_toLexeme_place 0 0 Text.Position.origin (scan none source.toList).lexemes,
    List.map_map] at hkinds
  exact hkinds

/-- Where quoted texts are closed, what comes first is outside quotes or an opening quote. -/
theorem ClosedQuotes.of_cons {kind : Kind} {kinds : List Kind} (h : ClosedQuotes (kind :: kinds)) :
    kind.ofQuote = false ∨ kind = .openQuote := by
  cases h with
  | plain hkind => exact .inl hkind
  | quoted => exact .inr rfl

/-- **Behind what ends outside quotes there is nothing of a quoted text** but its opening quote. -/
theorem ClosedQuotes.next {kinds : List Kind} (h : ClosedQuotes kinds) :
    ∀ {before behind : List Kind} {kind next : Kind}, kinds = before ++ kind :: next :: behind →
      kind.ofQuote = false ∨ kind = .closeQuote → next.ofQuote = false ∨ next = .openQuote := by
  induction h with
  | nil => simp
  | plain hfirst hrest ih =>
      intro before behind kind next hsplit hkind
      cases before with
      | nil =>
          obtain ⟨-, rfl⟩ := List.cons.inj hsplit
          exact hrest.of_cons
      | cons first before => exact ih (List.cons.inj hsplit).2 hkind
  | @quoted pieces kinds hpieces hrest ih =>
      intro before behind kind next hsplit hkind
      cases before with
      | nil =>
          obtain ⟨rfl, -⟩ := List.cons.inj hsplit
          simp [Kind.ofQuote] at hkind
      | cons first before =>
          rcases List.append_eq_append_iff.1 (List.cons.inj hsplit).2 with
            ⟨skipped, -, hskipped⟩ | ⟨inside, hinside, hbehind⟩
          · cases skipped with
            | nil =>
                obtain ⟨-, rfl⟩ := List.cons.inj hskipped
                exact hrest.of_cons
            | cons close skipped => exact ih (List.cons.inj hskipped).2 hkind
          · cases inside with
            | nil =>
                obtain ⟨-, rfl⟩ := List.cons.inj hbehind.symm
                exact hrest.of_cons
            | cons piece inside =>
                obtain ⟨rfl, -⟩ := List.cons.inj hbehind
                have hpiece := hpieces kind (by simp [hinside])
                cases kind <;> simp [Kind.isPiece, Kind.ofQuote] at hpiece hkind

/-! ### Quotes and literals -/

/-- A quote is one character. -/
theorem Kind.exists_of_quote {kind : Kind} (hkind : kind = .openQuote ∨ kind = .closeQuote)
    {prev : Option Char} {s : List Char} {n : Nat} (h : kind.length? prev s = some n) :
    n = 1 ∧ ∃ rest, s = '"' :: rest := by
  have hquote : (Pattern.char '"').length? s = some n := by
    rcases hkind with rfl | rfl <;> exact h
  cases s with
  | nil => simp [Pattern.char, Pattern.length?] at hquote
  | cons c rest =>
      simp only [Pattern.char, Pattern.length?, Option.ite_none_right_eq_some,
        Option.some.injEq] at hquote
      obtain ⟨hc, rfl⟩ := hquote
      obtain rfl : c = '"' := by simpa using hc
      exact ⟨rfl, rest, rfl⟩

/-- No literal that is one token starts with a quote. -/
theorem LiteralForm.head?_take_ne {form : LiteralForm} {prev : Option Char} {s : List Char}
    {n : Nat} (h : form.length? prev s = some n) : (s.take n).head? ≠ some '"' := by
  have hrefuses : ∀ signed, (form.pattern signed).refuses '"' = true := by
    intro signed
    cases form <;> cases signed <;> rfl
  cases s with
  | nil => simp
  | cons c rest =>
      intro hhead
      cases n with
      | zero => simp at hhead
      | succ n =>
          obtain rfl : c = '"' := by simpa using hhead
          simp [LiteralForm.length?_of_refuses rest (hrefuses _)] at h

section

variable {source : String} {tokens : List Token} (h : tokenize source = .ok tokens) {t : Token}
  (ht : t ∈ tokens)

include h ht

theorem exists_length?_of_tokenize : ∃ prev s n, t.kind.length? prev s = some n ∧
    t.chars = s.take n := by
  obtain ⟨rfl, -⟩ := eq_layOut_of_tokenize h
  refine exists_of_mem_scan none source.toList t.toLexeme ?_
  rw [← Token.map_toLexeme_place 0 0 Text.Position.origin (scan none source.toList).lexemes]
  exact List.mem_map_of_mem ht

theorem chars_of_quote (hkind : t.kind = .openQuote ∨ t.kind = .closeQuote) : t.chars = ['"'] := by
  obtain ⟨prev, s, n, hlength, hchars⟩ := exists_length?_of_tokenize h ht
  obtain ⟨rfl, rest, rfl⟩ := Kind.exists_of_quote hkind hlength
  rw [hchars, List.take_succ_cons, List.take_zero]

theorem head?_chars_of_literal {form : LiteralForm} (hkind : t.kind = .literal form) :
    t.chars.head? ≠ some '"' := by
  obtain ⟨prev, s, n, hlength, hchars⟩ := exists_length?_of_tokenize h ht
  rw [hkind] at hlength
  rw [hchars]
  exact LiteralForm.head?_take_ne hlength

end

end QSource
