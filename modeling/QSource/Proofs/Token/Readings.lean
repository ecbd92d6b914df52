/-
**What a scan reads at each of its tokens.**

A scan hands on no more than the character before the place where it goes on.  So every token outside
quotes is the first kind of the table that fits the text from there to its end, behind that character,
however much of the text has been cut before. And every token, in quotes or outside, is what its kind
takes of the text from there to its end.

Main results:

* `QSource.notMem_codeKinds_of_scanQuoted` — no piece of a quoted text is of a kind that stands outside
  quotes;
* `QSource.first?_of_mem_scan`, `QSource.first?_of_tokenize` — **a token outside quotes is the first kind
  that fits at its place**;
* `QSource.mem_codeKinds_next`, `QSource.first?_next` — what follows a token outside quotes;
* `QSource.exists_length?_of_scan`, `QSource.exists_length?_of_eq_append` — **every token is what its kind
  takes** from the text from there to the end;
* `QSource.dropBytes?_start_of_tokenize` — that text is what the bytes before the token leave.
-/

import QSource.Proofs.Token.Lines
import QSource.Proofs.Token.Quotes
import QSource.Proofs.Token.Returns

set_option relaxedAutoImplicit false
set_option autoImplicit false

namespace QSource

open Text

/-- No piece of a quoted text is of a kind that stands outside quotes. -/
theorem notMem_codeKinds_of_scanQuoted {s : List Char} {body : List Lexeme} {behind : List Char}
    (h : scanQuoted s = some (body, behind)) {x : Lexeme} (hx : x ∈ body) : x.kind ∉ codeKinds := by
  have hcode : ∀ kind ∈ codeKinds, kind.isPiece = false ∧ kind ≠ .closeQuote := by decide
  obtain ⟨pieces, hkinds, hpieces⟩ := exists_pieces_of_scanQuoted h
  have hmem : x.kind ∈ pieces ++ [.closeQuote] := hkinds ▸ List.mem_map_of_mem hx
  intro hkind
  rcases List.mem_append.1 hmem with hpiece | hclose
  · exact Bool.false_ne_true ((hcode _ hkind).1.symm.trans (hpieces _ hpiece))
  · exact (hcode _ hkind).2 (List.mem_singleton.1 hclose)

/-- The first lexeme of a step, read with all that follows it. -/
theorem Cut.first?_head {prev prev' : Option Char} {s s' : List Char} {x : Lexeme}
    {xs : List Lexeme} (h : Cut prev s (x :: xs) prev' s') :
    Kind.first? codeKinds prev (x.chars ++ (Lexeme.join xs ++ s')) =
      some (x.kind, x.chars.length) := by
  have hjoin := h.join_append
  rw [Lexeme.join_cons, List.append_assoc] at hjoin
  rw [hjoin]
  have hlength : ∀ {kind : Kind} {n : Nat}, Kind.first? codeKinds prev s = some (kind, n) →
      (Lexeme.ofPrefix kind s n).chars.length = n := by
    intro kind n hfirst
    rw [Lexeme.chars_ofPrefix, List.length_take,
      Nat.min_eq_left (Kind.length?_le (Kind.mem_of_first? hfirst).2)]
  cases h with
  | code hfirst hkind => rw [hlength hfirst]; exact hfirst
  | quoted hfirst hbody => rw [hlength hfirst]; exact hfirst

/-- Behind its first lexeme a step has only pieces of quoted texts. -/
theorem Cut.notMem_codeKinds {prev prev' : Option Char} {s s' : List Char} {x : Lexeme}
    {xs : List Lexeme} (h : Cut prev s (x :: xs) prev' s') {y : Lexeme} (hy : y ∈ xs) :
    y.kind ∉ codeKinds := by
  cases h with
  | code hfirst hkind => simp at hy
  | quoted hfirst hbody => exact notMem_codeKinds_of_scanQuoted hbody hy

/-- **A token outside quotes is the first kind that fits at its place**: behind the character before it,
the text from there to the end begins with it. -/
theorem first?_of_mem_scan {prev : Option Char} {s : List Char} :
    (scan prev s).obstacle = none → ∀ {before behind : List Lexeme} {x : Lexeme},
      (scan prev s).lexemes = before ++ x :: behind → x.kind ∈ codeKinds →
        Kind.first? codeKinds ((Lexeme.join before).getLast?.or prev)
          (x.chars ++ Lexeme.join behind) = some (x.kind, x.chars.length) := by
  induction prev, s using scan_induction with
  | done => simp
  | cut prev s xs prev' s' hcut ih =>
      intro hscan before behind x hsplit hcode
      have hs' : Lexeme.join (scan prev' s').lexemes = s' := join_scan hscan
      -- a token behind this step is read by the rest of the scan
      have hbehind : ∀ skipped, before = xs ++ skipped →
          (scan prev' s').lexemes = skipped ++ x :: behind →
            Kind.first? codeKinds ((Lexeme.join before).getLast?.or prev)
              (x.chars ++ Lexeme.join behind) = some (x.kind, x.chars.length) := by
        rintro skipped rfl hrest
        obtain ⟨hlast, hsome⟩ := hcut.getLast?_join
        obtain ⟨c, hc⟩ := Option.ne_none_iff_exists'.1 hsome
        have hfirst := ih hscan hrest hcode
        rw [hlast] at hc
        rwa [Lexeme.join_append, List.getLast?_append, hc, Option.or_assoc, Option.some_or, ← hc,
          ← hlast]
      rcases List.append_eq_append_iff.1 hsplit with ⟨skipped, hbefore, hrest⟩ | ⟨taken, rfl, hrest⟩
      · exact hbehind skipped hbefore hrest
      · cases taken with
        | nil => exact hbehind [] (by simp) hrest.symm
        | cons y taken =>
            rw [List.cons_append, List.cons.injEq] at hrest
            obtain ⟨rfl, rfl⟩ := hrest
            cases before with
            | nil =>
                rw [Lexeme.join_append, hs']
                exact hcut.first?_head
            | cons z before => exact absurd hcode (hcut.notMem_codeKinds (by simp))
  | stuck => simp
  | unclosed => simp

/-- The tokens of a text are the lexemes of its scan. -/
theorem map_toLexeme_of_tokenize {source : String} {tokens : List Token}
    (h : tokenize source = .ok tokens) :
    tokens.map (·.toLexeme) = (scan none source.toList).lexemes := by
  obtain ⟨rfl, -⟩ := eq_layOut_of_tokenize h
  exact Token.map_toLexeme_place 0 0 Text.Position.origin _

/-- The same for the tokens of a text. -/
theorem first?_of_tokenize {source : String} {tokens before behind : List Token} {t : Token}
    (h : tokenize source = .ok tokens) (hsplit : tokens = before ++ t :: behind)
    (hcode : t.kind ∈ codeKinds) :
    Kind.first? codeKinds (Lexeme.join (before.map (·.toLexeme))).getLast?
      (t.chars ++ Lexeme.join (behind.map (·.toLexeme))) = some (t.kind, t.chars.length) := by
  have hlexemes := map_toLexeme_of_tokenize h
  rw [hsplit, List.map_append, List.map_cons] at hlexemes
  simpa using first?_of_mem_scan (eq_layOut_of_tokenize h).2 hlexemes.symm hcode

/-- **What follows a token outside quotes, or a closing quote, is of a kind that stands outside quotes.** -/
theorem mem_codeKinds_next {source : String} {tokens before behind : List Token} {t next : Token}
    (h : tokenize source = .ok tokens) (hsplit : tokens = before ++ t :: next :: behind)
    (ht : t.kind.ofQuote = false ∨ t.kind = .closeQuote) : next.kind ∈ codeKinds := by
  have hkinds : tokens.map (·.kind) =
      before.map (·.kind) ++ t.kind :: next.kind :: behind.map (·.kind) := by
    rw [hsplit, List.map_append, List.map_cons, List.map_cons]
  have hnext := (closedQuotes_of_tokenize h).next hkinds ht
  refine Kind.mem_codeKinds fun hquoted => ?_
  have hall : ∀ kind ∈ quotedKinds, kind.ofQuote = true ∧ kind ≠ .openQuote := by decide
  obtain ⟨hof, hopen⟩ := hall _ hquoted
  rcases hnext with hnext | hnext
  · exact Bool.false_ne_true (hnext.symm.trans hof)
  · exact hopen hnext

/-- So it is the first kind that fits behind that token. -/
theorem first?_next {source : String} {tokens before behind : List Token} {t next : Token}
    (h : tokenize source = .ok tokens) (hsplit : tokens = before ++ t :: next :: behind)
    (ht : t.kind.ofQuote = false ∨ t.kind = .closeQuote) :
    Kind.first? codeKinds (Lexeme.join ((before ++ [t]).map (·.toLexeme))).getLast?
      (next.chars ++ Lexeme.join (behind.map (·.toLexeme))) = some (next.kind, next.chars.length) := by
  have hcode := mem_codeKinds_next h hsplit ht
  rw [List.append_cons] at hsplit
  exact first?_of_tokenize h hsplit hcode

/-! ### Tokens in quotes and outside -/

/-- The kind that fits first takes its text from that text and what follows it. -/
theorem Kind.length?_ofPrefix {table : List Kind} {prev : Option Char} {s : List Char} {kind : Kind}
    {n : Nat} (h : Kind.first? table prev s = some (kind, n)) :
    kind.length? prev ((Lexeme.ofPrefix kind s n).chars ++ s.drop n) =
      some (Lexeme.ofPrefix kind s n).chars.length := by
  have hlength := (Kind.mem_of_first? h).2
  rw [Lexeme.chars_ofPrefix, List.take_append_drop, List.length_take,
    Nat.min_eq_left (Kind.length?_le hlength), hlength]

/-- A piece of a quoted text is what its kind takes from the text that starts with it. -/
theorem Closed.length?_of_eq_append {s : List Char} {body : List Lexeme} {behind : List Char}
    (h : Closed s body behind) : ∀ {before after : List Lexeme} {x : Lexeme},
      body = before ++ x :: after →
        x.kind.length? none (x.chars ++ (Lexeme.join after ++ behind)) = some x.chars.length := by
  induction h with
  | @close s n hfirst =>
      intro before after x hsplit
      cases before with
      | nil =>
          obtain ⟨rfl, rfl⟩ := List.cons.inj hsplit
          exact Kind.length?_ofPrefix hfirst
      | cons y before => simp at hsplit
  | @piece s kind n tail behind hfirst hkind htail ih =>
      intro before after x hsplit
      cases before with
      | nil =>
          obtain ⟨rfl, rfl⟩ := List.cons.inj hsplit
          have hlength := Kind.length?_ofPrefix hfirst
          rwa [← join_scanQuoted htail.scanQuoted_eq] at hlength
      | cons y before => exact ih (List.cons.inj hsplit).2

/-- The same for the lexemes of a step. -/
theorem Cut.exists_length? {prev prev' : Option Char} {s s' : List Char}
    {xs before after : List Lexeme} {x : Lexeme} (h : Cut prev s xs prev' s')
    (hsplit : xs = before ++ x :: after) :
    ∃ p, x.kind.length? p (x.chars ++ (Lexeme.join after ++ s')) = some x.chars.length := by
  cases before with
  | nil =>
      subst hsplit
      exact ⟨prev, (Kind.mem_of_first? h.first?_head).2⟩
  | cons y before =>
      cases h with
      | code hfirst hkind => simp at hsplit
      | quoted hfirst hbody =>
          exact ⟨none, (closed_of_scanQuoted hbody).length?_of_eq_append (List.cons.inj hsplit).2⟩

/-- **Every lexeme of a scan is what its kind takes** from the text that starts with it and goes on to
the end. -/
theorem exists_length?_of_scan {prev : Option Char} {s : List Char} :
    (scan prev s).obstacle = none → ∀ {before after : List Lexeme} {x : Lexeme},
      (scan prev s).lexemes = before ++ x :: after →
        ∃ p, x.kind.length? p (x.chars ++ Lexeme.join after) = some x.chars.length := by
  induction prev, s using scan_induction with
  | done => simp
  | cut prev s xs prev' s' hcut ih =>
      intro hscan before after x hsplit
      rcases List.append_eq_append_iff.1 hsplit with ⟨skipped, -, hrest⟩ | ⟨taken, hxs, hrest⟩
      · exact ih hscan hrest
      · cases taken with
        | nil => exact @ih hscan [] after x hrest.symm
        | cons y taken =>
            rw [List.cons_append, List.cons.injEq] at hrest
            obtain ⟨rfl, rfl⟩ := hrest
            rw [Lexeme.join_append, join_scan hscan]
            exact hcut.exists_length? hxs
  | stuck => simp
  | unclosed => simp

/-- The same for the tokens of a text. -/
theorem exists_length?_of_eq_append {source : String} {tokens before behind : List Token} {t : Token}
    (h : tokenize source = .ok tokens) (hsplit : tokens = before ++ t :: behind) :
    ∃ p, t.kind.length? p (t.chars ++ Lexeme.join (behind.map (·.toLexeme))) =
      some t.chars.length := by
  have hlexemes := map_toLexeme_of_tokenize h
  rw [hsplit, List.map_append, List.map_cons] at hlexemes
  exact exists_length?_of_scan (eq_layOut_of_tokenize h).2 hlexemes.symm

/-- The text from a token on is what the bytes before it leave of the source. -/
theorem dropBytes?_start_of_tokenize {source : String} {tokens before behind : List Token} {t : Token}
    (h : tokenize source = .ok tokens) (hsplit : tokens = before ++ t :: behind) :
    dropBytes? source.toList t.span.start =
      some (t.chars ++ Lexeme.join (behind.map (·.toLexeme))) := by
  obtain ⟨heq, hscan⟩ := eq_layOut_of_tokenize h
  have hlexemes := map_toLexeme_of_tokenize h
  rw [hsplit, List.map_append, List.map_cons] at hlexemes
  have hplace : (Lexeme.layOut (scan none source.toList).lexemes)[before.length]? = some t := by
    simp [← heq, hsplit]
  obtain ⟨before', behind', hxs, hlen, hstart, -⟩ :=
    Token.exists_of_getElem?_layOut hplace
  obtain ⟨rfl, hbehind⟩ := List.append_inj (hlexemes.trans hxs) (by simp [hlen])
  rw [hstart, ← join_scan hscan, ← hlexemes, Lexeme.join_append, Lexeme.join_cons, dropBytes?_append]

end QSource
