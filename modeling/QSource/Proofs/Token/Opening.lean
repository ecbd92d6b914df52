/-
**Where quoted texts are opened.**

A scan stands in code behind each of its steps, and where it then meets a quote it opens a quoted text.
What becomes of it is decided by the text behind the quote alone: it is closed by the first quote with
an even number of backslashes before it, and if there is none the scan ends with an error at the
opening quote.

Main definitions:

* `QSource.Reaches` — a scan comes to stand before a part of its text, in code;
* `QSource.OpensQuote` — **a scan opens a quoted text**;
* `QSource.ReadByParity` — what becomes of the text behind an opening quote.

Main results:

* `QSource.readByParity_of_opensQuote` — a quoted text ends where it is closed, or not at all;
* `QSource.exists_opensQuote_of_unterminated` — no other text is unterminated;
* `QSource.quotedTexts_of_tokenize` — **quoted texts are delimited by the parity of backslashes**.
-/

import QSource.Proofs.Token.Lexer
import QSource.Proofs.Token.Parity
import QSource.Proofs.Token.Readings

set_option relaxedAutoImplicit false
set_option autoImplicit false

namespace QSource

open Text

/-! ### Opening quotes -/

/-- **A scan of the text comes to stand** before `s`, in code, behind the lexemes `xs` and with the
character `prev` before it. -/
inductive Reaches (source : List Char) : List Lexeme → Option Char → List Char → Prop
  | start : Reaches source [] none source
  | step {xs ys : List Lexeme} {prev prev' : Option Char} {s s' : List Char}
      (h : Reaches source xs prev s) (hcut : Cut prev s ys prev' s') :
      Reaches source (xs ++ ys) prev' s'

/-- **A scan of the text opens a quoted text** behind the lexemes `xs`: the first kind that fits where it
stands is the opening quote, and `s` is what stands behind that. -/
def OpensQuote (source : String) (xs : List Lexeme) (s : List Char) : Prop :=
  ∃ prev, Reaches source.toList xs prev ('"' :: s) ∧
    Kind.first? codeKinds prev ('"' :: s) = some (.openQuote, 1)

/-- **What becomes of the text `s` behind an opening quote**, which stands behind the lexemes `xs`.  It is
cut up to the first quote that closes it; if none does, there is an error at the opening quote. -/
structure ReadByParity (source : String) (xs : List Lexeme) (s : List Char) : Prop where
  source_eq : source.toList = Lexeme.join xs ++ '"' :: s
  closed : (∃ body behind, ClosesAt s body behind) → ∃ pieces ys behind,
    (scan none source.toList).lexemes =
      xs ++ ⟨.openQuote, "\""⟩ :: (pieces ++ ⟨.closeQuote, "\""⟩ :: ys) ∧
    ClosesFirst s (Lexeme.join pieces) behind ∧ WellCut s pieces
  unclosed : (∀ body behind, ¬ ClosesAt s body behind) → tokenize source =
    .error ⟨.unterminatedLiteral, byteLength (Lexeme.join xs),
      positionAt source.toList (byteLength (Lexeme.join xs))⟩

namespace Reaches

variable {source s : List Char} {xs : List Lexeme} {prev : Option Char}

theorem join_append (h : Reaches source xs prev s) : source = Lexeme.join xs ++ s := by
  induction h with
  | start => rfl
  | step h hcut ih => rw [ih, Lexeme.join_append, List.append_assoc, hcut.join_append]

theorem scan_eq (h : Reaches source xs prev s) :
    scan none source = (scan prev s).prepend xs := by
  induction h with
  | start => rfl
  | step h hcut ih => rw [ih, hcut.scan_eq, Scan.prepend, Scan.prepend, Scan.prepend, List.append_assoc]

end Reaches

section

variable {source : String} {xs : List Lexeme} {s : List Char}

/-- **A quoted text ends where it is closed, or not at all.** -/
theorem readByParity_of_opensQuote (h : OpensQuote source xs s) : ReadByParity source xs s := by
  obtain ⟨prev, hreaches, hfirst⟩ := h
  constructor
  case source_eq => exact hreaches.join_append
  case closed =>
    rintro ⟨body, behind, hcloses⟩
    cases hbody : scanQuoted s with
    | none => exact absurd hcloses (not_closesAt_of_scanQuoted hbody body behind)
    | some found =>
        obtain ⟨zs, behind'⟩ := found
        obtain ⟨pieces, rfl, hclosesFirst, hcut⟩ := closesFirst_of_scanQuoted hbody
        have hstep := (Cut.quoted hfirst hbody).scan_eq
        refine ⟨pieces, (scan (some '"') behind').lexemes, behind', ?_, hclosesFirst, hcut⟩
        rw [hreaches.scan_eq, hstep]
        simp [Scan.prepend, Lexeme.ofPrefix]
  case unclosed =>
    intro hnone
    have hbody : scanQuoted s = none := by
      cases hbody : scanQuoted s with
      | none => rfl
      | some found =>
          obtain ⟨pieces, -, hclosesFirst, -⟩ := closesFirst_of_scanQuoted hbody
          exact absurd hclosesFirst.toClosesAt (hnone _ _)
    have hscan : scan none source.toList = ⟨xs, some .unterminatedLiteral⟩ := by
      rw [hreaches.scan_eq, scan_unclosed hfirst hbody]
      simp [Scan.prepend]
    have hposition : positionAt source.toList (byteLength (Lexeme.join xs)) =
        Position.origin.after (Lexeme.join xs) := by
      rw [hreaches.join_append, positionAt_byteLength]
    rw [tokenize, hscan, hposition]

end

/-! ### Errors and tokens -/

section

variable {source : List Char}

/-- A scan that ends for want of a closing quote has opened a quoted text that it does not read to an
end. -/
theorem exists_unclosed_of_scan (prev : Option Char) (s : List Char) :
    ∀ xs, Reaches source xs prev s → (scan prev s).obstacle = some .unterminatedLiteral →
      ∃ prev' s', Reaches source (xs ++ (scan prev s).lexemes) prev' ('"' :: s') ∧
        Kind.first? codeKinds prev' ('"' :: s') = some (.openQuote, 1) ∧ scanQuoted s' = none := by
  induction prev, s using scan_induction with
  | done => simp
  | cut prev s ys prev' s' hcut ih =>
      intro xs hreaches hobstacle
      have hrest := ih (xs ++ ys) (hreaches.step hcut) hobstacle
      rwa [List.append_assoc] at hrest
  | stuck => simp
  | unclosed prev s n hfirst hbody =>
      intro xs hreaches _
      obtain ⟨rfl, rest, rfl⟩ := exists_of_openQuote hfirst
      exact ⟨prev, rest, by rwa [List.append_nil], hfirst, hbody⟩

/-- An opening quote among the lexemes of a scan is read where the scan stands behind those before
it. -/
theorem exists_reaches_of_openQuote (prev : Option Char) (s : List Char) :
    ∀ xs before x behind, Reaches source xs prev s →
      (scan prev s).lexemes = before ++ x :: behind → x.kind = .openQuote →
      ∃ prev' s', Reaches source (xs ++ before) prev' ('"' :: s') ∧
        Kind.first? codeKinds prev' ('"' :: s') = some (.openQuote, 1) := by
  induction prev, s using scan_induction with
  | done => simp
  | cut prev s ys prev' s' hcut ih =>
      intro xs before x behind hreaches hsplit hkind
      rw [Scan.prepend] at hsplit
      rcases List.append_eq_append_iff.1 hsplit with ⟨later, rfl, hrest⟩ | ⟨later, hys, hrest⟩
      · have hfound := ih (xs ++ ys) later x behind (hreaches.step hcut) hrest hkind
        rwa [List.append_assoc] at hfound
      · cases later with
        | nil =>
            have hfound := ih (xs ++ ys) [] x behind (hreaches.step hcut) hrest.symm hkind
            rwa [List.append_nil, hys, List.append_nil] at hfound
        | cons y later =>
            -- the quote is a lexeme of this step, and only its first one is none of a quoted text
            obtain ⟨rfl, -⟩ := List.cons.inj hrest
            subst hys
            cases before with
            | nil =>
                have hfirst := hcut.first?_head
                rw [← List.append_assoc, ← Lexeme.join_cons, hkind] at hfirst
                have hs : Lexeme.join (x :: later) ++ s' = s := hcut.join_append
                rw [hs] at hfirst
                obtain ⟨hlength, rest, rfl⟩ := exists_of_openQuote hfirst
                rw [hlength] at hfirst
                exact ⟨prev, rest, by rwa [List.append_nil], hfirst⟩
            | cons y before =>
                have hnot := hcut.notMem_codeKinds (List.mem_append_right before List.mem_cons_self)
                exact absurd (hkind ▸ by decide : x.kind ∈ codeKinds) hnot
  | stuck => simp
  | unclosed => simp

end

/-- **A text is unterminated only where no quote closes it.** -/
theorem exists_opensQuote_of_unterminated {source : String} {e : LexError}
    (h : tokenize source = .error e) (hobstacle : e.obstacle = .unterminatedLiteral) :
    ∃ xs s, OpensQuote source xs s ∧ (∀ body behind, ¬ ClosesAt s body behind) ∧
      e.offset = byteLength (Lexeme.join xs) := by
  obtain ⟨before, behind, -, hoffset, -, rfl, hscan⟩ := exists_of_tokenize_eq_error h
  rw [hobstacle] at hscan
  obtain ⟨prev, s, hreaches, hfirst, hbody⟩ :=
    exists_unclosed_of_scan none source.toList [] .start hscan
  exact ⟨_, s, ⟨prev, hreaches, hfirst⟩, not_closesAt_of_scanQuoted hbody, hoffset.symm⟩

/-- **The opening quotes of a text are those that its scan opens quoted texts with.** -/
theorem exists_opensQuote_of_tokenize {source : String} {tokens : List Token}
    (h : tokenize source = .ok tokens) {t : Token} (ht : t ∈ tokens) (hkind : t.kind = .openQuote) :
    ∃ xs s, OpensQuote source xs s ∧ t.span.start = byteLength (Lexeme.join xs) := by
  obtain ⟨rfl, -⟩ := eq_layOut_of_tokenize h
  obtain ⟨i, hi⟩ := List.mem_iff_getElem?.1 ht
  obtain ⟨before, behind, hxs, -, hstart, -, -⟩ := Token.exists_of_getElem?_layOut hi
  obtain ⟨prev, s, hreaches, hfirst⟩ :=
    exists_reaches_of_openQuote none source.toList [] before _ behind .start hxs hkind
  exact ⟨before, s, ⟨prev, hreaches, hfirst⟩, hstart⟩

/-- **Quoted texts are delimited by the parity of backslashes.**  Wherever a scan opens a quoted text, the
first quote with an even number of backslashes before it closes the text, and what stands between the
two is cut into runs of plain characters and runs of escapes that take turns; without such a quote there
is an error at the opening quote, and no other text is unterminated.  The opening quotes among the tokens
of a text are the places where its scan opens quoted texts.  All this is said of numbers without a bound; a
text of less than 2 ^ 32 bytes has the same tokens in words of 32 bits. -/
theorem quotedTexts_of_tokenize (source : String) :
    (∀ xs s, OpensQuote source xs s → ReadByParity source xs s) ∧
      (∀ e, tokenize source = .error e → e.obstacle.message = "unterminated char literal" →
        ∃ xs s, OpensQuote source xs s ∧ (∀ body behind, ¬ ClosesAt s body behind) ∧
          e.offset = byteLength (Lexeme.join xs)) ∧
      (∀ tokens, tokenize source = .ok tokens → ∀ t ∈ tokens, t.kind = .openQuote →
        ∃ xs s, OpensQuote source xs s ∧ t.span.start = byteLength (Lexeme.join xs)) ∧
      (source.utf8ByteSize < UInt32.size → tokenize32? source = some (tokenize source)) := by
  refine ⟨fun xs s => readByParity_of_opensQuote, fun e he hmessage => ?_, fun tokens htokens t =>
    exists_opensQuote_of_tokenize htokens, tokenize32?_eq⟩
  refine exists_opensQuote_of_unterminated he ?_
  cases hobstacle : e.obstacle with
  | unterminatedLiteral => rfl
  | unexpectedCharacter => simp [hobstacle, Obstacle.message] at hmessage

/-- In `"a\"\101b\\";` the second quote is taken by an escape and the third one is not, for it stands behind
two backslashes; in `b:"a\"` there is no other quote than the one that is taken. -/
theorem quotedTexts_of_tokenize_escapes :
    let closed := "\"a\\\"\\101b\\\\\";"
    let s := "a\\\"\\101b\\\\\";".toList
    let tokens := Lexeme.layOut [⟨.openQuote, "\""⟩, ⟨.quotedText, "a"⟩, ⟨.quotedEscape, "\\\"\\101"⟩,
      ⟨.quotedText, "b"⟩, ⟨.quotedEscape, "\\\\"⟩, ⟨.closeQuote, "\""⟩, ⟨.semicolon, ";"⟩]
    let unclosed := "b:\"a\\\""
    let e : LexError := ⟨.unterminatedLiteral, 2, ⟨0, 2⟩⟩
    (OpensQuote closed [] s ∧ ClosesAt s "a\\\"\\101b\\\\".toList [';'] ∧ ReadByParity closed [] s) ∧
      (tokenize closed = .ok tokens ∧ tokenize32? closed = some (.ok tokens) ∧
        ∃ xs s, OpensQuote closed xs s ∧ 0 = byteLength (Lexeme.join xs)) ∧
      tokenize unclosed = .error e ∧ ∃ xs s, OpensQuote unclosed xs s ∧
        (∀ body behind, ¬ ClosesAt s body behind) ∧ 2 = byteLength (Lexeme.join xs) := by
  intro closed s tokens unclosed e
  have hsource : closed.toList = '"' :: s := by decide +kernel
  have hopens : OpensQuote closed [] s := ⟨none, hsource ▸ .start, by decide +kernel⟩
  have htokens : tokenize closed = .ok tokens := by decide +kernel
  have herror : tokenize unclosed = .error e := by decide +kernel
  obtain ⟨hread, -, hquotes, hwords⟩ := quotedTexts_of_tokenize closed
  refine ⟨⟨hopens, ⟨by decide +kernel, by decide +kernel⟩, hread [] s hopens⟩,
    ⟨htokens, (hwords (by decide)).trans (congrArg some htokens), ?_⟩, herror,
    (quotedTexts_of_tokenize unclosed).2.1 e herror rfl⟩
  exact hquotes tokens htokens _ List.mem_cons_self rfl

end QSource
