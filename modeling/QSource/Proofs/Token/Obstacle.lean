/-
**Where a scan gets stuck.**

A text made of characters of code is never in the way of a scan by itself: the only thing that can
go wrong is a quoted text that is not closed.  Any other character has its place in comments,
commands and quotes, and stops the scan where it stands anywhere else.

Main results:

* `QSource.exists_of_unexpectedCharacter` — a scan is stuck at a character that is none of code;
* `QSource.codeChars_tokenize` — **what can stop a scan, where other characters stand, and where an
  error is reported**.
-/

import QSource.Proofs.Token.Cuts
import QSource.Proofs.Token.Scan

set_option relaxedAutoImplicit false
set_option autoImplicit false

namespace QSource

open Text

/-! ### Stuck scans -/

/-- A step gives its lexemes the text up to where it goes on. -/
theorem Cut.join_append {prev prev' : Option Char} {s s' : List Char} {xs : List Lexeme}
    (h : Cut prev s xs prev' s') : Lexeme.join xs ++ s' = s := by
  cases h with
  | code hfirst hkind => simp
  | quoted hfirst hbody =>
      rw [Lexeme.join_cons, Lexeme.chars_ofPrefix, List.append_assoc, join_scanQuoted hbody,
        List.take_append_drop]

/-- If no kind of token fits, the text starts with a character that is none of code. -/
theorem isCodeChar_eq_false_of_first? {prev : Option Char} {c : Char} {rest : List Char}
    (h : Kind.first? codeKinds prev (c :: rest) = none) : isCodeChar c = false := by
  rw [Bool.eq_false_iff]
  intro hc
  obtain ⟨kind, hkind, hsome⟩ := Kind.exists_length?_of_isCodeChar prev rest hc
  rw [Kind.first?_eq_none.1 h kind hkind] at hsome
  simp at hsome

/-- **A scan is stuck at a character that is none of code.** -/
theorem exists_of_unexpectedCharacter (prev : Option Char) (s : List Char) :
    (scan prev s).obstacle = some .unexpectedCharacter →
      ∃ c rest, s = Lexeme.join (scan prev s).lexemes ++ c :: rest ∧ isCodeChar c = false := by
  induction prev, s using scan_induction with
  | done => simp
  | cut prev s xs prev' s' hcut ih =>
      intro h
      obtain ⟨c, rest, hs', hc⟩ := ih h
      refine ⟨c, rest, ?_, hc⟩
      rw [Scan.prepend, Lexeme.join_append, List.append_assoc, ← hs', hcut.join_append]
  | stuck prev c rest hfirst =>
      intro _
      exact ⟨c, rest, rfl, isCodeChar_eq_false_of_first? hfirst⟩
  | unclosed => simp

/-- A token that is not free holds characters of code only. -/
theorem isCodeChar_of_mem_scan {prev : Option Char} {s : List Char} {x : Lexeme}
    (hx : x ∈ (scan prev s).lexemes) (hfree : x.kind.isFree = false) :
    ∀ c ∈ x.chars, isCodeChar c = true := by
  obtain ⟨prev', s', n, hlength, hchars⟩ := exists_of_mem_scan prev s x hx
  rw [hchars]
  exact Kind.isCodeChar_of_length? hfree hlength

/-! ### Errors and tokens of a text -/

/-- An error stands behind the lexemes of the scan, at the position of its byte. -/
theorem exists_of_tokenize_eq_error {source : String} {e : LexError}
    (h : tokenize source = .error e) :
    ∃ before behind, source.toList = before ++ behind ∧ byteLength before = e.offset ∧
      e.position = Position.origin.after before ∧
      before = Lexeme.join (scan none source.toList).lexemes ∧
      (scan none source.toList).obstacle = some e.obstacle := by
  obtain ⟨behind, hsource, -⟩ := join_scan_prefix none source.toList
  simp only [tokenize] at h
  split at h
  · simp at h
  · next obstacle hobstacle =>
      obtain rfl := Except.error.inj h
      exact ⟨_, behind, hsource, rfl, rfl, rfl, hobstacle⟩

section

variable {source : String}

/-- A character at which no token can start is none of code. -/
theorem exists_of_tokenize_unexpectedCharacter {e : LexError} (h : tokenize source = .error e)
    (hobstacle : e.obstacle = .unexpectedCharacter) :
    ∃ before c behind, source.toList = before ++ c :: behind ∧ byteLength before = e.offset ∧
      isCodeChar c = false := by
  obtain ⟨before, behind, hsource, hoffset, -, rfl, hscan⟩ := exists_of_tokenize_eq_error h
  rw [hobstacle] at hscan
  obtain ⟨c, rest, hc, hcode⟩ := exists_of_unexpectedCharacter none source.toList hscan
  exact ⟨_, c, rest, hc, hoffset, hcode⟩

/-- A character that is none of code lies in a token that may hold any. -/
theorem exists_isFree_of_tokenize {tokens : List Token} (h : tokenize source = .ok tokens)
    {before behind : List Char} {c : Char} (hsource : source.toList = before ++ c :: behind)
    (hcode : isCodeChar c = false) :
    ∃ t ∈ tokens, t.kind.isFree = true ∧ t.span.start ≤ byteLength before ∧
      byteLength before + c.utf8Size ≤ t.span.stop := by
  obtain ⟨rfl, hnone⟩ := eq_layOut_of_tokenize h
  obtain ⟨t, ht, hc, hstart, hstop⟩ :=
    Token.exists_mem_place 0 0 Position.origin ((join_scan hnone).trans hsource)
  rw [Nat.zero_add] at hstart hstop
  refine ⟨t, ht, ?_, hstart, hstop⟩
  by_contra hfree
  have hx : t.toLexeme ∈ (scan none source.toList).lexemes := by
    rw [← Token.map_toLexeme_place 0 0 Position.origin (scan none source.toList).lexemes]
    exact List.mem_map_of_mem ht
  have hcode' := isCodeChar_of_mem_scan hx (by simpa using hfree) c hc
  simp [hcode] at hcode'

/-- An error is reported at the position that its byte has in the text. -/
theorem position_of_tokenize_eq_error {e : LexError} (h : tokenize source = .error e) :
    e.position = positionAt source.toList e.offset := by
  obtain ⟨before, behind, hsource, hoffset, hposition, -, -⟩ := exists_of_tokenize_eq_error h
  rw [hposition, hsource, ← hoffset, positionAt_byteLength]

/-- The offset, the line and the column of an error do not exceed the length of the text. -/
theorem le_of_tokenize_eq_error {e : LexError} (h : tokenize source = .error e) :
    e.offset ≤ source.utf8ByteSize ∧ e.position.line ≤ source.utf8ByteSize ∧
      e.position.column ≤ source.utf8ByteSize := by
  obtain ⟨before, behind, hsource, hoffset, hposition, -, -⟩ := exists_of_tokenize_eq_error h
  have htotal : source.utf8ByteSize = byteLength before + byteLength behind := by
    rw [← byteLength_append, ← hsource, byteLength_eq_utf8ByteSize, String.ofList_toList]
  have hlength := length_le_byteLength before
  have hline : before.count '\n' ≤ before.length := List.count_le_length
  have hcolumn := length_lastLine_le before
  rw [hposition, after_origin, ← hoffset]
  dsimp only
  omega

end

/-- **Characters of code never stop a scan.**  A character that no token can start with is none of
code; in a text that is cut into tokens such a character lies in a comment, a command or a piece of
quoted text; so a text made of characters of code can only fail for want of a closing quote.  An
error is reported at the position that its byte has in the text, and its numbers fit into 32 bits if
the length of the text does. -/
theorem codeChars_tokenize (source : String) :
    (∀ e, tokenize source = .error e → e.obstacle = .unexpectedCharacter →
      ∃ before c behind, source.toList = before ++ c :: behind ∧ byteLength before = e.offset ∧
        isCodeChar c = false) ∧
    (∀ tokens, tokenize source = .ok tokens →
      ∀ before c behind, source.toList = before ++ c :: behind → isCodeChar c = false →
        ∃ t ∈ tokens, t.kind.isFree = true ∧ t.span.start ≤ byteLength before ∧
          byteLength before + c.utf8Size ≤ t.span.stop) ∧
    ((∀ c ∈ source.toList, isCodeChar c = true) →
      ∀ e, tokenize source = .error e → e.obstacle = .unterminatedLiteral) ∧
    ∀ e, tokenize source = .error e →
      e.position = positionAt source.toList e.offset ∧
      e.position = positionIn (lineStarts source.toList) source.toList e.offset ∧
      (source.utf8ByteSize < UInt32.size →
        e.offset < UInt32.size ∧ e.position.line < UInt32.size ∧
          e.position.column < UInt32.size) := by
  refine ⟨fun e => exists_of_tokenize_unexpectedCharacter, ?_, ?_, ?_⟩
  · intro tokens htokens before c behind hsource hcode
    exact exists_isFree_of_tokenize htokens hsource hcode
  · intro hall e he
    cases hobstacle : e.obstacle with
    | unterminatedLiteral => rfl
    | unexpectedCharacter =>
        obtain ⟨before, c, behind, hsource, -, hcode⟩ :=
          exists_of_tokenize_unexpectedCharacter he hobstacle
        have hcode' := hall c (by simp [hsource])
        simp [hcode] at hcode'
  · intro e he
    have hposition := position_of_tokenize_eq_error he
    refine ⟨hposition, hposition.trans (positionIn_lineStarts _ _).symm, ?_⟩
    intro hsize
    obtain ⟨hoffset, hline, hcolumn⟩ := le_of_tokenize_eq_error he
    exact ⟨by omega, by omega, by omega⟩

/-- A character of two bytes stops a scan at the start of a line, and has its place in quotes; and a
text of nothing but code fails at the quote that is not closed. -/
theorem codeChars_tokenize_section :
    (tokenize "a:1\n§" = .error ⟨.unexpectedCharacter, 4, ⟨1, 0⟩⟩ ∧
      ∃ before c behind, "a:1\n§".toList = before ++ c :: behind ∧ byteLength before = 4 ∧
        isCodeChar c = false) ∧
    (∃ tokens, tokenize "\"§\"" = .ok tokens ∧ isCodeChar '§' = false ∧
      ∃ t ∈ tokens, t.kind.isFree = true ∧ t.span.start ≤ 1 ∧ 1 + '§'.utf8Size ≤ t.span.stop) ∧
    (tokenize "a\n b:\"c" = .error ⟨.unterminatedLiteral, 5, ⟨1, 3⟩⟩ ∧
      (∀ c ∈ "a\n b:\"c".toList, isCodeChar c = true) ∧
      (⟨1, 3⟩ : Position) = positionAt "a\n b:\"c".toList 5) := by
  have hsign : tokenize "a:1\n§" = .error ⟨.unexpectedCharacter, 4, ⟨1, 0⟩⟩ := by decide +kernel
  have hquoted : tokenize "\"§\"" = .ok (Lexeme.layOut [⟨.openQuote, "\""⟩, ⟨.quotedText, "§"⟩,
    ⟨.closeQuote, "\""⟩]) := by decide +kernel
  have hopen : tokenize "a\n b:\"c" = .error ⟨.unterminatedLiteral, 5, ⟨1, 3⟩⟩ := by decide +kernel
  refine ⟨⟨hsign, (codeChars_tokenize _).1 _ hsign rfl⟩, ⟨_, hquoted, by decide, ?_⟩, hopen,
    List.all_eq_true.1 (by decide +kernel), ((codeChars_tokenize _).2.2.2 _ hopen).1⟩
  exact (codeChars_tokenize _).2.1 _ hquoted ['"'] '§' ['"'] (by decide +kernel) (by decide)

end QSource
