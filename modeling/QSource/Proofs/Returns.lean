/-
**Line terminators make no difference.**

A text may end its lines with line feeds alone or with a carriage return before each of them.  The
text is cut at the same places, the same delimiters nest, the same names stand for the same things,
and no rule counts the carriage returns.  So checking the two forms comes to the same error, or to
the same findings at the same tokens, lines and columns; only the bytes are others.

Main definitions:

* `QSource.Finding.SamePlace` — findings that agree in all but their bytes.

Main results:

* `QSource.Node.keepsWords_withReturns` — names and built-in words keep their texts;
* `QSource.tokens_analyze_map` — the annotations of a tree with carriage returns;
* `QSource.checkText_withReturns` — **line terminators make no difference to the checks**.
-/

import Mathlib.Data.List.Forall2
import QSource.Proofs.Lint.Returns
import QSource.Proofs.Scope.Relabel
import QSource.Proofs.Token.Lexer
import QSource.Proofs.Tree.Balance
import QSource.Proofs.Tree.Shape

set_option relaxedAutoImplicit false
set_option autoImplicit false

namespace QSource

open Text

/-- Findings of the same rule at the same token, line and column. -/
def Finding.SamePlace (f f' : Finding) : Prop :=
  f'.rule = f.rule ∧ f'.index = f.index ∧ f'.position = f.position

section

variable {spans : Nat → Span} {source : String} {tokens : List Token} {nodes : List Node}

/-! ### Trees -/

theorem Token.text_withReturns {t : Token} (h : '\n' ∉ t.text.toList) :
    (t.withReturns spans).text = t.text :=
  congrArg Lexeme.text (Lexeme.withReturns_of_not_mem h)

/-- Names and built-in words keep their texts. -/
theorem Node.keepsWords_withReturns (hparse : parse tokens = .ok nodes)
    (hline : ∀ t ∈ tokens, t.kind.holdsLines = false → '\n' ∉ t.text.toList) :
    ∀ x ∈ Node.all nodes, x.KeepsWords (Token.withReturns spans) := by
  intro x hx
  have hfits := fits_parse hparse x hx
  have hword : ∀ {form t}, x = .leaf form t → t.kind.holdsLines = false →
      (t.withReturns spans).text = t.text := by
    rintro form t rfl hkind
    refine Token.text_withReturns (hline t ?_ hkind)
    rw [← allTokens_parse hparse]
    exact Node.mem_allTokens_of_mem_all hx (by simp [Node.tokens])
  cases x with
  | leaf form t =>
      have hkind : t.kind.leafForm? = some form := hfits
      cases form with
      | identifier | keyword =>
          refine hword rfl ?_
          cases htoken : t.kind <;> simp [htoken, Kind.leafForm?, Kind.holdsLines] at hkind ⊢
      | _ => trivial
  | _ => trivial

/-- The annotated tokens of a tree with carriage returns. -/
theorem tokens_analyze_map (hparse : parse tokens = .ok nodes)
    (hline : ∀ t ∈ tokens, t.kind.holdsLines = false → '\n' ∉ t.text.toList) :
    (analyze (nodes.map (Node.map (Token.withReturns spans)))).tokens =
      (analyze nodes).tokens.map (AnnotatedToken.withReturns spans) := by
  have hout : outline (nodes.map (Node.map (Token.withReturns spans))) =
      (outline nodes).map (Token.withReturns spans) 0 0 :=
    Node.outlineAll_map (f := Token.withReturns spans) (d := 0) 0 (fun _ => rfl) (fun _ => rfl) none
      0 true false false nodes (Node.keepsWords_withReturns hparse hline)
  have hwords : ∀ m ∈ (outline nodes).marked, m.token.kind = .identifier →
      (m.token.withReturns spans).text = m.token.text := by
    intro m hm hkind
    refine Token.text_withReturns (hline _ ?_ (by rw [hkind]; rfl))
    rw [← allTokens_parse hparse, ← Node.token_outlineAll none 0 true false false nodes]
    exact List.mem_map_of_mem hm
  have hmap : AnnotatedToken.map (Token.withReturns spans) 0 =
      AnnotatedToken.withReturns spans := by
    funext t
    simp [AnnotatedToken.map, AnnotatedToken.withReturns]
  rw [analyze_eq_analysis, hout,
    Outline.analysis_map (f := Token.withReturns spans) 0 (fun _ => rfl) hwords, hmap]
  rfl

theorem ParseError.message_map {f : Token → Token} {e : ParseError}
    (hindex : (f e.token).index = e.token.index) (htext : (f e.token).text = e.token.text) :
    (e.map f).message = e.message := by
  have htoken : (e.map f).token = f e.token := rfl
  have hfault : (e.map f).fault = e.fault := rfl
  rw [ParseError.message_eq, ParseError.message_eq, htoken, hfault, hindex, htext]

/-- A finding with the bytes that are given for the number of its token. -/
def Finding.inBytes (spans : Nat → Span) (f : Finding) : Finding := { f with span := spans f.index }

/-! ### Texts -/

/-- The findings of a tree with carriage returns. -/
theorem findings_analyze_map (htokens : tokenize source = .ok tokens)
    (hparse : parse tokens = .ok nodes) (hreturn : '\r' ∉ source.toList)
    (hescape : ∀ t ∈ tokens, t.kind = .quotedEscape → '\n' ∉ t.text.toList)
    (limits : Thresholds) :
    findings limits (analyze (nodes.map (Node.map (Token.withReturns spans)))).tokens =
      (findings limits (analyze nodes).tokens).map (Finding.inBytes spans) := by
  have hline : ∀ t ∈ tokens, t.kind.holdsLines = false → '\n' ∉ t.text.toList :=
    fun _ => lineFeed_not_mem_text htokens
  rw [tokens_analyze_map hparse hline]
  refine findings_map (flagged_withReturns spans limits ?_ ?_) (fun _ _ => rfl) (fun _ _ => rfl)
  · intro t ht hmem
    exact hreturn (mem_source_of_mem_text htokens (toToken_mem_of_mem_analyze hparse ht) hmem)
  · intro t ht hkind
    have hmem := toToken_mem_of_mem_analyze hparse ht
    exact hkind.elim (hline _ hmem) (hescape _ hmem)

theorem checkText_of_tokenize (h : tokenize source = .ok tokens) (limits : Thresholds) :
    checkText limits source = match parse tokens with
      | .error e => .error (.parse e)
      | .ok nodes => .ok (findings limits (analyze nodes).tokens) := by
  cases hparse : parse tokens <;> simp only [checkText, parseText, h, hparse]

/-- **Line terminators make no difference to the checks.**  Take a text without carriage returns that
is cut into tokens, where no escape takes a line feed, and put a carriage return before each of its
line feeds.  Then checking the new text fails exactly if checking the old one does, with an error at
the token of the same number and in the same words; and otherwise the findings are the same, with
their rules, and so with their severities and messages, with the numbers of their tokens and with
their lines and columns.  If the new text has less than 2 ^ 32 bytes, both are cut into the same tokens
in words of 32 bits. -/
theorem checkText_withReturns (htokens : tokenize source = .ok tokens)
    (hreturn : '\r' ∉ source.toList)
    (hescape : ∀ t ∈ tokens, t.kind = .quotedEscape → '\n' ∉ t.text.toList)
    (limits : Thresholds) :
    let other := String.ofList (withReturns source.toList)
    (∀ e, checkText limits source = .error e → ∃ error error', e = .parse error ∧
      checkText limits other = .error (.parse error') ∧
      error'.token.index = error.token.index ∧ error'.message = error.message) ∧
    (∀ found, checkText limits source = .ok found → ∃ found',
      checkText limits other = .ok found' ∧ List.Forall₂ Finding.SamePlace found found') ∧
    (other.utf8ByteSize < UInt32.size →
      tokenize32? source = some (tokenize source) ∧ tokenize32? other = some (tokenize other)) := by
  intro other
  obtain ⟨spans, hother⟩ := exists_tokenize_withReturns htokens hreturn hescape
  have hline : ∀ t ∈ tokens, t.kind.holdsLines = false → '\n' ∉ t.text.toList :=
    fun _ => lineFeed_not_mem_text htokens
  have hparse := parse_map (f := Token.withReturns spans) (fun _ => rfl) tokens
  have hwords : other.utf8ByteSize < UInt32.size →
      tokenize32? source = some (tokenize source) ∧ tokenize32? other = some (tokenize other) := by
    intro hsize
    have hle := byteLength_le_withReturns source.toList
    rw [byteLength_toList, byteLength_eq_utf8ByteSize] at hle
    exact ⟨tokenize32?_eq (Nat.lt_of_le_of_lt hle hsize), tokenize32?_eq hsize⟩
  cases hnodes : parse tokens with
  | error error =>
      have hchecked : checkText limits source = .error (.parse error) := by
        rw [checkText_of_tokenize htokens, hnodes]
      have hchecked' : checkText limits other =
          .error (.parse (error.map (Token.withReturns spans))) := by
        rw [checkText_of_tokenize hother, hparse, hnodes]
      refine ⟨fun e he => ?_, fun found hfound => ?_, hwords⟩
      · rw [hchecked, Except.error.injEq] at he
        -- the token to blame is a delimiter, so its text stays
        obtain ⟨hindex, hkind, -⟩ := blamed_of_parse_eq_error (numbered_of_tokenize htokens)
          (closedQuotes_of_tokenize htokens) hnodes
        have htext : (error.token.withReturns spans).text = error.token.text := by
          refine Token.text_withReturns (hline _ (List.mem_of_getElem? hindex) ?_)
          cases htoken : error.token.kind <;>
            simp [htoken, Kind.isDelimiter, Kind.holdsLines] at hkind ⊢
        exact ⟨error, _, he.symm, hchecked', rfl, ParseError.message_map rfl htext⟩
      · exact absurd (hchecked.symm.trans hfound) (by simp)
  | ok nodes =>
      have hchecked : checkText limits source = .ok (findings limits (analyze nodes).tokens) := by
        rw [checkText_of_tokenize htokens, hnodes]
      have hchecked' : checkText limits other =
          .ok ((findings limits (analyze nodes).tokens).map (Finding.inBytes spans)) := by
        rw [checkText_of_tokenize hother, hparse, hnodes]
        exact congrArg Except.ok (findings_analyze_map htokens hnodes hreturn hescape limits)
      refine ⟨fun e he => absurd (hchecked.symm.trans he) (by simp), fun found hfound => ?_, hwords⟩
      rw [← Except.ok.inj (hchecked.symm.trans hfound)]
      refine ⟨_, hchecked', ?_⟩
      rw [List.forall₂_map_right_iff, List.forall₂_same]
      exact fun f _ => ⟨rfl, rfl, rfl⟩

end

/-- A quoted text and a comment over lines: the first line is as long as allowed, also with its
carriage return, and a delimiter in the comment counts for nothing. In the second text a bracket
closes a parenthesis. -/
theorem checkText_withReturns_comment :
    let limits : Thresholds := { lineLength := 4 }
    let source := "a:\"x\ny\\n\"\n/\n(\n\\\nbc:12\n"
    let unbalanced := "f:(\n1]"
    (∃ found found', checkText limits source = .ok found ∧
      checkText limits (String.ofList (withReturns source.toList)) = .ok found' ∧
      List.Forall₂ Finding.SamePlace found found' ∧
      tokenize32? (String.ofList (withReturns source.toList)) =
        some (tokenize (String.ofList (withReturns source.toList))) ∧
      found.map (fun f => (f.rule, f.index, f.position)) =
        [(.unusedVar, 0, ⟨0, 0⟩), (.lineLength, 9, ⟨5, 0⟩), (.unusedVar, 9, ⟨5, 0⟩)]) ∧
    ∃ error error', checkText limits unbalanced = .error (.parse error) ∧
      checkText limits (String.ofList (withReturns unbalanced.toList)) = .error (.parse error') ∧
      error'.token.index = error.token.index ∧ error'.message = error.message := by
  intro limits source unbalanced
  have htokens : tokenize source = .ok (Lexeme.layOut [⟨.identifier, "a"⟩, ⟨.colon, ":"⟩,
      ⟨.openQuote, "\""⟩, ⟨.quotedText, "x\ny"⟩, ⟨.quotedEscape, "\\n"⟩, ⟨.closeQuote, "\""⟩,
      ⟨.lineBreak, "\n"⟩, ⟨.comment .block, "/\n(\n\\"⟩, ⟨.lineBreak, "\n"⟩, ⟨.identifier, "bc"⟩,
      ⟨.colon, ":"⟩, ⟨.literal .number, "12"⟩, ⟨.lineBreak, "\n"⟩]) := by decide +kernel
  have hunbalanced : tokenize unbalanced = .ok (Lexeme.layOut [⟨.identifier, "f"⟩, ⟨.colon, ":"⟩,
      ⟨.opening .paren, "("⟩, ⟨.lineBreak, "\n"⟩, ⟨.literal .number, "1"⟩,
      ⟨.closing .bracket, "]"⟩]) := by decide +kernel
  have hfound : checkText limits source = .ok [⟨.unusedVar, 0, ⟨0, 1⟩, ⟨0, 0⟩⟩,
      ⟨.lineLength, 9, ⟨16, 18⟩, ⟨5, 0⟩⟩, ⟨.unusedVar, 9, ⟨16, 18⟩, ⟨5, 0⟩⟩] := by decide +kernel
  have herror : checkText limits unbalanced =
      .error (.parse ⟨.unmatched, ⟨⟨.opening .paren, "("⟩, 2, ⟨2, 3⟩, ⟨0, 2⟩⟩⟩) := by decide +kernel
  constructor
  · obtain ⟨-, hsame, hwords⟩ :=
      checkText_withReturns htokens (by decide +kernel) (by decide +kernel) limits
    obtain ⟨found', hother, hplaces⟩ := hsame _ hfound
    exact ⟨_, found', hfound, hother, hplaces, (hwords (by decide +kernel)).2, rfl⟩
  · obtain ⟨error, error', he, hother, hindex, hmessage⟩ :=
      (checkText_withReturns hunbalanced (by decide +kernel) (by decide +kernel) limits).1 _ herror
    exact ⟨error, error', herror.trans (congrArg _ he), hother, hindex, hmessage⟩

end QSource
