/-
**Findings stand at tokens of the text.**

Checking a text cuts it into tokens, nests them, annotates them and lets the rules choose among them.
None of these stages moves a token, so the place of a finding is the place that cutting the text gave
to the token with its number.

Main results:

* `QSource.exists_of_mem_checkText` — a finding carries the place of the token with its number;
* `QSource.places_of_tokenize` — **the places of tokens and findings are those of the text**.
-/

import QSource.Check
import QSource.Proofs.Lint.Flagged
import QSource.Proofs.Scope.Outline
import QSource.Proofs.Token.Scan

set_option relaxedAutoImplicit false
set_option autoImplicit false

namespace QSource

open Text

/-- A text that has a tree is cut into the tokens of that tree. -/
theorem tokenize_of_parseText {source : String} {nodes : List Node}
    (h : parseText source = .ok nodes) : tokenize source = .ok (Node.allTokens nodes) := by
  rw [parseText] at h
  cases htokens : tokenize source with
  | error e => simp [htokens] at h
  | ok tokens =>
      simp only [htokens] at h
      cases hnodes : parse tokens with
      | error e => simp [hnodes] at h
      | ok nodes' =>
          simp only [hnodes, Except.ok.injEq] at h
          rw [← h, allTokens_parse hnodes]

/-- These tokens nest to the tree. -/
theorem parse_of_parseText {source : String} {nodes : List Node}
    (h : parseText source = .ok nodes) : parse (Node.allTokens nodes) = .ok nodes := by
  have htokens := tokenize_of_parseText h
  rw [parseText, htokens] at h
  cases hnodes : parse (Node.allTokens nodes) with
  | error e => simp [hnodes] at h
  | ok nodes' => simpa [hnodes] using h

/-- The findings of a text are those of its tree. -/
theorem exists_parseText_of_checkText {limits : Thresholds} {source : String} {found : List Finding}
    (h : checkText limits source = .ok found) :
    ∃ nodes, parseText source = .ok nodes ∧ findings limits (analyze nodes).tokens = found := by
  rw [checkText] at h
  cases hnodes : parseText source with
  | error e => simp [hnodes] at h
  | ok nodes => exact ⟨nodes, rfl, by simpa [hnodes] using h⟩

/-- A finding carries the place of the token with its number. -/
theorem exists_of_mem_checkText {limits : Thresholds} {source : String} {tokens : List Token}
    {found : List Finding} (htokens : tokenize source = .ok tokens)
    (h : checkText limits source = .ok found) {f : Finding} (hf : f ∈ found) :
    ∃ t, tokens[f.index]? = some t ∧ f.span = t.span ∧ f.position = t.position := by
  obtain ⟨nodes, hnodes, rfl⟩ := exists_parseText_of_checkText h
  obtain ⟨t, ht, hfinding⟩ := exists_of_mem_findings hf
  have hall : Node.allTokens nodes = tokens := by
    have hsame := (tokenize_of_parseText hnodes).symm.trans htokens
    rwa [Except.ok.injEq] at hsame
  have hmem : t.toToken ∈ tokens := by
    rw [← hall, ← toToken_analyze]
    exact List.mem_map_of_mem ht
  have hindex := (numbered_of_tokenize htokens).getElem?_index hmem
  rw [hfinding]
  exact ⟨t.toToken, hindex, rfl, rfl⟩

/-- **The places of tokens and findings are those of the text**: the tokens tile it, all offsets,
lines and columns fit into 32 bits if its length does, and a finding stands at an existing token,
with the bytes of that token and the position at which these start. -/
theorem places_of_tokenize {source : String} {tokens : List Token}
    (h : tokenize source = .ok tokens) :
    Token.Tiling source tokens ∧
      (source.utf8ByteSize < UInt32.size → ∀ t ∈ tokens,
        t.span.stop < UInt32.size ∧ t.position.line < UInt32.size ∧
          t.position.column < UInt32.size) ∧
      ∀ limits found, checkText limits source = .ok found → ∀ f ∈ found,
        ∃ t, tokens[f.index]? = some t ∧ f.span = t.span ∧
          f.position = positionAt source.toList t.span.start ∧
          f.position = positionIn (lineStarts source.toList) source.toList t.span.start := by
  have htiling := tiling_of_tokenize h
  refine ⟨htiling, ?_, ?_⟩
  · intro hsize t ht
    obtain ⟨hline, hcolumn⟩ := htiling.position_le ht
    have hstart := htiling.not_empty t ht
    have hstop := htiling.stop_le t ht
    omega
  · intro limits found hfound f hf
    obtain ⟨t, ht, hspan, hposition⟩ := exists_of_mem_checkText h hfound hf
    have hmem := List.mem_of_getElem? ht
    exact ⟨t, ht, hspan, hposition.trans (htiling.walked t hmem),
      hposition.trans (htiling.looked_up t hmem)⟩

/-- An assignment whose text in quotes goes over two lines, holds a character of two bytes, and ends
with an escape that stands for nothing. -/
theorem places_of_tokenize_twoLines :
    let source := "a:\"é\n\\q\""
    let tokens := Lexeme.layOut [⟨.identifier, "a"⟩, ⟨.colon, ":"⟩, ⟨.openQuote, "\""⟩,
      ⟨.quotedText, "é\n"⟩, ⟨.quotedEscape, "\\q"⟩, ⟨.closeQuote, "\""⟩]
    let found : List Finding := [⟨.unusedVar, 0, ⟨0, 1⟩, ⟨0, 0⟩⟩, ⟨.invalidEscape, 4, ⟨6, 8⟩, ⟨1, 0⟩⟩]
    tokenize source = .ok tokens ∧ checkText {} source = .ok found ∧
      Token.Tiling source tokens ∧ (∀ t ∈ tokens, t.span.stop < UInt32.size) ∧
      ∀ f ∈ found, ∃ t, tokens[f.index]? = some t ∧ f.span = t.span ∧
        f.position = positionAt source.toList t.span.start := by
  intro source tokens found
  have htokens : tokenize source = .ok tokens := by decide +kernel
  have hfound : checkText {} source = .ok found := by decide +kernel
  obtain ⟨htiling, hsize, hplaces⟩ := places_of_tokenize htokens
  refine ⟨htokens, hfound, htiling, fun t ht => (hsize (by decide +kernel) t ht).1, ?_⟩
  intro f hf
  obtain ⟨t, ht, hspan, hposition, -⟩ := hplaces _ _ hfound f hf
  exact ⟨t, ht, hspan, hposition⟩

end QSource
