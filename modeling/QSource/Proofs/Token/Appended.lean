/-
**Texts with another line behind them.**

A scan goes on behind a line feed as at the start of a text.  So the tokens of a text with a line feed and
another text behind it are those of the two, and those of the second only change their places: they count on
from the line feed.

Main definitions:

* `QSource.Token.shift`, `QSource.LexError.shift` — a token and an error of a text that stands
  behind another one.

Main results:

* `QSource.Lexeme.layOut_append_line` — where the tokens behind a line feed are laid out;
* `QSource.tokenize_append_line` — **the tokens of a text with another line are those of its two
  parts**.
-/

import QSource.Proofs.Token.Lexer
import QSource.Proofs.Token.Lines

set_option relaxedAutoImplicit false
set_option autoImplicit false

namespace QSource

open Text

/-! ### Places behind other texts -/

/-- The position of the same character when `lines` lines stand before the text. -/
def Text.Position.shift (lines : Nat) (p : Position) : Position := ⟨p.line + lines, p.column⟩

/-- The same token when `count` tokens of `bytes` bytes, with `lines` line feeds, stand before the
text. The line of the token has to be one of the text. -/
def Token.shift (count bytes lines : Nat) (t : Token) : Token :=
  ⟨t.toLexeme, t.index + count, ⟨t.span.start + bytes, t.span.stop + bytes⟩, t.position.shift lines⟩

/-- The same error when `bytes` bytes with `lines` line feeds stand before the text. -/
def LexError.shift (bytes lines : Nat) (e : LexError) : LexError :=
  ⟨e.obstacle, e.offset + bytes, e.position.shift lines⟩

theorem Text.Position.after_shift (lines : Nat) (p : Position) (s : List Char) :
    (p.shift lines).after s = (p.after s).shift lines := by
  have hadvance : ∀ (p : Position) (c : Char),
      (p.shift lines).advance c = (p.advance c).shift lines := by
    intro p c
    by_cases hc : c = '\n'
    · simp only [Position.advance, Position.shift, hc, if_true, Nat.add_right_comm]
    · simp only [Position.advance, Position.shift, hc, if_false]
  induction s generalizing p with
  | nil => rfl
  | cons c s ih => rw [Position.after_cons, Position.after_cons, hadvance, ih]

theorem Token.place_shift (count bytes lines index offset : Nat) (p : Position) (xs : List Lexeme) :
    Token.place (index + count) (offset + bytes) (p.shift lines) xs =
      (Token.place index offset p xs).map (Token.shift count bytes lines) := by
  induction xs generalizing index offset p with
  | nil => rfl
  | cons x xs ih =>
      have htail := ih (index + 1) (offset + byteLength x.chars) (p.after x.chars)
      rw [← Position.after_shift, Nat.add_right_comm index, Nat.add_right_comm offset] at htail
      rw [Token.place, Token.place, List.map_cons, htail]
      simp only [Token.shift, Nat.add_right_comm offset]

/-- The position at the start of the line behind a text. -/
theorem after_lineFeed (s : List Char) :
    Position.origin.after (s ++ ['\n']) = Position.origin.shift (s.count '\n' + 1) := by
  rw [Position.after_append, after_origin]
  simp [Position.advance, Position.shift, Position.origin]

/-- Tokens that are laid out with a line feed between them: those behind it are laid out as if
nothing stood before, and shifted. -/
theorem Lexeme.layOut_append_line (xs ys : List Lexeme) :
    Lexeme.layOut (xs ++ ⟨.lineBreak, "\n"⟩ :: ys) =
      Lexeme.layOut xs ++ ⟨⟨.lineBreak, "\n"⟩, xs.length,
        ⟨byteLength (Lexeme.join xs), byteLength (Lexeme.join xs) + 1⟩,
        Position.origin.after (Lexeme.join xs)⟩ ::
          (Lexeme.layOut ys).map (Token.shift (xs.length + 1) (byteLength (Lexeme.join xs) + 1)
            ((Lexeme.join xs).count '\n' + 1)) := by
  have hplace := Token.place_shift (xs.length + 1) (byteLength (Lexeme.join xs) + 1)
    ((Lexeme.join xs).count '\n' + 1) 0 0 Position.origin ys
  rw [← after_lineFeed, Position.after_append, Nat.zero_add, Nat.zero_add] at hplace
  rw [Lexeme.layOut, Token.place_append, Lexeme.layOut, Lexeme.layOut, ← hplace, Nat.zero_add,
    Nat.zero_add]
  rfl

theorem spansLines_of_layOut {xs : List Lexeme} (h : ∀ t, (Lexeme.layOut xs).getLast? = some t →
      t.kind ≠ .comment .block ∧ t.kind ≠ .comment .final) :
    ∀ x ∈ xs.getLast?, x.kind.spansLines = false := by
  intro x hx
  rw [← Token.map_toLexeme_place 0 0 Position.origin xs, List.getLast?_map] at hx
  obtain ⟨t, ht, rfl⟩ := Option.map_eq_some_iff.1 hx
  obtain ⟨hblock, hfinal⟩ := h t ht
  rw [Bool.eq_false_iff, ne_eq, Kind.spansLines_iff]
  rintro (hkind | hkind)
  · exact hblock hkind
  · exact hfinal hkind

/-! ### Texts -/

/-- **The tokens of a text with another line are those of its two parts.**  Let `a` be cut into
tokens, not end in a carriage return, and not in a comment over lines; then the tokens of `a`, a line
feed and `b` are those of `a`, the line feed as a token, and those of `b`, which only change their
places: their kinds, texts and columns stay, and their numbers, bytes and lines count on from the
line feed.  If `b` has an error, the text has the same one, at the place that counts on like that.  If the
text has less than 2 ^ 32 bytes, all three have the same tokens in words of 32 bits. -/
theorem tokenize_append_line {a : String} {tokens : List Token} (h : tokenize a = .ok tokens)
    (hreturn : a.toList.getLast? ≠ some '\r')
    (hlast : ∀ t, tokens.getLast? = some t → t.kind ≠ .comment .block ∧ t.kind ≠ .comment .final)
    (b : String) :
    let bytes := a.utf8ByteSize + 1
    let lines := a.toList.count '\n' + 1
    let lineBreak : Token := ⟨⟨.lineBreak, "\n"⟩, tokens.length, ⟨a.utf8ByteSize, bytes⟩,
      Position.origin.after a.toList⟩
    (∀ others, tokenize b = .ok others → tokenize (a ++ "\n" ++ b) =
        .ok (tokens ++ lineBreak :: others.map (Token.shift (tokens.length + 1) bytes lines))) ∧
      (∀ e, tokenize b = .error e → tokenize (a ++ "\n" ++ b) = .error (e.shift bytes lines)) ∧
      ((a ++ "\n" ++ b).utf8ByteSize < UInt32.size → ∀ s ∈ [a, b, a ++ "\n" ++ b],
        tokenize32? s = some (tokenize s)) := by
  intro bytes lines lineBreak
  obtain ⟨rfl, hnone⟩ := eq_layOut_of_tokenize h
  have hjoin := join_scan hnone
  have hsize : byteLength a.toList = a.utf8ByteSize := by
    rw [byteLength_eq_utf8ByteSize, String.ofList_toList]
  have hscan : scan none (a ++ "\n" ++ b).toList = (scan none b.toList).prepend
      ((scan none a.toList).lexemes ++ [⟨.lineBreak, "\n"⟩]) := by
    rw [← scan_append_line hnone hreturn (spansLines_of_layOut hlast)]
    simp
  refine ⟨?_, ?_, ?_⟩
  · intro others hothers
    obtain ⟨rfl, hnone'⟩ := eq_layOut_of_tokenize hothers
    have hlines := Lexeme.layOut_append_line (scan none a.toList).lexemes
      (scan none b.toList).lexemes
    have hlength : (Lexeme.layOut (scan none a.toList).lexemes).length =
        (scan none a.toList).lexemes.length := Token.length_place ..
    rw [hjoin, hsize] at hlines
    simp only [tokenize, hscan, Scan.prepend, hnone', List.append_assoc, List.singleton_append,
      hlines, lineBreak, hlength]
    rfl
  · intro e he
    obtain ⟨before, behind, -, hoffset, hposition, rfl, hobstacle⟩ := exists_of_tokenize_eq_error he
    have hbefore : Lexeme.join ((scan none a.toList).lexemes ++ [⟨.lineBreak, "\n"⟩]) =
        a.toList ++ ['\n'] := by
      rw [Lexeme.join_append, hjoin]
      rfl
    have hbytes : byteLength (a.toList ++ ['\n']) = bytes := by
      rw [byteLength_append, hsize]
      rfl
    simp only [tokenize, hscan, Scan.prepend, hobstacle]
    rw [Lexeme.join_append, hbefore, byteLength_append, hbytes, Position.after_append,
      after_lineFeed, Position.after_shift, hoffset, ← hposition, Nat.add_comm bytes]
    rfl
  · intro hwords s hs
    rw [String.utf8ByteSize_append, String.utf8ByteSize_append] at hwords
    refine tokenize32?_eq ?_
    simp only [List.mem_cons, List.not_mem_nil, or_false] at hs
    rcases hs with rfl | rfl | rfl
    · omega
    · omega
    · rw [String.utf8ByteSize_append, String.utf8ByteSize_append]
      exact hwords

/-- Behind a quoted text over two lines and a command, a comment that opens its line and a negative
number are read as at the start of a text; and a quote that is not closed is found there. -/
theorem tokenize_append_line_command :
    let a := "a:\"1\n2\"\r\n\\l f.q"
    let xs : List Lexeme := [⟨.identifier, "a"⟩, ⟨.colon, ":"⟩, ⟨.openQuote, "\""⟩,
      ⟨.quotedText, "1\n2"⟩, ⟨.closeQuote, "\""⟩, ⟨.lineBreak, "\r\n"⟩, ⟨.command, "\\l f.q"⟩]
    let ys : List Lexeme := [⟨.comment .line, "/ -1"⟩, ⟨.lineBreak, "\n"⟩, ⟨.literal .number, "-1"⟩]
    tokenize a = .ok (Lexeme.layOut xs) ∧
      tokenize (a ++ "\n" ++ "/ -1\n-1") = .ok (Lexeme.layOut (xs ++ ⟨.lineBreak, "\n"⟩ :: ys)) ∧
      tokenize (a ++ "\n" ++ " \"x") = .error ⟨.unterminatedLiteral, 17, ⟨3, 1⟩⟩ ∧
      tokenize32? (a ++ "\n" ++ " \"x") = some (.error ⟨.unterminatedLiteral, 17, ⟨3, 1⟩⟩) := by
  intro a xs ys
  have ha : tokenize a = .ok (Lexeme.layOut xs) := by decide +kernel
  have hys : tokenize "/ -1\n-1" = .ok (Lexeme.layOut ys) := by decide +kernel
  have herror : tokenize " \"x" = .error ⟨.unterminatedLiteral, 1, ⟨0, 1⟩⟩ := by decide +kernel
  have hlast : ∀ t, (Lexeme.layOut xs).getLast? = some t →
      t.kind ≠ .comment .block ∧ t.kind ≠ .comment .final := by
    intro t ht
    obtain rfl := Option.some.inj ht
    decide
  have hline := tokenize_append_line ha (by decide) hlast
  have hunclosed : tokenize (a ++ "\n" ++ " \"x") = .error ⟨.unterminatedLiteral, 17, ⟨3, 1⟩⟩ :=
    ((hline _).2.1 _ herror).trans (congrArg Except.error (by decide +kernel))
  refine ⟨ha, ((hline _).1 _ hys).trans ?_, hunclosed, ?_⟩
  · exact congrArg Except.ok (by decide +kernel)
  · exact ((hline " \"x").2.2 (by decide +kernel) _ (by simp)).trans (congrArg some hunclosed)

end QSource
