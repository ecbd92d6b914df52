/-
**The tables of token kinds**: what a text may start with.

Outside quotes the first kind of `codeKinds` that fits decides, inside quotes the first of
`quotedKinds`. The order matters: a timestamp also starts like a date, a date like a number, and a
keyword like a name.

Main definitions:

* `QSource.Kind.length?` — the length of a token of a kind at the start of a text;
* `QSource.codeKinds`, `QSource.quotedKinds` — the two tables;
* `QSource.Kind.first?` — the first kind of a table that fits.
-/

import QSource.Lexicon.Comment
import QSource.Lexicon.Escape
import QSource.Lexicon.Literal
import QSource.Lexicon.Word

set_option relaxedAutoImplicit false
set_option autoImplicit false

namespace QSource

open Text Pattern

/-- The number of blanks at the start of a text. A carriage return that no line feed follows is a
blank too. -/
def blankRun : List Char → Nat
  | [] => 0
  | c :: rest =>
    if isBlank c || (c == '\r' && rest.head? != some '\n') then 1 + blankRun rest else 0

/-- The length of a line terminator. -/
def lineBreakLength? : List Char → Option Nat
  | '\n' :: _ => some 1
  | '\r' :: '\n' :: _ => some 2
  | _ => none

/-- An adverb, with or without the colon that makes it one of two arguments. -/
def iteratorPattern : Pattern := oneOf "'/\\" ++ .opt (char ':')

/-- A comparison of two characters, or one operator character. -/
def operatorPattern : Pattern :=
  (char '<' ++ oneOf "=>") ||| ((char '>' ++ char '=') ||| oneOf "=<>+-*%!@#$&|^~,._?")

/-- The length of an operator; the channel operators are two characters long. -/
def operatorLength? (prev : Option Char) (s : List Char) : Option Nat :=
  if startsChannel prev s then some 2 else operatorPattern.length? s

/-- A length that has to be positive. -/
def positive? (n : Nat) : Option Nat := if n = 0 then none else some n

/-- The characters that stand for themselves in quotes. -/
def isPlainQuoted (c : Char) : Bool := c != '"' && c != '\\'

/-- The delimiters of a pair, as characters. -/
def Delimiter.chars : Delimiter → Char × Char
  | .paren => ('(', ')')
  | .bracket => ('[', ']')
  | .brace => ('{', '}')

/-- The length of a token of the given kind at the start of `s`, where `prev` is the character
before it. -/
def Kind.length? (kind : Kind) (prev : Option Char) (s : List Char) : Option Nat :=
  match kind with
  | .comment form => commentLength? form prev s
  | .literal form => form.length? prev s
  | .openQuote | .closeQuote => (char '"').length? s
  | .quotedText => positive? (s.takeWhile isPlainQuoted).length
  | .quotedEscape => positive? (escapeRunLength s)
  | .keyword => keywordLength? prev s
  | .identifier => nameLength? s
  | .whitespace => positive? (blankRun s)
  | .lineBreak => lineBreakLength? s
  | .command => commandLength? prev s
  | .doubleColon => (char ':' ++ char ':').length? s
  | .colon => (char ':').length? s
  | .semicolon => (char ';').length? s
  | .iterator => iteratorPattern.length? s
  | .operator => operatorLength? prev s
  | .opening pair => (char pair.chars.1).length? s
  | .closing pair => (char pair.chars.2).length? s

/-- The kinds of tokens outside quotes, in the order in which they are tried. -/
def codeKinds : List Kind := [
  .comment .block, .comment .final, .comment .line, .openQuote,
  .literal .symbol, .literal .filePath, .literal .infinity, .literal .timestamp,
  .literal .datetime, .literal .milliTime, .literal .nanoTime, .literal .date, .literal .month,
  .literal .second, .literal .minute, .literal .bits, .literal .bytes, .literal .number,
  .keyword, .identifier, .whitespace, .lineBreak, .command, .doubleColon, .iterator, .operator,
  .colon, .semicolon, .opening .paren, .closing .paren, .opening .bracket, .closing .bracket,
  .opening .brace, .closing .brace]

/-- The kinds of tokens inside quotes, in the order in which they are tried. -/
def quotedKinds : List Kind := [.closeQuote, .quotedEscape, .quotedText]

/-- The first kind of a table that fits the start of `s`, with its length. -/
def Kind.first? (table : List Kind) (prev : Option Char) (s : List Char) : Option (Kind × Nat) :=
  table.findSome? fun kind => (kind.length? prev s).map (kind, ·)

end QSource
