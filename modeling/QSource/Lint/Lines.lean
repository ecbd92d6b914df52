/-
**The rule about long lines.** A line belongs to the token that holds its first character. Line ends
inside comments and quoted texts end lines too, and a last line without an end is not looked at.

Main definitions:

* `QSource.lineParts` — a text cut behind each of its line ends;
* `QSource.LinePiece` — a part of a token with the column at which it starts;
* `QSource.LinePiece.lineLength?` — the length of a line that ends with a piece;
* `QSource.longLineOwners` — the tokens to which long lines belong.
-/

import QSource.Scope.Basic

set_option relaxedAutoImplicit false
set_option autoImplicit false

namespace QSource

/-- A text cut behind each of its line feeds. No part is empty unless the text is. -/
def lineParts : List Char → List (List Char)
  | [] => [[]]
  | ['\n'] => [['\n']]
  | '\n' :: c :: rest => ['\n'] :: lineParts (c :: rest)
  | c :: rest =>
    match lineParts rest with
    | part :: parts => (c :: part) :: parts
    | [] => [[c]]

/-- A part of the text of a token, with the column at which it starts. -/
structure LinePiece where
  token : AnnotatedToken
  column : Nat
  chars : List Char

/-- A text in a token, cut behind each of its line feeds. The first part starts at `column`, and the
others where a line starts. -/
def LinePiece.cut (token : AnnotatedToken) (column : Nat) (s : List Char) : List LinePiece :=
  match lineParts s with
  | [] => []
  | first :: others => ⟨token, column, first⟩ :: others.map (⟨token, 0, ·⟩)

/-- The pieces of a token, the first of them at the column of the token. -/
def AnnotatedToken.pieces (t : AnnotatedToken) : List LinePiece :=
  LinePiece.cut t t.position.column t.text.toList

/-- The number of characters of the line that a piece ends, without the line feed and without a
carriage return directly before that, `none` if the piece ends no line. `prev` is the character
before the piece. -/
def LinePiece.lineLength? (prev : Option Char) (piece : LinePiece) : Option Nat :=
  match piece.chars.reverse with
  | '\n' :: body =>
    let length := piece.column + body.length
    some (if body.head?.or prev = some '\r' then length - 1 else length)
  | _ => none

/-- The tokens to which long lines belong, one for every such line. `owner` is the token that the
line under way belongs to, and `prev` the character before the pieces. -/
def longLinesFrom (limit : Nat) (owner : Option AnnotatedToken) (prev : Option Char) :
    List LinePiece → List AnnotatedToken
  | [] => []
  | piece :: rest =>
    let owner := owner.getD piece.token
    match piece.lineLength? prev with
    | some length =>
      (if limit < length then [owner] else []) ++ longLinesFrom limit none (some '\n') rest
    | none => longLinesFrom limit (some owner) (piece.chars.getLast?.or prev) rest

/-- Drops every token that has the same number as the one before it. -/
def dropRepeats : List AnnotatedToken → List AnnotatedToken
  | [] => []
  | t :: rest =>
    match dropRepeats rest with
    | u :: others => if t.index = u.index then t :: others else t :: u :: others
    | [] => [t]

/-- The tokens to which lines longer than `limit` belong, each once. -/
def longLineOwners (limit : Nat) (tokens : List AnnotatedToken) : List AnnotatedToken :=
  dropRepeats (longLinesFrom limit none none (tokens.flatMap AnnotatedToken.pieces))

end QSource
