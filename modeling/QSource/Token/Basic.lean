/-
**Tokens.** A lexeme is a kind with a text; a token is a lexeme with its place in a sequence whose
texts stand one behind the other.

Main definitions:

* `QSource.Lexeme`, `QSource.Token` — a classified text, and the same with its place;
* `QSource.Token.place` — gives every lexeme of a sequence its place;
* `QSource.Lexeme.layOut` — the same from the start of a text.

Main results:

* `QSource.Token.place_append` — a sequence may be placed piece by piece;
* `QSource.Token.map_toLexeme_place` — placing changes neither kinds nor texts.
-/

import QSource.Text.Position
import QSource.Token.Kind

set_option relaxedAutoImplicit false
set_option autoImplicit false

namespace QSource

open Text

/-- A text with its kind. -/
structure Lexeme where
  kind : Kind
  text : String
deriving DecidableEq

/-- The characters of a lexeme. -/
def Lexeme.chars (x : Lexeme) : List Char := x.text.toList

/-- The characters of a sequence of lexemes, one text behind the other. -/
def Lexeme.join (xs : List Lexeme) : List Char := xs.flatMap Lexeme.chars

@[simp] theorem Lexeme.join_nil : Lexeme.join [] = [] := rfl

@[simp] theorem Lexeme.join_cons (x : Lexeme) (xs : List Lexeme) :
    Lexeme.join (x :: xs) = x.chars ++ Lexeme.join xs := rfl

@[simp] theorem Lexeme.join_append (xs ys : List Lexeme) :
    Lexeme.join (xs ++ ys) = Lexeme.join xs ++ Lexeme.join ys := List.flatMap_append

/-- A lexeme with its number in the sequence, its bytes, and the position of its first
character. -/
structure Token extends Lexeme where
  index : Nat
  span : Span
  position : Position
deriving DecidableEq

/-- Places lexemes one behind the other, from number `index`, byte `offset` and position `p` on. -/
def Token.place (index offset : Nat) (p : Position) : List Lexeme → List Token
  | [] => []
  | x :: xs =>
    ⟨x, index, ⟨offset, offset + byteLength x.chars⟩, p⟩ ::
      Token.place (index + 1) (offset + byteLength x.chars) (p.after x.chars) xs

/-- Places lexemes from the start of a text on. -/
def Lexeme.layOut (xs : List Lexeme) : List Token := Token.place 0 0 Position.origin xs

@[simp] theorem Token.map_toLexeme_place (index offset : Nat) (p : Position) (xs : List Lexeme) :
    (Token.place index offset p xs).map Token.toLexeme = xs := by
  induction xs generalizing index offset p with
  | nil => rfl
  | cons x xs ih => simp [Token.place, ih]

@[simp] theorem Token.length_place (index offset : Nat) (p : Position) (xs : List Lexeme) :
    (Token.place index offset p xs).length = xs.length := by
  induction xs generalizing index offset p with
  | nil => rfl
  | cons x xs ih => simp [Token.place, ih]

theorem Token.place_append (index offset : Nat) (p : Position) (xs ys : List Lexeme) :
    Token.place index offset p (xs ++ ys) =
      Token.place index offset p xs ++
        Token.place (index + xs.length) (offset + byteLength (Lexeme.join xs))
          (p.after (Lexeme.join xs)) ys := by
  induction xs generalizing index offset p with
  | nil => simp [Token.place]
  | cons x xs ih =>
    simp [Token.place, ih, Nat.add_assoc, Nat.add_comm 1 xs.length]

end QSource
