/-
**The texts of literals and words**, as languages.

A table of patterns says what a scan takes from a text; it does not say which texts are meant to be
literals.  Here that is written down as languages, without any order among the forms and without
greed: digits stand for themselves, and a part in `optional` may be left out.

Main definitions:

* `QSource.Grammar.ofClass`, `QSource.Grammar.lit`, `QSource.Grammar.optional`,
  `QSource.Grammar.plus` — the languages from which the others are made;
* `QSource.LiteralForm.texts` — **the texts of the literals of a form**;
* `QSource.Grammar.name` — the texts of names;
* `QSource.Kind.atomTexts`, `QSource.Lexeme.IsAtom` — words and literals with their kinds.
-/

import Mathlib.Computability.Language
import QSource.Lexicon.Vocabulary
import QSource.Text.Class
import QSource.Token.Basic

set_option relaxedAutoImplicit false
set_option autoImplicit false

namespace QSource

open Text
open scoped Computability

namespace Grammar

/-- The texts of one character of a class. -/
def ofClass (accepts : Char → Bool) : Language Char := {x | ∃ c, accepts c = true ∧ x = [c]}

/-- One character. -/
def lit (c : Char) : Language Char := ofClass (· == c)

/-- One of the characters of `choices`. -/
def choice (choices : String) : Language Char := ofClass choices.toList.contains

/-- A text of the language, or nothing. -/
def optional (l : Language Char) : Language Char := 1 + l

/-- Texts of the language one behind the other, at least one of them. -/
def plus (l : Language Char) : Language Char := l * l∗

/-- A decimal digit. -/
def digit : Language Char := ofClass Char.isDigit

/-- A day: `dddd.dd.dd`. -/
def day : Language Char := digit ^ 4 * lit '.' * digit ^ 2 * lit '.' * digit ^ 2

/-- A time of day: `dd:dd:dd`. -/
def clock : Language Char := digit ^ 2 * lit ':' * digit ^ 2 * lit ':' * digit ^ 2

/-- A point and up to `places` digits. -/
def fraction (places : Nat) : Language Char := lit '.' * optional digit ^ places

/-- What may follow the hours: `:dd[:dd[.(0 to places digits)]]`. -/
def minutesOnward (places : Nat) : Language Char :=
  lit ':' * digit ^ 2 * optional (lit ':' * digit ^ 2 * optional (fraction places))

/-- A time of day that may stop after any of its parts: `[dd[:dd[:dd[.(0 to 9 digits)]]]]`. -/
def nanosecondsOfDay : Language Char := optional (digit ^ 2 * optional (minutesOnward 9))

/-- Digits with a point in any place or none: `d+[.d*]` or `.d+`. -/
def decimal : Language Char :=
  plus digit * optional (lit '.' * digit∗) + lit '.' * plus digit

/-- A power of ten: `e[+ or -]d+`. -/
def exponent : Language Char := lit 'e' * optional (choice "+-") * plus digit

/-- A name: a letter, perhaps behind a point, and then letters, digits and underscores, before each
of which a point may stand. -/
def name : Language Char :=
  (ofClass Char.isAlpha + lit '.' * ofClass Char.isAlpha) *
    (ofClass isWordChar + lit '.' * ofClass isWordChar)∗

end Grammar

open Grammar

/-- **The texts of the literals of a form.** -/
def LiteralForm.texts : LiteralForm → Language Char
  | .symbol => lit '`' * (ofClass fun c => isWordChar c || c == '.')∗
  | .filePath => lit '`' * lit ':' * (ofClass fun c => isWordChar c || "./\\:-".toList.contains c)∗
  | .infinity =>
    optional (lit '-') * lit '0' * choice "wWnN" * optional (choice "hijefcpmdznuvtg")
  | .timestamp => day * lit 'D' * nanosecondsOfDay * optional (lit 'p')
  | .datetime => day * lit 'T' * digit ^ 2 * minutesOnward 3 * optional (lit 'z')
  | .milliTime => clock * lit '.' * digit ^ 3 * optional (lit 't')
  | .nanoTime =>
    (plus digit * lit 'D' * nanosecondsOfDay + clock * lit '.' * digit ^ 9) * optional (lit 'n')
  | .date => day * optional (lit 'd')
  | .month => digit ^ 4 * lit '.' * digit ^ 2 * lit 'm'
  | .second => clock * optional (lit 'v')
  | .minute => digit ^ 2 * lit ':' * digit ^ 2 * optional (lit 'u')
  | .bits => plus (ofClass fun c => c == '0' || c == '1') * lit 'b'
  | .bytes => lit '0' * lit 'x' * (ofClass isHexDigit)∗
  | .number =>
    optional (lit '-') * decimal * optional exponent * optional (choice "hijef")

/-- The texts of the words and the literals of a kind; the other kinds have none. -/
def Kind.atomTexts : Kind → Language Char
  | .literal form => form.texts
  | .keyword => {x | isReserved (String.ofList x) = true}
  | .identifier => {x | x ∈ name ∧ isReserved (String.ofList x) = false}
  | _ => 0

/-- A word or a literal. -/
def Lexeme.IsAtom (x : Lexeme) : Prop := x.chars ∈ x.kind.atomTexts

end QSource
