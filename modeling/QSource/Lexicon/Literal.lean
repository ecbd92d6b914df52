/-
**Literals of one token**: symbols, file paths, the temporal forms, bits, bytes and numbers.

Main definitions:

* `QSource.mayBeSigned` — whether a minus sign may open a number at a place;
* `QSource.startsChannel` — whether one of the channel operators `0:`, `1:` and `2:` stands at a
  place;
* `QSource.LiteralForm.pattern` — what the literals of a form look like;
* `QSource.LiteralForm.length?` — how long a literal of a form is at a place.
-/

import QSource.Lexicon.Pattern
import QSource.Text.Class
import QSource.Token.Kind

set_option relaxedAutoImplicit false
set_option autoImplicit false

namespace QSource

open Text Pattern

/-- A minus sign directly behind something that ends an operand subtracts; anywhere else it may open
a negative literal. -/
def mayBeSigned (prev : Option Char) : Bool :=
  !prev.any fun c => isWordChar c || ".)]\x7d\"`".toList.contains c

/-- Whether a channel operator stands here: `0:`, `1:` or `2:`, not behind a word or a point, and
without a second colon. -/
def startsChannel (prev : Option Char) : List Char → Bool
  | d :: ':' :: rest =>
    !prev.any (fun c => isWordChar c || c == '.') && '0' ≤ d && d ≤ '2' && rest.head? != some ':'
  | _ => false

/-! ### Parts of literals -/

namespace Pattern

/-- The end of a word: no character that would continue it follows. -/
def wordEnd : Pattern := .notBefore isWordChar

/-- A fixed number of digits. -/
def digits (count : Nat) : Pattern := .exactly count Char.isDigit

/-- A day, as in `2024.01.31`. -/
def calendarDay : Pattern := digits 4 ++ char '.' ++ digits 2 ++ char '.' ++ digits 2

/-- A time of day to the second, as in `23:59:59`. -/
def clock : Pattern := digits 2 ++ char ':' ++ digits 2 ++ char ':' ++ digits 2

/-- A point and at most `count` digits, with no further digit behind them. -/
def fraction (count : Nat) : Pattern :=
  char '.' ++ .atMost count Char.isDigit ++ .notBefore Char.isDigit

/-- A colon, two digits and, if they follow, the seconds with a fraction. -/
def minutesOnward (places : Nat) : Pattern :=
  char ':' ++ digits 2 ++ .opt (char ':' ++ digits 2 ++ .opt (fraction places))

/-- The time of day behind the `D` of a timestamp, which may stop after any of its parts. -/
def nanosecondsOfDay : Pattern := .opt (digits 2 ++ .opt (minutesOnward 9))

/-- A minus sign, where one may stand. -/
def sign (signed : Bool) : Pattern := if signed then .opt (char '-') else .empty

/-- Digits with an optional point, at least one digit being written. -/
def decimal : Pattern :=
  (oneOrMore Char.isDigit ++ .opt (char '.' ++ .run Char.isDigit)) |||
    (char '.' ++ oneOrMore Char.isDigit)

/-- The letter `e`, an optional sign, and digits. -/
def exponent : Pattern := char 'e' ++ .opt (oneOf "+-") ++ oneOrMore Char.isDigit

end Pattern

/-! ### The forms -/

/-- What a literal of each form looks like; `signed` says whether a minus sign may open it. -/
def LiteralForm.pattern (signed : Bool) : LiteralForm → Pattern
  | .symbol => char '`' ++ .notBefore (· == ':') ++ .run fun c => isWordChar c || c == '.'
  | .filePath =>
    char '`' ++ char ':' ++ .run fun c => isWordChar c || "./\\:-".toList.contains c
  | .infinity =>
    sign signed ++ char '0' ++ oneOf "wWnN" ++ .opt (oneOf "hijefcpmdznuvtg") ++ wordEnd
  | .timestamp => calendarDay ++ char 'D' ++ nanosecondsOfDay ++ .opt (char 'p') ++ wordEnd
  | .datetime =>
    calendarDay ++ char 'T' ++ digits 2 ++ minutesOnward 3 ++ .opt (char 'z') ++ wordEnd
  | .milliTime =>
    clock ++ char '.' ++ digits 3 ++ .notBefore Char.isDigit ++ .opt (char 't') ++ wordEnd
  | .nanoTime =>
    ((oneOrMore Char.isDigit ++ char 'D' ++ nanosecondsOfDay) |||
      (clock ++ char '.' ++ digits 9)) ++ .opt (char 'n') ++ wordEnd
  | .date => calendarDay ++ .opt (char 'd') ++ wordEnd
  | .month => digits 4 ++ char '.' ++ digits 2 ++ char 'm' ++ wordEnd
  | .second => clock ++ .opt (char 'v') ++ wordEnd
  | .minute =>
    digits 2 ++ char ':' ++ digits 2 ++ .notBefore Char.isDigit ++ .opt (char 'u') ++ wordEnd
  | .bits => oneOrMore (fun c => c == '0' || c == '1') ++ char 'b' ++ wordEnd
  | .bytes => char '0' ++ char 'x' ++ .run isHexDigit ++ wordEnd
  | .number => sign signed ++ decimal ++ .opt exponent ++ .opt (oneOf "hijef")

/-- The length of a literal of the given form at the start of `s`, behind the character `prev`. The
digit of a channel operator is not a number. -/
def LiteralForm.length? (form : LiteralForm) (prev : Option Char) (s : List Char) : Option Nat :=
  if form = .number ∧ startsChannel prev s then none
  else (form.pattern (mayBeSigned prev)).length? s

end QSource
