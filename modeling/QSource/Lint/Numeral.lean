/-
**The value of a number literal**, as far as its sign goes.

A literal is read as a decimal number in double precision: what is too large reads as infinite, and
what is no larger than half the least positive number, 2 ^ -1074, reads as zero.

Main definitions:

* `QSource.Numeral`, `QSource.Numeral.read?` — numerals and how they are written;
* `QSource.Numeral.isAtLeastZero` — whether the value of a numeral is not below zero;
* `QSource.isUnsignedNumber` — the same for the text of a number literal with its type suffix.
-/

import QSource.Text.Digits

set_option relaxedAutoImplicit false
set_option autoImplicit false

namespace QSource

open Text

/-- A numeral: not a number, infinite, or the given digits times a power of ten. -/
inductive Numeral where
  | notANumber
  | infinite (negative : Bool)
  | finite (negative : Bool) (digits : List Char) (exponent : Int)
deriving DecidableEq

namespace Numeral

/-- An optional sign, and what stands behind it. -/
def splitSign : List Char → Bool × List Char
  | '-' :: rest => (true, rest)
  | '+' :: rest => (false, rest)
  | s => (false, s)

/-- A whole number with an optional sign. -/
def readExponent? (s : List Char) : Option Int :=
  let (negative, digits) := splitSign s
  if digits.isEmpty || !digits.all Char.isDigit then none
  else if negative then some (-(digitsValue digits : Int))
  else some (digitsValue digits)

/-- Digits with an optional point, at least one digit being written, and an optional exponent. -/
def readDecimal? (negative : Bool) (s : List Char) : Option Numeral :=
  let whole := s.takeWhile Char.isDigit
  let (places, rest) := match s.dropWhile Char.isDigit with
    | '.' :: rest => (rest.takeWhile Char.isDigit, rest.dropWhile Char.isDigit)
    | rest => ([], rest)
  let exponent := match rest with
    | [] => some 0
    | c :: rest => if c == 'e' || c == 'E' then readExponent? rest else none
  if whole.isEmpty && places.isEmpty then none
  else exponent.map fun e => .finite negative (whole ++ places) (e - places.length)

/-- Reads a numeral: a sign, then a decimal number or one of the words `inf`, `infinity` and `nan`
in any letter case. -/
def read? (s : List Char) : Option Numeral :=
  let (negative, rest) := splitSign s
  let word := String.ofList (rest.map Char.toLower)
  if word == "inf" || word == "infinity" then some (.infinite negative)
  else if word == "nan" then some .notANumber
  else readDecimal? negative rest

/-- Whether digits times a power of ten read as zero: they are at most 2 ^ -1075. Digits that are
324 places or more behind the point are smaller than that, whatever they are. -/
def isNegligible (digits : List Char) (exponent : Int) : Bool :=
  digitsValue digits == 0 ||
    (exponent < 0 &&
      (digits.length + 324 ≤ exponent.natAbs ||
        digitsValue digits * Nat.pow 2 1075 ≤ Nat.pow 10 exponent.natAbs))

/-- Whether the value of a numeral is not below zero. Zero has a sign but is never below itself. -/
def isAtLeastZero : Numeral → Bool
  | .notANumber => false
  | .infinite negative => !negative
  | .finite negative digits exponent => !negative || isNegligible digits exponent

end Numeral

/-- The text of a number literal without the letters that name its type. -/
def withoutTypeSuffix (s : List Char) : List Char :=
  (s.reverse.dropWhile "hijef".toList.contains).reverse

/-- Whether the text of a number literal has a value and that value is not below zero. -/
def isUnsignedNumber (text : String) : Bool :=
  (Numeral.read? (withoutTypeSuffix text.toList)).any Numeral.isAtLeastZero

end QSource
