/-
**Rules about single tokens and their neighbours.**

Main definitions:

* `QSource.datetimes`, `QSource.reservedTargets`, `QSource.literalTargets`, `QSource.badEscapes` —
  the tokens that the rules on single tokens object to;
* `QSource.fixedSeeds` — infinities drawn from with a fixed seed.
-/

import QSource.Lexicon.Escape
import QSource.Lint.Numeral
import QSource.Scope.Basic

set_option relaxedAutoImplicit false
set_option autoImplicit false

namespace QSource

/-- Literals with a date and a time in milliseconds. -/
def datetimes (tokens : List AnnotatedToken) : List AnnotatedToken :=
  tokens.filter fun t => t.kind == .literal .datetime

/-- Built-in words that are assigned to. -/
def reservedTargets (tokens : List AnnotatedToken) : List AnnotatedToken :=
  tokens.filter fun t => t.kind == .keyword && t.isAssignment

/-- Literals that are assigned to. -/
def literalTargets (tokens : List AnnotatedToken) : List AnnotatedToken :=
  tokens.filter fun t => t.kind.isLiteral && t.isAssignment

/-- Runs of escapes in which some unit stands for no character. -/
def badEscapes (tokens : List AnnotatedToken) : List AnnotatedToken :=
  tokens.filter fun t =>
    t.kind == .quotedEscape && (escapeUnits t.text.toList).any fun unit => !isKnownEscape unit

/-- Whether three tokens in a row draw from an infinite range with a number as the seed. -/
def drawsFromInfinity (seed draw range : AnnotatedToken) : Bool :=
  seed.kind == .literal .number && isUnsignedNumber seed.text &&
    draw.kind == .operator && draw.text == "?" && range.kind == .literal .infinity

/-- Infinities that are drawn from with a fixed seed. -/
def fixedSeeds : List AnnotatedToken → List AnnotatedToken
  | seed :: draw :: range :: rest =>
    (if drawsFromInfinity seed draw range then [range] else []) ++
      fixedSeeds (draw :: range :: rest)
  | _ => []

end QSource
