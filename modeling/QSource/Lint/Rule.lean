/-
**Rules and findings.** A rule objects to tokens; a finding is a rule with the place of one of them.

Main definitions:

* `QSource.Severity`, `QSource.Rule` — how bad a finding is, and the rules;
* `QSource.Rule.name`, `QSource.Rule.severity`, `QSource.Rule.message` — what is said of a rule;
* `QSource.Thresholds` — the numbers that some of the rules compare with;
* `QSource.Finding` — an objection with its place.
-/

import QSource.Scope.Basic

set_option relaxedAutoImplicit false
set_option autoImplicit false

namespace QSource

open Text

/-- How bad a finding is. -/
inductive Severity where
  | error
  | warning
  | info
deriving DecidableEq

/-- The word for a severity. -/
def Severity.label : Severity → String
  | .error => "error"
  | .warning => "warning"
  | .info => "info"

/-- All severities, the worst first. -/
def Severity.all : List Severity := [.error, .warning, .info]

/-- The rules. -/
inductive Rule where
  | assignReservedWord
  | declaredAfterUse
  | deprecatedDatetime
  | fixedSeed
  | invalidAssign
  | invalidEscape
  | lineLength
  | tooManyArguments
  | tooManyConstants
  | tooManyGlobals
  | tooManyLocals
  | unusedParam
  | unusedVar
deriving DecidableEq

namespace Rule

/-- All rules, in the order of their names. -/
def all : List Rule := [
  .assignReservedWord, .declaredAfterUse, .deprecatedDatetime, .fixedSeed, .invalidAssign,
  .invalidEscape, .lineLength, .tooManyArguments, .tooManyConstants, .tooManyGlobals,
  .tooManyLocals, .unusedParam, .unusedVar]

/-- The name of a rule. -/
def name : Rule → String
  | .assignReservedWord => "ASSIGN_RESERVED_WORD"
  | .declaredAfterUse => "DECLARED_AFTER_USE"
  | .deprecatedDatetime => "DEPRECATED_DATETIME"
  | .fixedSeed => "FIXED_SEED"
  | .invalidAssign => "INVALID_ASSIGN"
  | .invalidEscape => "INVALID_ESCAPE"
  | .lineLength => "LINE_LENGTH"
  | .tooManyArguments => "TOO_MANY_ARGUMENTS"
  | .tooManyConstants => "TOO_MANY_CONSTANTS"
  | .tooManyGlobals => "TOO_MANY_GLOBALS"
  | .tooManyLocals => "TOO_MANY_LOCALS"
  | .unusedParam => "UNUSED_PARAM"
  | .unusedVar => "UNUSED_VAR"

/-- How bad it is to break a rule. -/
def severity : Rule → Severity
  | .deprecatedDatetime | .fixedSeed | .lineLength | .unusedParam | .unusedVar => .warning
  | _ => .error

/-- What a finding of a rule says. -/
def message : Rule → String
  | .assignReservedWord => "Assignment to a reserved word"
  | .declaredAfterUse => "Variable used before it is declared"
  | .deprecatedDatetime => "Datetime literals are deprecated, use timestamps"
  | .fixedSeed => "Drawing from an infinite range with a fixed seed"
  | .invalidAssign => "Invalid assignment target"
  | .invalidEscape => "Invalid escape sequence"
  | .lineLength => "Line exceeds the maximum length"
  | .tooManyArguments => "Too many parameters"
  | .tooManyConstants => "Too many constants"
  | .tooManyGlobals => "Too many globals"
  | .tooManyLocals => "Too many locals"
  | .unusedParam => "Unused parameter"
  | .unusedVar => "Unused variable"

end Rule

/-- The largest numbers that are still allowed: characters in a line, and distinct constants,
globals, locals and declared parameters in a lambda. -/
structure Thresholds where
  lineLength : Nat := 200
  constants : Nat := 96
  globals : Nat := 32
  locals : Nat := 110
  params : Nat := 8
deriving DecidableEq

/-- A rule with the place of a token that it objects to: the number of the token, its bytes, and the
position of its first character. -/
structure Finding where
  rule : Rule
  index : Nat
  span : Span
  position : Position
deriving DecidableEq

namespace Finding

/-- The finding of a rule at a token. -/
def ofToken (rule : Rule) (token : AnnotatedToken) : Finding :=
  ⟨rule, token.index, token.span, token.position⟩

/-- Findings are listed by token, and at the same token by the name of the rule. -/
def le (a b : Finding) : Bool :=
  a.index < b.index || (a.index == b.index && a.rule.name ≤ b.rule.name)

/-- One line of text; lines and columns are counted from one. -/
def render (f : Finding) : String :=
  let severity := f.rule.severity.label
  s!"{f.position.line + 1}:{f.position.column + 1}: {severity}[{f.rule.name}]: {f.rule.message}"

end Finding

end QSource
