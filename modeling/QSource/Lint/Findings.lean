/-
**Running the rules.**

Main definitions:

* `QSource.Rule.flagged` — the tokens that a rule objects to;
* `QSource.findings` — the findings of all rules, in order.
-/

import QSource.Lint.Counting
import QSource.Lint.Lines
import QSource.Lint.Names
import QSource.Lint.Neighbours
import QSource.Lint.Rule
import QSource.Sorting

set_option relaxedAutoImplicit false
set_option autoImplicit false

namespace QSource

/-- The tokens that a rule objects to. -/
def Rule.flagged (limits : Thresholds) (tokens : List AnnotatedToken) :
    Rule → List AnnotatedToken
  | .assignReservedWord => reservedTargets tokens
  | .declaredAfterUse => lateDeclarations tokens
  | .deprecatedDatetime => datetimes tokens
  | .fixedSeed => fixedSeeds tokens
  | .invalidAssign => literalTargets tokens
  | .invalidEscape => badEscapes tokens
  | .lineLength => longLineOwners limits.lineLength tokens
  | .tooManyArguments => firstExcess limits.params (countedParams tokens)
  | .tooManyConstants => firstExcess limits.constants (countedConstants tokens)
  | .tooManyGlobals => firstExcess limits.globals (countedGlobals tokens)
  | .tooManyLocals => firstExcess limits.locals (countedLocals tokens)
  | .unusedParam => unusedParams tokens
  | .unusedVar => unusedVars tokens

/-- The findings of one rule. -/
def Rule.findings (limits : Thresholds) (tokens : List AnnotatedToken) (rule : Rule) :
    List Finding :=
  (rule.flagged limits tokens).map (Finding.ofToken rule)

/-- The findings of all rules, by token and then by the name of the rule. -/
def findings (limits : Thresholds) (tokens : List AnnotatedToken) : List Finding :=
  sort Finding.le (Rule.all.flatMap (Rule.findings limits tokens))

end QSource
