/-
**Checking a text** from its characters to its findings.

Main definitions:

* `QSource.checkText` — the findings of a text, or what keeps it from being analysed.
-/

import QSource.Lint.Findings
import QSource.Scope.Resolution
import QSource.Tree.Parse

set_option relaxedAutoImplicit false
set_option autoImplicit false

namespace QSource

/-- The findings of a text. -/
def checkText (limits : Thresholds) (source : String) : Except SourceError (List Finding) :=
  match parseText source with
  | .error e => .error e
  | .ok nodes => .ok (findings limits (analyze nodes).tokens)

end QSource
