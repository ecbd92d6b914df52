/-
**What the command is asked for.**

Main definitions:

* `QSource.Command.Options` — the paths and the options of a command line;
* `QSource.Command.Invocation` — what reading the arguments comes to;
* `QSource.Command.Options.thresholds`, `QSource.Command.Options.directive` — what the options mean
  for the rules and for the log.
-/

import QSource.Lint.Rule

set_option relaxedAutoImplicit false
set_option autoImplicit false

namespace QSource.Command

/-- How findings are written. -/
inductive Format where
  | text
  | json
deriving DecidableEq

/-- The paths of a command line, in their order, and its options. -/
structure Options where
  paths : List String := []
  format : Format := .text
  lineLength : Option Nat := none
  /-- How many times more logging has been asked for. -/
  verbosity : Nat := 0
deriving DecidableEq

/-- What reading the arguments comes to. -/
inductive Invocation where
  /-- The command line is wrong. -/
  | rejected
  /-- Only a text has been asked for. -/
  | shown (text : String)
  | accepted (options : Options)
deriving DecidableEq

/-- The thresholds that the options ask for. -/
def Options.thresholds (o : Options) : Thresholds :=
  match o.lineLength with
  | some n => { lineLength := n }
  | none => {}

/-- The directive for what is logged, unless the environment has one. -/
def directive (verbosity : Nat) : String :=
  match verbosity with
  | 0 => "warn"
  | 1 => "qlint_cli=debug,qlint_core=debug"
  | _ => "qlint_cli=trace,qlint_core=trace"

end QSource.Command
