/-
**The command** as a function of its arguments, its input and what it finds at paths.

What it leaves to others is a parameter: how arguments are read, how an error is written with its
causes, how a value is written in JSON, and what is logged.

Main definitions:

* `QSource.Command.Libraries` — **what the command leaves to others**;
* `QSource.Command.Outcome` — what the command leaves behind;
* `QSource.Command.checkInput`, `QSource.Command.checkUnits`, `QSource.Command.check` — checking the input,
  units of files, and what the options name;
* `QSource.Command.perform` — the whole command;
* `QSource.Command.standard`, `QSource.Command.run` — the command with libraries of its own.
-/

import QSource.Command.Arguments
import QSource.Report.Basic

set_option relaxedAutoImplicit false
set_option autoImplicit false

namespace QSource.Command

open Report

/-- The work that may be logged: checking a file with its text, and finishing with so many reports. -/
inductive Work where
  | checking (path text : String)
  | finishing (reports : Nat) (failed hasErrors : Bool)

/-- **What the command leaves to others.** -/
structure Libraries where
  /-- Reads the arguments. -/
  readArguments : List String → Invocation
  /-- The message of an error and those of its causes, as one text. -/
  inline : List String → String
  /-- The same as a block of lines. -/
  block : List String → String
  /-- Writes a value in JSON. -/
  encode : Json → Except String String
  /-- What is logged of some work under a directive. -/
  log : String → Work → String

/-- What the command leaves behind: nothing but its complaint about a wrong command line, or an exit
code with the texts of its output and its errors. -/
inductive Outcome where
  | misused
  | finished (code : Nat) (output errors : String)
deriving DecidableEq

/-- The name under which the input is reported. -/
def inputName : String := "<stdin>"

section

variable (lib : Libraries)

/-- The end of a run that cannot go on, with the errors before it. -/
def failure (messages : List String) (errors : String) : Outcome :=
  .finished 1 "" (errors ++ "Error: " ++ lib.block messages ++ "\n")

/-- The output about checked units, or why it cannot be written. -/
def output (format : Format) (checked : List Checked) : Except String String :=
  match format with
  | .text => .ok (String.join (checked.flatMap Checked.textLines))
  | .json =>
    (lib.encode (.array (checked.flatMap Checked.jsonReport))).map fun text => text ++ "\n"

/-- What is logged before a unit of a file is checked. A file without a text is not checked. -/
def logChecking (verbosity : Nat) (u : SourceUnit) : String :=
  match u.text with
  | .error _ => ""
  | .ok text => lib.log (directive verbosity) (.checking u.name text)

/-- The complaint about a unit that could not be checked, `tell` being how its error is told. -/
def Checked.complaint (tell : String → UnitError → String) (c : Checked) : String :=
  match c.outcome with
  | .error e => s!"cannot analyze: {tell c.name e}\n"
  | .ok _ => ""

/-- The exit code of a run that has come to its end. -/
def exitCode (failed hasErrors : Bool) : Nat := if failed || hasErrors then 1 else 0

/-- The end of a run over checked units, with the errors before it. -/
def conclude (o : Options) (checked : List Checked) (errors : String) : Outcome :=
  match output lib o.format checked with
  | .error e => failure lib ["failed to encode report", e] errors
  | .ok text =>
    let reports := checked.flatMap Checked.jsonReport
    let failed := checked.any Checked.isFailed
    let hasErrors := checked.any Checked.hasErrors
    .finished (exitCode failed hasErrors) text
      (errors ++ lib.log (directive o.verbosity) (.finishing reports.length failed hasErrors))

/-- Checks the input as one unit. Input that is no text ends the run. -/
def checkInput (o : Options) (input : ByteArray) : Outcome :=
  let unit : SourceUnit := ⟨inputName, .ok input⟩
  match unit.text with
  | .error e => failure lib ["failed to read stdin", e.message] ""
  | .ok _ =>
    let checked := checkUnit o.thresholds unit
    let tell name (e : UnitError) := name ++ ": " ++ e.messages.headD ""
    conclude lib o [checked] (Checked.complaint tell checked)

/-- Checks units of files, one after the other, and writes about them. -/
def checkUnits (o : Options) (units : List SourceUnit) : Outcome :=
  let tell name (e : UnitError) := lib.inline (name :: e.messages)
  let errors := units.map fun u =>
    logChecking lib o.verbosity u ++ Checked.complaint tell (checkUnit o.thresholds u)
  conclude lib o (units.map (checkUnit o.thresholds)) (String.join errors)

/-- Checks the input if no path is given, and otherwise what is found at the paths, in their order. -/
def check (o : Options) (input : ByteArray) (find : String → List SourceUnit) : Outcome :=
  if o.paths.isEmpty then checkInput lib o input
  else checkUnits lib o (o.paths.flatMap find)

/-- **The whole command**: reads the arguments and does what they ask for. -/
def perform (args : List String) (input : ByteArray) (find : String → List SourceUnit) : Outcome :=
  match lib.readArguments args with
  | .rejected => .misused
  | .shown text => .finished 0 text ""
  | .accepted o => check lib o input find

end

/-! ### Libraries of its own -/

/-- An error above the list of its causes, which are numbered if there are several. -/
def causesBlock : List String → String
  | [] => ""
  | [message] => message
  | [message, cause] => s!"{message}\n\nCaused by:\n    {cause}"
  | message :: causes =>
    message ++ "\n\nCaused by:" ++
      String.join (causes.zipIdx.map fun (cause, i) => s!"\n    {i}: {cause}")

/-- Libraries that behave as those of the program do, but for the log, which stays empty. -/
def standard : Libraries where
  readArguments := readArguments
  inline := ": ".intercalate
  block := causesBlock
  encode := fun value => .ok (value.render 0)
  log := fun _ _ => ""

/-- The command with libraries of its own. -/
def run (args : List String) (input : ByteArray) (find : String → List SourceUnit) : Outcome :=
  perform standard args input find

end QSource.Command
