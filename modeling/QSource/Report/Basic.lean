/-
**Reports** on units of source: what the command says about each of them.

Main definitions:

* `QSource.Report.SourceUnit`, `QSource.Report.Checked` — a named source, and the same with its
  findings;
* `QSource.Report.unitsBy`, `QSource.Report.unitsAt` — the units at a path of a file tree, found by
  some walk through its directories, and by `QSource.Directory.walk`;
* `QSource.Report.checkUnit` — checks one unit;
* `QSource.Report.UnitError.messages` — what is said of an error and of its causes;
* `QSource.Report.Checked.textLines`, `QSource.Report.Checked.jsonReport` — what is written about a
  unit that could be checked;
* `QSource.Report.Checked.isFailed`, `QSource.Report.Checked.hasErrors` — whether something is wrong
  with a unit.
-/

import QSource.Check
import QSource.FileTree
import QSource.Report.Json

set_option relaxedAutoImplicit false
set_option autoImplicit false

namespace QSource.Report

/-- A source with the name that it is reported under: its bytes, or why they cannot be had. -/
structure SourceUnit where
  name : String
  content : Except ReadError ByteArray

/-- Why a unit has no findings. -/
inductive UnitError where
  | unreadable (error : ReadError)
  | malformed (error : SourceError)

/-- What is said of the error, and then of its causes; that of a reading error is in its own words
already. -/
def UnitError.messages : UnitError → List String
  | .unreadable error => [s!"failed to read source: {error.message}", error.message]
  | .malformed error => [error.message]

/-- A unit with its findings, or with the reason why there are none. -/
structure Checked where
  name : String
  outcome : Except UnitError (List Finding)

/-- The text of a unit. -/
def SourceUnit.text (u : SourceUnit) : Except ReadError String :=
  match u.content with
  | .error e => .error e
  | .ok bytes =>
    match String.fromUTF8? bytes with
    | some text => .ok text
    | none => .error .notText

/-- Checks one unit. -/
def checkUnit (limits : Thresholds) (u : SourceUnit) : Checked :=
  match u.text with
  | .error e => ⟨u.name, .error (.unreadable e)⟩
  | .ok text =>
    match checkText limits text with
    | .error e => ⟨u.name, .error (.malformed e)⟩
    | .ok found => ⟨u.name, .ok found⟩

/-- The units at a path: the sources that a walk comes by below a directory, or else the file
itself. -/
def unitsBy (walk : String → Directory → List Visit) (root : Directory) (path : String) :
    List SourceUnit :=
  match root.locate path with
  | .error e => [⟨path, .error e⟩]
  | .ok (.file content) => [⟨path, .ok content⟩]
  | .ok (.directory entries) =>
    ((walk path entries).filterMap Visit.source?).map fun (name, bytes) => ⟨name, .ok bytes⟩

/-- The units at a path, the directories being walked in the order of their entries. -/
def unitsAt (root : Directory) (path : String) : List SourceUnit :=
  unitsBy (fun path d => d.walk path) root path

/-! ### What is written -/

/-- A line for each finding of a unit. -/
def Checked.textLines (c : Checked) : List String :=
  match c.outcome with
  | .error _ => []
  | .ok found => found.map fun f => s!"{c.name}:{f.render}\n"

/-- A finding as a JSON value. -/
def jsonFinding (f : Finding) : Json :=
  .object [
    ("ruleName", .text f.rule.name),
    ("severity", .text f.rule.severity.label),
    ("message", .text f.rule.message),
    ("range", .object [("startIndex", .number f.index), ("endIndex", .number f.index)]),
    ("span", .object [("start", .number f.span.start), ("end", .number f.span.stop)]),
    ("position",
      .object [("line", .number f.position.line), ("column", .number f.position.column)])]

/-- The report on a unit that could be checked, as a JSON value. -/
def Checked.jsonReport (c : Checked) : List Json :=
  match c.outcome with
  | .error _ => []
  | .ok found =>
    [.object [("path", .text c.name), ("diagnostics", .array (found.map jsonFinding))]]

/-- Whether a unit could not be checked. -/
def Checked.isFailed (c : Checked) : Bool :=
  match c.outcome with
  | .error _ => true
  | .ok _ => false

/-- Whether a finding of a unit is an error. -/
def Checked.hasErrors (c : Checked) : Bool :=
  match c.outcome with
  | .error _ => false
  | .ok found => found.any fun f => f.rule.severity == .error

end QSource.Report
