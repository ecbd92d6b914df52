/-
**The arguments of the command**, read from left to right.

The first argument that is wrong makes the whole command line wrong, unless the version or help has
been asked for before it.

Main definitions:

* `QSource.Command.classify` — tells what an argument is;
* `QSource.Command.readArguments` — reads the arguments.
-/

import QSource.Command.Options
import QSource.FileTree
import QSource.Text.Digits

set_option relaxedAutoImplicit false
set_option autoImplicit false

namespace QSource.Command

open Text

/-- What has been read of a command line. -/
structure Collected where
  format : Option Format := none
  lineLength : Option Nat := none
  verbosity : Nat := 0
  paths : List String := []
deriving DecidableEq

/-- The options that have been asked for, and the usual ones otherwise. -/
def Collected.options (o : Collected) : Options :=
  ⟨o.paths, o.format.getD .text, o.lineLength, o.verbosity⟩

/-- Asks for more logging. The count stays within eight bits. -/
def Collected.verbose (o : Collected) : Collected := { o with verbosity := min (o.verbosity + 1) 255 }

/-- The version that is shown. -/
def versionText : String := "qlint 0.1.0\n"

/-- The help that is shown. -/
def helpText : String :=
  "Static analysis for q/kdb+ source files\n\n" ++
  "Usage: qlint [OPTIONS] [PATHS]...\n\n" ++
  "Arguments:\n" ++
  "  [PATHS]...  Files or directories to lint. Reads one unit from stdin when empty\n\n" ++
  "Options:\n" ++
  "      --format <FORMAT>      [default: text] [possible values: text, json]\n" ++
  "      --max-line-length <N>  Longest allowed line (default 200)\n" ++
  "  -v, --verbose...           Log more (-v debug, -vv trace)\n" ++
  "  -h, --help                 Print help\n" ++
  "  -V, --version              Print version\n"

/-- The name of a format. -/
def readFormat? (s : String) : Option Format :=
  if s = "text" then some .text else if s = "json" then some .json else none

/-- A number of at most 64 bits: decimal digits, perhaps with a plus sign before them. -/
def readNumber? (s : String) : Option Nat :=
  let digits := match s.toList with
    | '+' :: rest => rest
    | all => all
  if digits.isEmpty || !digits.all Char.isDigit then none
  else if digitsValue digits < UInt64.size then some (digitsValue digits)
  else none

/-- Gives an option its value. No option may be given twice. -/
def Collected.set? (o : Collected) (name value : String) : Option Collected :=
  if name = "--format" then
    if o.format.isSome then none
    else (readFormat? value).map fun format => { o with format := some format }
  else if name = "--max-line-length" then
    if o.lineLength.isSome then none
    else (readNumber? value).map fun n => { o with lineLength := some n }
  else none

/-- Adds a path, which must not be empty. -/
def Collected.addPath? (o : Collected) (path : String) : Option Collected :=
  if path = "" then none else some { o with paths := o.paths ++ [path] }

/-- What an argument is. -/
inductive Argument where
  /-- Only paths follow. -/
  | pathsOnly
  /-- A row of one-letter options. -/
  | letters (letters : List Char)
  /-- An option with its value attached. -/
  | setting (name value : String)
  /-- An option whose value is the next argument. -/
  | option (name : String)
  | path (path : String)
deriving DecidableEq

/-- Tells what an argument is. Two dashes open the name of an option, which runs up to an equals
sign; one dash opens a row of letters, and some of these have names too; a dash on its own is a
path. -/
def classify (arg : String) : Argument :=
  match arg.toList with
  | ['-', '-'] => .pathsOnly
  | '-' :: '-' :: rest =>
    match splitAtChar '=' rest with
    | [_] =>
      if arg = "--version" then .letters ['V']
      else if arg = "--help" then .letters ['h']
      else if arg = "--verbose" then .letters ['v']
      else .option arg
    | name :: _ =>
      .setting (String.ofList ('-' :: '-' :: name)) (String.ofList (rest.drop (name.length + 1)))
    | [] => .option arg
  | '-' :: c :: letters => .letters (c :: letters)
  | _ => .path arg

/-- Reads a row of letters: what has been read behind it, or what it comes to. -/
def readLetters (o : Collected) : List Char → Except Invocation Collected
  | [] => .ok o
  | 'v' :: letters => readLetters o.verbose letters
  | 'V' :: _ => .error (.shown versionText)
  | 'h' :: _ => .error (.shown helpText)
  | _ => .error .rejected

/-- What a command line comes to if something has been read, and is wrong otherwise. -/
def orRejected (o : Option Collected) (behind : Collected → Invocation) : Invocation :=
  match o with
  | none => .rejected
  | some o => behind o

/-- Reads the arguments that are left. -/
def readFrom (o : Collected) : List String → Invocation
  | [] => .accepted o.options
  | arg :: rest =>
    match classify arg with
    | .pathsOnly => orRejected (rest.foldlM Collected.addPath? o) fun o => .accepted o.options
    | .letters letters =>
      match readLetters o letters with
      | .ok o => readFrom o rest
      | .error invocation => invocation
    | .setting name value => orRejected (o.set? name value) fun o => readFrom o rest
    | .path path => orRejected (o.addPath? path) fun o => readFrom o rest
    | .option name =>
      match rest with
      | [] => .rejected
      | value :: rest => orRejected (o.set? name value) fun o => readFrom o rest

/-- Reads the arguments. -/
def readArguments (args : List String) : Invocation := readFrom {} args

end QSource.Command
