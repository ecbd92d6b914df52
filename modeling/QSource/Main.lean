/-
**The command line program.** It reads the input or the files that are named, and leaves all
decisions to `QSource.Command.run`. A directory is a path that cannot be read from here.

Main definitions:

* `main` — the program.
-/

import QSource.Command.Run

set_option relaxedAutoImplicit false
set_option autoImplicit false

namespace QSource.Command

open Report

/-- Everything that a stream still holds, behind what has been read of it. -/
partial def readAll (stream : IO.FS.Stream) (before : ByteArray) : IO ByteArray := do
  let chunk ← stream.read 65536
  if chunk.isEmpty then
    return before
  readAll stream (before ++ chunk)

/-- The unit of a file that is named. -/
def readUnit (path : String) : IO SourceUnit := do
  try
    return ⟨path, .ok (← IO.FS.readBinFile path)⟩
  catch
    | .noFileOrDirectory _ _ _ => return ⟨path, .error .missing⟩
    | e => return ⟨path, .error (.refused (toString e))⟩

/-- The paths that are to be checked. -/
def Invocation.paths : Invocation → List String
  | .accepted o => o.paths
  | _ => []

/-- Whether the input is to be checked. -/
def Invocation.readsInput : Invocation → Bool
  | .accepted o => o.paths.isEmpty
  | _ => false

end QSource.Command

open QSource QSource.Command QSource.Report in
/-- Runs the command and returns its exit code. -/
def main (args : List String) : IO UInt32 := do
  let invocation := readArguments args
  let input ←
    if invocation.readsInput then readAll (← IO.getStdin) ByteArray.empty
    else pure ByteArray.empty
  let named ← invocation.paths.mapM readUnit
  match run args input fun path => (named.find? fun u => u.name == path).toList with
  | .misused =>
    IO.eprintln "usage: qlint [--format text|json] [--max-line-length N] [PATH]..."
    return 2
  | .finished code output errors =>
    IO.print output
    IO.eprint errors
    return code.toUInt32
