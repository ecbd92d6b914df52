/-
**File trees**: directories and files as a value, paths into them, and the sources below a path.

The entries of a directory are kept in the order of their names, and a walk visits them in that
order, what stands in a directory directly behind it.

Main definitions:

* `QSource.FileTree`, `QSource.Directory` — files and directories, and the entries of a directory;
* `QSource.pathParts` — the names of a path;
* `QSource.Directory.addFile` — puts a file into a tree;
* `QSource.Directory.locate` — what stands at a path;
* `QSource.Visit`, `QSource.Directory.walk` — a walk through everything below a directory;
* `QSource.isSourceName` — the names of source files;
* `QSource.Visit.source?` — the source files that a walk comes by.
-/

set_option relaxedAutoImplicit false
set_option autoImplicit false

namespace QSource

mutual

/-- A file with its bytes, or a directory. -/
inductive FileTree where
  | file (content : ByteArray)
  | directory (entries : Directory)

/-- The entries of a directory. Their names are texts. -/
inductive Directory where
  | empty
  | entry (name : String) (tree : FileTree) (rest : Directory)

end

namespace Directory

/-- The entry of a name. -/
def get? (name : String) : Directory → Option FileTree
  | .empty => none
  | .entry other tree rest => if name = other then some tree else rest.get? name

/-- Changes the entry of a name, or adds one at its place in the order. -/
def update (name : String) (change : Option FileTree → FileTree) : Directory → Directory
  | .empty => .entry name (change none) .empty
  | .entry other tree rest =>
    if name = other then .entry other (change (some tree)) rest
    else if name < other then .entry name (change none) (.entry other tree rest)
    else .entry other tree (rest.update name change)

/-- The entries of a directory; of anything else, none. -/
def ofTree? : Option FileTree → Directory
  | some (.directory entries) => entries
  | _ => .empty

/-- Puts a file at the end of the given names, making the directories on the way. -/
def insertFile (content : ByteArray) : List String → Directory → Directory
  | [], entries => entries
  | [name], entries => entries.update name fun _ => .file content
  | name :: rest, entries =>
    entries.update name fun old => .directory (insertFile content rest (ofTree? old))

end Directory

/-! ### Paths -/

/-- A text cut at every occurrence of a character, which is left out. -/
def splitAtChar (separator : Char) : List Char → List (List Char)
  | [] => [[]]
  | c :: rest =>
    if c = separator then [] :: splitAtChar separator rest
    else
      match splitAtChar separator rest with
      | part :: parts => (c :: part) :: parts
      | [] => [[c]]

/-- The parts of a path between its slashes. -/
def pathParts (path : String) : List String := (splitAtChar '/' path.toList).map String.ofList

/-- Whether a part of a path leads nowhere else. -/
def staysPut (name : String) : Bool := name == "" || name == "."

/-- Puts a file at a path from the root of the tree. -/
def Directory.addFile (path : String) (content : ByteArray) (root : Directory) : Directory :=
  root.insertFile content ((pathParts path).filter fun name => !staysPut name)

/-- The path of an entry below `path`. -/
def childPath (path name : String) : String :=
  if path.toList.getLast? = some '/' then path ++ name else path ++ "/" ++ name

/-- Why a path has no text. -/
inductive ReadError where
  | missing
  | notADirectory
  | notText
  /-- A reason of the system's own. -/
  | refused (reason : String)
deriving DecidableEq

/-- The words for a reading error. -/
def ReadError.message : ReadError → String
  | .missing => "No such file or directory (os error 2)"
  | .notADirectory => "Not a directory (os error 20)"
  | .notText => "stream did not contain valid UTF-8"
  | .refused reason => reason

/-- What stands at the end of a path of names. Empty names and `.` stay where they are, and `..`
goes back to the directory around, `around` being the directories on the way, the innermost
first. -/
def FileTree.locate (around : List Directory) : List String → FileTree → Except ReadError FileTree
  | [], tree => .ok tree
  | _ :: _, .file _ => .error .notADirectory
  | name :: rest, .directory entries =>
    if staysPut name then FileTree.locate around rest (.directory entries)
    else if name = ".." then
      match around with
      | [] => .error .missing
      | parent :: outer => FileTree.locate outer rest (.directory parent)
    else
      match entries.get? name with
      | some tree => FileTree.locate (entries :: around) rest tree
      | none => .error .missing

/-- What stands at a path, seen from the root of the tree. There is nothing at absolute paths. -/
def Directory.locate (root : Directory) (path : String) : Except ReadError FileTree :=
  if path.toList.head? = some '/' then .error .missing
  else FileTree.locate [] (pathParts path) (.directory root)

/-! ### Walks -/

/-- What a walk comes by: what stands below a directory, with its name and its path. -/
structure Visit where
  path : String
  name : String
  tree : FileTree

/-- A walk through everything below a directory with the given path. -/
def Directory.walk (path : String) : Directory → List Visit
  | .empty => []
  | .entry name (.file content) rest =>
    ⟨childPath path name, name, .file content⟩ :: rest.walk path
  | .entry name (.directory entries) rest =>
    ⟨childPath path name, name, .directory entries⟩ ::
      (entries.walk (childPath path name) ++ rest.walk path)

/-! ### Sources -/

/-- The extension of a file name: what follows its last point, unless that point opens the name. -/
def extension? (name : String) : Option String :=
  match (splitAtChar '.' name.toList).reverse with
  | _ :: [] :: [] => none
  | last :: _ :: _ => some (String.ofList last)
  | _ => none

/-- The names of source files have the extension `q` or `k`. -/
def isSourceName (name : String) : Bool :=
  match extension? name with
  | some extension => extension == "q" || extension == "k"
  | none => false

/-- The path and the bytes of a source file. -/
def Visit.source? (v : Visit) : Option (String × ByteArray) :=
  match v.tree with
  | .file content => if isSourceName v.name then some (v.path, content) else none
  | .directory _ => none

end QSource
