/-
**The outline of a tree**: its lambdas, and what the place of every token says about it.

An assignment sign writes to the leaf before it. In the column part of a query and in a table
literal the name of an identifier there is the name of a column instead.

Main definitions:

* `QSource.Mark`, `QSource.Marked` — what the place of a token says about it;
* `QSource.Outline` — marked tokens, in order, and regions, in the order of their opening braces;
* `QSource.Node.outline`, `QSource.Node.outlineAll` — the outline of a node and of a sequence.
-/

import QSource.Lexicon.Vocabulary
import QSource.Scope.Basic
import QSource.Tree.Basic

set_option relaxedAutoImplicit false
set_option autoImplicit false

namespace QSource

/-- What the place of a token says about it. -/
inductive Mark where
  /-- Nothing: a name here is read. -/
  | plain
  /-- A name in a parameter list. -/
  | declaration
  /-- The name of a column. -/
  | column
  /-- The leaf before an assignment sign. -/
  | target (isGlobal isCompound : Bool)
deriving DecidableEq

/-- A token with the innermost region around it and its mark. -/
structure Marked where
  token : Token
  scope : Option ScopeId
  mark : Mark
deriving DecidableEq

/-- Marked tokens and regions. -/
structure Outline where
  marked : List Marked
  regions : List Region

namespace Outline

/-- The outline of nothing. -/
def empty : Outline := ⟨[], []⟩

instance : Append Outline := ⟨fun a b => ⟨a.marked ++ b.marked, a.regions ++ b.regions⟩⟩

@[simp] theorem marked_append (a b : Outline) : (a ++ b).marked = a.marked ++ b.marked := rfl

@[simp] theorem regions_append (a b : Outline) : (a ++ b).regions = a.regions ++ b.regions := rfl

/-- Tokens of the same mark. -/
def ofTokens (scope : Option ScopeId) (mark : Mark) (tokens : List Token) : Outline :=
  ⟨tokens.map (⟨·, scope, mark⟩), []⟩

end Outline

/-! ### What the neighbours of a node say -/

/-- The assignment sign that opens a sequence, blanks and comments aside. -/
def signAhead? : List Node → Option Assignment
  | .leaf .space _ :: rest => signAhead? rest
  | .assignment sign :: _ => some sign
  | _ => none

/-- The mark of a leaf before the given assignment sign. Only identifiers, keywords and literals can
stand to its left. -/
def LeafForm.mark (query : Bool) (sign : Option Assignment) : LeafForm → Mark
  | .identifier =>
    match sign with
    | some sign => if query then .column else .target sign.isGlobal sign.isCompound
    | none => .plain
  | .keyword | .literal =>
    match sign with
    | some sign => .target sign.isGlobal sign.isCompound
    | none => .plain
  | _ => .plain

/-- Whether a sequence begins with brackets, blanks and comments aside, as a table literal does. -/
def isTable (items : List Node) : Bool :=
  match items.dropWhile Node.isSpace with
  | .enclosed .bracket _ _ _ :: _ => true
  | _ => false

/-- Whether columns are being named behind a node of a sequence, where `query` says so before the
node and `initial` at the start of each of its statements. A query word begins the naming of columns
and `from` ends it. A semicolon ends a statement, and so does a line break of the script itself when
no blank or comment follows. -/
def Node.queryAfter (script initial query : Bool) (rest : List Node) : Node → Bool
  | .leaf .keyword word =>
    if queryWords.contains word.text then true
    else if word.text == sourceWord then false
    else query
  | .leaf .semicolon _ => initial
  | .leaf .lineBreak _ => if script && !rest.head?.any Node.isSpace then initial else query
  | _ => query

/-- The names that stand directly in a parameter list, each with the number of its token. -/
def directNames (items : List Node) : List (String × Nat) :=
  items.filterMap fun
    | .leaf .identifier name => some (name.text, name.index)
    | _ => none

/-- The parameters that a lambda declares, given its items. -/
def declaredParams : List Node → Option (List (String × Nat))
  | .enclosed (.params _) _ items _ :: _ => some (directNames items)
  | _ => none

/-- The outline of an item of a parameter list. A name is declared, and anything else is skipped. -/
def Node.paramOutline (scope : Option ScopeId) : Node → Outline
  | .leaf .identifier name => .ofTokens scope .declaration [name]
  | node => .ofTokens scope .plain node.tokens

/-! ### Outlines -/

mutual

/-- The outline of a node in the region `scope`, where `next` is the number of the next region,
`query` says whether columns are being named, and `sign` is the assignment sign behind the node. -/
def Node.outline (scope : Option ScopeId) (next : ScopeId) (query : Bool)
    (sign : Option Assignment) : Node → Outline
  | .leaf form token => .ofTokens scope (form.mark query sign) [token]
  | .assignment parts => .ofTokens scope .plain parts.tokens
  | .quoted first content last => .ofTokens scope .plain (first :: content ++ [last])
  | .enclosed .bracket first items last =>
    .ofTokens scope .plain [first] ++ Node.outlineAll scope next false query query items ++
      .ofTokens scope .plain [last]
  | .enclosed .group first items last =>
    .ofTokens scope .plain [first] ++
      Node.outlineAll scope next false (query || isTable items) (query || isTable items) items ++
      .ofTokens scope .plain [last]
  | .enclosed .lambda first items last =>
    ⟨[], [⟨next, scope, first.index, last.index, declaredParams items⟩]⟩ ++
      .ofTokens (some next) .plain [first] ++
      Node.outlineAll (some next) (next + 1) false false false items ++
      .ofTokens (some next) .plain [last]
  | .enclosed (.params gap) first items last =>
    .ofTokens scope .plain (gap ++ [first]) ++
      (items.map (Node.paramOutline scope)).foldr (· ++ ·) .empty ++ .ofTokens scope .plain [last]

/-- The outline of a sequence. `script` says whether it is the script itself, `initial` whether its
statements begin with columns being named, and `query` whether columns are being named here. -/
def Node.outlineAll (scope : Option ScopeId) (next : ScopeId) (script initial query : Bool) :
    List Node → Outline
  | [] => .empty
  | node :: rest =>
    let here := node.outline scope next query (signAhead? rest)
    here ++ Node.outlineAll scope (next + here.regions.length) script initial
      (node.queryAfter script initial query rest) rest

end

/-- The outline of a whole script. -/
def outline (nodes : List Node) : Outline := Node.outlineAll none 0 true false false nodes

end QSource
