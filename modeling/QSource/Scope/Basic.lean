/-
**Scopes and annotated tokens.** Every lambda opens a scope. A scope without a parameter list has
the parameters `x`, `y` and `z`.

Main definitions:

* `QSource.Region`, `QSource.Scope` — the extent of a lambda, and the same with its local names;
* `QSource.Scope.hasParam` — whether a name is a parameter of a scope;
* `QSource.Scope.enclosing` — a scope of a table with the scopes around it, from the inside out;
* `QSource.Role`, `QSource.Usage` — what a name stands for, and whether it is written or read;
* `QSource.AnnotatedToken`, `QSource.Analysis` — tokens with what is known about them.
-/

import QSource.Token.Basic

set_option relaxedAutoImplicit false
set_option autoImplicit false

namespace QSource

/-- The number of a scope: scopes are numbered in the order of their opening braces. -/
abbrev ScopeId := Nat

/-- The extent of a lambda: its number, the number of the lambda around it, the numbers of its
braces among the tokens, and the names of its parameter list, if it has one, each with the number
of its token. -/
structure Region where
  id : ScopeId
  parent : Option ScopeId
  first : Nat
  last : Nat
  declared : Option (List (String × Nat))
deriving DecidableEq

/-- A region with the names that are assigned directly inside it, in order. -/
structure Scope extends Region where
  locals : List String
deriving DecidableEq

/-- The parameters of a scope that declares none. -/
def defaultParams : List String := ["x", "y", "z"]

/-- Whether `name` is a parameter of the region. -/
def Region.hasParam (r : Region) (name : String) : Bool :=
  match r.declared with
  | some params => params.any fun param => param.1 == name
  | none => defaultParams.contains name

/-- The scope with number `id` and the scopes around it, from the inside out. The table is given
with its last scope first, so that a scope comes before its parent. -/
def Scope.enclosing : Option ScopeId → List Scope → List Scope
  | none, _ => []
  | some _, [] => []
  | some id, scope :: older =>
    if id = scope.id then scope :: Scope.enclosing scope.parent older
    else Scope.enclosing (some id) older

/-- What an identifier stands for. -/
inductive Role where
  | parameter
  | localVar
  | globalVar
  | builtIn
deriving DecidableEq

/-- Whether an occurrence is written or read. -/
inductive Usage where
  | assignment
  | reference
deriving DecidableEq

/-- A token with the innermost scope around it and, where it is a name, its role, its usage, whether
it is read before it is written, and the scope that owns it. -/
structure AnnotatedToken extends Token where
  scope : Option ScopeId
  role : Option Role
  usage : Option Usage
  reversed : Bool
  binding : Option ScopeId
deriving DecidableEq

namespace AnnotatedToken

/-- A name, as opposed to a built-in word. -/
def isIdentifier (t : AnnotatedToken) : Bool := t.kind == .identifier

/-- An occurrence that is written. -/
def isAssignment (t : AnnotatedToken) : Bool := t.usage == some .assignment

/-- An occurrence that is read. -/
def isReference (t : AnnotatedToken) : Bool := t.usage == some .reference

/-- A name in a parameter list: a parameter that is neither written nor read. -/
def isDeclaration (t : AnnotatedToken) : Bool := t.role == some .parameter && t.usage == none

end AnnotatedToken

/-- The tokens of a tree with their annotations, and the scopes. -/
structure Analysis where
  tokens : List AnnotatedToken
  scopes : List Scope
deriving DecidableEq

end QSource
