/-
**What names stand for.** A name is looked up from its own scope outwards: the first scope that has
it as a parameter or assigns it owns it, and a name without an owner is global.

Main definitions:

* `QSource.Marked.introducesLocal` — the tokens that make a name local to their scope;
* `QSource.Outline.scopes` — the scopes of an outline;
* `QSource.resolve` — the role of a name and the scope that owns it;
* `QSource.analyze` — the annotated tokens and the scopes of a tree.
-/

import QSource.Scope.Outline

set_option relaxedAutoImplicit false
set_option autoImplicit false

namespace QSource

/-! ### Local names -/

/-- Adds a name to a list in strictly increasing order. -/
def insertName (name : String) : List String → List String
  | [] => [name]
  | head :: rest =>
    if name < head then name :: head :: rest
    else if name = head then head :: rest
    else head :: insertName name rest

@[simp] theorem mem_insertName {name other : String} {names : List String} :
    other ∈ insertName name names ↔ other = name ∨ other ∈ names := by
  induction names with
  | nil => simp [insertName]
  | cons head rest ih =>
    simp only [insertName]
    split
    · simp
    · split
      · next h => simp [h]
      · simp only [List.mem_cons, ih]
        exact or_left_comm

/-- The names of a list, each once and in order. -/
def sortedNames (names : List String) : List String := names.foldr insertName []

@[simp] theorem mem_sortedNames {name : String} {names : List String} :
    name ∈ sortedNames names ↔ name ∈ names := by
  induction names with
  | nil => simp [sortedNames]
  | cons head rest ih => simp_all [sortedNames]

/-- A token makes its name local if it is a name without points and an assignment with a single
colon writes to it. -/
def Marked.introducesLocal (m : Marked) : Bool :=
  m.token.kind == .identifier && !m.token.text.toList.contains '.' &&
    match m.mark with
    | .target isGlobal _ => !isGlobal
    | _ => false

/-- The names that `targets` make local to the region `id`. -/
def localNames (targets : List Marked) (id : ScopeId) : List String :=
  sortedNames ((targets.filter fun m => m.scope == some id).map (·.token.text))

/-- The scopes of an outline, in the order of their opening braces. -/
def Outline.scopes (o : Outline) : List Scope :=
  let targets := o.marked.filter Marked.introducesLocal
  o.regions.map fun region => ⟨region, localNames targets region.id⟩

/-! ### Roles -/

/-- The role of a name that no scope owns. -/
def unownedRole (name : String) : Role := if inSystemNamespace name then .builtIn else .globalVar

/-- The role that a scope gives to a name of its own, parameters first. -/
def Scope.roleOf? (scope : Scope) (name : String) : Option Role :=
  if scope.hasParam name then some .parameter
  else if scope.locals.contains name then some .localVar
  else none

/-- The role of a name and the scope that owns it, among the scopes around it from the inside
out. -/
def resolve (enclosing : List Scope) (name : String) : Role × Option ScopeId :=
  match enclosing.findSome? fun scope => (scope.roleOf? name).map fun role => (role, scope.id) with
  | some (role, id) => (role, some id)
  | none => (unownedRole name, none)

/-- How a token with a mark is used where a name is expected. -/
def Mark.usage : Mark → Usage
  | .target _ _ => .assignment
  | _ => .reference

/-- An operator before the assignment sign reads the name before it is written. -/
def Mark.isCompound : Mark → Bool
  | .target _ isCompound => isCompound
  | _ => false

/-- The annotations of a marked token, given the table of scopes with its last scope first. A target
of `::` is never a variable of a scope. -/
def Marked.annotate (scopes : List Scope) (m : Marked) : AnnotatedToken :=
  match m.token.kind, m.mark with
  | .identifier, .declaration => ⟨m.token, m.scope, some .parameter, none, false, m.scope⟩
  | .identifier, .column => ⟨m.token, m.scope, none, none, false, none⟩
  | .identifier, .target true isCompound =>
    ⟨m.token, m.scope, some (unownedRole m.token.text), some .assignment, isCompound, none⟩
  | .identifier, mark =>
    let owner := resolve (Scope.enclosing m.scope scopes) m.token.text
    ⟨m.token, m.scope, some owner.1, some mark.usage, mark.isCompound, owner.2⟩
  | .keyword, mark => ⟨m.token, m.scope, some .builtIn, some mark.usage, false, none⟩
  | .literal _, .target _ _ => ⟨m.token, m.scope, none, some .assignment, false, none⟩
  | _, _ => ⟨m.token, m.scope, none, none, false, none⟩

/-- The annotated tokens and the scopes of a tree. -/
def analyze (nodes : List Node) : Analysis :=
  let o := outline nodes
  ⟨o.marked.map (Marked.annotate o.scopes.reverse), o.scopes⟩

end QSource
