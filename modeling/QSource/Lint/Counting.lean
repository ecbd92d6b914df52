/-
**Rules about the size of a lambda.** Each counts distinct things per scope and objects to the first
one that is too many.

Main definitions:

* `QSource.Counted` — something to count: a scope, what tells it apart, and its token;
* `QSource.firstExcess` — the tokens at which scopes come to have too many things;
* `QSource.countedParams`, `QSource.countedConstants`, `QSource.countedGlobals`,
  `QSource.countedLocals` — the things that the four rules count.
-/

import QSource.Scope.Basic

set_option relaxedAutoImplicit false
set_option autoImplicit false

namespace QSource

/-- A thing to count: the scope that it counts for, a key that tells it from other things, and the
token to blame. -/
structure Counted (κ : Type) where
  scope : ScopeId
  key : κ
  token : AnnotatedToken

/-- The tokens of the things with which some scope comes to have more than `limit` distinct ones.
`seen` holds the scopes and keys of the things before. -/
def firstExcessFrom {κ : Type} [BEq κ] (limit : Nat) (seen : List (ScopeId × κ)) :
    List (Counted κ) → List AnnotatedToken
  | [] => []
  | item :: rest =>
    if seen.contains (item.scope, item.key) then firstExcessFrom limit seen rest
    else
      (if seen.countP (fun entry => entry.1 == item.scope) = limit then [item.token] else []) ++
        firstExcessFrom limit ((item.scope, item.key) :: seen) rest

/-- For each scope with more than `limit` distinct things the token of the first one too many. -/
def firstExcess {κ : Type} [BEq κ] (limit : Nat) (items : List (Counted κ)) :
    List AnnotatedToken :=
  firstExcessFrom limit [] items

/-! ### What is counted -/

/-- The declared parameters of every scope, told apart by their place in the list. -/
def countedParams (tokens : List AnnotatedToken) : List (Counted Nat) :=
  tokens.filterMap fun t =>
    if t.isDeclaration then t.scope.map fun scope => ⟨scope, t.index, t⟩ else none

/-- The globals that are named in every scope. -/
def countedGlobals (tokens : List AnnotatedToken) : List (Counted String) :=
  tokens.filterMap fun t =>
    if t.role == some .globalVar then t.scope.map fun scope => ⟨scope, t.text, t⟩ else none

/-- The locals that are assigned, each for the scope that owns it. -/
def countedLocals (tokens : List AnnotatedToken) : List (Counted String) :=
  tokens.filterMap fun t =>
    if t.role == some .localVar && t.isAssignment then
      t.binding.map fun scope => ⟨scope, t.text, t⟩
    else
      none

/-- A constant of the scope around a token; there is none outside of all scopes. -/
def constantAt (token : AnnotatedToken) (text : String) : List (Counted String) :=
  (token.scope.map fun scope => ⟨scope, text, token⟩).toList

/-- The constants of every scope: the literals that are not assigned to, and the quoted texts, each
as a whole and blamed on its opening quote. `quote` is the quoted text under way, with its text up
to here. -/
def constantsFrom (quote : Option (AnnotatedToken × String)) :
    List AnnotatedToken → List (Counted String)
  | [] => []
  | t :: rest =>
    match t.kind with
    | .openQuote => constantsFrom (some (t, "\"")) rest
    | .quotedText | .quotedEscape =>
      constantsFrom (quote.map fun (first, text) => (first, text ++ t.text)) rest
    | .closeQuote =>
      (match quote with
        | some (first, text) => constantAt first text
        | none => []) ++ constantsFrom none rest
    | .literal _ =>
      (if t.isAssignment then [] else constantAt t t.text) ++ constantsFrom quote rest
    | _ => constantsFrom quote rest

/-- The constants of every scope. -/
def countedConstants (tokens : List AnnotatedToken) : List (Counted String) :=
  constantsFrom none tokens

end QSource
