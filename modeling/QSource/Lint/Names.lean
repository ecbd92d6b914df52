/-
**Rules about how names are written and read.**

Main definitions:

* `QSource.sameVariable` — two occurrences of one variable;
* `QSource.unusedParams`, `QSource.unusedVars` — parameters and variables that nothing reads;
* `QSource.earlierUses` — the occurrences of a variable before one of its occurrences;
* `QSource.lateDeclarations` — locals that their own scope reads first.
-/

import QSource.Scope.Basic

set_option relaxedAutoImplicit false
set_option autoImplicit false

namespace QSource

/-- Whether `b` is another occurrence of the name `a` with the same owner. -/
def sameVariable (a b : AnnotatedToken) : Bool :=
  a.index != b.index && b.isIdentifier && a.text == b.text && a.binding == b.binding

/-- Declared parameters that no other occurrence reads. -/
def unusedParams (tokens : List AnnotatedToken) : List AnnotatedToken :=
  let references := tokens.filter AnnotatedToken.isReference
  tokens.filter fun param => param.isDeclaration && !references.any (sameVariable param)

/-- Whether an occurrence reads its variable, be it only before it writes it. -/
def AnnotatedToken.reads (t : AnnotatedToken) : Bool := t.isReference || t.reversed

/-- Whether none of the occurrences in `readers` uses the variable written at `target`. A local has
to be read through the same owner, and a global may be read wherever it is global; other targets
count as used. -/
def lacksUse (readers : List AnnotatedToken) (target : AnnotatedToken) : Bool :=
  match target.role with
  | some .localVar => !readers.any (sameVariable target)
  | some .globalVar =>
    !readers.any fun other =>
      other.index != target.index && other.role == some .globalVar && other.text == target.text
  | _ => false

/-- Names that are written although nothing uses them. -/
def unusedVars (tokens : List AnnotatedToken) : List AnnotatedToken :=
  let readers := tokens.filter AnnotatedToken.reads
  tokens.filter fun target =>
    target.isIdentifier && target.isAssignment && lacksUse readers target

/-- A local that is written without being read first. -/
def isPlainDeclaration (t : AnnotatedToken) : Bool :=
  t.isIdentifier && t.isAssignment && !t.reversed && t.role == some .localVar

/-- The occurrences in `uses` of the variable of a token, in its own scope and before it. -/
def earlierUses (uses : List AnnotatedToken) (t : AnnotatedToken) : List AnnotatedToken :=
  uses.filter fun other => other.index < t.index && sameVariable t other && other.scope == t.scope

/-- Locals that are read in their own scope before it first writes them; of several writes only the
first is meant. -/
def lateDeclarations (tokens : List AnnotatedToken) : List AnnotatedToken :=
  let uses := tokens.filter fun t => t.isIdentifier && t.usage.isSome
  tokens.filter fun target =>
    isPlainDeclaration target &&
      (earlierUses uses target).head?.any AnnotatedToken.isReference &&
      !(earlierUses uses target).any fun other => other.isAssignment && !other.reversed

end QSource
