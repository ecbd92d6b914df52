/-
**Words**: keywords and names.

Main definitions:

* `QSource.keywordLength?` — a built-in word that stands on its own;
* `QSource.nameLength?` — a name, dotted or not.
-/

import QSource.Lexicon.Vocabulary
import QSource.Text.Class

set_option relaxedAutoImplicit false
set_option autoImplicit false

namespace QSource

open Text

/-- The length of a keyword at the start of `s`: a whole built-in word with no point on either side,
since a point makes it part of a dotted name. -/
def keywordLength? (prev : Option Char) (s : List Char) : Option Nat :=
  let word := s.takeWhile isWordChar
  if s.head?.any Char.isAlpha ∧ prev ≠ some '.' ∧ isReserved (String.ofList word) ∧
      s[word.length]? ≠ some '.' then
    some word.length
  else
    none

/-- The number of characters that continue a name: the characters of words, and every point that a
character of a word follows. -/
def nameTail : List Char → Nat
  | [] => 0
  | c :: rest =>
    if isWordChar c || (c == '.' && rest.head?.any isWordChar) then 1 + nameTail rest else 0

/-- The length of a name at the start of a text. A name opens with a letter, or with a point and a
letter. -/
def nameLength? : List Char → Option Nat
  | [] => none
  | c :: rest =>
    if c.isAlpha || (c == '.' && rest.head?.any Char.isAlpha) then some (1 + nameTail rest)
    else none

end QSource
