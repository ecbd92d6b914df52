/-
**Character classes** of q source text.

Every class here lies inside ASCII: a character from outside ASCII never continues a word, is never
a blank and is never a digit, so it can only stand where any character is allowed.

Main definitions:

* `QSource.Text.isWordChar` — the characters of a word;
* `QSource.Text.isBlank` — the characters that separate without ending a line;
* `QSource.Text.endsWord` — nothing, or a character that no word goes on with.
-/

set_option relaxedAutoImplicit false
set_option autoImplicit false

namespace QSource.Text

/-- Letters, digits and the underscore make up words. -/
def isWordChar (c : Char) : Bool := c.isAlphanum || c == '_'

/-- Spaces and tabs are blanks. -/
def isBlank (c : Char) : Bool := c == ' ' || c == '\t'

/-- The sixteen digits of either letter case. -/
def isHexDigit (c : Char) : Bool :=
  c.isDigit || ('a' ≤ c && c ≤ 'f') || ('A' ≤ c && c ≤ 'F')

/-- Whether a word that stops before `next` is complete: `next` is the end of the text or a
character that is not part of any word. -/
def endsWord (next : Option Char) : Bool := !next.any isWordChar

@[simp] theorem endsWord_none : endsWord none = true := rfl

@[simp] theorem endsWord_some (c : Char) : endsWord (some c) = !isWordChar c := rfl

end QSource.Text
