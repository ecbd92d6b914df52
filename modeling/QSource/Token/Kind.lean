/-
**Kinds of tokens.**

Main definitions:

* `QSource.Delimiter` — the three pairs that nest;
* `QSource.CommentForm`, `QSource.LiteralForm` — the forms of comments and of literals that are one
  token;
* `QSource.Kind` — the kinds of tokens;
* `QSource.Kind.isSkippable`, `QSource.Kind.isColon`, `QSource.Kind.isLiteral` — layout without
  meaning, assignment signs, and values.
-/

set_option relaxedAutoImplicit false
set_option autoImplicit false

namespace QSource

/-- The pairs `( )`, `[ ]` and `{ }`. -/
inductive Delimiter where
  | paren
  | bracket
  | brace
deriving DecidableEq

/-- A comment between marker lines, one that runs to the end of the text, and one that ends with
its line. -/
inductive CommentForm where
  | block
  | final
  | line
deriving DecidableEq

/-- The forms of a literal that is a single token. -/
inductive LiteralForm where
  | symbol
  | filePath
  | infinity
  | timestamp
  | datetime
  | milliTime
  | nanoTime
  | date
  | month
  | second
  | minute
  | bits
  | bytes
  | number
deriving DecidableEq

/-- The kind of a token. A text in quotes is several tokens: the opening quote, runs of plain
characters and of escapes, and the closing quote. -/
inductive Kind where
  | comment (form : CommentForm)
  | literal (form : LiteralForm)
  | openQuote
  | quotedText
  | quotedEscape
  | closeQuote
  | keyword
  | identifier
  | whitespace
  | lineBreak
  | command
  | doubleColon
  | colon
  | semicolon
  | iterator
  | operator
  | opening (pair : Delimiter)
  | closing (pair : Delimiter)
deriving DecidableEq

/-- Blanks and comments, which may stand between any two other tokens. -/
def Kind.isSkippable : Kind → Bool
  | .whitespace | .comment _ => true
  | _ => false

/-- The signs of an assignment. -/
def Kind.isColon : Kind → Bool
  | .colon | .doubleColon => true
  | _ => false

/-- Values written as one token; a text in quotes is not among them. -/
def Kind.isLiteral : Kind → Bool
  | .literal _ => true
  | _ => false

end QSource
