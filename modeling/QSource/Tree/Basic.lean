/-
**Trees of tokens.** A script is a list of nodes; delimiters nest, quoted texts and assignment signs
are grouped, and every other token is a leaf.

Main definitions:

* `QSource.Node` — the nodes;
* `QSource.Node.tokens`, `QSource.Node.allTokens` — the tokens of a node and of a list of nodes, in
  their order;
* `QSource.Node.preorder` — the nodes under a list of nodes, each with its depth.
-/

import QSource.Token.Basic

set_option relaxedAutoImplicit false
set_option autoImplicit false

namespace QSource

/-- The tokens that stand alone in a tree. -/
inductive LeafForm where
  | iterator
  | literal
  | keyword
  | identifier
  | command
  | lineBreak
  | space
  | operator
  | semicolon
deriving DecidableEq

/-- The leaf that a token of a kind makes; delimiters, quotes and colons make none. -/
def Kind.leafForm? : Kind → Option LeafForm
  | .iterator => some .iterator
  | .literal _ => some .literal
  | .keyword => some .keyword
  | .identifier => some .identifier
  | .command => some .command
  | .lineBreak => some .lineBreak
  | .comment _ => some .space
  | .whitespace => some .space
  | .operator => some .operator
  | .semicolon => some .semicolon
  | _ => none

/-- An assignment sign: a colon or a double colon, perhaps with an operator before it, and perhaps
with blanks between the two. -/
structure Assignment where
  operator : Option Token
  gap : List Token
  colon : Token
deriving DecidableEq

/-- A double colon assigns to a global. -/
def Assignment.isGlobal (a : Assignment) : Bool := a.colon.kind == .doubleColon

/-- An operator before the colon applies it to the old value. -/
def Assignment.isCompound (a : Assignment) : Bool := a.operator.isSome

/-- The tokens of an assignment sign. -/
def Assignment.tokens (a : Assignment) : List Token := a.operator.toList ++ a.gap ++ [a.colon]

/-- What a pair of delimiters encloses. A parameter list is the first item of its lambda and carries
the blanks between the two opening delimiters. -/
inductive Enclosure where
  | bracket
  | group
  | lambda
  | params (gap : List Token)
deriving DecidableEq

/-- The tokens between the start of an enclosure and its opening delimiter. -/
def Enclosure.gap : Enclosure → List Token
  | .params gap => gap
  | _ => []

/-- A node of a tree. -/
inductive Node where
  /-- A token on its own. -/
  | leaf (form : LeafForm) (token : Token)
  /-- An assignment sign. -/
  | assignment (parts : Assignment)
  /-- A quoted text, from its opening to its closing quote. -/
  | quoted (first : Token) (content : List Token) (last : Token)
  /-- Whatever stands between two delimiters. -/
  | enclosed (form : Enclosure) (first : Token) (items : List Node) (last : Token)

/-- Blanks and comments. -/
def Node.isSpace : Node → Bool
  | .leaf .space _ => true
  | _ => false

mutual

/-- The tokens of a node, in their order. -/
def Node.tokens : Node → List Token
  | .leaf _ token => [token]
  | .assignment parts => parts.tokens
  | .quoted first content last => first :: content ++ [last]
  | .enclosed form first items last => form.gap ++ first :: Node.allTokens items ++ [last]

/-- The tokens of a list of nodes, in their order. -/
def Node.allTokens : List Node → List Token
  | [] => []
  | node :: nodes => node.tokens ++ Node.allTokens nodes

end

mutual

/-- A node and the nodes below it, with their depths. -/
def Node.withDepth (depth : Nat) : Node → List (Nat × Node)
  | .enclosed form first items last =>
    (depth, .enclosed form first items last) :: Node.preorder (depth + 1) items
  | node => [(depth, node)]

/-- The nodes of a list and the nodes below them, with their depths. -/
def Node.preorder (depth : Nat) : List Node → List (Nat × Node)
  | [] => []
  | node :: nodes => node.withDepth depth ++ Node.preorder depth nodes

end

end QSource
