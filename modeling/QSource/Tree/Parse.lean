/-
**Nesting tokens.** One pass over the tokens keeps the sequences that are still open.

Main definitions:

* `QSource.ParseError` — what is wrong with the nesting, and the token to blame;
* `QSource.Nesting` — the nodes read so far and the delimiters that wait for their partners;
* `QSource.Nesting.read` — reads one token;
* `QSource.parse` — the tree of a sequence of tokens;
* `QSource.parseText` — the tree of a text.
-/

import QSource.Token.Scan
import QSource.Tree.Basic

set_option relaxedAutoImplicit false
set_option autoImplicit false

namespace QSource

/-- The number of delimiters that may be open at the same time. -/
def maxDepth : Nat := 128

/-- What can be wrong with the nesting of tokens. -/
inductive Misplacement where
  /-- A delimiter or an opening quote has no partner. -/
  | unmatched
  /-- A piece of quoted text stands outside quotes. -/
  | unexpected
  /-- A delimiter opens one level too many. -/
  | tooDeep
deriving DecidableEq

/-- A misplacement with the token to blame. -/
structure ParseError where
  fault : Misplacement
  token : Token
deriving DecidableEq

/-- The full text of the error. -/
def ParseError.message (e : ParseError) : String :=
  let cause := match e.fault with
    | .unmatched => s!"unmatched `{e.token.text}`"
    | .unexpected => s!"unexpected `{e.token.text}`"
    | .tooDeep => s!"nesting is too deep (maximum {maxDepth} levels)"
  s!"parse error at token {e.token.index}: {cause}"

/-- A delimiter that is still open, with the nodes that stand before it in its sequence, the latest
first. -/
structure Opened where
  pair : Delimiter
  first : Token
  before : List Node

/-- A pass under way: the nodes of the innermost open sequence, the latest first; the open
delimiters, the innermost first; and the quoted text being read, if any, its latest piece first. -/
structure Nesting where
  nodes : List Node
  opened : List Opened
  quote : Option (Token × List Token)

namespace Nesting

/-- A pass that has read nothing. -/
def start : Nesting := ⟨[], [], none⟩

/-- The tokens of a list of nodes, if all are blanks on one line. -/
def blanks? : List Node → Option (List Token)
  | [] => some []
  | .leaf .space token :: nodes =>
    if token.kind = .whitespace then (blanks? nodes).map (token :: ·) else none
  | _ :: _ => none

/-- Appends an assignment sign. It takes in an operator that ends the sequence, and one blank token
between the two. -/
def assign (nodes : List Node) (colon : Token) : List Node :=
  match nodes with
  | .leaf .operator operator :: nodes => .assignment ⟨some operator, [], colon⟩ :: nodes
  | .leaf .space gap :: .leaf .operator operator :: nodes' =>
    if gap.kind = .whitespace then .assignment ⟨some operator, [gap], colon⟩ :: nodes'
    else .assignment ⟨none, [], colon⟩ :: nodes
  | nodes => .assignment ⟨none, [], colon⟩ :: nodes

/-- The sequence around a pair that has just been closed. Brackets that have nothing but blanks
between themselves and the brace that opens a lambda hold its parameters. -/
def enclose (d : Opened) (around : Option Delimiter) (items : List Node) (last : Token) :
    List Node :=
  match d.pair with
  | .paren => .enclosed .group d.first items last :: d.before
  | .brace => .enclosed .lambda d.first items last :: d.before
  | .bracket =>
    match (if around = some .brace then blanks? d.before else none) with
    | some gap => [.enclosed (.params gap.reverse) d.first items last]
    | none => .enclosed .bracket d.first items last :: d.before

/-- Reads a token outside quotes. -/
def readPlain (p : Nesting) (token : Token) : Except ParseError Nesting :=
  match token.kind with
  | .openQuote => .ok { p with quote := some (token, []) }
  | .opening pair =>
    if p.opened.length < maxDepth then .ok ⟨[], ⟨pair, token, p.nodes⟩ :: p.opened, none⟩
    else .error ⟨.tooDeep, token⟩
  | .closing pair =>
    match p.opened with
    | [] => .error ⟨.unmatched, token⟩
    | d :: rest =>
      if d.pair = pair then
        .ok ⟨enclose d (rest.head?.map Opened.pair) p.nodes.reverse token, rest, none⟩
      else
        .error ⟨.unmatched, d.first⟩
  | .colon | .doubleColon => .ok { p with nodes := assign p.nodes token }
  | kind =>
    match kind.leafForm? with
    | some form => .ok { p with nodes := .leaf form token :: p.nodes }
    | none => .error ⟨.unexpected, token⟩

/-- Reads a token inside the quotes that `first` opens. -/
def readQuoted (p : Nesting) (first : Token) (content : List Token) (token : Token) :
    Except ParseError Nesting :=
  match token.kind with
  | .quotedText | .quotedEscape => .ok { p with quote := some (first, token :: content) }
  | .closeQuote => .ok ⟨.quoted first content.reverse token :: p.nodes, p.opened, none⟩
  | _ => .error ⟨.unmatched, first⟩

/-- Reads one token. -/
def read (p : Nesting) (token : Token) : Except ParseError Nesting :=
  match p.quote with
  | some (first, content) => p.readQuoted first content token
  | none => p.readPlain token

/-- Ends the pass: nothing may be open any more. -/
def finish (p : Nesting) : Except ParseError (List Node) :=
  match p.quote, p.opened with
  | some (first, _), _ => .error ⟨.unmatched, first⟩
  | none, d :: _ => .error ⟨.unmatched, d.first⟩
  | none, [] => .ok p.nodes.reverse

/-- Reads the tokens that are left, and ends the pass. -/
def run (p : Nesting) : List Token → Except ParseError (List Node)
  | [] => p.finish
  | token :: tokens =>
    match p.read token with
    | .ok next => next.run tokens
    | .error e => .error e

end Nesting

/-- The tree of a sequence of tokens. -/
def parse (tokens : List Token) : Except ParseError (List Node) := Nesting.start.run tokens

/-- What can keep a text from having a tree. -/
inductive SourceError where
  | lex (error : LexError)
  | parse (error : ParseError)
deriving DecidableEq

/-- The full text of the error. -/
def SourceError.message : SourceError → String
  | .lex error => error.message
  | .parse error => error.message

/-- The tree of a text. -/
def parseText (source : String) : Except SourceError (List Node) :=
  match tokenize source with
  | .error e => .error (.lex e)
  | .ok tokens =>
    match parse tokens with
    | .error e => .error (.parse e)
    | .ok nodes => .ok nodes

end QSource
