/-
**Nesting tokens by descending into them.**

A descent reads a sequence of tokens node by node and calls itself for what a pair of delimiters
encloses.  It keeps the number of the next token and the number of open delimiters, and it looks
ahead where one token does not tell what comes: over an operator to an assignment sign, and over
blanks to the parameter list of a lambda.  All its results say that it has moved on and left every
delimiter that it entered, so it comes to an end and never looks at a token that is not there.

Main definitions:

* `QSource.Cursor` — how far a descent has come;
* `QSource.Descent.sign?`, `QSource.Descent.skipBlanks`, `QSource.Descent.closing?` — looking ahead;
* `QSource.Descent.sequence`, `QSource.Descent.expression` — the descent;
* `QSource.descend` — the tree of a sequence of tokens.
-/

import QSource.Tree.Parse

set_option relaxedAutoImplicit false
set_option autoImplicit false

namespace QSource

/-- How far a descent has come: the number of the next token, and the number of delimiters that are
open there. -/
structure Cursor where
  position : Nat
  depth : Nat

namespace Descent

variable (tokens : List Token)

/-- The kind of the token at a place, if there is one. -/
def kindAt? (i : Nat) : Option Kind := tokens[i]?.map fun t => t.kind

variable {tokens} in
theorem lt_of_kindAt? {i : Nat} {kind : Kind} (h : kindAt? tokens i = some kind) :
    i < tokens.length := by
  obtain ⟨t, ht, -⟩ := Option.map_eq_some_iff.1 h
  exact (List.getElem?_eq_some_iff.1 ht).1

/-! ### Looking ahead -/

/-- The assignment sign at a place, with the place of its colon: a colon, or an operator with a colon
directly behind it or behind one token of blanks. -/
def sign? (start : Nat) : Option (Assignment × Nat) :=
  tokens[start]?.bind fun first =>
    if first.kind.isColon then some (⟨none, [], first⟩, start)
    else if first.kind = .operator then
      tokens[start + 1]?.bind fun second =>
        if second.kind.isColon then some (⟨some first, [], second⟩, start + 1)
        else if second.kind = .whitespace then
          tokens[start + 2]?.bind fun third =>
            if third.kind.isColon then some (⟨some first, [second], third⟩, start + 2) else none
        else none
    else none

/-- The first place from `i` on where no blanks stand. -/
def skipBlanks (i : Nat) : Nat :=
  if h : kindAt? tokens i = some .whitespace then skipBlanks (i + 1) else i
termination_by tokens.length - i
decreasing_by
  have := lt_of_kindAt? h
  omega

/-- The place of the closing quote, with nothing but pieces of quoted text from `i` up to it. -/
def closing? (i : Nat) : Option Nat :=
  match h : kindAt? tokens i with
  | some .closeQuote => some i
  | some .quotedText | some .quotedEscape => closing? (i + 1)
  | _ => none
termination_by tokens.length - i
decreasing_by
  all_goals
    have := lt_of_kindAt? h
    omega

section

variable {tokens}

/-- A sign starts with its first token, so its colon does not stand before that. -/
theorem le_of_sign? {start colon : Nat} {sign : Assignment}
    (h : sign? tokens start = some (sign, colon)) : start ≤ colon := by
  rw [sign?] at h
  grind

theorem le_skipBlanks (i : Nat) : i ≤ skipBlanks tokens i := by
  fun_induction skipBlanks tokens i with
  | case1 i hblank ih => omega
  | case2 => exact Nat.le_refl _

/-- What is found behind the pieces of a quoted text is its closing quote. -/
theorem of_closing? {i last : Nat} (h : closing? tokens i = some last) :
    i ≤ last ∧ kindAt? tokens last = some .closeQuote := by
  fun_induction closing? tokens i with
  | case1 i hquote => exact Option.some.inj h ▸ ⟨Nat.le_refl _, hquote⟩
  | case2 i htext ih => exact ⟨Nat.le_of_succ_le (ih h).1, (ih h).2⟩
  | case3 i hescape ih => exact ⟨Nat.le_of_succ_le (ih h).1, (ih h).2⟩
  | case4 => simp at h

end

/-! ### Results -/

/-- A delimiter that waits for its partner. -/
structure Waiting where
  pair : Delimiter
  place : Fin tokens.length

/-- The error that blames it. -/
def Waiting.error {tokens : List Token} (w : Waiting tokens) : ParseError :=
  ⟨.unmatched, tokens[w.place]⟩

/-- Where a sequence stops: at the partner of the delimiter around it, or at the end. -/
def Stops (around : Option (Waiting tokens)) (position : Nat) : Prop :=
  match around with
  | none => kindAt? tokens position = none
  | some w => kindAt? tokens position = some (.closing w.pair)

variable {tokens} in
theorem Stops.lt_length {w : Waiting tokens} {position : Nat}
    (h : Stops tokens (some w) position) : position < tokens.length := lt_of_kindAt? h

/-- The nodes of a sequence, and where it stops. -/
structure Sequence (around : Option (Waiting tokens)) (s : Cursor) where
  nodes : List Node
  stop : Cursor
  le : s.position ≤ stop.position
  depth_eq : stop.depth = s.depth
  stops : Stops tokens around stop.position

/-- A node, and the place behind it. -/
structure Expression (s : Cursor) where
  node : Node
  behind : Cursor
  lt : s.position < behind.position
  depth_eq : behind.depth = s.depth

/-- The parameter list that a lambda may start with, and the place behind it. -/
structure Params (s : Cursor) where
  nodes : List Node
  behind : Cursor
  le : s.position ≤ behind.position
  depth_eq : behind.depth = s.depth

/-- Steps over an opening delimiter, which may not nest too deeply. -/
def enter (s : Cursor) (h : s.position < tokens.length) :
    Except ParseError {inner : Cursor // inner = ⟨s.position + 1, s.depth + 1⟩} :=
  if maxDepth ≤ s.depth then .error ⟨.tooDeep, tokens[s.position]⟩ else .ok ⟨_, rfl⟩

/-- Steps over the closing delimiter that a sequence has stopped at. -/
def leave (s : Cursor) : Cursor := ⟨s.position + 1, s.depth - 1⟩

/-- A sequence at the end of the tokens. -/
def ended (around : Option (Waiting tokens)) (s : Cursor) (h : kindAt? tokens s.position = none) :
    Except ParseError (Sequence tokens around s) :=
  match around with
  | none => .ok ⟨[], s, Nat.le_refl _, rfl, h⟩
  | some w => .error w.error

/-- A sequence at a closing delimiter. -/
def closed (around : Option (Waiting tokens)) (s : Cursor) {pair : Delimiter}
    (h : kindAt? tokens s.position = some (.closing pair)) :
    Except ParseError (Sequence tokens around s) :=
  match around with
  | none => .error ⟨.unmatched, tokens.get ⟨s.position, lt_of_kindAt? h⟩⟩
  | some w =>
    if hpair : pair = w.pair then .ok ⟨[], s, Nat.le_refl _, rfl, by rw [Stops, h, hpair]⟩
    else .error w.error

/-! ### The descent -/

mutual

/-- Reads nodes up to the partner of the delimiter around them, or up to the end. -/
def sequence (around : Option (Waiting tokens)) (s : Cursor) :
    Except ParseError (Sequence tokens around s) :=
  match h : kindAt? tokens s.position with
  | none => ended tokens around s h
  | some (.closing _) => closed tokens around s h
  | some _ => do
    let first ← expression s (lt_of_kindAt? h)
    let rest ← sequence around first.behind
    return ⟨first.node :: rest.nodes, rest.stop, Nat.le_of_lt (Nat.lt_of_lt_of_le first.lt rest.le),
      rest.depth_eq.trans first.depth_eq, rest.stops⟩
termination_by (tokens.length - s.position, 3)
decreasing_by
  · exact Prod.Lex.right _ (by omega)
  · have := lt_of_kindAt? h
    have := first.lt
    exact Prod.Lex.left _ _ (by omega)

/-- Reads the node that starts with the next token. -/
def expression (s : Cursor) (h : s.position < tokens.length) :
    Except ParseError (Expression s) :=
  let token := tokens[s.position]
  match hsign : sign? tokens s.position with
  | some (sign, colon) =>
    .ok ⟨.assignment sign, ⟨colon + 1, s.depth⟩, Nat.lt_succ_of_le (le_of_sign? hsign), rfl⟩
  | none =>
    match token.kind with
    | .opening .brace => lambda s h
    | .opening .bracket => enclosed .bracket .bracket s h
    | .opening .paren => enclosed .group .paren s h
    | .openQuote =>
      match hlast : closing? tokens (s.position + 1) with
      | some last =>
        .ok ⟨.quoted token (tokens.extract (s.position + 1) last)
            (tokens.get ⟨last, lt_of_kindAt? (of_closing? hlast).2⟩),
          ⟨last + 1, s.depth⟩, Nat.le_succ_of_le (of_closing? hlast).1, rfl⟩
      | none => .error ⟨.unmatched, token⟩
    | kind =>
      match kind.leafForm? with
      | some form => .ok ⟨.leaf form token, ⟨s.position + 1, s.depth⟩, Nat.lt_succ_self _, rfl⟩
      | none => .error ⟨.unexpected, token⟩
termination_by (tokens.length - s.position, 2)

/-- Reads what a pair of delimiters encloses. -/
def enclosed (form : Enclosure) (pair : Delimiter) (s : Cursor) (h : s.position < tokens.length) :
    Except ParseError (Expression s) := do
  let ⟨inner, hinner⟩ ← enter tokens s h
  let items ← sequence (some ⟨pair, s.position, h⟩) inner
  return ⟨.enclosed form tokens[s.position] items.nodes
      (tokens.get ⟨items.stop.position, items.stops.lt_length⟩), leave items.stop,
    by have := items.le; subst hinner; simp only [leave] at *; omega,
    by simp [leave, items.depth_eq, hinner]⟩
termination_by (tokens.length - s.position, 0)
decreasing_by
  subst hinner
  exact Prod.Lex.left _ _ (by simp only; omega)

/-- Reads a lambda: its parameter list, if it has one, and its body. -/
def lambda (s : Cursor) (h : s.position < tokens.length) : Except ParseError (Expression s) := do
  let ⟨inner, hinner⟩ ← enter tokens s h
  let list ← params inner
  let body ← sequence (some ⟨.brace, s.position, h⟩) list.behind
  return ⟨.enclosed .lambda tokens[s.position] (list.nodes ++ body.nodes)
      (tokens.get ⟨body.stop.position, body.stops.lt_length⟩), leave body.stop,
    by have := list.le; have := body.le; subst hinner; simp only [leave] at *; omega,
    by simp [leave, body.depth_eq, list.depth_eq, hinner]⟩
termination_by (tokens.length - s.position, 1)
decreasing_by
  · subst hinner
    exact Prod.Lex.left _ _ (by simp only; omega)
  · have := list.le
    subst hinner
    exact Prod.Lex.left _ _ (by grind)

/-- Reads the parameter list behind the brace of a lambda, if there is one behind any blanks. -/
def params (s : Cursor) : Except ParseError (Params s) :=
  let start := skipBlanks tokens s.position
  if h : kindAt? tokens start = some (.opening .bracket) then do
    let list ← enclosed (.params (tokens.extract s.position start)) .bracket ⟨start, s.depth⟩
      (lt_of_kindAt? h)
    return ⟨[list.node], list.behind,
      Nat.le_trans (le_skipBlanks _) (Nat.le_of_lt list.lt), list.depth_eq⟩
  else return ⟨[], s, Nat.le_refl _, rfl⟩
termination_by (tokens.length - s.position, 1)
decreasing_by
  have hle : s.position ≤ skipBlanks tokens s.position := le_skipBlanks _
  rcases Nat.eq_or_lt_of_le hle with heq | hlt
  · simp only [← heq]
    exact Prod.Lex.right _ (by omega)
  · have := lt_of_kindAt? h
    exact Prod.Lex.left _ _ (by omega)

end

end Descent

/-- The tree of a sequence of tokens, by descent. -/
def descend (tokens : List Token) : Except ParseError (List Node) :=
  (Descent.sequence tokens none ⟨0, 0⟩).map Descent.Sequence.nodes

end QSource
