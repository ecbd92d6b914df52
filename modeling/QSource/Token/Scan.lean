/-
**Cutting a text into tokens.**

Every character ends up in one token: blanks, line ends and comments are kept. The first place where
no kind of token fits stops the scan, and so does an opening quote without its closing one.

Main definitions:

* `QSource.scanQuoted` — the tokens of a quoted text behind its opening quote;
* `QSource.scan` — the lexemes of a text, and what stopped the scan before the end, if anything did;
* `QSource.tokenize` — the tokens of a whole text.

Main results:

* `QSource.join_scanQuoted` — the lexemes of a quoted text make up what was read;
* `QSource.join_scan_prefix` — the lexemes of a text make up a prefix of it, and all of it when
  nothing stopped the scan.
-/

import QSource.Lexicon.Table
import QSource.Token.Basic

set_option relaxedAutoImplicit false
set_option autoImplicit false

namespace QSource

open Text

/-- Why a text cannot be cut into tokens. -/
inductive Obstacle where
  /-- No kind of token fits. -/
  | unexpectedCharacter
  /-- A quoted text is never closed. -/
  | unterminatedLiteral
deriving DecidableEq

/-- The words for an obstacle. -/
def Obstacle.message : Obstacle → String
  | .unexpectedCharacter => "unexpected character"
  | .unterminatedLiteral => "unterminated char literal"

/-- An obstacle with the place where it was met. -/
structure LexError where
  obstacle : Obstacle
  offset : Nat
  position : Position
deriving DecidableEq

/-- The full text of the error; line and column are counted from zero. -/
def LexError.message (e : LexError) : String :=
  s!"lex error at {e.position.line}:{e.position.column} (byte {e.offset}): {e.obstacle.message}"

/-- A lexeme made of the first `n` characters of a text. -/
def Lexeme.ofPrefix (kind : Kind) (s : List Char) (n : Nat) : Lexeme :=
  ⟨kind, String.ofList (s.take n)⟩

@[simp] theorem Lexeme.chars_ofPrefix (kind : Kind) (s : List Char) (n : Nat) :
    (Lexeme.ofPrefix kind s n).chars = s.take n := by
  simp [Lexeme.ofPrefix, Lexeme.chars]

/-! ### Quoted text -/

/-- The lexemes of a quoted text behind its opening quote, the closing quote being the last, and the
characters behind it. There are none if the text is not closed. What fits inside quotes does not
depend on the character before. -/
def scanQuoted : List Char → Option (List Lexeme × List Char)
  | [] => none
  | c :: rest =>
    match Kind.first? quotedKinds none (c :: rest) with
    | some (kind, n + 1) =>
      if kind = .closeQuote then
        some ([Lexeme.ofPrefix kind (c :: rest) (n + 1)], rest.drop n)
      else
        (scanQuoted (rest.drop n)).map fun (body, behind) =>
          (Lexeme.ofPrefix kind (c :: rest) (n + 1) :: body, behind)
    | _ => none
termination_by s => s.length
decreasing_by simp only [List.length_drop, List.length_cons]; omega

/-- The lexemes of a quoted text make up the characters that were read. -/
theorem join_scanQuoted {s : List Char} {body : List Lexeme} {behind : List Char}
    (h : scanQuoted s = some (body, behind)) : Lexeme.join body ++ behind = s := by
  fun_induction scanQuoted s generalizing body with
  | case1 => simp at h
  | case2 c rest n hfirst =>
    simp only [Option.some.injEq, Prod.mk.injEq] at h
    obtain ⟨rfl, rfl⟩ := h
    simp
  | case3 c rest kind n hfirst hkind ih =>
    obtain ⟨⟨tail, rest'⟩, htail, heq⟩ := Option.map_eq_some_iff.1 h
    simp only [Prod.mk.injEq] at heq
    obtain ⟨rfl, rfl⟩ := heq
    simp [ih htail]
  | case4 => simp at h

theorem length_of_scanQuoted {s : List Char} {body : List Lexeme} {behind : List Char}
    (h : scanQuoted s = some (body, behind)) : behind.length ≤ s.length := by
  rw [← join_scanQuoted h, List.length_append]
  omega

/-! ### Whole texts -/

/-- The lexemes of a text up to its end or to the first obstacle. An unclosed quoted text
contributes none of its lexemes, so the obstacle always lies directly behind the lexemes. -/
structure Scan where
  lexemes : List Lexeme
  obstacle : Option Obstacle

/-- Puts lexemes in front of a scan. -/
def Scan.prepend (xs : List Lexeme) (r : Scan) : Scan := ⟨xs ++ r.lexemes, r.obstacle⟩

set_option linter.unusedVariables false in
/-- Scans a text that follows the character `prev`. -/
def scan (prev : Option Char) : List Char → Scan
  | [] => ⟨[], none⟩
  | c :: rest =>
    match Kind.first? codeKinds prev (c :: rest) with
    | some (kind, n + 1) =>
      if kind = .openQuote then
        match h : scanQuoted (rest.drop n) with
        | some (body, behind) =>
          (scan (some '"') behind).prepend (Lexeme.ofPrefix kind (c :: rest) (n + 1) :: body)
        | none => ⟨[], some .unterminatedLiteral⟩
      else
        (scan ((c :: rest).take (n + 1)).getLast? (rest.drop n)).prepend
          [Lexeme.ofPrefix kind (c :: rest) (n + 1)]
    | _ => ⟨[], some .unexpectedCharacter⟩
termination_by s => s.length
decreasing_by
  · have := length_of_scanQuoted h
    simp only [List.length_drop, List.length_cons] at this ⊢
    omega
  · simp only [List.length_drop, List.length_cons]; omega

/-- The tokens of a text. -/
def tokenize (source : String) : Except LexError (List Token) :=
  let result := scan none source.toList
  match result.obstacle with
  | none => .ok (Lexeme.layOut result.lexemes)
  | some obstacle =>
    let before := Lexeme.join result.lexemes
    .error ⟨obstacle, byteLength before, Position.origin.after before⟩

/-- The lexemes of a scan are a prefix of the text, and all of it when nothing stopped the scan. -/
theorem join_scan_prefix (prev : Option Char) (s : List Char) :
    ∃ rest, s = Lexeme.join (scan prev s).lexemes ++ rest ∧
      ((scan prev s).obstacle = none → rest = []) := by
  fun_induction scan prev s with
  | case1 => exact ⟨[], by simp⟩
  | case2 prev c rest n body behind hbody hfirst ih =>
    obtain ⟨tail, htail, hnone⟩ := ih
    refine ⟨tail, ?_, hnone⟩
    have hcut : c :: rest = (c :: rest).take (n + 1) ++ rest.drop n :=
      (List.take_append_drop (n + 1) (c :: rest)).symm
    simp only [Scan.prepend, Lexeme.join_append, Lexeme.join_cons, List.append_assoc,
      Lexeme.chars_ofPrefix]
    rw [← htail, join_scanQuoted hbody]
    exact hcut
  | case3 prev c rest => exact ⟨c :: rest, by simp⟩
  | case4 prev c rest kind n hfirst hkind ih =>
    obtain ⟨tail, htail, hnone⟩ := ih
    refine ⟨tail, ?_, hnone⟩
    have hcut : c :: rest = (c :: rest).take (n + 1) ++ rest.drop n :=
      (List.take_append_drop (n + 1) (c :: rest)).symm
    simp only [Scan.prepend, Lexeme.join_append, Lexeme.join_cons, Lexeme.join_nil, List.append_nil,
      List.append_assoc, Lexeme.chars_ofPrefix]
    rw [← htail]
    exact hcut
  | case5 prev c rest => exact ⟨c :: rest, by simp⟩

end QSource
