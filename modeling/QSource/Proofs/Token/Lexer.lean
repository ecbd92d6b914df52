/-
**A lexer that goes through a text by offsets.**

What the tokens of a text are is said by going down its characters.  A lexer keeps an offset instead, with
the line and the column of it in counters; it asks a table of kinds at the offset, slices the token out of
the text, and goes on behind it.  Where it gets stuck it looks the place of the error up in the table of
line starts.

Each of these operations may fail: a kind may read outside the text, a slice may start or end inside a
character, a line, a column or an entry of the table may grow beyond what a word holds, and a token without
characters would be met again and again.  Here they are all checked, `limit` being the largest number of a
word; the number of turns is limited too, and the lexer is shown to read each text to its end.

Main definitions:

* `QSource.Lexer` — **a lexer at a place of a text**;
* `QSource.Lexer.step?`, `QSource.Lexer.run?` — one turn, and the turns up to the end, with every
  operation checked;
* `QSource.tokenize32?` — the tokens of a text in words of 32 bits.

Main results:

* `QSource.Lexer.step?_of_first?`, `QSource.Lexer.error?_behind` — no operation of a turn fails;
* `QSource.Lexer.findsScan` — **a run finds what the scan finds**;
* `QSource.tokenize32?_eq` — **in words the tokens are the same**;
* `QSource.lexer_never_fails` — **nothing fails for any text, and the run ends**.
-/

import QSource.Proofs.Lexicon.Checked
import QSource.Proofs.Text.Lookup
import QSource.Proofs.Token.Obstacle
import QSource.Proofs.Token.Quotes

set_option relaxedAutoImplicit false
set_option autoImplicit false

namespace QSource

open Text

/-! ### Counters and lookups -/

/-- The position behind a character, `none` if the line or the column is larger than `limit`. -/
def Text.Position.advance? (limit : Nat) (p : Position) (c : Char) : Option Position :=
  let next := p.advance c
  if next.line ≤ limit ∧ next.column ≤ limit then some next else none

/-- The position behind a text. -/
def Text.Position.after? (limit : Nat) (p : Position) (s : List Char) : Option Position :=
  s.foldlM (Position.advance? limit) p

/-- The line of an offset among the first `high` entries of a table: that of its own entry, or else the one
before the place where it would have to be put in, `none` if there is no place before that. -/
def lineIn? (table : Array Nat) (offset high : Nat) (h : high ≤ table.size) : Option Nat :=
  match bisect table offset 0 high h with
  | .ok line => some line
  | .error next => minus? next 1

/-- The position of an offset, looked up in the table of line starts with every operation checked; an entry
of the table may not be larger than `limit`. -/
def positionIn? (limit : Nat) (source : List Char) (offset : Nat) : Option Position :=
  if (lineStarts source).all (· ≤ limit) then
    (lineIn? (lineStarts source) offset _ (Nat.le_refl (lineStarts source).size)).bind fun line =>
      (lineStarts source)[line]?.bind fun start =>
        let stop := min offset (byteLength source)
        (minus? stop start).map fun bytes =>
          ⟨line, ((slice? source start stop).map List.length).getD bytes⟩
  else none

theorem after_le (s : List Char) :
    (Position.origin.after s).line ≤ byteLength s ∧ (Position.origin.after s).column ≤ byteLength s := by
  have hle := positionAt_le s (byteLength s)
  rwa [positionAt_of_le (Nat.le_refl _)] at hle

/-- **No counter grows beyond the number of bytes.** -/
theorem after?_origin {limit : Nat} (text : List Char) : ∀ before : List Char,
    byteLength (before ++ text) ≤ limit →
      (Position.origin.after before).after? limit text = some (Position.origin.after (before ++ text)) := by
  induction text with
  | nil => simp [Position.after?]
  | cons c text ih =>
      intro before h
      have hbehind : before ++ c :: text = (before ++ [c]) ++ text := by simp
      have hstep : (Position.origin.after before).advance c =
          Position.origin.after (before ++ [c]) := by simp
      rw [hbehind] at h
      obtain ⟨hline, hcolumn⟩ := after_le (before ++ [c])
      have hle : byteLength (before ++ [c]) ≤ limit := by
        rw [byteLength_append] at h
        omega
      have hnext : (Position.origin.after before).advance? limit c =
          some (Position.origin.after (before ++ [c])) := by
        simp only [Position.advance?, hstep]
        exact if_pos ⟨Nat.le_trans hline hle, Nat.le_trans hcolumn hle⟩
      rw [hbehind, ← ih (before ++ [c]) h, Position.after?, List.foldlM_cons, hnext]
      rfl

theorem lineIn?_lineStarts (source : List Char) (offset : Nat) :
    lineIn? (lineStarts source) offset _ (Nat.le_refl _) = some (lineIn (lineStarts source) offset) := by
  have hfirst : ∃ hpos : 0 < (lineStarts source).size,
      0 < (lineStarts source).size ∧ (lineStarts source)[0] ≤ offset :=
    ⟨by simp [lineStarts], by simp [lineStarts], by simp [lineStarts]⟩
  have hne : bisect (lineStarts source) offset 0 _ (Nat.le_refl _) ≠ .error 0 :=
    bisect_ne_error_zero (Nat.le_refl _) fun _ => hfirst
  rw [lineIn?, lineIn]
  cases hfound : bisect (lineStarts source) offset 0 _ (Nat.le_refl _) with
  | ok line => rfl
  | error next => exact if_pos (Nat.pos_of_ne_zero fun hzero => hne (by rw [hfound, hzero]))

/-- **The lookup does not fail**, and it finds the position. -/
theorem positionIn?_eq {limit : Nat} {source : List Char} (hlimit : byteLength source ≤ limit)
    (offset : Nat) : positionIn? limit source offset = some (positionAt source offset) := by
  have hentries : (lineStarts source).all (· ≤ limit) = true := by
    refine Array.all_eq_true_iff_forall_mem.2 fun n hn => decide_eq_true ?_
    rcases List.mem_cons.1 (List.mem_toArray.1 hn) with rfl | hn
    · exact Nat.zero_le _
    · have := (mem_lineStartsFrom hn).2
      omega
  obtain ⟨start, hstart, hle⟩ := exists_lineStart_le source offset
  have hminus : minus? (min offset (byteLength source)) start =
      some (min offset (byteLength source) - start) := if_pos hle
  rw [← positionIn_lineStarts, positionIn?, if_pos hentries]
  simp only [lineIn?_lineStarts, Option.bind_some, hstart, hminus, Option.map_some, positionIn,
    Option.getD_some]

/-! ### The lexer -/

/-- A lexer at a place of a text: the offset and the position of the place, the offset of the opening
quote if the place lies in a quoted text, and the tokens before the place. -/
structure Lexer where
  offset : Nat
  position : Position
  opened : Option Nat
  tokens : List Token

namespace Lexer

/-- At the start of a text. -/
def start : Lexer := ⟨0, Position.origin, none, []⟩

/-- The kinds that may follow. -/
def table (lexer : Lexer) : List Kind := if lexer.opened.isSome then quotedKinds else codeKinds

/-- The position of an offset, which is looked up if the lexer is not there. -/
def place? (limit : Nat) (source : List Char) (lexer : Lexer) (offset : Nat) : Option Position :=
  if offset = lexer.offset then some lexer.position else positionIn? limit source offset

/-- What stops a lexer that cannot go on, and the offset that is blamed for it. -/
def stuckAt (lexer : Lexer) : Obstacle × Nat :=
  match lexer.opened with
  | none => (.unexpectedCharacter, lexer.offset)
  | some quote => (.unterminatedLiteral, quote)

/-- The error of a lexer that cannot go on. -/
def error? (limit : Nat) (source : List Char) (lexer : Lexer) : Option LexError :=
  (lexer.place? limit source lexer.stuckAt.2).map (⟨lexer.stuckAt.1, lexer.stuckAt.2, ·⟩)

/-- The opening quote that is open behind a token. -/
def openedBehind (lexer : Lexer) : Kind → Option Nat
  | .openQuote => some lexer.offset
  | .closeQuote => none
  | _ => lexer.opened

/-- Behind a token of `length` bytes, which is sliced out of the text. -/
def push? (limit : Nat) (source : List Char) (lexer : Lexer) (kind : Kind) (length : Nat) : Option Lexer :=
  let stop := lexer.offset + length
  (slice? source lexer.offset stop).bind fun text =>
    (lexer.position.after? limit text).map fun position =>
      { offset := stop
        position := position
        opened := lexer.openedBehind kind
        tokens := lexer.tokens ++
          [⟨⟨kind, String.ofList text⟩, lexer.tokens.length, ⟨lexer.offset, stop⟩, lexer.position⟩] }

/-- One turn: on to the place behind the next token, or to an error.  A kind that takes nothing does not
count. -/
def step? (limit : Nat) (source : List Char) (lexer : Lexer) : Option (Except LexError Lexer) :=
  (Kind.firstAt? source lexer.offset lexer.table).bind fun found =>
    match found.filter (0 < ·.2) with
    | some (kind, length) => (lexer.push? limit source kind length).map .ok
    | none => (lexer.error? limit source).map .error

/-- The tokens of a text from the place of a lexer on, `none` if an operation fails, or if the number of
turns does not do. -/
def run? (limit : Nat) (source : List Char) : Nat → Lexer → Option (Except LexError (List Token))
  | 0, _ => none
  | turns + 1, lexer =>
    if lexer.offset < byteLength source then
      (lexer.step? limit source).bind fun result => match result with
        | .ok next => run? limit source turns next
        | .error e => some (.error e)
    else if lexer.opened.isSome then (lexer.error? limit source).map .error
    else some (.ok lexer.tokens)

/-! ### One turn -/

/-- A lexer behind some lexemes of a text. -/
def behind (xs : List Lexeme) (opened : Option Nat) : Lexer :=
  ⟨byteLength (Lexeme.join xs), Position.origin.after (Lexeme.join xs), opened, Lexeme.layOut xs⟩

theorem positionAt_join {source s : List Char} {xs : List Lexeme} (hs : source = Lexeme.join xs ++ s) :
    positionAt source (byteLength (Lexeme.join xs)) = Position.origin.after (Lexeme.join xs) := by
  rw [hs, positionAt_byteLength]

section

variable {limit : Nat} {source s : List Char} (hlimit : byteLength source ≤ limit) {xs : List Lexeme}
  (hs : source = Lexeme.join xs ++ s) (opened : Option Nat)

include hlimit hs

theorem place?_behind (offset : Nat) :
    (behind xs opened).place? limit source offset = some (positionAt source offset) := by
  rw [place?]
  split
  · next hoffset => rw [hoffset, behind, positionAt_join hs]
  · exact positionIn?_eq hlimit offset

/-- An error does not fail. -/
theorem error?_behind {obstacle : Obstacle} {offset : Nat}
    (hstuck : (behind xs opened).stuckAt = (obstacle, offset)) :
    (behind xs opened).error? limit source = some ⟨obstacle, offset, positionAt source offset⟩ := by
  rw [error?, hstuck, place?_behind hlimit hs]
  rfl

/-- Nor does the way to the place behind a token. -/
theorem push?_behind (kind : Kind) (n : Nat) :
    (behind xs opened).push? limit source kind (byteLength (s.take n)) =
      some (behind (xs ++ [.ofPrefix kind s n]) ((behind xs opened).openedBehind kind)) := by
  have hcut : source = Lexeme.join xs ++ s.take n ++ s.drop n := by
    rw [hs, List.append_assoc, List.take_append_drop]
  have hslice := slice?_append (Lexeme.join xs) (s.take n) (s.drop n)
  rw [← hcut, byteLength_append] at hslice
  have hafter : (Position.origin.after (Lexeme.join xs)).after? limit (s.take n) =
      some (Position.origin.after (Lexeme.join xs ++ s.take n)) := by
    refine after?_origin (s.take n) (Lexeme.join xs) (Nat.le_trans ?_ hlimit)
    rw [hcut, byteLength_append (_ ++ _)]
    exact Nat.le_add_right _ _
  have hjoin : Lexeme.join (xs ++ [.ofPrefix kind s n]) = Lexeme.join xs ++ s.take n := by simp
  have htokens : Lexeme.layOut (xs ++ [.ofPrefix kind s n]) = Lexeme.layOut xs ++
      [⟨.ofPrefix kind s n, (Lexeme.layOut xs).length, ⟨byteLength (Lexeme.join xs),
        byteLength (Lexeme.join xs) + byteLength (s.take n)⟩, Position.origin.after (Lexeme.join xs)⟩] := by
    simp [Lexeme.layOut, Token.place_append, Token.place]
  simp only [push?, behind, hslice, hafter, Option.bind_some, Option.map_some, hjoin, htokens,
    byteLength_append]
  rfl

/-- **One turn goes on behind the first kind that fits.** -/
theorem step?_of_first? {kind : Kind} {n : Nat}
    (hfirst : Kind.first? (behind xs opened).table (Lexeme.join xs).getLast? s = some (kind, n)) :
    (behind xs opened).step? limit source =
      some (.ok (behind (xs ++ [.ofPrefix kind s n]) ((behind xs opened).openedBehind kind))) := by
  have hfound := Kind.firstAt?_eq (behind xs opened).table (Lexeme.join xs) s
  rw [← hs, hfirst, Option.map_some] at hfound
  have hfilter := Kind.filter_firstAt? (hs ▸ hfound)
  have hoffset : (behind xs opened).offset = byteLength (Lexeme.join xs) := rfl
  rw [step?, hoffset, hfound, Option.bind_some, hfilter]
  exact congrArg (Option.map Except.ok) (push?_behind hlimit hs opened kind n)

/-- **One turn stops where no kind fits.** -/
theorem step?_of_none
    (hfirst : Kind.first? (behind xs opened).table (Lexeme.join xs).getLast? s = none) {obstacle : Obstacle}
    {offset : Nat} (hstuck : (behind xs opened).stuckAt = (obstacle, offset)) :
    (behind xs opened).step? limit source = some (.error ⟨obstacle, offset, positionAt source offset⟩) := by
  have hfound := Kind.firstAt?_eq (behind xs opened).table (Lexeme.join xs) s
  rw [← hs, hfirst] at hfound
  have hoffset : (behind xs opened).offset = byteLength (Lexeme.join xs) := rfl
  rw [step?, hoffset, hfound]
  exact congrArg (Option.map Except.error) (error?_behind hlimit hs opened hstuck)

end

end Lexer

/-! ### Runs -/

/-- The tokens of a scan, or what stopped it. -/
def Scan.result (r : Scan) : Except LexError (List Token) :=
  match r.obstacle with
  | none => .ok (Lexeme.layOut r.lexemes)
  | some obstacle =>
    let before := Lexeme.join r.lexemes
    .error ⟨obstacle, byteLength before, Position.origin.after before⟩

theorem tokenize_eq_result (source : String) : tokenize source = (scan none source.toList).result := rfl

theorem Scan.prepend_prepend (xs ys : List Lexeme) (r : Scan) :
    (r.prepend ys).prepend xs = r.prepend (xs ++ ys) := by
  rw [prepend, prepend, prepend, List.append_assoc]

theorem Scan.result_prepend_stuck (xs : List Lexeme) (obstacle : Obstacle) :
    ((⟨[], some obstacle⟩ : Scan).prepend xs).result =
      .error ⟨obstacle, byteLength (Lexeme.join xs), Position.origin.after (Lexeme.join xs)⟩ := by
  simp [prepend, result]

/-- The end of a quoted text, one piece at a time.  What fits inside of it does not depend on the character
before. -/
theorem scanQuoted_of_first? {prev : Option Char} {s : List Char} {kind : Kind} {n : Nat}
    (h : Kind.first? quotedKinds prev s = some (kind, n)) :
    scanQuoted s =
      if kind = .closeQuote then some ([.ofPrefix kind s n], s.drop n)
      else (scanQuoted (s.drop n)).map fun (body, behind) => (.ofPrefix kind s n :: body, behind) := by
  have hnone : Kind.first? quotedKinds none s = some (kind, n) := h
  obtain ⟨c, rest, m, rfl, rfl⟩ := exists_cons_of_first? h
  rw [scanQuoted, hnone]
  rfl

theorem scanQuoted_of_none {prev : Option Char} {c : Char} {rest : List Char}
    (h : Kind.first? quotedKinds prev (c :: rest) = none) : scanQuoted (c :: rest) = none := by
  have hnone : Kind.first? quotedKinds none (c :: rest) = none := h
  rw [scanQuoted, hnone]

/-- An opening quote is one character. -/
theorem exists_of_openQuote {prev : Option Char} {s : List Char} {n : Nat}
    (h : Kind.first? codeKinds prev s = some (.openQuote, n)) : n = 1 ∧ ∃ rest, s = '"' :: rest :=
  Kind.exists_of_quote (Or.inl rfl) (Kind.mem_of_first? h).2

theorem scan_unclosed {prev : Option Char} {s : List Char}
    (hfirst : Kind.first? codeKinds prev ('"' :: s) = some (.openQuote, 1))
    (hnone : scanQuoted s = none) : scan prev ('"' :: s) = ⟨[], some .unterminatedLiteral⟩ := by
  rw [scan, hfirst]
  simp only [if_true]
  split
  · next body behind hbody => simp [hnone] at hbody
  · rfl

namespace Lexer

/-- What a lexer finds in so many turns, as long as there are more of them than characters left. -/
structure FindsScan (limit : Nat) (source : List Char) (turns : Nat) : Prop where
  /-- In code it finds the scan of what is left, behind the lexemes that are there already. -/
  code : ∀ xs s, source = Lexeme.join xs ++ s → s.length < turns →
    run? limit source turns (behind xs none) =
      some ((scan (Lexeme.join xs).getLast? s).prepend xs).result
  /-- In a quoted text it finds the end of it and the scan of what is left behind that, or it blames the
  opening quote. -/
  quoted : ∀ xs s quote, source = Lexeme.join xs ++ s → s.length < turns →
    run? limit source turns (behind xs (some quote)) = some (match scanQuoted s with
      | some (body, rest) => ((scan (some '"') rest).prepend (xs ++ body)).result
      | none => .error ⟨.unterminatedLiteral, quote, positionAt source quote⟩)

section

variable {limit : Nat} {source : List Char} {xs : List Lexeme} {c : Char} {rest : List Char}
  (hlimit : byteLength source ≤ limit) (hs : source = Lexeme.join xs ++ c :: rest) (opened : Option Nat)
  (turns : Nat)

include hs

theorem offset_lt : (behind xs opened).offset < byteLength source := by
  have hpos := c.utf8Size_pos
  have hoffset : (behind xs opened).offset = byteLength (Lexeme.join xs) := rfl
  rw [hoffset, hs, byteLength_append, byteLength_cons]
  omega

include hlimit

/-- A run goes on behind the first kind that fits, with fewer characters left. -/
theorem run?_of_first? {kind : Kind} {n : Nat}
    (hfirst : Kind.first? (behind xs opened).table (Lexeme.join xs).getLast? (c :: rest) = some (kind, n)) :
    let ys := xs ++ [.ofPrefix kind (c :: rest) n]
    run? limit source (turns + 1) (behind xs opened) =
        run? limit source turns (behind ys ((behind xs opened).openedBehind kind)) ∧
      source = Lexeme.join ys ++ (c :: rest).drop n ∧ ((c :: rest).drop n).length < (c :: rest).length ∧
      (Lexeme.join ys).getLast? = ((c :: rest).take n).getLast? := by
  obtain ⟨m, rfl⟩ := Nat.exists_eq_add_one.2 (Kind.pos_of_first? hfirst)
  refine ⟨?_, ?_, ?_, ?_⟩
  · rw [run?, if_pos (offset_lt hs opened), step?_of_first? hlimit hs opened hfirst]
    rfl
  · rw [hs, Lexeme.join_append, Lexeme.join_cons, Lexeme.join_nil, Lexeme.chars_ofPrefix, List.append_nil,
      List.append_assoc, List.take_append_drop]
  · rw [List.drop_succ_cons, List.length_drop, List.length_cons]
    omega
  · simp [List.getLast?_cons]

/-- A run stops where no kind fits. -/
theorem run?_of_none
    (hfirst : Kind.first? (behind xs opened).table (Lexeme.join xs).getLast? (c :: rest) = none)
    {obstacle : Obstacle} {offset : Nat} (hstuck : (behind xs opened).stuckAt = (obstacle, offset)) :
    run? limit source (turns + 1) (behind xs opened) =
      some (.error ⟨obstacle, offset, positionAt source offset⟩) := by
  rw [run?, if_pos (offset_lt hs opened), step?_of_none hlimit hs opened hfirst hstuck]
  rfl

/-- In code the lexer goes on behind the next token, or behind the quote that opens a quoted text. -/
theorem FindsScan.code_cons (ih : FindsScan limit source turns) (hturns : (c :: rest).length < turns + 1) :
    run? limit source (turns + 1) (behind xs none) =
      some ((scan (Lexeme.join xs).getLast? (c :: rest)).prepend xs).result := by
  cases hfirst : Kind.first? codeKinds (Lexeme.join xs).getLast? (c :: rest) with
  | none =>
      have hscan : scan (Lexeme.join xs).getLast? (c :: rest) = ⟨[], some .unexpectedCharacter⟩ := by
        rw [scan, hfirst]
      rw [run?_of_none hlimit hs none turns hfirst rfl, hscan, Scan.result_prepend_stuck,
        ← positionAt_join hs]
      rfl
  | some taken =>
      obtain ⟨kind, n⟩ := taken
      obtain ⟨hrun, hnext, hshorter, hlast⟩ := run?_of_first? hlimit hs none turns hfirst
      rw [hrun]
      by_cases hkind : kind = .openQuote
      · subst hkind
        obtain ⟨rfl, rest', hquote⟩ := exists_of_openQuote hfirst
        obtain ⟨rfl, rfl⟩ := List.cons.inj hquote
        have hopened : (behind xs none).openedBehind .openQuote = some (byteLength (Lexeme.join xs)) := rfl
        rw [hopened, ih.quoted _ _ _ hnext (by omega), List.drop_succ_cons, List.drop_zero]
        cases hbody : scanQuoted rest with
        | none => rw [scan_unclosed hfirst hbody, Scan.result_prepend_stuck, ← positionAt_join hs]
        | some found =>
            rw [(Cut.quoted hfirst hbody).scan_eq, Scan.prepend_prepend, List.append_cons xs _ found.1]
      · have hopened : (behind xs none).openedBehind kind = none := by
          cases kind <;> first | rfl | exact absurd rfl hkind
        rw [hopened, ih.code _ _ hnext (by omega), hlast, (Cut.code hfirst hkind).scan_eq,
          Scan.prepend_prepend]

/-- In a quoted text the lexer goes on behind the next piece, or behind the quote that closes it. -/
theorem FindsScan.quoted_cons (ih : FindsScan limit source turns)
    (hturns : (c :: rest).length < turns + 1) (quote : Nat) :
    run? limit source (turns + 1) (behind xs (some quote)) = some (match scanQuoted (c :: rest) with
      | some (body, rest) => ((scan (some '"') rest).prepend (xs ++ body)).result
      | none => .error ⟨.unterminatedLiteral, quote, positionAt source quote⟩) := by
  cases hfirst : Kind.first? quotedKinds (Lexeme.join xs).getLast? (c :: rest) with
  | none => rw [run?_of_none hlimit hs (some quote) turns hfirst rfl, scanQuoted_of_none hfirst]
  | some taken =>
      obtain ⟨kind, n⟩ := taken
      obtain ⟨hrun, hnext, hshorter, hlast⟩ := run?_of_first? hlimit hs (some quote) turns hfirst
      obtain ⟨hmem, hlength⟩ := Kind.mem_of_first? hfirst
      rw [hrun, scanQuoted_of_first? hfirst]
      by_cases hkind : kind = .closeQuote
      · subst hkind
        obtain ⟨rfl, rest', hquote⟩ := Kind.exists_of_quote (Or.inr rfl) hlength
        obtain ⟨rfl, rfl⟩ := List.cons.inj hquote
        have hopened : (behind xs (some quote)).openedBehind .closeQuote = none := rfl
        rw [hopened, ih.code _ _ hnext (by omega), hlast, if_pos rfl]
        rfl
      · have hopened : (behind xs (some quote)).openedBehind kind = some quote := by
          simp only [quotedKinds, List.mem_cons, List.not_mem_nil, or_false] at hmem
          rcases hmem with rfl | rfl | rfl
          · exact absurd rfl hkind
          · rfl
          · rfl
        rw [hopened, if_neg hkind, ih.quoted _ _ quote hnext (by omega)]
        cases scanQuoted ((c :: rest).drop n) <;> simp

end

/-- **A run finds what the scan finds.** -/
theorem findsScan {limit : Nat} {source : List Char} (hlimit : byteLength source ≤ limit) (turns : Nat) :
    FindsScan limit source turns := by
  induction turns with
  | zero =>
      exact ⟨fun _ _ _ h => absurd h (Nat.not_lt_zero _), fun _ _ _ _ h => absurd h (Nat.not_lt_zero _)⟩
  | succ turns ih =>
      have hend : ∀ {xs opened}, source = Lexeme.join xs ++ [] →
          ¬ (behind xs opened).offset < byteLength source := by
        rintro xs opened rfl
        simp [behind]
      constructor
      case code =>
        intro xs s hs hturns
        cases s with
        | nil =>
            rw [run?, if_neg (hend hs), scan]
            simp [Scan.prepend, Scan.result, behind]
        | cons c rest => exact ih.code_cons hlimit hs turns hturns
      case quoted =>
        intro xs s quote hs hturns
        cases s with
        | nil =>
            have hstuck : (behind xs (some quote)).stuckAt = (.unterminatedLiteral, quote) := rfl
            rw [run?, if_neg (hend hs), error?_behind hlimit hs (some quote) hstuck, scanQuoted]
            rfl
        | cons c rest => exact ih.quoted_cons hlimit hs turns hturns quote

/-- **A run from the start of a text finds its tokens**, or its error. -/
theorem run?_start {source : String} {limit turns : Nat} (hlimit : source.utf8ByteSize ≤ limit)
    (hturns : source.utf8ByteSize < turns) :
    run? limit source.toList turns start = some (tokenize source) := by
  rw [← byteLength_toList] at hlimit hturns
  have hlength := length_le_byteLength source.toList
  rw [tokenize_eq_result]
  exact (findsScan hlimit turns).code [] source.toList rfl (by omega)

end Lexer

/-! ### Whole texts -/

/-- **The tokens of a text in words of 32 bits**, `none` where an operation fails: the offsets of the text
have to fit into words, and so has each line, each column and each entry of the table. -/
def tokenize32? (source : String) : Option (Except LexError (List Token)) :=
  if source.utf8ByteSize < UInt32.size then
    Lexer.run? (UInt32.size - 1) source.toList (source.utf8ByteSize + 1) Lexer.start
  else none

/-- **In words the tokens are the same.** -/
theorem tokenize32?_eq {source : String} (h : source.utf8ByteSize < UInt32.size) :
    tokenize32? source = some (tokenize source) := by
  rw [tokenize32?, if_pos h]
  exact Lexer.run?_start (by omega) (Nat.lt_succ_self _)

/-- **Nothing fails for any text.**  At each offset between characters, the end of the text included, each
kind of both tables is read without an access that fails, and takes the bytes of the characters that it
takes there; these are not none, they lie in the text, and they end between characters.  So no kind is
ever dismissed for taking nothing.  The lexer that goes by these readings runs without an operation that
fails, in no more turns than the text has bytes and one, and it returns the tokens of the text or its
error; that is so for any limit to lines and columns that the number of bytes does not exceed. -/
theorem lexer_never_fails (source : String) :
    (∀ before behind, source.toList = before ++ behind → ∀ kind ∈ codeKinds ++ quotedKinds,
      kind.readAt? source.toList (byteLength before) =
          some ((kind.length? before.getLast? behind).map fun n => byteLength (behind.take n)) ∧
        ∀ n, kind.readAt? source.toList (byteLength before) = some (some n) →
          0 < n ∧ byteLength before + n ≤ source.utf8ByteSize ∧
            OnBoundary source.toList (byteLength before + n)) ∧
    (∀ offset, OnBoundary source.toList offset → ∀ table ∈ [codeKinds, quotedKinds],
      ∃ found, Kind.firstAt? source.toList offset table = some found ∧ found.filter (0 < ·.2) = found) ∧
    (∀ limit turns, source.utf8ByteSize ≤ limit → source.utf8ByteSize < turns →
      Lexer.run? limit source.toList turns Lexer.start = some (tokenize source)) := by
  refine ⟨fun before behind hs kind _ => ?_, fun offset hoffset table _ => ?_,
    fun limit turns hlimit hturns => ?_⟩
  · rw [← byteLength_toList, hs]
    exact ⟨kind.readAt?_eq before behind, fun n => Kind.bounds_of_readAt?⟩
  · obtain ⟨before, behind, hs, rfl⟩ := hoffset
    rw [hs]
    have hfound := Kind.firstAt?_eq table before behind
    exact ⟨_, hfound, Kind.filter_firstAt? hfound⟩
  · exact Lexer.run?_start hlimit hturns

/-- A comment up to a line terminator of two bytes, and a quoted text with an escaped character of two
bytes: the escape takes three bytes, and ends between characters. -/
theorem lexer_never_fails_accented :
    let source := "/é\r\n\"\\é\""
    source.toList = "/é\r\n\"".toList ++ "\\é\"".toList ∧ .quotedEscape ∈ codeKinds ++ quotedKinds ∧
      Kind.quotedEscape.readAt? source.toList 6 = some (some 3) ∧ OnBoundary source.toList 9 ∧
      OnBoundary source.toList 6 ∧ quotedKinds ∈ [codeKinds, quotedKinds] ∧
      (∃ found, Kind.firstAt? source.toList 6 quotedKinds = some found ∧ found.filter (0 < ·.2) = found) ∧
      source.utf8ByteSize ≤ 10 ∧ source.utf8ByteSize < 11 ∧
      Lexer.run? 10 source.toList 11 Lexer.start = some (tokenize source) := by
  intro source
  obtain ⟨hkinds, htables, hrun⟩ := lexer_never_fails source
  have hcut : source.toList = "/é\r\n\"".toList ++ "\\é\"".toList := by decide
  have hmem : Kind.quotedEscape ∈ codeKinds ++ quotedKinds := by decide
  obtain ⟨hread, hbounds⟩ := hkinds _ _ hcut _ hmem
  have hthree : Kind.quotedEscape.readAt? source.toList 6 = some (some 3) := hread.trans (by decide +kernel)
  have hsix : OnBoundary source.toList 6 := ⟨_, _, hcut, by decide⟩
  exact ⟨hcut, hmem, hthree, (hbounds 3 hthree).2.2, hsix, by decide, htables 6 hsix _ (by decide), by decide,
    by decide, hrun 10 11 (by decide) (by decide)⟩

end QSource
