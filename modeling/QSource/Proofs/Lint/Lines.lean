/-
**Long lines, line by line.**

The rule about long lines never sees a line: it carries the token that owns the line under way from
one piece of a token to the next, and takes the length of a line from the column of the token that
ends it.  Here it is compared with the lines of the source: the text is split at its line feeds, what
stands behind the last of them is dropped, and a carriage return at the end of a line does not count.

Main definitions:

* `QSource.endedLines`, `QSource.dropReturn` — the lines of a text, and a line without its carriage
  return;
* `QSource.longStarts` — the bytes at which the long ones among some lines start;
* `QSource.contentLength?`, `QSource.longLines` — the owners of long lines, found by collecting the
  characters of each line;
* `QSource.Token.Holds`, `QSource.Token.startsLongLine` — whether a token holds a byte, and whether
  it holds the first byte of a long line;
* `QSource.Parts` — pieces of tokens that stand one behind the other.

Main results:

* `QSource.longLinesFrom_pieces` — among placed tokens the columns count the characters of lines;
* `QSource.forall₂_longLines` — every long line is blamed on the token that holds its first byte;
* `QSource.dropRepeats_owners` — dropping repeats leaves each of these tokens once;
* `QSource.lineLength_of_tokenize` — **the rule flags the tokens in which a long line starts**.
-/

import Mathlib.Data.List.Sort
import QSource.Proofs.Check

set_option relaxedAutoImplicit false
set_option autoImplicit false

namespace QSource

open Text

/-! ### Lines that a line feed ends -/

/-- The lines of a text that a line feed ends, each without it. -/
def endedLines (s : List Char) : List (List Char) := (s.splitOn '\n').dropLast

/-- A line without one carriage return at its end. -/
def dropReturn (line : List Char) : List Char :=
  if line.getLast? = some '\r' then line.dropLast else line

/-- The bytes at which the lines with more than `limit` characters start. The first line of the list
starts at byte `offset`, and a line feed stands behind each of them. -/
def longStarts (limit offset : Nat) : List (List Char) → List Nat
  | [] => []
  | line :: lines =>
    (if limit < (dropReturn line).length then [offset] else []) ++
      longStarts limit (offset + byteLength line + 1) lines

theorem endedLines_of_not_mem {s : List Char} (h : '\n' ∉ s) : endedLines s = [] := by
  rw [endedLines, List.splitOn_eq_singleton h]
  rfl

theorem endedLines_append {line : List Char} (h : '\n' ∉ line) (rest : List Char) :
    endedLines (line ++ '\n' :: rest) = line :: endedLines rest := by
  rw [endedLines, List.splitOn_append_cons_self_of_not_mem h,
    List.dropLast_cons_of_ne_nil (List.splitOn_ne_nil _ _), endedLines]

theorem le_of_mem_longStarts {limit offset start : Nat} {lines : List (List Char)}
    (h : start ∈ longStarts limit offset lines) : offset ≤ start := by
  induction lines generalizing offset with
  | nil => simp [longStarts] at h
  | cons line lines ih =>
      rcases List.mem_append.1 h with h | h
      · split at h
        · exact Nat.le_of_eq (List.mem_singleton.1 h).symm
        · simp at h
      · have := ih h
        omega

theorem pairwise_longStarts (limit offset : Nat) (lines : List (List Char)) :
    (longStarts limit offset lines).Pairwise (· < ·) := by
  induction lines generalizing offset with
  | nil => exact .nil
  | cons line lines ih =>
      refine List.pairwise_append.2 ⟨?_, ih _, ?_⟩
      · split
        · exact List.pairwise_singleton _ _
        · exact .nil
      · intro a ha b hb
        have hb := le_of_mem_longStarts hb
        split at ha
        · rw [List.mem_singleton.1 ha]
          omega
        · simp at ha

/-! ### Lines by their characters -/

/-- The number of characters of a line without the line feed that ends it and without a carriage
return before that, `none` if no line feed ends it. The line is given with its last character
first. -/
def contentLength? : List Char → Option Nat
  | '\n' :: '\r' :: line => some line.length
  | '\n' :: line => some line.length
  | _ => none

/-- The tokens to which long lines belong, found by collecting the characters of each line. `owner`
and `line` are the token and the characters, the last one first, of the line under way. -/
def longLines (limit : Nat) (owner : Option AnnotatedToken) (line : List Char) :
    List (AnnotatedToken × List Char) → List AnnotatedToken
  | [] => []
  | (token, part) :: rest =>
    let owner := owner.getD token
    let line := part.reverseAux line
    match contentLength? line with
    | some length =>
      (if limit < length then [owner] else []) ++ longLines limit none [] rest
    | none => longLines limit (some owner) line rest

theorem contentLength?_of_not_mem {line : List Char} (h : '\n' ∉ line) :
    contentLength? line.reverse = none := by
  cases hline : line.reverse with
  | nil => rfl
  | cons c rest =>
      have hc : c ≠ '\n' := by
        rintro rfl
        exact h (List.mem_reverse.1 (hline ▸ List.mem_cons_self ..))
      simp [contentLength?, hc]

theorem contentLength?_lineFeed (line : List Char) :
    contentLength? ('\n' :: line.reverse) = some (dropReturn line).length := by
  cases line using List.reverseRecOn with
  | nil => rfl
  | append_singleton line c =>
      by_cases hc : c = '\r'
      · simp [contentLength?, dropReturn, hc]
      · simp [contentLength?, dropReturn, hc]

theorem contentLength?_concat (line : List Char) :
    contentLength? (line ++ ['\n']).reverse = some (dropReturn line).length := by
  rw [List.reverse_append, List.reverse_singleton, List.singleton_append, contentLength?_lineFeed]

/-! ### Pieces of tokens -/

theorem lineParts_ne_nil (s : List Char) : lineParts s ≠ [] := by
  fun_cases lineParts s <;> simp

theorem flatten_lineParts (s : List Char) : (lineParts s).flatten = s := by
  fun_induction lineParts s with
  | case1 => rfl
  | case2 => rfl
  | case3 c s ih => rw [List.flatten_cons, ih, List.singleton_append]
  | case4 c s _ _ part parts hparts ih =>
      rw [hparts] at ih
      rw [List.flatten_cons, List.cons_append, ← List.flatten_cons, ih]
  | case5 c s _ _ hparts => exact absurd hparts (lineParts_ne_nil s)

/-- A token holds the byte at an offset. -/
def Token.Holds (t : Token) (offset : Nat) : Prop := t.span.start ≤ offset ∧ offset < t.span.stop

instance (t : Token) (offset : Nat) : Decidable (t.Holds offset) :=
  inferInstanceAs (Decidable (_ ∧ _))

/-- Pieces of tokens that stand one behind the other from byte `offset` on, each with the token in
whose bytes it stands. -/
inductive Parts : Nat → List (AnnotatedToken × List Char) → Prop
  /-- No piece is left. -/
  | nil (offset : Nat) : Parts offset []
  /-- A piece without a line feed that is not empty. -/
  | inside {offset : Nat} {t : AnnotatedToken} {body : List Char}
      {rest : List (AnnotatedToken × List Char)} (hstart : t.span.start ≤ offset)
      (hstop : offset + byteLength body ≤ t.span.stop) (hbody : '\n' ∉ body) (hne : body ≠ [])
      (hrest : Parts (offset + byteLength body) rest) : Parts offset ((t, body) :: rest)
  /-- A piece up to and with a line feed. -/
  | ending {offset : Nat} {t : AnnotatedToken} {body : List Char}
      {rest : List (AnnotatedToken × List Char)} (hstart : t.span.start ≤ offset)
      (hstop : offset + byteLength body + 1 ≤ t.span.stop) (hbody : '\n' ∉ body)
      (hrest : Parts (offset + byteLength body + 1) rest) :
      Parts offset ((t, body ++ ['\n']) :: rest)

/-- A character that is no line feed may be put before the first piece. -/
theorem Parts.cons_char {offset : Nat} {t : AnnotatedToken} {c : Char} {part : List Char}
    {rest : List (AnnotatedToken × List Char)} (hc : c ≠ '\n') (hstart : t.span.start ≤ offset)
    (h : Parts (offset + c.utf8Size) ((t, part) :: rest)) : Parts offset ((t, c :: part) :: rest) := by
  cases h with
  | inside _ hstop hbody _ hrest =>
      rw [Nat.add_assoc] at hstop hrest
      refine .inside hstart hstop ?_ (List.cons_ne_nil _ _) hrest
      simpa [hc.symm] using hbody
  | @ending _ _ body _ _ hstop hbody hrest =>
      rw [Nat.add_assoc offset] at hstop hrest
      refine @ending offset t (c :: body) rest hstart hstop ?_ hrest
      simpa [hc.symm] using hbody

/-- The pieces of a text that is not empty, before further pieces. -/
theorem Parts.lineParts_append {offset : Nat} {t : AnnotatedToken} {s : List Char}
    {rest : List (AnnotatedToken × List Char)} (hs : s ≠ []) (hstart : t.span.start ≤ offset)
    (hstop : offset + byteLength s ≤ t.span.stop) (hrest : Parts (offset + byteLength s) rest) :
    Parts offset ((lineParts s).map (t, ·) ++ rest) := by
  fun_induction lineParts s generalizing offset with
  | case1 => exact absurd rfl hs
  | case2 => exact @ending offset t [] rest hstart hstop List.not_mem_nil hrest
  | case3 c s ih =>
      rw [byteLength_cons, ← Nat.add_assoc] at hstop hrest
      have hnext := ih (List.cons_ne_nil _ _) (Nat.le_add_right_of_le hstart) hstop hrest
      refine @ending offset t [] _ hstart ?_ List.not_mem_nil hnext
      exact Nat.le_trans (Nat.le_add_right _ _) hstop
  | case4 c s hfeed hcut part parts hparts ih =>
      have hc : c ≠ '\n' := by
        rintro rfl
        cases s with
        | nil => exact hfeed rfl rfl
        | cons d s => exact hcut d s rfl rfl
      rw [byteLength_cons, ← Nat.add_assoc] at hstop hrest
      cases s with
      | nil =>
          obtain ⟨rfl, rfl⟩ : [] = part ∧ [] = parts := by simpa [lineParts] using hparts
          exact .inside hstart hstop (by simpa using hc.symm) (List.cons_ne_nil _ _) hrest
      | cons d s =>
          have hnext := ih (List.cons_ne_nil _ _) (Nat.le_add_right_of_le hstart) hstop hrest
          rw [hparts] at hnext
          exact .cons_char hc hstart hnext
  | case5 c s _ _ hparts => exact absurd hparts (lineParts_ne_nil s)

/-- The pieces of placed tokens that are not empty. -/
theorem parts_of_place {index offset : Nat} {p : Position} {xs : List Lexeme}
    (hchars : ∀ x ∈ xs, x.chars ≠ []) {tokens : List AnnotatedToken}
    (h : tokens.map (·.toToken) = Token.place index offset p xs) :
    Parts offset (tokens.flatMap fun t => (lineParts t.text.toList).map (t, ·)) := by
  induction xs generalizing index offset p tokens with
  | nil =>
      rw [List.map_eq_nil_iff.1 h]
      exact .nil offset
  | cons x xs ih =>
      obtain ⟨t, rest, rfl, ht, hrest⟩ := List.map_eq_cons_iff.1 h
      have hx : t.text.toList = x.chars := by rw [ht]; rfl
      have hstart : t.span.start = offset := by rw [ht]
      have hstop : t.span.stop = offset + byteLength x.chars := by rw [ht]
      have htail := ih (fun y hy => hchars y (List.mem_cons_of_mem _ hy)) hrest
      rw [List.flatMap_cons, hx]
      exact .lineParts_append (hchars x (List.mem_cons_self ..)) (Nat.le_of_eq hstart)
        (Nat.le_of_eq hstop.symm) htail

theorem flatMap_snd_parts (tokens : List AnnotatedToken) :
    (tokens.flatMap fun t => (lineParts t.text.toList).map (t, ·)).flatMap Prod.snd =
      Lexeme.join (tokens.map (·.toLexeme)) := by
  induction tokens with
  | nil => rfl
  | cons t tokens ih =>
      have hhead : ((lineParts t.text.toList).map (t, ·)).flatMap Prod.snd = t.chars := by
        rw [List.flatMap_map, List.flatMap_id', flatten_lineParts]
        rfl
      rw [List.flatMap_cons, List.flatMap_append, hhead, ih, List.map_cons, Lexeme.join_cons]

/-! ### Columns count the characters of the line -/

/-- A character that is no line feed may be read before the rest of its piece. -/
theorem longLinesFrom_cons_char {limit : Nat} {owner : Option AnnotatedToken}
    {prev : Option Char} {t : AnnotatedToken} {column : Nat} {c : Char} (hc : c ≠ '\n')
    (part : List Char) (rest : List LinePiece) :
    longLinesFrom limit owner prev (⟨t, column, c :: part⟩ :: rest) =
      longLinesFrom limit owner (some c) (⟨t, column + 1, part⟩ :: rest) := by
  have hlast : (c :: part).getLast?.or prev = part.getLast?.or (some c) := by
    cases part with
    | nil => rfl
    | cons d part => rw [List.getLast?_cons_cons, List.getLast?_cons, Option.or, Option.or]
  have hlength : LinePiece.lineLength? prev ⟨t, column, c :: part⟩ =
      LinePiece.lineLength? (some c) ⟨t, column + 1, part⟩ := by
    simp only [LinePiece.lineLength?, List.reverse_cons]
    cases hreverse : part.reverse with
    | nil => simp [hc]
    | cons d body =>
        by_cases hd : d = '\n'
        · subst hd
          cases body <;> simp [Nat.add_assoc, Nat.add_comm 1]
        · simp [hd]
  simp only [longLinesFrom, hlength, hlast]

/-- The line under way, in a text that is at column `line.length`: a line feed behind it ends a line
of that many characters, but for a carriage return. -/
theorem lineLength?_lineFeed {t : AnnotatedToken} {prev : Option Char} {line : List Char}
    (hprev : prev = some '\r' ↔ line.getLast? = some '\r') :
    LinePiece.lineLength? prev ⟨t, line.length, ['\n']⟩ = contentLength? ('\n' :: line.reverse) := by
  rw [contentLength?_lineFeed, dropReturn]
  by_cases hreturn : line.getLast? = some '\r'
  · simp [LinePiece.lineLength?, hprev.2 hreturn, hreturn]
  · have hne : prev ≠ some '\r' := mt hprev.1 hreturn
    simp [LinePiece.lineLength?, hne, hreturn]

theorem LinePiece.cut_zero (t : AnnotatedToken) (s : List Char) :
    LinePiece.cut t 0 s = (lineParts s).map (⟨t, 0, ·⟩) := by
  rw [LinePiece.cut]
  cases hparts : lineParts s with
  | nil => rfl
  | cons part parts => rfl

theorem LinePiece.cut_of_lineParts {s : List Char} {part : List Char} {parts : List (List Char)}
    (h : lineParts s = part :: parts) (t : AnnotatedToken) (column : Nat) :
    LinePiece.cut t column s = ⟨t, column, part⟩ :: parts.map (⟨t, 0, ·⟩) := by
  rw [LinePiece.cut, h]

/-- Whether a line is read by its columns or by its characters, the same token owns it: at column
`line.length` the characters `line` of the line under way have been read. -/
theorem longLinesFrom_cut {limit : Nat} {t : AnnotatedToken} {s : List Char}
    {behind : List LinePiece} {behind' : List (AnnotatedToken × List Char)}
    {owner : Option AnnotatedToken} {prev : Option Char} {line : List Char} {p : Position}
    (hline : '\n' ∉ line) (hcolumn : p.column = line.length)
    (hprev : prev = some '\r' ↔ line.getLast? = some '\r')
    (hbehind : ∀ (owner : Option AnnotatedToken) (prev : Option Char) (line : List Char),
      '\n' ∉ line → (p.after s).column = line.length →
      (prev = some '\r' ↔ line.getLast? = some '\r') →
      longLinesFrom limit owner prev behind = longLines limit owner line.reverse behind') :
    longLinesFrom limit owner prev (LinePiece.cut t p.column s ++ behind) =
      longLines limit owner line.reverse ((lineParts s).map (t, ·) ++ behind') := by
  fun_induction lineParts s generalizing owner prev line p with
  | case1 =>
      have hcut : LinePiece.cut t p.column [] = [⟨t, p.column, []⟩] := rfl
      rw [hcut, List.singleton_append, longLinesFrom, List.map_singleton, List.singleton_append,
        longLines, List.reverseAux_nil, contentLength?_of_not_mem hline]
      exact hbehind _ _ _ hline hcolumn hprev
  | case2 =>
      have hcut : LinePiece.cut t p.column ['\n'] = [⟨t, p.column, ['\n']⟩] := rfl
      have hend : ['\n'].reverseAux line.reverse = '\n' :: line.reverse := rfl
      rw [hcut, List.singleton_append, longLinesFrom, hcolumn, lineLength?_lineFeed hprev,
        List.map_singleton, List.singleton_append, longLines, hend, contentLength?_lineFeed]
      have hrest := hbehind none (some '\n') [] List.not_mem_nil rfl (by simp)
      rw [hrest, List.reverse_nil]
  | case3 c rest ih =>
      -- behind the line feed the next piece starts a line, at the first column
      have hcut : LinePiece.cut t p.column ('\n' :: c :: rest) =
          ⟨t, p.column, ['\n']⟩ :: LinePiece.cut t 0 (c :: rest) := by
        rw [LinePiece.cut_zero]
        exact LinePiece.cut_of_lineParts (by rw [lineParts]) t p.column
      have hend : ['\n'].reverseAux line.reverse = '\n' :: line.reverse := rfl
      have hrest := @ih none (some '\n') [] ⟨p.line + 1, 0⟩ List.not_mem_nil rfl (by simp) hbehind
      rw [hcut, List.cons_append, longLinesFrom, hcolumn, lineLength?_lineFeed hprev,
        List.map_cons, List.cons_append, longLines, hend, contentLength?_lineFeed]
      rw [hrest, List.reverse_nil]
  | case4 c rest hfeed hcut part parts hparts ih =>
      have hc : c ≠ '\n' := by
        rintro rfl
        cases rest with
        | nil => exact hfeed rfl rfl
        | cons d rest => exact hcut d rest rfl rfl
      have hadvance : p.advance c = ⟨p.line, p.column + 1⟩ := if_neg hc
      have hwhole : lineParts (c :: rest) = (c :: part) :: parts := by
        rw [lineParts, hparts]
        · exact hfeed
        · exact hcut
      have hjoined : '\n' ∉ line ++ [c] := by simp [hline, hc.symm]
      have hrest := @ih owner (some c) (line ++ [c]) ⟨p.line, p.column + 1⟩ hjoined
        (by simp [hcolumn]) (by simp) (by rwa [← hadvance])
      rw [LinePiece.cut_of_lineParts hwhole, List.cons_append, longLinesFrom_cons_char hc,
        ← List.cons_append, ← LinePiece.cut_of_lineParts hparts, hrest, hparts]
      simp [longLines]
  | case5 c rest _ _ hparts => exact absurd hparts (lineParts_ne_nil rest)

/-- The owners of long lines among placed tokens, by the characters of the lines: a token stands at
the column that counts the characters of its line before it. -/
theorem longLinesFrom_pieces {limit index offset : Nat} {p : Position} {xs : List Lexeme}
    {tokens : List AnnotatedToken} (h : tokens.map (·.toToken) = Token.place index offset p xs)
    {owner : Option AnnotatedToken} {prev : Option Char} {line : List Char} (hline : '\n' ∉ line)
    (hcolumn : p.column = line.length) (hprev : prev = some '\r' ↔ line.getLast? = some '\r') :
    longLinesFrom limit owner prev (tokens.flatMap AnnotatedToken.pieces) =
      longLines limit owner line.reverse
        (tokens.flatMap fun t => (lineParts t.text.toList).map (t, ·)) := by
  induction xs generalizing index offset p tokens owner prev line with
  | nil =>
      rw [List.map_eq_nil_iff.1 h]
      rfl
  | cons x xs ih =>
      obtain ⟨t, rest, rfl, ht, hrest⟩ := List.map_eq_cons_iff.1 h
      have htext : t.text.toList = x.chars := by rw [ht]; rfl
      have hposition : t.position = p := by rw [ht]
      rw [List.flatMap_cons, List.flatMap_cons, AnnotatedToken.pieces, hposition, htext]
      exact longLinesFrom_cut hline hcolumn hprev fun _ _ _ => ih hrest

/-! ### The owners of long lines -/

/-- The owner of the line under way holds its first byte. A line without an owner starts with the
next piece. -/
theorem holds_owner {owner : Option AnnotatedToken} {t : AnnotatedToken} {line : List Char}
    {start : Nat} (howner : ∀ u, owner = some u → u.Holds start) (hnone : owner = none → line = [])
    (ht : t.Holds (start + byteLength line)) : (owner.getD t).Holds start := by
  cases owner with
  | none => simpa [hnone rfl] using ht
  | some u => exact howner u rfl

/-- **Every long line is blamed on the token that holds its first byte.** The line under way starts
at byte `start`, and `line` is what of it stands before the pieces. -/
theorem forall₂_longLines {limit offset start : Nat} {parts : List (AnnotatedToken × List Char)}
    (h : Parts offset parts) {owner : Option AnnotatedToken} {line : List Char}
    (hline : '\n' ∉ line) (hstart : start + byteLength line = offset)
    (howner : ∀ t, owner = some t → t.Holds start) (hnone : owner = none → line = []) :
    List.Forall₂ (fun t start => t.Holds start) (longLines limit owner line.reverse parts)
      (longStarts limit start (endedLines (line ++ parts.flatMap Prod.snd))) := by
  induction h generalizing start owner line with
  | nil offset =>
      rw [List.flatMap_nil, List.append_nil, endedLines_of_not_mem hline]
      exact .nil
  | @inside offset t body rest htstart htstop hbody hne _ ih =>
      have hjoined : '\n' ∉ line ++ body := by simp [hline, hbody]
      have hlt : offset < t.span.stop := by
        have := length_le_byteLength body
        have := List.length_pos_iff.2 hne
        omega
      have hheld := holds_owner howner hnone (t := t) (hstart ▸ ⟨htstart, hlt⟩)
      rw [longLines, List.reverseAux_eq, ← List.reverse_append, contentLength?_of_not_mem hjoined]
      rw [List.flatMap_cons, ← List.append_assoc]
      refine ih hjoined ?_ ?_ ?_
      · rw [byteLength_append, ← Nat.add_assoc, hstart]
      · intro u hu
        exact Option.some.inj hu ▸ hheld
      · simp
  | @ending offset t body rest htstart htstop hbody _ ih =>
      have hjoined : '\n' ∉ line ++ body := by simp [hline, hbody]
      rw [longLines, List.reverseAux_eq, ← List.reverse_append, ← List.append_assoc,
        contentLength?_concat]
      rw [List.flatMap_cons, ← List.append_assoc, ← List.append_assoc, List.append_assoc _ ['\n'],
        List.singleton_append, endedLines_append hjoined, longStarts]
      have hheld := holds_owner howner hnone (t := t) (hstart ▸ ⟨htstart, by omega⟩)
      have hnext : start + byteLength (line ++ body) + 1 = offset + byteLength body + 1 := by
        rw [byteLength_append, ← Nat.add_assoc, hstart]
      -- behind a line feed the next line starts, and nothing of it is read yet
      have htail := @ih (start + byteLength (line ++ body) + 1) none [] List.not_mem_nil hnext
        (by simp) (fun _ => rfl)
      dsimp only
      split
      · exact .cons hheld htail
      · exact htail

/-! ### Dropping repeats -/

theorem head?_dropRepeats (t : AnnotatedToken) (rest : List AnnotatedToken) :
    (dropRepeats (t :: rest)).head? = some t := by
  rw [dropRepeats]
  split
  · split <;> rfl
  · rfl

theorem pairwise_dropRepeats {owners : List AnnotatedToken}
    (h : owners.Pairwise fun t u => t.index ≤ u.index) :
    (dropRepeats owners).Pairwise fun t u => t.index < u.index := by
  induction owners with
  | nil => exact .nil
  | cons t rest ih =>
      obtain ⟨ht, hrest⟩ := List.pairwise_cons.1 h
      have hpairwise := ih hrest
      rw [dropRepeats]
      split
      · next u others hothers =>
          rw [hothers] at hpairwise
          have hu := ht u (mem_of_mem_dropRepeats (hothers ▸ List.mem_cons_self ..))
          obtain ⟨huothers, hothers⟩ := List.pairwise_cons.1 hpairwise
          split
          · next heq => exact List.pairwise_cons.2 ⟨fun v hv => heq ▸ huothers v hv, hothers⟩
          · next hne =>
              refine List.pairwise_cons.2 ⟨fun v hv => ?_, hpairwise⟩
              rcases List.mem_cons.1 hv with rfl | hv
              · exact Nat.lt_of_le_of_ne hu hne
              · exact Nat.lt_of_le_of_lt hu (huothers v hv)
      · exact List.pairwise_singleton _ _

theorem exists_mem_dropRepeats {owners : List AnnotatedToken} {t : AnnotatedToken}
    (h : t ∈ owners) : ∃ u ∈ dropRepeats owners, u.index = t.index := by
  induction owners with
  | nil => simp at h
  | cons v rest ih =>
      rcases List.mem_cons.1 h with rfl | h
      · exact ⟨t, List.mem_of_mem_head? (head?_dropRepeats t rest), rfl⟩
      · obtain ⟨u, hu, heq⟩ := ih h
        rw [dropRepeats]
        split
        · next w others hothers =>
            rw [hothers] at hu
            split
            · next hvw =>
                rcases List.mem_cons.1 hu with rfl | hu
                · exact ⟨v, List.mem_cons_self .., hvw.trans heq⟩
                · exact ⟨u, List.mem_cons_of_mem _ hu, heq⟩
            · exact ⟨u, List.mem_cons_of_mem _ hu, heq⟩
        · next hnil =>
            rw [hnil] at hu
            simp at hu

/-! ### Tokens in order -/

/-- A token stands before another one. -/
def Token.Before (t u : Token) : Prop := t.index < u.index ∧ t.span.stop ≤ u.span.start

theorem Token.le_start_of_mem_place {index offset : Nat} {p : Position} {xs : List Lexeme}
    {t : Token} (h : t ∈ Token.place index offset p xs) :
    index ≤ t.index ∧ offset ≤ t.span.start := by
  induction xs generalizing index offset p with
  | nil => simp [Token.place] at h
  | cons x xs ih =>
      rcases List.mem_cons.1 h with rfl | h
      · exact ⟨Nat.le_refl _, Nat.le_refl _⟩
      · obtain ⟨hindex, hstart⟩ := ih h
        exact ⟨by omega, by omega⟩

/-- Placed tokens stand one before the other. -/
theorem Token.pairwise_before_place (index offset : Nat) (p : Position) (xs : List Lexeme) :
    (Token.place index offset p xs).Pairwise Token.Before := by
  induction xs generalizing index offset p with
  | nil => exact .nil
  | cons x xs ih =>
      refine List.pairwise_cons.2 ⟨fun t ht => ?_, ih _ _ _⟩
      exact Token.le_start_of_mem_place ht

/-- Of two tokens in order, the one that holds the earlier byte does not stand behind the other. -/
theorem index_le_of_holds {tokens : List AnnotatedToken}
    (hbefore : tokens.Pairwise fun t u => t.Before u.toToken) {t u : AnnotatedToken}
    (ht : t ∈ tokens) (hu : u ∈ tokens) {start start' : Nat} (hstart : t.Holds start)
    (hstart' : u.Holds start') (hle : start ≤ start') : t.index ≤ u.index := by
  by_cases hne : t = u
  · exact Nat.le_of_eq (congrArg (·.index) hne)
  · rcases rel_or_rel_of_pairwise hbefore ht hu hne with ⟨hindex, -⟩ | ⟨-, hspan⟩
    · exact Nat.le_of_lt hindex
    · have := hstart.1
      have := hstart'.2
      omega

/-- Two tokens in order that hold the same byte are the same. -/
theorem eq_of_holds {tokens : List AnnotatedToken}
    (hbefore : tokens.Pairwise fun t u => t.Before u.toToken) {t u : AnnotatedToken}
    (ht : t ∈ tokens) (hu : u ∈ tokens) {start : Nat} (hstart : t.Holds start)
    (hstart' : u.Holds start) : t = u := by
  by_contra hne
  have := hstart.1
  have := hstart.2
  have := hstart'.1
  have := hstart'.2
  rcases rel_or_rel_of_pairwise hbefore ht hu hne with ⟨-, hspan⟩ | ⟨-, hspan⟩ <;> omega

/-! ### The tokens in which long lines start -/

theorem exists_of_mem_forall₂ {α β : Type} {r : α → β → Prop} {xs : List α} {ys : List β}
    (h : List.Forall₂ r xs ys) {x : α} (hx : x ∈ xs) : ∃ y ∈ ys, r x y := by
  induction h with
  | nil => simp at hx
  | @cons x' y xs ys hxy _ ih =>
      rcases List.mem_cons.1 hx with rfl | hx
      · exact ⟨y, List.mem_cons_self .., hxy⟩
      · obtain ⟨y', hmem, hrel⟩ := ih hx
        exact ⟨y', List.mem_cons_of_mem _ hmem, hrel⟩

/-- The owners of lines that start one behind the other are in order. -/
theorem pairwise_owners {tokens : List AnnotatedToken}
    (hbefore : tokens.Pairwise fun t u => t.Before u.toToken) {owners : List AnnotatedToken}
    {starts : List Nat} (howners : List.Forall₂ (fun t start => t.Holds start) owners starts)
    (hstarts : starts.Pairwise (· < ·)) (hmem : ∀ t ∈ owners, t ∈ tokens) :
    owners.Pairwise fun t u => t.index ≤ u.index := by
  induction howners with
  | nil => exact .nil
  | @cons t start owners starts ht howners ih =>
      obtain ⟨hstart, hstarts⟩ := List.pairwise_cons.1 hstarts
      have hrest : ∀ u ∈ owners, u ∈ tokens := fun u hu => hmem u (List.mem_cons_of_mem _ hu)
      refine List.pairwise_cons.2 ⟨fun u hu => ?_, ih hstarts hrest⟩
      obtain ⟨start', hstart', hheld⟩ := exists_of_mem_forall₂ howners hu
      exact index_le_of_holds hbefore (hmem t (List.mem_cons_self ..)) (hrest u hu) ht hheld
        (Nat.le_of_lt (hstart start' hstart'))

/-- **Dropping repeats leaves each owner once**: what remains are the tokens that hold the start of
a line, in their order. -/
theorem dropRepeats_owners {tokens : List AnnotatedToken}
    (hbefore : tokens.Pairwise fun t u => t.Before u.toToken) {owners : List AnnotatedToken}
    {starts : List Nat} (howners : List.Forall₂ (fun t start => t.Holds start) owners starts)
    (hstarts : starts.Pairwise (· < ·)) (hmem : ∀ t ∈ owners, t ∈ tokens) :
    dropRepeats owners = tokens.filter fun t => starts.any fun start => t.Holds start := by
  have hkept := pairwise_dropRepeats (pairwise_owners hbefore howners hstarts hmem)
  have hfiltered := (hbefore.imp And.left).filter fun t => starts.any fun start => t.Holds start
  have : Std.Irrefl fun t u : AnnotatedToken => t.index < u.index := ⟨fun _ => Nat.lt_irrefl _⟩
  have : Std.Antisymm fun t u : AnnotatedToken => t.index < u.index :=
    ⟨fun _ _ h h' => absurd (Nat.lt_trans h h') (Nat.lt_irrefl _)⟩
  refine hkept.eq_of_mem_iff hfiltered fun t => ?_
  rw [List.mem_filter, List.any_eq_true]
  constructor
  · intro ht
    have ht := mem_of_mem_dropRepeats ht
    obtain ⟨start, hstart, hheld⟩ := exists_of_mem_forall₂ howners ht
    exact ⟨hmem t ht, start, hstart, decide_eq_true hheld⟩
  · rintro ⟨ht, start, hstart, hheld⟩
    obtain ⟨u, hu, huheld⟩ := exists_of_mem_forall₂ (List.Forall₂.flip howners) hstart
    -- the owner is `t`, and so is the token with its number that is left
    obtain rfl := eq_of_holds hbefore ht (hmem u hu) (of_decide_eq_true hheld) huheld
    obtain ⟨v, hv, heq⟩ := exists_mem_dropRepeats hu
    obtain rfl := AnnotatedToken.eq_of_index_eq (hbefore.imp And.left)
      (hmem v (mem_of_mem_dropRepeats hv)) ht heq
    exact hv

/-! ### The rule -/

/-- Whether a token holds the first byte of a line of a text that has more than `limit`
characters. -/
def Token.startsLongLine (limit : Nat) (source : String) (t : Token) : Bool :=
  (longStarts limit 0 (endedLines source.toList)).any fun start => t.Holds start

/-- The annotated tokens of a text stand one before the other. -/
theorem pairwise_before_of_tokenize {source : String} {tokens : List Token}
    (h : tokenize source = .ok tokens) {annotated : List AnnotatedToken}
    (hannotated : annotated.map (·.toToken) = tokens) :
    annotated.Pairwise fun t u => t.Before u.toToken := by
  obtain ⟨xs, rfl, -, -⟩ := exists_of_tokenize_eq_ok h
  rw [← List.pairwise_map, hannotated]
  exact Token.pairwise_before_place _ _ _ _

/-- The owners of long lines among tokens that make up a text. -/
theorem longLineOwners_of_tokenize {source : String} {tokens : List Token}
    (h : tokenize source = .ok tokens) (limit : Nat) {annotated : List AnnotatedToken}
    (hannotated : annotated.map (·.toToken) = tokens) :
    longLineOwners limit annotated =
      annotated.filter fun t => t.toToken.startsLongLine limit source := by
  have hbefore := pairwise_before_of_tokenize h hannotated
  obtain ⟨xs, rfl, hjoin, hchars⟩ := exists_of_tokenize_eq_ok h
  have htext : (annotated.flatMap fun t => (lineParts t.text.toList).map (t, ·)).flatMap Prod.snd =
      source.toList := by
    have hlexemes : annotated.map (·.toLexeme) = xs := by
      rw [← Token.map_toLexeme_place 0 0 Position.origin xs, ← Lexeme.layOut, ← hannotated,
        List.map_map]
      rfl
    rw [flatMap_snd_parts, hlexemes, hjoin]
  have howners := @forall₂_longLines limit 0 0 _ (parts_of_place hchars hannotated) none []
    List.not_mem_nil rfl (by simp) (fun _ => rfl)
  have hcolumns := @longLinesFrom_pieces limit 0 0 Position.origin xs annotated hannotated none none
    [] List.not_mem_nil rfl (by simp)
  rw [List.nil_append, htext, ← hcolumns] at howners
  refine dropRepeats_owners hbefore howners (pairwise_longStarts _ _ _) fun t ht => ?_
  exact mem_of_mem_longLinesFrom_pieces ht

/-- **The rule about long lines flags the tokens in which a long line starts.** Split the source at
its line feeds, drop what stands behind the last of them, and do not count a carriage return at the
end of a line: the tokens that hold the first byte of a line with too many characters, or that of its
line feed if nothing else is in it, are the ones that are flagged, once each and in their order. The
same tokens are named in the findings of the text. -/
theorem lineLength_of_tokenize {source : String} {tokens : List Token}
    (h : tokenize source = .ok tokens) (limits : Thresholds) :
    (∀ annotated : List AnnotatedToken, annotated.map (·.toToken) = tokens →
      Rule.lineLength.flagged limits annotated =
        annotated.filter fun t => t.toToken.startsLongLine limits.lineLength source) ∧
      ∀ found, checkText limits source = .ok found →
        found.filter (·.rule == .lineLength) =
          (tokens.filter (·.startsLongLine limits.lineLength source)).map fun t =>
            ⟨.lineLength, t.index, t.span, t.position⟩ := by
  refine ⟨fun annotated => longLineOwners_of_tokenize h limits.lineLength, ?_⟩
  intro found hfound
  rw [checkText] at hfound
  cases hnodes : parseText source with
  | error e => simp [hnodes] at hfound
  | ok nodes =>
      simp only [hnodes, Except.ok.injEq] at hfound
      have hannotated : (analyze nodes).tokens.map (·.toToken) = tokens := by
        rw [toToken_analyze]
        exact Except.ok.inj ((tokenize_of_parseText hnodes).symm.trans h)
      have hflagged := longLineOwners_of_tokenize h limits.lineLength hannotated
      have hordered : (Rule.lineLength.flagged limits (analyze nodes).tokens).Pairwise
          fun t u => t.index < u.index := by
        rw [Rule.flagged, hflagged]
        exact ((pairwise_before_of_tokenize h hannotated).imp And.left).filter _
      rw [← hfound, filter_findings hordered, Rule.findings, Rule.flagged, hflagged, ← hannotated,
        List.filter_map, List.map_map]
      rfl

/-- Lines with more than three characters are the first one and two that start inside the quotes. The
text in quotes is flagged once. -/
theorem lineLength_of_tokenize_quoted :
    let source := "a:1+2\r\nb:\"\r\nlong\r\nlonger\n\r\n\"\nabcdef"
    let limits : Thresholds := { lineLength := 3 }
    let quoted := "\r\nlong\r\nlonger\n\r\n"
    let tokens := Lexeme.layOut [⟨.identifier, "a"⟩, ⟨.colon, ":"⟩, ⟨.literal .number, "1"⟩,
      ⟨.operator, "+"⟩, ⟨.literal .number, "2"⟩, ⟨.lineBreak, "\r\n"⟩, ⟨.identifier, "b"⟩,
      ⟨.colon, ":"⟩, ⟨.openQuote, "\""⟩, ⟨.quotedText, quoted⟩, ⟨.closeQuote, "\""⟩,
      ⟨.lineBreak, "\n"⟩, ⟨.identifier, "abcdef"⟩]
    let found : List Finding := [⟨.lineLength, 0, ⟨0, 1⟩, ⟨0, 0⟩⟩, ⟨.unusedVar, 0, ⟨0, 1⟩, ⟨0, 0⟩⟩,
      ⟨.unusedVar, 6, ⟨7, 8⟩, ⟨1, 0⟩⟩, ⟨.lineLength, 9, ⟨10, 27⟩, ⟨1, 3⟩⟩]
    tokenize source = .ok tokens ∧ checkText limits source = .ok found ∧
      found.filter (·.rule == .lineLength) =
        (tokens.filter (·.startsLongLine 3 source)).map fun t =>
          ⟨.lineLength, t.index, t.span, t.position⟩ := by
  intro source limits quoted tokens found
  have htokens : tokenize source = .ok tokens := by decide +kernel
  have hfound : checkText limits source = .ok found := by decide +kernel
  exact ⟨htokens, hfound, (lineLength_of_tokenize htokens limits).2 found hfound⟩

end QSource
