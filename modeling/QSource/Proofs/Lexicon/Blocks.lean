/-
**Block comments, line by line.**

How long a block comment is comes from one pass over the characters behind its first line, which asks at
the start of every line whether the line is a closing marker.  Here a text is cut into its lines first,
each with its terminator, and the comment is put together from them: the opening line, the lines before
the first closing marker, and that marker without its terminator.

A scan over bytes does not see lines either.  It goes from one line end to the next with an offset, reads
the text at that offset, steps over a terminator of one byte or two, and takes the line behind it.  Such a
scan is written down with every access checked: it comes out undefined as soon as an offset lies beyond
the text or inside a character.  That never happens, and it finds the same comment.

Main definitions:

* `QSource.Text.Line`, `QSource.Text.lines` — **the lines of a text**, each with its terminator;
* `QSource.blockText?` — **the block comment that opens some lines**;
* `QSource.scanBlock?`, `QSource.blockBytes?` — the scan over bytes, with every access checked.

Main results:

* `QSource.Text.joinLines_lines` — the lines make up the text;
* `QSource.throughClosingMarker_eq` — the pass over the characters stops at the first closing marker;
* `QSource.scanBlock?_eq` — **the scan over bytes stays inside the text** and stops there too;
* `QSource.block_by_lines` — **a block comment is what its lines say**.
-/

import QSource.Proofs.Lexicon.Returns
import QSource.Proofs.Text.LineTable

set_option relaxedAutoImplicit false
set_option autoImplicit false

namespace QSource

open Text

/-! ### Lines -/

namespace Text

/-- A line of a text, with the characters that end it. -/
structure Line where
  content : List Char
  terminator : List Char
deriving DecidableEq

namespace Line

/-- A line with its terminator. -/
def text (line : Line) : List Char := line.content ++ line.terminator

/-- The line that a line feed ends, given all that stands before the line feed: a carriage return right
before it belongs to the terminator. -/
def ended (part : List Char) : Line :=
  if part.getLast? = some '\r' then ⟨part.dropLast, ['\r', '\n']⟩ else ⟨part, ['\n']⟩

/-- The line is a marker with nothing but spaces and tabs behind it. -/
def IsMarker (marker : Char) (line : Line) : Prop :=
  ∃ blanks, line.content = marker :: blanks ∧ ∀ c ∈ blanks, c = ' ' ∨ c = '\t'

end Line

/-- The lines of a text.  All but the last are ended by a line feed, or by a carriage return and a line
feed; the last one ends with the text. -/
def lines (s : List Char) : List Line :=
  (s.splitOn '\n').dropLast.map Line.ended ++ (s.splitOn '\n').getLast?.toList.map (⟨·, []⟩)

/-- The text that lines make up. -/
def joinLines (ls : List Line) : List Char := ls.flatMap Line.text

@[simp] theorem joinLines_nil : joinLines [] = [] := rfl

@[simp] theorem joinLines_cons (l : Line) (ls : List Line) :
    joinLines (l :: ls) = l.text ++ joinLines ls := rfl

theorem lines_of_not_mem {s : List Char} (h : '\n' ∉ s) : lines s = [⟨s, []⟩] := by
  rw [lines, List.splitOn_eq_singleton h]
  rfl

theorem lines_append {part : List Char} (h : '\n' ∉ part) (rest : List Char) :
    lines (part ++ '\n' :: rest) = Line.ended part :: lines rest := by
  rw [lines, List.splitOn_append_cons_self_of_not_mem h,
    List.dropLast_cons_of_ne_nil (List.splitOn_ne_nil _ _),
    List.getLast?_cons_of_ne_nil (List.splitOn_ne_nil _ _), lines, List.map_cons, List.cons_append]

/-- What holds of the last line of a text, and passes from what follows a line to the text that begins
with it, holds of every text. -/
theorem lines_induction {P : List Char → Prop} (last : ∀ s, '\n' ∉ s → P s)
    (more : ∀ part rest, '\n' ∉ part → P rest → P (part ++ '\n' :: rest)) (s : List Char) : P s := by
  by_cases hmem : '\n' ∈ s
  · obtain ⟨part, rest, hs, hpart⟩ := List.eq_append_cons_of_mem hmem
    have : rest.length < s.length := by simp [hs]; omega
    exact hs ▸ more part rest hpart (lines_induction last more rest)
  · exact last s hmem
termination_by s.length

theorem Line.text_ended (part : List Char) : (Line.ended part).text = part ++ ['\n'] := by
  rw [Line.ended]
  split
  · next hreturn =>
      obtain ⟨front, rfl⟩ := List.getLast?_eq_some_iff.1 hreturn
      simp [Line.text]
  · rfl

theorem append_lineFeed (part rest : List Char) : part ++ '\n' :: rest = (Line.ended part).text ++ rest := by
  rw [Line.text_ended, List.append_assoc, List.singleton_append]

theorem Line.not_mem_ended {part : List Char} (h : '\n' ∉ part) : '\n' ∉ (Line.ended part).content := by
  rw [Line.ended]
  split
  · exact fun hmem => h (List.dropLast_subset _ hmem)
  · exact h

/-- A line feed ends a line together with the carriage return before it. -/
theorem Line.terminator_ended (part : List Char) :
    (Line.ended part).terminator = ['\r', '\n'] ∨
      (Line.ended part).terminator = ['\n'] ∧ (Line.ended part).content.getLast? ≠ some '\r' := by
  rw [Line.ended]
  split
  · exact .inl rfl
  · next hreturn => exact .inr ⟨rfl, hreturn⟩

/-- **What the lines of a text are**: all but the last have a terminator, none has a line feed before it,
and a carriage return before the line feed of a terminator belongs to it. -/
theorem exists_lines_eq (s : List Char) :
    ∃ init last, lines s = init ++ [⟨last, []⟩] ∧ '\n' ∉ last ∧
      ∀ l ∈ init, '\n' ∉ l.content ∧
        (l.terminator = ['\r', '\n'] ∨ l.terminator = ['\n'] ∧ l.content.getLast? ≠ some '\r') := by
  induction s using lines_induction with
  | last s h => exact ⟨[], s, lines_of_not_mem h, h, by simp⟩
  | more part rest h ih =>
      obtain ⟨init, last, hlines, hlast, hinit⟩ := ih
      refine ⟨Line.ended part :: init, last, by rw [lines_append h, hlines, List.cons_append], hlast, ?_⟩
      exact List.forall_mem_cons.2 ⟨⟨Line.not_mem_ended h, Line.terminator_ended part⟩, hinit⟩

/-- **The lines make up the text.** -/
theorem joinLines_lines (s : List Char) : joinLines (lines s) = s := by
  induction s using lines_induction with
  | last s h => simp [lines_of_not_mem h, Line.text]
  | more part rest h ih => simp [lines_append h, Line.text_ended, ih]

/-- A text of one line is its first line. -/
theorem firstLine_of_not_mem {s : List Char} (h : '\n' ∉ s) : firstLine s = s := by
  fun_induction firstLine s with
  | case1 => rfl
  | case2 => simp at h
  | case3 => simp at h
  | case4 c rest _ _ ih => rw [ih (List.not_mem_of_not_mem_cons h)]

/-- The terminator of an ended line ends it. -/
theorem lineEnds_ended (part rest : List Char) :
    LineEnds (Line.ended part).content ((Line.ended part).terminator ++ rest) := by
  rcases Line.terminator_ended part with hterminator | ⟨hterminator, hreturn⟩
  · exact ⟨by rw [hterminator]; rfl, by simp [hterminator]⟩
  · exact ⟨by rw [hterminator]; rfl, fun _ => hreturn⟩

/-- The first line of a text is the first of its lines. -/
theorem firstLine_append_lineFeed {part : List Char} (h : '\n' ∉ part) (rest : List Char) :
    firstLine (part ++ '\n' :: rest) = (Line.ended part).content := by
  rw [append_lineFeed, Line.text, List.append_assoc, firstLine_append (lineEnds_ended part rest),
    firstLine_of_not_mem (Line.not_mem_ended h)]

theorem isMarkerLine_iff {marker : Char} {l : Line} :
    isMarkerLine marker l.content = true ↔ l.IsMarker marker := by
  cases hcontent : l.content with
  | nil => simp [isMarkerLine, Line.IsMarker, hcontent]
  | cons c rest =>
      simp only [isMarkerLine, Line.IsMarker, hcontent, Bool.and_eq_true, beq_iff_eq,
        List.all_eq_true, isBlank, Bool.or_eq_true]
      constructor
      · rintro ⟨rfl, hblanks⟩
        exact ⟨rest, rfl, hblanks⟩
      · rintro ⟨blanks, heq, hblanks⟩
        obtain ⟨rfl, rfl⟩ := List.cons.inj heq
        exact ⟨rfl, hblanks⟩

instance {marker : Char} {l : Line} : Decidable (l.IsMarker marker) :=
  decidable_of_iff _ isMarkerLine_iff

end Text

/-! ### Comments put together from lines -/

/-- The text of a block comment from its second line on: the lines before the first closing marker, and
the marker without what ends it. -/
def closingText (later : List Line) : List Char :=
  joinLines (later.takeWhile fun l => ¬ l.IsMarker '\\') ++
    ((later.find? fun l => l.IsMarker '\\').map Line.content).getD []

/-- **The block comment that opens some lines**: the first of them has to be an opening marker, and the
first later one that is a closing marker ends the comment. -/
def blockText? : List Line → Option (List Char)
  | [] => none
  | opening :: later =>
    if opening.IsMarker '/' then some (opening.text ++ closingText later) else none

@[simp] theorem closingText_nil : closingText [] = [] := rfl

theorem closingText_cons_of_isMarker {l : Line} (h : l.IsMarker '\\') (ls : List Line) :
    closingText (l :: ls) = l.content := by
  simp [closingText, h]

theorem closingText_cons_of_not_isMarker {l : Line} (h : ¬ l.IsMarker '\\') (ls : List Line) :
    closingText (l :: ls) = l.text ++ closingText ls := by
  simp [closingText, h]

/-- The last line of a text has no terminator to be left out. -/
theorem closingText_last (s : List Char) : closingText [⟨s, []⟩] = s := by
  by_cases hmarker : Line.IsMarker '\\' ⟨s, []⟩
  · rw [closingText_cons_of_isMarker hmarker]
  · rw [closingText_cons_of_not_isMarker hmarker]
    simp [Line.text]

theorem blockText?_cons_eq_some {opening : Line} {later : List Line} {comment : List Char} :
    blockText? (opening :: later) = some comment ↔
      opening.IsMarker '/' ∧ opening.text ++ closingText later = comment := by
  simp [blockText?]

/-! ### The pass over the characters -/

section

variable {part : List Char} (h : '\n' ∉ part)

include h

/-- Inside a line the pass looks for no marker. -/
theorem throughClosingMarker_line (rest : List Char) :
    throughClosingMarker false (part ++ '\n' :: rest) =
      (part ++ ['\n']).length + throughClosingMarker true rest := by
  induction part with
  | nil => simp [throughClosingMarker]
  | cons c part ih =>
      have hc : c ≠ '\n' := (List.ne_of_not_mem_cons h).symm
      rw [List.cons_append, throughClosingMarker, beq_false_of_ne hc, ih (List.not_mem_of_not_mem_cons h)]
      simp
      omega

theorem throughClosingMarker_of_not_mem : throughClosingMarker false part = part.length := by
  induction part with
  | nil => rfl
  | cons c part ih =>
      have hc : c ≠ '\n' := (List.ne_of_not_mem_cons h).symm
      rw [throughClosingMarker, beq_false_of_ne hc, ih (List.not_mem_of_not_mem_cons h)]
      simp
      omega

end

/-- At the start of a line the pass asks whether the line is a closing marker. -/
theorem throughClosingMarker_true (s : List Char) :
    throughClosingMarker true s =
      if isMarkerLine '\\' (firstLine s) then (firstLine s).length else throughClosingMarker false s := by
  cases s with
  | nil => rfl
  | cons c s => simp [throughClosingMarker]

/-- **The pass over the characters stops at the first closing marker.** -/
theorem throughClosingMarker_eq (s : List Char) :
    throughClosingMarker true s = (closingText (lines s)).length := by
  induction s using lines_induction with
  | last s h =>
      rw [throughClosingMarker_true, firstLine_of_not_mem h, throughClosingMarker_of_not_mem h, ite_self,
        lines_of_not_mem h, closingText_last]
  | more part rest h ih =>
      rw [throughClosingMarker_true, firstLine_append_lineFeed h, lines_append h,
        throughClosingMarker_line h, ih]
      by_cases hmarker : (Line.ended part).IsMarker '\\'
      · rw [if_pos (isMarkerLine_iff.2 hmarker), closingText_cons_of_isMarker hmarker]
      · rw [if_neg (mt isMarkerLine_iff.1 hmarker), closingText_cons_of_not_isMarker hmarker,
          Line.text_ended, ← List.length_append]

/-- **A block comment at the start of a line is the one that the lines open with.** -/
theorem commentLength?_block {prev : Option Char} (hstart : atLineStart prev = true) (s : List Char) :
    commentLength? .block prev s = (blockText? (lines s)).map List.length := by
  rw [commentLength?, hstart, Bool.true_and]
  induction s using lines_induction with
  | last s h =>
      rw [firstLine_of_not_mem h, lines_of_not_mem h, throughClosingMarker_of_not_mem h, blockText?]
      simp only [← isMarkerLine_iff]
      split <;> simp [Line.text]
  | more part rest h _ =>
      rw [firstLine_append_lineFeed h, lines_append h, throughClosingMarker_line h, blockText?,
        throughClosingMarker_eq]
      simp only [← isMarkerLine_iff, Line.text_ended, ← List.length_append]
      split <;> rfl

/-- A line before a text does not change where the text ends. -/
theorem Text.LineEnds.line {t b : List Char} (h : LineEnds t b) (part : List Char) :
    LineEnds ((Line.ended part).text ++ t) b := by
  refine ⟨h.firstLine_eq, fun hfeed => ?_⟩
  have hlast := h.not_return hfeed
  rw [Line.text_ended, List.getLast?_append]
  cases hclosing : t.getLast? with
  | none => simp
  | some c => rwa [hclosing] at hlast

/-- **The lines up to a closing marker end where a line ends.** -/
theorem exists_of_closingText (s : List Char) :
    ∃ behind, s = closingText (lines s) ++ behind ∧ LineEnds (closingText (lines s)) behind := by
  induction s using lines_induction with
  | last s h =>
      refine ⟨[], ?_, rfl, by simp⟩
      rw [lines_of_not_mem h, closingText_last, List.append_nil]
  | more part rest h ih =>
      rw [lines_append h, append_lineFeed]
      by_cases hmarker : (Line.ended part).IsMarker '\\'
      · rw [closingText_cons_of_isMarker hmarker]
        exact ⟨_, List.append_assoc .., lineEnds_ended part rest⟩
      · rw [closingText_cons_of_not_isMarker hmarker]
        obtain ⟨behind, hrest, hends⟩ := ih
        exact ⟨behind, by rw [List.append_assoc, ← hrest], hends.line part⟩

/-- **A block comment ends where a line ends**: with the text, or before a line terminator none of which
belongs to it. -/
theorem exists_of_blockText? {s comment : List Char} (hblock : blockText? (lines s) = some comment) :
    ∃ behind, s = comment ++ behind ∧ LineEnds comment behind := by
  induction s using lines_induction with
  | last s h =>
      rw [lines_of_not_mem h, blockText?_cons_eq_some] at hblock
      obtain ⟨-, rfl⟩ := hblock
      exact ⟨[], by simp [Line.text], rfl, by simp⟩
  | more part rest h _ =>
      rw [lines_append h, blockText?_cons_eq_some] at hblock
      obtain ⟨-, rfl⟩ := hblock
      obtain ⟨behind, hrest, hends⟩ := exists_of_closingText rest
      exact ⟨behind, by rw [append_lineFeed, List.append_assoc, ← hrest], hends.line part⟩

/-! ### The scan over bytes -/

/-- The scan for a closing marker from the end of a line at byte `offset` on.  It steps over the
terminator and looks at the line behind it; the offsets are clamped to the text before it is read there.
`none` if it reads outside the text, or from inside a character. -/
def scanBlock? (s : List Char) (offset : Nat) : Option Nat :=
  if _ : offset < byteLength s then
    ((dropBytes? s offset).bind List.head?).bind fun c =>
      let next := offset + if c = '\r' then 2 else 1
      let start := min next (byteLength s)
      (dropBytes? s start).bind fun rest =>
        let length := byteLength (firstLine rest)
        (slice? s start (next + length)).bind fun line =>
          if isMarkerLine '\\' line then some (next + length) else scanBlock? s (next + length)
  else
    some (byteLength s)
termination_by byteLength s - offset
decreasing_by split <;> omega

theorem scanBlock?_byteLength (s : List Char) : scanBlock? s (byteLength s) = some (byteLength s) := by
  rw [scanBlock?, dif_neg (Nat.lt_irrefl _)]

/-- A line feed, with or without a carriage return before it. -/
def Text.IsTerminator (t : List Char) : Prop := t = ['\n'] ∨ t = ['\r', '\n']

theorem Text.Line.isTerminator_ended (part : List Char) : IsTerminator (Line.ended part).terminator :=
  (Line.terminator_ended part).symm.imp_left And.left

/-- **One step of the scan** goes from the end of a line to the end of the next one, inside the text. -/
theorem scanBlock?_step (x rest : List Char) {t : List Char} (ht : IsTerminator t) :
    scanBlock? (x ++ t ++ rest) (byteLength x) =
      if isMarkerLine '\\' (firstLine rest) then some (byteLength (x ++ t ++ firstLine rest))
      else scanBlock? (x ++ t ++ rest) (byteLength (x ++ t ++ firstLine rest)) := by
  obtain ⟨behind, hrest⟩ := prefix_firstLine rest
  have hslice := slice?_append (x ++ t) (firstLine rest) behind
  rw [List.append_assoc (x ++ t), hrest] at hslice
  have hdrop := dropBytes?_append (x ++ t) rest
  have hstart := dropBytes?_append x (t ++ rest)
  rw [← List.append_assoc] at hstart
  have hle : byteLength (x ++ t) ≤ byteLength (x ++ t ++ rest) := by
    rw [byteLength_append (x ++ t)]
    exact Nat.le_add_right _ _
  -- the terminator has as many bytes as the scan steps over
  obtain ⟨c, ht', hbytes⟩ : ∃ c, t.head? = some c ∧ byteLength t = if c = '\r' then 2 else 1 := by
    rcases ht with rfl | rfl
    · exact ⟨'\n', rfl, rfl⟩
    · exact ⟨'\r', rfl, rfl⟩
  have hlt : byteLength x < byteLength (x ++ t ++ rest) := by
    refine Nat.lt_of_lt_of_le ?_ hle
    rw [byteLength_append, hbytes]
    split <;> omega
  rw [scanBlock?, dif_pos hlt, hstart]
  simp only [Option.bind_some, List.head?_append, ht', Option.some_or, ← hbytes, ← byteLength_append]
  rw [Nat.min_eq_left hle, hdrop]
  simp only [Option.bind_some]
  rw [hslice]
  rfl

/-- **The scan over bytes stays inside the text**, and stops at the first closing marker. -/
theorem scanBlock?_eq (rest : List Char) : ∀ {x t : List Char}, IsTerminator t →
    scanBlock? (x ++ t ++ rest) (byteLength x) =
      some (byteLength (x ++ t ++ closingText (lines rest))) := by
  induction rest using lines_induction with
  | last rest h =>
      intro x t ht
      rw [scanBlock?_step x rest ht, firstLine_of_not_mem h, scanBlock?_byteLength, ite_self,
        lines_of_not_mem h, closingText_last]
  | more part rest h ih =>
      intro x t ht
      rw [scanBlock?_step x _ ht, firstLine_append_lineFeed h, lines_append h]
      by_cases hmarker : (Line.ended part).IsMarker '\\'
      · rw [if_pos (isMarkerLine_iff.2 hmarker), closingText_cons_of_isMarker hmarker]
      · have hnext := @ih (x ++ t ++ (Line.ended part).content) _ (Line.isTerminator_ended part)
        rw [if_neg (mt isMarkerLine_iff.1 hmarker), closingText_cons_of_not_isMarker hmarker,
          append_lineFeed, Line.text]
        simpa only [List.append_assoc] using hnext

/-- The length in bytes of a block comment, `some none` if there is none and `none` if an access fails. -/
def blockBytes? (prev : Option Char) (s : List Char) : Option (Option Nat) :=
  (slice? s 0 (byteLength (firstLine s))).bind fun line =>
    if atLineStart prev && isMarkerLine '/' line then
      (scanBlock? s (byteLength (firstLine s))).map some
    else
      some none

theorem blockBytes?_eq {prev : Option Char} (hstart : atLineStart prev = true) (s : List Char) :
    blockBytes? prev s = some ((blockText? (lines s)).map byteLength) := by
  obtain ⟨behind, hs⟩ := prefix_firstLine s
  have hslice := slice?_append [] (firstLine s) behind
  rw [List.nil_append, hs] at hslice
  have hslice' : slice? s 0 (byteLength (firstLine s)) = some (firstLine s) := hslice
  rw [blockBytes?, hslice', Option.bind_some, hstart, Bool.true_and]
  induction s using lines_induction with
  | last s h =>
      rw [firstLine_of_not_mem h, lines_of_not_mem h, blockText?, scanBlock?_byteLength]
      simp only [← isMarkerLine_iff]
      split <;> simp [Line.text]
  | more part rest h _ =>
      have hscan := @scanBlock?_eq rest (Line.ended part).content _ (Line.isTerminator_ended part)
      rw [firstLine_append_lineFeed h, lines_append h, blockText?]
      rw [append_lineFeed, Line.text, hscan]
      simp only [← isMarkerLine_iff]
      split <;> rfl

/-- **A block comment is what its lines say.**  At the start of a line a block comment is found just if
the lines open with one, and it has the length of that one; it does not end inside a terminator; and the
scan over bytes, whose accesses all succeed, finds the same. -/
theorem block_by_lines {before s : List Char} (hstart : atLineStart before.getLast? = true) :
    commentLength? .block before.getLast? s = (blockText? (lines s)).map List.length ∧
      (∀ n, commentLength? .block before.getLast? s = some n →
        blockText? (lines s) = some (s.take n) ∧ firstLine (s.drop n) = [] ∧
          ¬ ((s.take n).getLast? = some '\r' ∧ (s.drop n).head? = some '\n')) ∧
      blockBytes? before.getLast? s =
        some ((commentLength? .block before.getLast? s).map fun n => byteLength (s.take n)) := by
  have hlength := commentLength?_block hstart s
  have htext : ∀ n, commentLength? .block before.getLast? s = some n →
      blockText? (lines s) = some (s.take n) ∧ LineEnds (s.take n) (s.drop n) := by
    intro n hn
    obtain ⟨comment, hcomment, rfl⟩ := Option.map_eq_some_iff.1 (hlength.symm.trans hn)
    obtain ⟨behind, hs, hends⟩ := exists_of_blockText? hcomment
    have htake : s.take comment.length = comment := by rw [hs, List.take_left]
    have hdrop : s.drop comment.length = behind := by rw [hs, List.drop_left]
    rw [htake, hdrop]
    exact ⟨hcomment, hends⟩
  refine ⟨hlength, fun n hn => ?_, ?_⟩
  · obtain ⟨hcomment, hends⟩ := htext n hn
    exact ⟨hcomment, hends.firstLine_eq, fun hsplit => hends.not_return hsplit.2 hsplit.1⟩
  · rw [blockBytes?_eq hstart]
    cases hn : commentLength? .block before.getLast? s with
    | none =>
        rw [hn] at hlength
        rw [Option.map_eq_none_iff.1 hlength.symm]
        rfl
    | some n =>
        rw [(htext n hn).1]
        rfl

/-- A block with an empty line, a line that only starts like a marker, and a carriage return on its own;
what closes it stands before a terminator of two bytes. -/
theorem block_by_lines_returns :
    let s := "/ \r\n\r\n\\x\r\né\r/\n\\\t\r\nb".toList
    atLineStart "a\n".toList.getLast? = true ∧ (s.drop 16).head? = some '\r' ∧
      commentLength? .block (some '\n') s = some 16 ∧ blockBytes? (some '\n') s = some (some 17) ∧
      blockText? (lines s) = some (s.take 16) := by
  intro s
  have hstart : atLineStart "a\n".toList.getLast? = true := by decide
  obtain ⟨hlength, hends, hbytes⟩ := @block_by_lines "a\n".toList s hstart
  have hn : commentLength? .block (some '\n') s = some 16 := by decide +kernel
  refine ⟨hstart, by decide +kernel, hn, ?_, (hends 16 hn).1⟩
  have hcount : byteLength (s.take 16) = 17 := by decide +kernel
  rw [← hcount]
  simpa [hn] using hbytes

end QSource
