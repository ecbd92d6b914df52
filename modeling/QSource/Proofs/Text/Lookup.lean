/-
**Looking positions up in words of 32 bits.**

Offsets, lines and columns are held in words of 32 bits, and the table of line starts is built and
read with operations that may fail: an offset that does not fit a word, a place outside of the table,
a difference below zero.  This module runs the lookup with all of these checks and shows that none of
them fails on a text of less than 2^32 bytes, whatever the offset; and it says what the lookup counts,
in the bytes of the text.

Main definitions:

* `QSource.Text.lineTable?` — the table of line starts, built byte by byte;
* `QSource.Text.position32?` — **the position of an offset, `none` where an operation fails**.

Main results:

* `QSource.Text.line_positionAt`, `QSource.Text.column_positionAt_of_boundary`,
  `QSource.Text.column_positionAt_of_inside` — what positions count, for every offset;
* `QSource.Text.position32?_eq` — **the lookup in words does not fail**, and finds the position;
* `QSource.Text.lookup_counts` — **what the lookup returns**, and that it keeps the order of offsets
  between characters.
-/

import QSource.Proofs.Text.Bytes

set_option relaxedAutoImplicit false
set_option autoImplicit false

namespace QSource.Text

/-! ### The line under way, in bytes -/

theorem lastLine_append_of_not_mem (s : List Char) {t : List Char} (h : '\n' ∉ t) :
    lastLine (s ++ t) = lastLine s ++ t := by
  induction t using List.reverseRecOn with
  | nil => simp
  | append_singleton t c ih =>
      have hc : c ≠ '\n' := fun hc => h (by simp [hc])
      rw [← List.append_assoc, lastLine_concat, if_neg hc, ih (fun ht => h (by simp [ht])),
        List.append_assoc]

theorem lastLine_octets (s : List Char) : lastLine (octets s) = octets (lastLine s) := by
  induction s using List.reverseRecOn with
  | nil => rfl
  | append_singleton s c ih =>
      by_cases hc : c = '\n'
      · subst hc
        rw [octets_append, octets_of_lt (by decide), lastLine_concat, lastLine_concat, if_pos rfl,
          if_pos rfl, octets_nil]
      · have hfeed : '\n' ∉ [c] := fun h => hc (List.mem_singleton.1 h).symm
        rw [octets_append, lastLine_append_of_not_mem _ (lineFeed_not_mem_octets hfeed), ih,
          lastLine_concat, if_neg hc, octets_append]

/-! ### What positions count -/

section Counts

variable (source : List Char) (offset : Nat)

/-- The bytes of a text before an offset, or before the end if the offset lies beyond it. -/
def bytesBefore : List Char := (octets source).take (min offset (byteLength source))

/-- **The bytes before an offset**: those of the characters before it, and the first few of the
character that it lies in. -/
theorem bytesBefore_cases :
    (∃ before behind, source = before ++ behind ∧ min offset (byteLength source) = byteLength before ∧
      bytesBefore source offset = octets before ∧
      positionAt source offset = Position.origin.after before) ∨
    (∃ before c behind k, source = before ++ c :: behind ∧ 0 < k ∧ k < c.utf8Size ∧
      offset = byteLength before + k ∧
      bytesBefore source offset = octets before ++ (octets [c]).take k ∧
      '\n' ∉ (octets [c]).take k) := by
  rcases offset_cases source offset with ⟨before, behind, rfl, rfl⟩ |
    ⟨before, c, behind, k, rfl, hk, hc, rfl⟩ | hover
  · refine Or.inl ⟨before, behind, rfl, Nat.min_eq_left (by simp), ?_, positionAt_byteLength _ _⟩
    rw [bytesBefore, Nat.min_eq_left (by simp), octets_append, ← length_octets, List.take_left]
  · have hfeed : '\n' ∉ [c] := fun h => by
      have : ('\n').utf8Size = 1 := rfl
      rw [← List.mem_singleton.1 h] at hc
      omega
    refine Or.inr ⟨before, c, behind, k, rfl, hk, hc, rfl, ?_,
      fun h => lineFeed_not_mem_octets hfeed (List.mem_of_mem_take h)⟩
    rw [bytesBefore, Nat.min_eq_left (by simp; omega), octets_append, ← length_octets before,
      List.take_length_add_append, octets_cons, List.take_append_of_le_length (by simp; omega)]
  · refine Or.inl ⟨source, [], by simp, Nat.min_eq_right (Nat.le_of_lt hover), ?_,
      positionAt_of_le (Nat.le_of_lt hover)⟩
    rw [bytesBefore, Nat.min_eq_right (Nat.le_of_lt hover), ← length_octets, List.take_length]

/-- **The line of an offset** is the number of line feeds among the bytes before it. -/
theorem line_positionAt : (positionAt source offset).line = (bytesBefore source offset).count '\n' := by
  rcases bytesBefore_cases source offset with ⟨before, behind, -, -, hbytes, hposition⟩ |
    ⟨before, c, behind, k, rfl, hk, hc, rfl, hbytes, hfeed⟩
  · rw [hposition, after_origin, hbytes, count_octets (by decide)]
  · rw [positionAt_inside _ _ hk hc, hbytes, List.count_append, count_octets (by decide),
      List.count_eq_zero_of_not_mem hfeed, Nat.add_zero]

/-- Between characters, and beyond the end, **the column is the number of characters** from the start
of the line. -/
theorem column_positionAt_of_boundary {before behind : List Char} (h : source = before ++ behind)
    (hstop : min offset (byteLength source) = byteLength before) :
    (positionAt source offset).column = (lastLine before).length := by
  subst h
  rcases Nat.le_total offset (byteLength (before ++ behind)) with hle | hle
  · rw [Nat.min_eq_left hle] at hstop
    rw [hstop, positionAt_byteLength, after_origin]
  · have hnil : behind = [] := by
      rw [Nat.min_eq_right hle, byteLength_append] at hstop
      rw [← octets_eq_nil, ← List.length_eq_zero_iff, length_octets]
      omega
    rw [positionAt_of_le hle, hnil, List.append_nil, after_origin]

/-- Inside a character **the column is the number of bytes** from the start of the line. -/
theorem column_positionAt_of_inside (h : ¬ OnBoundary source (min offset (byteLength source))) :
    (positionAt source offset).column = (lastLine (bytesBefore source offset)).length := by
  rcases bytesBefore_cases source offset with ⟨before, behind, hs, hstop, -, -⟩ |
    ⟨before, c, behind, k, rfl, hk, hc, rfl, hbytes, hfeed⟩
  · exact absurd ⟨before, behind, hs, hstop⟩ h
  · have htake : ((octets [c]).take k).length = k := by
      rw [List.length_take, length_octets]
      simp
      omega
    rw [positionAt_inside _ _ hk hc, hbytes, lastLine_append_of_not_mem _ hfeed, lastLine_octets,
      List.length_append, length_octets, htake]

/-- Lines and columns are no larger than the text. -/
theorem positionAt_le :
    (positionAt source offset).line ≤ byteLength source ∧
      (positionAt source offset).column ≤ byteLength source := by
  have hbytes : (bytesBefore source offset).length ≤ byteLength source := by
    rw [bytesBefore, List.length_take, length_octets]
    omega
  constructor
  · rw [line_positionAt]
    exact Nat.le_trans List.count_le_length hbytes
  · by_cases h : OnBoundary source (min offset (byteLength source))
    · obtain ⟨before, behind, hs, hstop⟩ := h
      rw [column_positionAt_of_boundary source offset hs hstop]
      calc (lastLine before).length ≤ before.length := length_lastLine_le before
        _ ≤ byteLength before := length_le_byteLength before
        _ ≤ byteLength source := hstop ▸ Nat.min_le_right _ _
    · rw [column_positionAt_of_inside source offset h]
      exact Nat.le_trans (length_lastLine_le _) hbytes

end Counts

/-! ### The order of positions -/

/-- A position is before another one: on an earlier line, or in an earlier column of its line. -/
def Position.Before (p q : Position) : Prop :=
  p.line < q.line ∨ (p.line = q.line ∧ p.column < q.column)

/-- The position behind a text is before the position behind a longer one. -/
theorem Position.before_after_append (s : List Char) {t : List Char} (ht : t ≠ []) :
    (Position.origin.after s).Before (Position.origin.after (s ++ t)) := by
  rw [after_origin, after_origin]
  by_cases hfeed : '\n' ∈ t
  · left
    have := List.count_pos_iff.2 hfeed
    simp only [List.count_append]
    omega
  · right
    have := List.length_pos_iff.2 ht
    simp only [List.count_append, List.count_eq_zero_of_not_mem hfeed,
      lastLine_append_of_not_mem s hfeed, List.length_append]
    omega

/-- **Positions keep the order of offsets** between characters. -/
theorem positionAt_before {source : List Char} {a b : Nat} (ha : OnBoundary source a)
    (hb : OnBoundary source b) (hab : a < b) : (positionAt source a).Before (positionAt source b) := by
  obtain ⟨before, behind, rfl, rfl⟩ := ha
  obtain ⟨before', behind', hs, rfl⟩ := hb
  obtain ⟨t, rfl⟩ : ∃ t, before' = before ++ t := by
    rcases List.append_eq_append_iff.1 hs with ⟨t, rfl, -⟩ | ⟨t, rfl, -⟩
    · exact ⟨t, rfl⟩
    · rw [byteLength_append] at hab
      omega
  have ht : t ≠ [] := by
    rintro rfl
    simp at hab
  rw [positionAt_byteLength, hs, positionAt_byteLength]
  exact Position.before_after_append before ht

/-! ### The table of line starts, byte by byte -/

/-- The offset behind another one as a word, `none` if it does not fit. -/
def next32? (offset : Nat) : Option UInt32 :=
  if offset + 1 < UInt32.size then some (UInt32.ofNat (offset + 1)) else none

/-- The offsets behind the line feeds of a row of bytes that begins at `offset`. -/
def lineStarts32From? (offset : Nat) : List Char → Option (List UInt32)
  | [] => some []
  | b :: bytes =>
    if b = '\n' then
      (next32? offset).bind fun start => (lineStarts32From? (offset + 1) bytes).map (start :: ·)
    else
      lineStarts32From? (offset + 1) bytes

/-- The table of line starts of a text, built byte by byte. -/
def lineTable? (source : List Char) : Option (Array UInt32) :=
  (lineStarts32From? 0 (octets source)).map fun starts => (0 :: starts).toArray

theorem lineStarts32From?_append_of_not_mem {bytes : List Char} (h : '\n' ∉ bytes) (offset : Nat)
    (rest : List Char) :
    lineStarts32From? offset (bytes ++ rest) = lineStarts32From? (offset + bytes.length) rest := by
  induction bytes generalizing offset with
  | nil => simp
  | cons b bytes ih =>
      have hb : b ≠ '\n' := (List.ne_of_not_mem_cons h).symm
      rw [List.cons_append, lineStarts32From?, if_neg hb, ih (List.not_mem_of_not_mem_cons h),
        List.length_cons, show offset + 1 + bytes.length = offset + (bytes.length + 1) by omega]

theorem lineStarts32From?_octets {offset : Nat} {s : List Char}
    (h : offset + byteLength s < UInt32.size) :
    lineStarts32From? offset (octets s) = some ((lineStartsFrom offset s).map UInt32.ofNat) := by
  induction s generalizing offset with
  | nil => rfl
  | cons c s ih =>
      rw [byteLength_cons, ← Nat.add_assoc] at h
      have htail := ih h
      by_cases hc : c = '\n'
      · subst hc
        have hsize : ('\n').utf8Size = 1 := rfl
        have hnext : next32? offset = some (UInt32.ofNat (offset + 1)) := by
          rw [next32?, if_pos (by omega)]
        rw [hsize] at htail
        rw [octets_cons, octets_of_lt (by decide), List.singleton_append, lineStarts32From?, if_pos rfl,
          hnext, htail]
        rfl
      · have hfeed : '\n' ∉ [c] := fun h => hc (List.mem_singleton.1 h).symm
        have hlength : (octets [c]).length = c.utf8Size := by simp
        rw [octets_cons, lineStarts32From?_append_of_not_mem (lineFeed_not_mem_octets hfeed), hlength,
          htail, lineStartsFrom, if_neg hc]

/-- **No entry of the table overflows**: it is the table of the text, in words. -/
theorem lineTable?_eq {source : List Char} (h : byteLength source < UInt32.size) :
    lineTable? source = some ((lineStarts source).map UInt32.ofNat) := by
  rw [lineTable?, lineStarts32From?_octets (by omega), lineStarts]
  simp

/-- Taken as numbers the words of the table are the entries of the table. -/
theorem map_toNat_lineTable {source : List Char} (h : byteLength source < UInt32.size) :
    ((lineStarts source).map UInt32.ofNat).map UInt32.toNat = lineStarts source := by
  have hfits : ∀ n ∈ lineStarts source, (UInt32.ofNat n).toNat = n := by
    intro n hn
    have hle : n ≤ byteLength source := by
      rcases List.mem_cons.1 (List.mem_toArray.1 hn) with rfl | hn
      · exact Nat.zero_le _
      · exact (Nat.zero_add (byteLength source)) ▸ (mem_lineStartsFrom hn).2
    exact UInt32.toNat_ofNat_of_lt (Nat.lt_of_le_of_lt hle h)
  rw [Array.map_map]
  calc (lineStarts source).map (UInt32.toNat ∘ UInt32.ofNat) = (lineStarts source).map id :=
        Array.map_congr_left hfits
    _ = lineStarts source := Array.map_id _

/-! ### The search -/

/-- A search in a table whose first entry is no larger than `x` ends behind that entry. -/
theorem bisect_ne_error_zero {table : Array Nat} {x low high : Nat} (h : high ≤ table.size)
    (hfirst : low = 0 → ∃ hpos : 0 < table.size, 0 < high ∧ table[0] ≤ x) :
    bisect table x low high h ≠ .error 0 := by
  fun_induction bisect table x low high h with
  | case1 low high h hlt middle hmiddle heq => simp
  | case2 low high h hlt middle hmiddle hne hless ih => exact ih fun hzero => by omega
  | case3 low high h hlt middle hmiddle hne hless ih =>
      refine ih fun hzero => ?_
      obtain ⟨hpos, -, hle⟩ := hfirst hzero
      refine ⟨hpos, Nat.pos_of_ne_zero fun hmid => ?_, hle⟩
      simp only [hmid] at hne hless
      omega
  | case4 low high h hlt =>
      rintro ⟨rfl⟩
      obtain ⟨-, hhigh, -⟩ := hfirst rfl
      exact hlt hhigh

/-- The line of an offset: that of its own entry, or else the one before the place where it would have
to be put in, `none` if there is no place before that. -/
def lineOf? (table : Array UInt32) (offset : UInt32) : Option Nat :=
  match bisect (table.map UInt32.toNat) offset.toNat 0 _ (Nat.le_refl _) with
  | .ok line => some line
  | .error 0 => none
  | .error (before + 1) => some before

theorem lineOf?_eq {table : Array UInt32} {offset : UInt32} {starts : Array Nat}
    (htable : table.map UInt32.toNat = starts) (hpos : 0 < starts.size)
    (hfirst : starts[0] ≤ offset.toNat) :
    lineOf? table offset = some (lineIn starts offset.toNat) := by
  subst htable
  have hne : bisect (table.map UInt32.toNat) offset.toNat 0 _ (Nat.le_refl _) ≠ .error 0 :=
    bisect_ne_error_zero (Nat.le_refl _) fun _ => ⟨hpos, hpos, hfirst⟩
  rw [lineOf?, lineIn]
  split
  · rename_i line hline
    rw [hline]
  · rename_i hzero
    exact absurd hzero hne
  · rename_i before hbefore
    rw [hbefore]
    rfl

/-! ### Positions in words -/

/-- A line and a column, each in a word. -/
structure Position32 where
  line : UInt32
  column : UInt32
deriving DecidableEq

/-- The numbers of a position in words. -/
def Position32.toPosition (p : Position32) : Position := ⟨p.line.toNat, p.column.toNat⟩

/-- A position put into words, which cuts off what does not fit. -/
def Position.toWords (p : Position) : Position32 := ⟨UInt32.ofNat p.line, UInt32.ofNat p.column⟩

theorem Position.toPosition_toWords {p : Position} (hline : p.line < UInt32.size)
    (hcolumn : p.column < UInt32.size) : p.toWords.toPosition = p := by
  have hl : (UInt32.ofNat p.line).toNat = p.line := UInt32.toNat_ofNat_of_lt hline
  have hc : (UInt32.ofNat p.column).toNat = p.column := UInt32.toNat_ofNat_of_lt hcolumn
  rw [toWords, Position32.toPosition, hl, hc]

/-- A difference, `none` if it lies below zero. -/
def minus? (m n : Nat) : Option Nat := if n ≤ m then some (m - n) else none

/-- **The position of an offset**, as it is looked up in the table of line starts.  It is `none` where
an entry does not fit a word, the line before the first is asked for, a place outside of the table is
read, or the line starts behind the offset. -/
def position32? (source : List Char) (offset : UInt32) : Option Position32 :=
  (lineTable? source).bind fun table =>
    (lineOf? table offset).bind fun line =>
      table[line]?.bind fun start =>
        let stop := min offset.toNat (byteLength source)
        (minus? stop start.toNat).map fun bytes =>
          Position.toWords ⟨line, ((slice? source start.toNat stop).map List.length).getD bytes⟩

/-- The line found for an offset has an entry in the table, which is not behind the offset or the end of
the text. -/
theorem exists_lineStart_le (source : List Char) (offset : Nat) :
    ∃ start, (lineStarts source)[lineIn (lineStarts source) offset]? = some start ∧
      start ≤ min offset (byteLength source) := by
  obtain ⟨before, behind, rfl, hle, hgt⟩ : ∃ before behind, source = before ++ behind ∧
      byteLength before ≤ offset ∧
      ∀ n ∈ lineStartsFrom (byteLength before) behind, offset < n := by
    rcases offset_cases source offset with ⟨before, behind, hs, rfl⟩ |
      ⟨before, c, behind, k, hs, -, hk, rfl⟩ | hover
    · exact ⟨before, behind, hs, Nat.le_refl _, fun n hn => (mem_lineStartsFrom hn).1⟩
    · refine ⟨before, c :: behind, hs, Nat.le_add_right _ _, fun n hn => ?_⟩
      have := add_utf8Size_le_of_mem hn
      omega
    · exact ⟨source, [], by simp, Nat.le_of_lt hover, by simp [lineStartsFrom]⟩
  obtain ⟨head, hs, hstart⟩ := exists_lineStart before behind
  refine ⟨byteLength head, by rw [lineIn_lineStarts hle hgt, hstart], ?_⟩
  have hhead : byteLength head ≤ byteLength before := by
    rw [hs, byteLength_append]
    exact Nat.le_add_right _ _
  rw [byteLength_append]
  omega

/-- **The lookup does not fail**, and it finds the position. -/
theorem position32?_eq {source : List Char} (h : byteLength source < UInt32.size) (offset : UInt32) :
    ∃ p, position32? source offset = some p ∧
      p.toPosition = positionIn (lineStarts source) source offset.toNat := by
  obtain ⟨start, hstart, hle⟩ := exists_lineStart_le source offset.toNat
  have hline : lineOf? ((lineStarts source).map UInt32.ofNat) offset =
      some (lineIn (lineStarts source) offset.toNat) :=
    lineOf?_eq (map_toNat_lineTable h) (by simp [lineStarts]) (by simp [lineStarts])
  have hword : ((lineStarts source).map UInt32.ofNat)[lineIn (lineStarts source) offset.toNat]? =
      some (UInt32.ofNat start) := by
    rw [Array.getElem?_map, hstart, Option.map_some]
  have hfits : (UInt32.ofNat start).toNat = start := UInt32.toNat_ofNat_of_lt (by omega)
  have hminus : minus? (min offset.toNat (byteLength source)) start =
      some (min offset.toNat (byteLength source) - start) := if_pos hle
  obtain ⟨hlineLe, hcolumnLe⟩ := positionAt_le source offset.toNat
  rw [← positionIn_lineStarts] at hlineLe hcolumnLe
  refine ⟨(positionIn (lineStarts source) source offset.toNat).toWords, ?_,
    Position.toPosition_toWords (by omega) (by omega)⟩
  simp only [position32?, lineTable?_eq h, Option.bind_some, hline, hword, hfits, hminus,
    Option.map_some, positionIn, hstart, Option.getD_some]

/-- The lookup keeps the order of offsets between characters. -/
theorem position32?_lt {source : List Char} (h : byteLength source < UInt32.size) {a b : UInt32}
    (ha : OnBoundary source a.toNat) (hb : OnBoundary source b.toNat) (hab : a < b) :
    ∃ p q, position32? source a = some p ∧ position32? source b = some q ∧
      (p.line < q.line ∨ (p.line = q.line ∧ p.column < q.column)) := by
  obtain ⟨p, hp, hpa⟩ := position32?_eq h a
  obtain ⟨q, hq, hqb⟩ := position32?_eq h b
  have hbefore : p.toPosition.Before q.toPosition := by
    rw [hpa, hqb, positionIn_lineStarts, positionIn_lineStarts]
    exact positionAt_before ha hb (UInt32.lt_iff_toNat_lt.1 hab)
  refine ⟨p, q, hp, hq, hbefore.imp (fun hlt => UInt32.lt_iff_toNat_lt.2 hlt) fun heq => ?_⟩
  exact ⟨UInt32.toNat_inj.1 heq.1, UInt32.lt_iff_toNat_lt.2 heq.2⟩

/-! ### What the lookup returns -/

/-- **What the lookup returns.**  On a text of less than 2^32 bytes no operation of it fails, for any
offset of 32 bits: it returns the position that is shown in reports.  The line is the number of line
feeds among the bytes before the offset, or before the end if the offset lies beyond it.  The column
counts from the last of these line feeds: the characters if the place is between characters, and the
bytes if it is not.  Between characters the positions keep the order of the offsets, and no two
offsets have the same one. -/
theorem lookup_counts (source : String) (h : source.utf8ByteSize < UInt32.size) :
    let text := source.toList
    (∀ offset : UInt32,
      let stop := min offset.toNat (byteLength text)
      ∃ p, position32? text offset = some p ∧
        p.toPosition = positionIn (lineStarts text) text offset.toNat ∧
        p.line.toNat = ((octets text).take stop).count '\n' ∧
        (∀ before behind, text = before ++ behind → byteLength before = stop →
          p.column.toNat = (lastLine before).length) ∧
        (¬ OnBoundary text stop →
          p.column.toNat = (lastLine ((octets text).take stop)).length)) ∧
    (∀ a b : UInt32, OnBoundary text a.toNat → OnBoundary text b.toNat → a < b →
      ∃ p q, position32? text a = some p ∧ position32? text b = some q ∧
        (p.line < q.line ∨ (p.line = q.line ∧ p.column < q.column))) ∧
    (∀ a b : UInt32, OnBoundary text a.toNat → OnBoundary text b.toNat →
      position32? text a = position32? text b → a = b) := by
  intro text
  have hsize : byteLength text < UInt32.size := by
    rwa [byteLength_toList]
  have hne : ∀ {a b : UInt32}, OnBoundary text a.toNat → OnBoundary text b.toNat → a < b →
      position32? text a ≠ position32? text b := by
    intro a b ha hb hab heq
    obtain ⟨p, q, hp, hq, hlt⟩ := position32?_lt hsize ha hb hab
    obtain rfl : p = q := Option.some.inj (hp.symm.trans (heq.trans hq))
    exact hlt.elim (UInt32.lt_irrefl _) fun hcolumn => UInt32.lt_irrefl _ hcolumn.2
  refine ⟨fun offset => ?_, fun a b ha hb hab => position32?_lt hsize ha hb hab,
    fun a b ha hb heq => ?_⟩
  · obtain ⟨p, hp, hposition⟩ := position32?_eq hsize offset
    have hat : p.toPosition = positionAt text offset.toNat :=
      hposition.trans (positionIn_lineStarts _ _)
    have hline : p.line.toNat = (positionAt text offset.toNat).line := congrArg Position.line hat
    have hcolumn : p.column.toNat = (positionAt text offset.toNat).column :=
      congrArg Position.column hat
    refine ⟨p, hp, hposition, hline.trans (line_positionAt text _), fun before behind hs hstop => ?_,
      fun hinside => hcolumn.trans (column_positionAt_of_inside text _ hinside)⟩
    exact hcolumn.trans (column_positionAt_of_boundary text _ hs hstop.symm)
  · rcases Nat.lt_trichotomy a.toNat b.toNat with hlt | hab | hlt
    · exact absurd heq (hne ha hb (UInt32.lt_iff_toNat_lt.2 hlt))
    · exact UInt32.toNat_inj.1 hab
    · exact absurd heq.symm (hne hb ha (UInt32.lt_iff_toNat_lt.2 hlt))

/-- Behind the first line, which holds a character of two bytes, the columns count from zero again; an
offset beyond the end has the position of the end. -/
theorem lookup_counts_accented :
    "é\nbc".utf8ByteSize < UInt32.size ∧
      (∃ p, position32? "é\nbc".toList 9 = some p ∧ p.line.toNat = 1 ∧ p.column.toNat = 2) ∧
      ∃ p q, position32? "é\nbc".toList 2 = some p ∧ position32? "é\nbc".toList 3 = some q ∧
        (p.line < q.line ∨ (p.line = q.line ∧ p.column < q.column)) := by
  have hsize : "é\nbc".utf8ByteSize < UInt32.size := by decide
  refine ⟨hsize, ?_, ?_⟩
  · obtain ⟨p, hp, -, hline, hcolumn, -⟩ := (lookup_counts "é\nbc" hsize).1 9
    exact ⟨p, hp, hline.trans (by decide), hcolumn "é\nbc".toList [] (by decide) (by decide)⟩
  · exact (lookup_counts "é\nbc" hsize).2.1 2 3 ⟨['é'], "\nbc".toList, by decide, by decide⟩
      ⟨"é\n".toList, "bc".toList, by decide, by decide⟩ (by decide)

end QSource.Text
