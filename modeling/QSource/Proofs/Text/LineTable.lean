/-
**The table of line starts answers as the walk does.**

The table holds one offset for each line, in increasing order, so the search by halving finds the
last line that starts no later than an offset.  What is left is to count the characters from there.

Main results:

* `QSource.Text.bisect_cut` — a search by halving finds the cut between the entries up to a number
  and those above it;
* `QSource.Text.lineIn_lineStarts`, `QSource.Text.exists_lineStart` — the line found for an offset is
  the number of line feeds before it, and its entry is where that line starts;
* `QSource.Text.positionIn_lineStarts` — **the table gives every offset the position that walking
  the text gives it**.
-/

import QSource.Proofs.Text.Position
import QSource.Text.LineTable

set_option relaxedAutoImplicit false
set_option autoImplicit false

namespace QSource.Text

/-! ### The entries of the table -/

theorem lineStartsFrom_append (offset : Nat) (s t : List Char) :
    lineStartsFrom offset (s ++ t) =
      lineStartsFrom offset s ++ lineStartsFrom (offset + byteLength s) t := by
  induction s generalizing offset with
  | nil => simp [lineStartsFrom]
  | cons c s ih =>
      by_cases hc : c = '\n' <;> simp [lineStartsFrom, hc, ih, Nat.add_assoc]

@[simp] theorem length_lineStartsFrom (offset : Nat) (s : List Char) :
    (lineStartsFrom offset s).length = s.count '\n' := by
  induction s generalizing offset with
  | nil => rfl
  | cons c s ih => by_cases hc : c = '\n' <;> simp [lineStartsFrom, hc, ih]

/-- The line starts of a text lie behind its own start, and no further than its end. -/
theorem mem_lineStartsFrom {offset n : Nat} {s : List Char} (h : n ∈ lineStartsFrom offset s) :
    offset < n ∧ n ≤ offset + byteLength s := by
  induction s generalizing offset with
  | nil => simp [lineStartsFrom] at h
  | cons c s ih =>
      have hpos := c.utf8Size_pos
      rw [byteLength_cons]
      have htail : n ∈ lineStartsFrom (offset + c.utf8Size) s → offset < n ∧
          n ≤ offset + (c.utf8Size + byteLength s) := by
        intro hn
        have := ih hn
        omega
      rw [lineStartsFrom] at h
      split at h
      · rcases List.mem_cons.1 h with rfl | h
        · omega
        · exact htail h
      · exact htail h

/-- The first character of a text ends before each of its line starts. -/
theorem add_utf8Size_le_of_mem {offset n : Nat} {c : Char} {s : List Char}
    (h : n ∈ lineStartsFrom offset (c :: s)) : offset + c.utf8Size ≤ n := by
  rw [lineStartsFrom] at h
  split at h
  · rcases List.mem_cons.1 h with rfl | h
    · exact Nat.le_refl _
    · exact Nat.le_of_lt (mem_lineStartsFrom h).1
  · exact Nat.le_of_lt (mem_lineStartsFrom h).1

theorem pairwise_lineStartsFrom (offset : Nat) (s : List Char) :
    (lineStartsFrom offset s).Pairwise (· < ·) := by
  induction s generalizing offset with
  | nil => exact .nil
  | cons c s ih =>
      rw [lineStartsFrom]
      split
      · exact List.pairwise_cons.2 ⟨fun n hn => (mem_lineStartsFrom hn).1, ih _⟩
      · exact ih _

/-! ### Searching by halving -/

/-- **A search by halving** in an increasing table finds the cut between the entries up to `x` and
the entries above it. -/
theorem bisect_cut {table : Array Nat} {x k low high : Nat} (h : high ≤ table.size)
    (hinc : ∀ i j (_ : i < j) (hj : j < table.size), table[i] < table[j])
    (hle : ∀ i (hi : i < table.size), i < k → table[i] ≤ x)
    (hgt : ∀ i (hi : i < table.size), k ≤ i → x < table[i]) (hlow : low ≤ k) (hhigh : k ≤ high) :
    (∃ place, bisect table x low high h = .ok place ∧ place + 1 = k) ∨
      bisect table x low high h = .error k := by
  fun_induction bisect table x low high h with
  | case1 low high h hlt middle hmiddle heq =>
      have hbelow : middle < k := Nat.lt_of_not_le fun hk => by
        have := hgt middle hmiddle hk
        omega
      have habove : k ≤ middle + 1 := Nat.le_of_not_lt fun hk => by
        have h₁ := hle (middle + 1) (by omega) hk
        have h₂ := hinc middle (middle + 1) (by omega) (by omega)
        omega
      exact Or.inl ⟨middle, rfl, by omega⟩
  | case2 low high h hlt middle hmiddle hne hless ih =>
      have hbelow : middle < k := Nat.lt_of_not_le fun hk => by
        have := hgt middle hmiddle hk
        omega
      exact ih hinc (by omega) hhigh
  | case3 low high h hlt middle hmiddle hne hless ih =>
      have habove : k ≤ middle := Nat.le_of_not_lt fun hk => by
        have := hle middle hmiddle hk
        omega
      exact ih hinc hlow habove
  | case4 low high h hlt => exact Or.inr (by rw [show low = k by omega])

/-- In an increasing table the line of an offset is the place of the last entry up to it. -/
theorem lineIn_append {starts later : List Nat} {offset : Nat}
    (hinc : (starts ++ later).Pairwise (· < ·)) (hle : ∀ n ∈ starts, n ≤ offset)
    (hgt : ∀ n ∈ later, offset < n) :
    lineIn (starts ++ later).toArray offset = starts.length - 1 := by
  have hinc' : ∀ i j (_ : i < j) (hj : j < (starts ++ later).toArray.size),
      (starts ++ later).toArray[i] < (starts ++ later).toArray[j] := by
    intro i j hij hj
    exact List.pairwise_iff_getElem.1 hinc i j _ _ hij
  have hle' : ∀ i (hi : i < (starts ++ later).toArray.size), i < starts.length →
      (starts ++ later).toArray[i] ≤ offset := by
    intro i hi hik
    rw [List.getElem_toArray, List.getElem_append_left hik]
    exact hle _ (List.getElem_mem hik)
  have hgt' : ∀ i (hi : i < (starts ++ later).toArray.size), starts.length ≤ i →
      offset < (starts ++ later).toArray[i] := by
    intro i hi hik
    rw [List.getElem_toArray, List.getElem_append_right hik]
    exact hgt _ (List.getElem_mem _)
  have hcut := bisect_cut (Nat.le_refl _) hinc' hle' hgt' (Nat.zero_le _) (by simp)
  rw [lineIn]
  rcases hcut with ⟨place, hplace, hk⟩ | herror
  · rw [hplace]
    exact (Nat.sub_eq_of_eq_add hk.symm).symm
  · rw [herror]

/-- **The line found for an offset** is the number of line feeds before it, if the next line feed
ends behind it. -/
theorem lineIn_lineStarts {before behind : List Char} {offset : Nat}
    (hle : byteLength before ≤ offset)
    (hgt : ∀ n ∈ lineStartsFrom (byteLength before) behind, offset < n) :
    lineIn (lineStarts (before ++ behind)) offset = before.count '\n' := by
  have hstarts : lineStarts (before ++ behind) =
      ((0 :: lineStartsFrom 0 before) ++ lineStartsFrom (byteLength before) behind).toArray := by
    rw [lineStarts, lineStartsFrom_append, Nat.zero_add, List.cons_append]
  have hinc : ((0 :: lineStartsFrom 0 before) ++
      lineStartsFrom (byteLength before) behind).Pairwise (· < ·) := by
    have := pairwise_lineStartsFrom 0 (before ++ behind)
    rw [lineStartsFrom_append, Nat.zero_add] at this
    refine List.pairwise_cons.2 ⟨fun n hn => ?_, this⟩
    rcases List.mem_append.1 hn with hn | hn
    · exact (mem_lineStartsFrom hn).1
    · have := (mem_lineStartsFrom hn).1
      omega
  rw [hstarts, lineIn_append hinc ?_ hgt]
  · simp
  · intro n hn
    rcases List.mem_cons.1 hn with rfl | hn
    · exact Nat.zero_le _
    · have := (mem_lineStartsFrom hn).2
      omega

/-- The entry of the line under way behind `before` is the offset at which that line starts. -/
theorem exists_lineStart (before behind : List Char) :
    ∃ head, before = head ++ lastLine before ∧
      (lineStarts (before ++ behind))[before.count '\n']? = some (byteLength head) := by
  obtain ⟨head, hs, hline, hhead⟩ := exists_eq_append_lastLine before
  refine ⟨head, hs, ?_⟩
  have hcount : before.count '\n' = head.count '\n' := by
    rw [hs, List.count_append, List.count_eq_zero_of_not_mem hline, Nat.add_zero]
  rw [hcount, hs, List.append_assoc]
  rcases hhead with rfl | ⟨start, rfl⟩
  · simp [lineStarts]
  · simp [lineStarts, lineStartsFrom_append, lineStartsFrom, List.count_append]

/-! ### Slices -/

theorem dropBytes?_add (s t : List Char) (k : Nat) :
    dropBytes? (s ++ t) (byteLength s + k) = dropBytes? t k := by
  induction s with
  | nil => simp
  | cons c s ih =>
      have hpos := c.utf8Size_pos
      obtain ⟨n, hn⟩ : ∃ n, byteLength (c :: s) + k = n + 1 :=
        ⟨byteLength (c :: s) + k - 1, by simp; omega⟩
      rw [byteLength_cons] at hn
      rw [List.cons_append, byteLength_cons, hn, dropBytes?, if_pos (by omega),
        show n + 1 - c.utf8Size = byteLength s + k by omega, ih]

@[simp] theorem dropBytes?_append (s t : List Char) :
    dropBytes? (s ++ t) (byteLength s) = some t := by
  have hadd := dropBytes?_add s t 0
  cases t <;> simpa [dropBytes?] using hadd

theorem takeBytes?_append (s t : List Char) (k : Nat) :
    takeBytes? (s ++ t) (byteLength s + k) = (takeBytes? t k).map (s ++ ·) := by
  induction s with
  | nil => simp
  | cons c s ih =>
      have hpos := c.utf8Size_pos
      obtain ⟨n, hn⟩ : ∃ n, byteLength (c :: s) + k = n + 1 :=
        ⟨byteLength (c :: s) + k - 1, by simp; omega⟩
      rw [byteLength_cons] at hn
      rw [List.cons_append, byteLength_cons, hn, takeBytes?, if_pos (by omega),
        show n + 1 - c.utf8Size = byteLength s + k by omega, ih, Option.map_map]
      rfl

/-- A slice between characters. -/
theorem slice?_append (s t u : List Char) :
    slice? (s ++ t ++ u) (byteLength s) (byteLength (s ++ t)) = some t := by
  rw [slice?, if_pos (by simp), List.append_assoc, dropBytes?_append, Option.bind_some,
    byteLength_append, Nat.add_sub_cancel_left]
  simpa [takeBytes?] using takeBytes?_append t u 0

/-- A slice that ends inside a character. -/
theorem slice?_inside (s t u : List Char) {c : Char} {k : Nat} (hk : 0 < k) (hc : k < c.utf8Size) :
    slice? (s ++ t ++ c :: u) (byteLength s) (byteLength (s ++ t) + k) = none := by
  have htake : takeBytes? (c :: u) k = none := by
    obtain ⟨n, rfl⟩ : ∃ n, k = n + 1 := ⟨k - 1, by omega⟩
    rw [takeBytes?, if_neg (by omega)]
  rw [slice?, if_pos (by simp; omega), List.append_assoc, dropBytes?_append, Option.bind_some,
    show byteLength (s ++ t) + k - byteLength s = byteLength t + k by simp; omega,
    takeBytes?_append, htake, Option.map_none]

/-! ### The table and the walk -/

/-- **The table gives every offset the position that walking the text gives it.** -/
theorem positionIn_lineStarts (source : List Char) (offset : Nat) :
    positionIn (lineStarts source) source offset = positionAt source offset := by
  rcases offset_cases source offset with ⟨before, behind, rfl, rfl⟩ |
    ⟨before, c, behind, k, rfl, hk, hc, rfl⟩ | hover
  · -- between characters: the slice from the start of the line is the line under way
    obtain ⟨head, hs, hstart⟩ := exists_lineStart before behind
    have hline : lineIn (lineStarts (before ++ behind)) (byteLength before) = before.count '\n' :=
      lineIn_lineStarts (Nat.le_refl _) fun n hn => (mem_lineStartsFrom hn).1
    have hslice := slice?_append head (lastLine before) behind
    rw [← hs] at hslice
    rw [positionAt_byteLength, after_origin, positionIn, hline, hstart, Nat.min_eq_left (by simp),
      Option.getD_some, hslice]
    rfl
  · -- inside a character: there is no slice, and the bytes from the start of the line count
    obtain ⟨head, hs, hstart⟩ := exists_lineStart before (c :: behind)
    have hline : lineIn (lineStarts (before ++ c :: behind)) (byteLength before + k) =
        before.count '\n' := by
      refine lineIn_lineStarts (Nat.le_add_right _ _) fun n hn => ?_
      have := add_utf8Size_le_of_mem hn
      omega
    have hslice := slice?_inside head (lastLine before) behind hk hc
    have hbytes : byteLength before = byteLength head + byteLength (lastLine before) := by
      rw [← byteLength_append, ← hs]
    rw [← hs] at hslice
    rw [positionAt_inside _ _ hk hc, positionIn, hline, hstart, Nat.min_eq_left (by simp; omega),
      Option.getD_some, hslice, Option.map_none, Option.getD_none,
      show byteLength before + k - byteLength head = byteLength (lastLine before) + k by omega]
  · -- beyond the end: the slice is the last line
    obtain ⟨head, hs, hstart⟩ := exists_lineStart source []
    have hline : lineIn (lineStarts (source ++ [])) offset = source.count '\n' :=
      lineIn_lineStarts (Nat.le_of_lt hover) fun n hn => by simp [lineStartsFrom] at hn
    have hslice := slice?_append head (lastLine source) []
    simp only [List.append_nil, ← hs] at hline hstart hslice
    rw [positionAt_of_le (Nat.le_of_lt hover), after_origin, positionIn, hline, hstart,
      Nat.min_eq_right (Nat.le_of_lt hover), Option.getD_some, hslice]
    rfl

end QSource.Text
