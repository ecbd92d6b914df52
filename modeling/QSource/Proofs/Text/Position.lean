/-
**Positions count line feeds and characters.**

`Position.after` advances a line and a column character by character, and `positionAt` walks the
bytes of a text.  This module says what both of them count: the line is the number of line feeds
before a place, and the column the number of characters behind the last one.

Main definitions:

* `QSource.Text.lastLine` — the characters of a text behind its last line feed;
* `QSource.Text.leadAfter` — the number of bytes of the line under way behind a text.

Main results:

* `QSource.Text.after_origin` — the position behind a text, as two counts;
* `QSource.Text.positionAt_byteLength` — **between characters an offset has the position behind the
  characters before it**;
* `QSource.Text.positionAt_inside`, `QSource.Text.positionAt_of_le` — offsets inside a character and
  beyond the end;
* `QSource.Text.offset_cases` — every offset is of one of these three sorts.
-/

import Mathlib.Data.List.Induction
import QSource.Text.Position

set_option relaxedAutoImplicit false
set_option autoImplicit false

namespace QSource.Text

/-! ### The line under way -/

/-- The characters of a text behind its last line feed. -/
def lastLine (s : List Char) : List Char := (s.reverse.takeWhile (· != '\n')).reverse

@[simp] theorem lastLine_nil : lastLine [] = [] := rfl

@[simp] theorem lastLine_concat (s : List Char) (c : Char) :
    lastLine (s ++ [c]) = if c = '\n' then [] else lastLine s ++ [c] := by
  by_cases hc : c = '\n' <;> simp [lastLine, hc]

theorem length_lastLine_le (s : List Char) : (lastLine s).length ≤ s.length := by
  have hlength := (List.takeWhile_sublist (· != '\n') (l := s.reverse)).length_le
  rw [List.length_reverse] at hlength
  rwa [lastLine, List.length_reverse]

/-- A text is what comes before its last line, which is empty or ends with a line feed, and its last
line, which holds none. -/
theorem exists_eq_append_lastLine (s : List Char) :
    ∃ head, s = head ++ lastLine s ∧ '\n' ∉ lastLine s ∧
      (head = [] ∨ ∃ before, head = before ++ ['\n']) := by
  induction s using List.reverseRecOn with
  | nil => exact ⟨[], rfl, by simp, Or.inl rfl⟩
  | append_singleton s c ih =>
      by_cases hc : c = '\n'
      · refine ⟨s ++ [c], ?_, ?_, Or.inr ⟨s, by rw [hc]⟩⟩
        · simp [hc]
        · simp [hc]
      · obtain ⟨head, hs, hline, hhead⟩ := ih
        refine ⟨head, ?_, ?_, hhead⟩
        · simp only [lastLine_concat, if_neg hc, ← List.append_assoc, ← hs]
        · simpa [hc] using ⟨hline, fun h => hc h.symm⟩

/-- The number of bytes of the line under way behind a text, when `lead` bytes of it come before the
text. -/
def leadAfter (lead : Nat) (s : List Char) : Nat :=
  s.foldl (fun n c => if c = '\n' then 0 else n + c.utf8Size) lead

theorem leadAfter_concat (lead : Nat) (s : List Char) (c : Char) :
    leadAfter lead (s ++ [c]) = if c = '\n' then 0 else leadAfter lead s + c.utf8Size := by
  simp [leadAfter]

theorem leadAfter_zero (s : List Char) : leadAfter 0 s = byteLength (lastLine s) := by
  induction s using List.reverseRecOn with
  | nil => rfl
  | append_singleton s c ih =>
      rw [leadAfter_concat, ih]
      by_cases hc : c = '\n' <;> simp [hc]

/-! ### What positions count -/

/-- **The position behind a text**: its line feeds, and the characters behind the last of them. -/
theorem after_origin (s : List Char) :
    Position.origin.after s = ⟨s.count '\n', (lastLine s).length⟩ := by
  induction s using List.reverseRecOn with
  | nil => rfl
  | append_singleton s c ih =>
      have hstep : Position.origin.after (s ++ [c]) = (Position.origin.after s).advance c := by simp
      rw [hstep, ih]
      by_cases hc : c = '\n' <;> simp [Position.advance, hc, List.count_append]

/-! ### The length in bytes -/

theorem byteLength_eq_utf8ByteSize (s : List Char) :
    byteLength s = (String.ofList s).utf8ByteSize := by
  induction s with
  | nil => rfl
  | cons c s ih =>
      rw [byteLength_cons, ih, String.ofList_cons, String.utf8ByteSize_append,
        String.utf8ByteSize_singleton]

theorem byteLength_toList (source : String) : byteLength source.toList = source.utf8ByteSize := by
  rw [byteLength_eq_utf8ByteSize, String.ofList_toList]

theorem length_le_byteLength (s : List Char) : s.length ≤ byteLength s := by
  induction s with
  | nil => exact Nat.le_refl _
  | cons c s ih =>
      have := c.utf8Size_pos
      rw [List.length_cons, byteLength_cons]
      omega

/-! ### The three sorts of offsets -/

theorem walk_byteLength (p : Position) (lead : Nat) (before behind : List Char) :
    p.walk lead (before ++ behind) (byteLength before) = p.after before := by
  induction before generalizing p lead with
  | nil => cases behind <;> simp [Position.walk]
  | cons c before ih =>
      have hpos := c.utf8Size_pos
      rw [List.cons_append, Position.walk, if_neg (by simp; omega), if_neg (by simp),
        byteLength_cons, Nat.add_sub_cancel_left, ih, Position.after_cons]

theorem walk_inside (p : Position) (lead : Nat) (before behind : List Char) {c : Char} {k : Nat}
    (hk : 0 < k) (hc : k < c.utf8Size) :
    p.walk lead (before ++ c :: behind) (byteLength before + k) =
      ⟨(p.after before).line, leadAfter lead before + k⟩ := by
  induction before generalizing p lead with
  | nil =>
      rw [List.nil_append, Position.walk, if_neg (by simp; omega), if_pos (by simpa using hc)]
      simp [leadAfter]
  | cons d before ih =>
      have hpos := d.utf8Size_pos
      have hsub : byteLength (d :: before) + k - d.utf8Size = byteLength before + k := by
        simp only [byteLength_cons]; omega
      rw [List.cons_append, Position.walk, if_neg (by simp; omega),
        if_neg (by simp only [byteLength_cons]; omega), hsub, ih, Position.after_cons]
      by_cases hd : d = '\n' <;> simp [leadAfter, hd]

theorem walk_of_le (p : Position) (lead : Nat) (s : List Char) {offset : Nat}
    (h : byteLength s ≤ offset) : p.walk lead s offset = p.after s := by
  induction s generalizing p lead offset with
  | nil => rfl
  | cons c s ih =>
      have hpos := c.utf8Size_pos
      rw [byteLength_cons] at h
      rw [Position.walk, if_neg (by omega), if_neg (by omega), ih _ _ (by omega),
        Position.after_cons]

/-- **Between characters** an offset has the position behind the characters before it. -/
theorem positionAt_byteLength (before behind : List Char) :
    positionAt (before ++ behind) (byteLength before) = Position.origin.after before :=
  walk_byteLength _ _ _ _

/-- Inside a character the column counts the bytes since the start of the line. -/
theorem positionAt_inside (before behind : List Char) {c : Char} {k : Nat} (hk : 0 < k)
    (hc : k < c.utf8Size) :
    positionAt (before ++ c :: behind) (byteLength before + k) =
      ⟨before.count '\n', byteLength (lastLine before) + k⟩ := by
  rw [positionAt, walk_inside _ _ _ _ hk hc, leadAfter_zero, after_origin]

/-- From the end on every offset has the position behind the text. -/
theorem positionAt_of_le {source : List Char} {offset : Nat} (h : byteLength source ≤ offset) :
    positionAt source offset = Position.origin.after source :=
  walk_of_le _ _ _ h

/-- An offset lies between two characters, inside one, or beyond the end. -/
theorem offset_cases (source : List Char) (offset : Nat) :
    (∃ before behind, source = before ++ behind ∧ offset = byteLength before) ∨
    (∃ before c behind k, source = before ++ c :: behind ∧ 0 < k ∧ k < c.utf8Size ∧
      offset = byteLength before + k) ∨
    byteLength source < offset := by
  induction source generalizing offset with
  | nil =>
      rcases Nat.eq_zero_or_pos offset with h | h
      · exact Or.inl ⟨[], [], rfl, h⟩
      · exact Or.inr (Or.inr h)
  | cons c source ih =>
      rcases Nat.eq_zero_or_pos offset with h | h
      · exact Or.inl ⟨[], c :: source, rfl, h⟩
      rcases Nat.lt_or_ge offset c.utf8Size with hlt | hge
      · exact Or.inr (Or.inl ⟨[], c, source, offset, rfl, h, hlt, by simp⟩)
      rcases ih (offset - c.utf8Size) with ⟨before, behind, hs, ho⟩ |
        ⟨before, d, behind, k, hs, hk, hd, ho⟩ | ho
      · exact Or.inl ⟨c :: before, behind, by rw [hs]; rfl, by simp only [byteLength_cons]; omega⟩
      · exact Or.inr (Or.inl ⟨c :: before, d, behind, k, by rw [hs]; rfl, hk, hd,
          by simp only [byteLength_cons]; omega⟩)
      · exact Or.inr (Or.inr (by simp only [byteLength_cons]; omega))

end QSource.Text
