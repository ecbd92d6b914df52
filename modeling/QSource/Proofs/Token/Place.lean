/-
**Placed tokens tile their text.**

`Token.place` hands out numbers, bytes and positions one lexeme after the other.  Here the token with
a given number is computed from the lexemes before it alone, and from that everything that is said of
the places of tokens follows: each stands where the one before it stopped, none is empty, and its
position is the one that its first byte has in the text.

Main definitions:

* `QSource.Token.CountFrom`, `QSource.Token.Numbered` — the numbers of tokens count up, and they are
  the places in a list;
* `QSource.Token.Tiling` — tokens that cover a text without gap or overlap.

Main results:

* `QSource.Token.getElem?_place` — the token at a place, from the lexemes before it;
* `QSource.Token.tiling_layOut` — **lexemes that are not empty, laid out from the start of a text,
  tile the text that they make up**.
-/

import QSource.Proofs.Text.LineTable
import QSource.Token.Basic

set_option relaxedAutoImplicit false
set_option autoImplicit false

namespace QSource

open Text

/-! ### Bytes of a text -/

/-- The bytes of a piece of a text stand between the number of bytes before it and the number of
bytes up to its end. -/
theorem Text.extract_toUTF8 (before piece behind : List Char) :
    (String.ofList (before ++ piece ++ behind)).toUTF8.extract (byteLength before)
      (byteLength before + byteLength piece) = (String.ofList piece).toUTF8 := by
  simp only [String.ofList_append, byteLength_eq_utf8ByteSize, String.toUTF8_eq_toByteArray,
    String.toByteArray_append, ← String.size_toByteArray]
  have hskip := ByteArray.extract_append_size_add (a := (String.ofList before).toByteArray)
    (b := (String.ofList piece).toByteArray ++ (String.ofList behind).toByteArray) (i := 0)
    (j := (String.ofList piece).toByteArray.size)
  rw [Nat.add_zero] at hskip
  rw [ByteArray.append_assoc, hskip, ByteArray.extract_append_eq_left rfl]

namespace Token

/-! ### Numbers -/

/-- The numbers of the tokens of a list count up from `index`. -/
def CountFrom (index : Nat) (tokens : List Token) : Prop :=
  tokens.map (·.index) = List.range' index tokens.length

theorem countFrom_nil (index : Nat) : CountFrom index [] := rfl

theorem countFrom_cons {index : Nat} {t : Token} {tokens : List Token} :
    CountFrom index (t :: tokens) ↔ t.index = index ∧ CountFrom (index + 1) tokens := by
  simp [CountFrom, List.range'_succ]

theorem countFrom_append {index : Nat} {before behind : List Token} :
    CountFrom index (before ++ behind) ↔
      CountFrom index before ∧ CountFrom (index + before.length) behind := by
  induction before generalizing index with
  | nil => simp [countFrom_nil]
  | cons t before ih =>
      rw [List.cons_append, countFrom_cons, ih, countFrom_cons, List.length_cons, and_assoc,
        Nat.add_assoc, Nat.add_comm 1]

theorem CountFrom.mem_map_index {index : Nat} {tokens : List Token} (h : CountFrom index tokens)
    {i : Nat} : i ∈ tokens.map (·.index) ↔ index ≤ i ∧ i < index + tokens.length := by
  rw [h, List.mem_range'_1]

theorem CountFrom.index_mem {index : Nat} {tokens : List Token} (h : CountFrom index tokens)
    {t : Token} (ht : t ∈ tokens) : index ≤ t.index ∧ t.index < index + tokens.length :=
  h.mem_map_index.1 (List.mem_map_of_mem ht)

/-- The numbers of the tokens of a list are their places in it. -/
def Numbered (tokens : List Token) : Prop := tokens.map (·.index) = List.range tokens.length

instance (tokens : List Token) : Decidable (Numbered tokens) :=
  inferInstanceAs (Decidable (_ = _))

theorem numbered_iff_countFrom {tokens : List Token} : Numbered tokens ↔ CountFrom 0 tokens := by
  rw [Numbered, CountFrom, List.range_eq_range']

theorem Numbered.countFrom {tokens : List Token} (h : Numbered tokens) : CountFrom 0 tokens :=
  numbered_iff_countFrom.1 h

theorem Numbered.index_eq {tokens : List Token} (h : Numbered tokens) {i : Nat} {t : Token}
    (ht : tokens[i]? = some t) : t.index = i := by
  have hi : i < tokens.length := (List.getElem?_eq_some_iff.1 ht).1
  have hmap : (tokens.map (·.index))[i]? = some t.index := by rw [List.getElem?_map, ht]; rfl
  rw [h, List.getElem?_range hi] at hmap
  exact (Option.some.inj hmap).symm

theorem Numbered.getElem?_index {tokens : List Token} (h : Numbered tokens) {t : Token}
    (ht : t ∈ tokens) : tokens[t.index]? = some t := by
  obtain ⟨i, hi⟩ := List.mem_iff_getElem?.1 ht
  rw [h.index_eq hi, hi]

/-- Tokens with the same number are the same. -/
theorem Numbered.eq_of_index_eq {tokens : List Token} (h : Numbered tokens) {t u : Token}
    (ht : t ∈ tokens) (hu : u ∈ tokens) (heq : t.index = u.index) : t = u := by
  have h₁ := h.getElem?_index ht
  rw [heq, h.getElem?_index hu] at h₁
  exact (Option.some.inj h₁).symm

theorem countFrom_place (index offset : Nat) (p : Position) (xs : List Lexeme) :
    CountFrom index (place index offset p xs) := by
  induction xs generalizing index offset p with
  | nil => rfl
  | cons x xs ih => exact countFrom_cons.2 ⟨rfl, ih _ _ _⟩

theorem numbered_layOut (xs : List Lexeme) : Numbered (Lexeme.layOut xs) :=
  numbered_iff_countFrom.2 (countFrom_place 0 0 Position.origin xs)

/-! ### The token at a place -/

/-- **The token at a place**, computed from the lexemes before it. -/
theorem getElem?_place (index offset : Nat) (p : Position) (xs : List Lexeme) (i : Nat) :
    (place index offset p xs)[i]? = xs[i]?.map fun x =>
      let start := offset + byteLength (Lexeme.join (xs.take i))
      ⟨x, index + i, ⟨start, start + byteLength x.chars⟩, p.after (Lexeme.join (xs.take i))⟩ := by
  induction xs generalizing index offset p i with
  | nil => simp [place]
  | cons x xs ih =>
      cases i with
      | zero => simp [place]
      | succ i =>
          simp only [place, List.getElem?_cons_succ, ih, List.take_succ_cons, Lexeme.join_cons,
            byteLength_append, Position.after_append]
          simp only [Nat.add_assoc, Nat.add_comm 1 i]

/-- The lexemes around a token, with what they say about its place. -/
theorem exists_of_getElem?_layOut {xs : List Lexeme} {i : Nat} {t : Token}
    (h : (Lexeme.layOut xs)[i]? = some t) :
    ∃ before behind, xs = before ++ t.toLexeme :: behind ∧ before.length = i ∧
      t.span.start = byteLength (Lexeme.join before) ∧
      t.span.stop = byteLength (Lexeme.join before) + byteLength t.chars ∧
      t.position = Position.origin.after (Lexeme.join before) := by
  rw [Lexeme.layOut, getElem?_place] at h
  obtain ⟨x, hx, rfl⟩ := Option.map_eq_some_iff.1 h
  obtain ⟨hi, rfl⟩ := List.getElem?_eq_some_iff.1 hx
  refine ⟨xs.take i, xs.drop (i + 1), ?_, ?_, ?_, ?_, rfl⟩
  · rw [List.getElem_cons_drop, List.take_append_drop]
  · rw [List.length_take, Nat.min_eq_left (Nat.le_of_lt hi)]
  · simp
  · simp

/-- Where a token starts and stops, from the lexemes before it. -/
theorem span_layOut {xs : List Lexeme} {i : Nat} {t : Token}
    (h : (Lexeme.layOut xs)[i]? = some t) :
    t.span = ⟨byteLength (Lexeme.join (xs.take i)), byteLength (Lexeme.join (xs.take (i + 1)))⟩ := by
  rw [Lexeme.layOut, getElem?_place] at h
  obtain ⟨x, hx, rfl⟩ := Option.map_eq_some_iff.1 h
  simp [List.take_add_one, hx]

/-- The bytes from the first to the last of some tokens that follow one another are those of their
texts. -/
theorem slice?_layOut {xs : List Lexeme} {before piece behind : List Token} {first last : Token}
    (h : Lexeme.layOut xs = before ++ piece ++ behind) (hfirst : piece.head? = some first)
    (hlast : piece.getLast? = some last) :
    slice? (Lexeme.join xs) first.span.start last.span.stop =
      some (Lexeme.join (piece.map Token.toLexeme)) := by
  have hxs : xs = before.map Token.toLexeme ++ piece.map Token.toLexeme ++
      behind.map Token.toLexeme := by
    rw [← List.map_append, ← List.map_append, ← h, Lexeme.layOut, map_toLexeme_place]
  have hpos : 0 < piece.length := List.length_pos_iff.2 fun hnil => by simp [hnil] at hfirst
  have hstart := @span_layOut xs before.length first (by
    rw [h, List.append_assoc, List.getElem?_append_right (Nat.le_refl _), Nat.sub_self,
      List.getElem?_append_left hpos, ← List.head?_eq_getElem?, hfirst])
  have hstop := @span_layOut xs (before.length + (piece.length - 1)) last (by
    rw [h, List.append_assoc, List.getElem?_append_right (Nat.le_add_right _ _),
      Nat.add_sub_cancel_left, List.getElem?_append_left (by omega), ← List.getLast?_eq_getElem?,
      hlast])
  have hbefore : xs.take before.length = before.map Token.toLexeme := by
    rw [hxs, List.append_assoc, List.take_left' (List.length_map _)]
  have hupto : xs.take (before.length + (piece.length - 1) + 1) =
      before.map Token.toLexeme ++ piece.map Token.toLexeme := by
    rw [hxs, List.take_left']
    simp only [List.length_append, List.length_map]
    omega
  have hslice := slice?_append (Lexeme.join (before.map Token.toLexeme))
    (Lexeme.join (piece.map Token.toLexeme)) (Lexeme.join (behind.map Token.toLexeme))
  rw [hstart, hstop, hbefore, hupto, Lexeme.join_append]
  rwa [← Lexeme.join_append, ← Lexeme.join_append, ← hxs, Lexeme.join_append] at hslice

/-- Every character of the text that lexemes make up lies in one of the placed tokens. -/
theorem exists_mem_place (index offset : Nat) (p : Position) {xs : List Lexeme}
    {before behind : List Char} {c : Char} (h : Lexeme.join xs = before ++ c :: behind) :
    ∃ t ∈ place index offset p xs, c ∈ t.chars ∧ t.span.start ≤ offset + byteLength before ∧
      offset + byteLength before + c.utf8Size ≤ t.span.stop := by
  induction xs generalizing index offset p before with
  | nil => simp at h
  | cons x xs ih =>
      rw [Lexeme.join_cons, List.append_eq_append_iff] at h
      rcases h with ⟨later, rfl, h⟩ | ⟨later, hx, h⟩
      · -- the character lies behind `x`
        obtain ⟨t, ht, hc, hstart, hstop⟩ := ih (index + 1) (offset + byteLength x.chars)
          (p.after x.chars) h
        refine ⟨t, List.mem_cons_of_mem _ ht, hc, ?_, ?_⟩
        · rw [byteLength_append]
          omega
        · rw [byteLength_append]
          omega
      · cases later with
        | nil =>
            obtain ⟨t, ht, hc, hstart, hstop⟩ := @ih (index + 1) (offset + byteLength x.chars)
              (p.after x.chars) [] h.symm
            rw [List.append_nil] at hx
            rw [hx] at hstart hstop ht
            refine ⟨t, List.mem_cons_of_mem _ (by rwa [hx]), hc, ?_, ?_⟩
            · simpa using hstart
            · simpa using hstop
        | cons d later =>
            obtain ⟨rfl, -⟩ := List.cons.inj h
            refine ⟨_, List.mem_cons_self .., ?_, ?_, ?_⟩
            · change c ∈ x.chars
              simp [hx]
            · exact Nat.le_add_right _ _
            · change _ ≤ offset + byteLength x.chars
              rw [hx, byteLength_append, byteLength_cons]
              omega

/-! ### Tilings -/

/-- Tokens that cover a text without gap or overlap: their numbers count from zero; the first starts
with the text, each next one where the one before it stops, and the last stops with the text; none is
empty; each text is what the source has at its bytes; and each position is that of the first byte, as
counted in the text before it, as found by walking the text, and as found in the table of line
starts. -/
structure Tiling (source : String) (tokens : List Token) : Prop where
  numbered : ∀ (i : Nat) (t : Token), tokens[i]? = some t → t.index = i
  first_start : ∀ t, tokens.head? = some t → t.span.start = 0
  adjacent : ∀ (i : Nat) (t u : Token), tokens[i]? = some t → tokens[i + 1]? = some u →
    u.span.start = t.span.stop
  last_stop : ∀ t, tokens.getLast? = some t → t.span.stop = source.utf8ByteSize
  not_empty : ∀ t ∈ tokens, t.span.start < t.span.stop
  stop_le : ∀ t ∈ tokens, t.span.stop ≤ source.utf8ByteSize
  slice : ∀ t ∈ tokens, source.toUTF8.extract t.span.start t.span.stop = t.text.toUTF8
  join : String.join (tokens.map (·.text)) = source
  counted : ∀ t ∈ tokens, ∃ before behind, source.toList = before ++ behind ∧
    byteLength before = t.span.start ∧ t.position.line = before.count '\n' ∧
    t.position.column = (lastLine before).length
  walked : ∀ t ∈ tokens, t.position = positionAt source.toList t.span.start
  looked_up : ∀ t ∈ tokens,
    t.position = positionIn (lineStarts source.toList) source.toList t.span.start

/-- Neither the line nor the column of a token exceeds the number of bytes before it. -/
theorem Tiling.position_le {source : String} {tokens : List Token} (h : Tiling source tokens)
    {t : Token} (ht : t ∈ tokens) :
    t.position.line ≤ t.span.start ∧ t.position.column ≤ t.span.start := by
  obtain ⟨before, behind, -, hstart, hline, hcolumn⟩ := h.counted t ht
  have hlength := length_le_byteLength before
  rw [← hstart, hline, hcolumn]
  constructor
  · exact Nat.le_trans List.count_le_length hlength
  · exact Nat.le_trans (length_lastLine_le before) hlength

theorem join_text_layOut (xs : List Lexeme) :
    String.join ((Lexeme.layOut xs).map (·.text)) = String.ofList (Lexeme.join xs) := by
  have htext : (Lexeme.layOut xs).map (·.text) = xs.map (·.text) := by
    rw [← map_toLexeme_place 0 0 Position.origin xs, List.map_map, Lexeme.layOut]
    simp
  rw [htext, ← String.toList_inj, String.toList_join, String.toList_ofList, List.flatMap_map]
  rfl

theorem walked_layOut (xs : List Lexeme) : ∀ t ∈ Lexeme.layOut xs,
    t.position = positionAt (String.ofList (Lexeme.join xs)).toList t.span.start := by
  intro t ht
  obtain ⟨i, hi⟩ := List.mem_iff_getElem?.1 ht
  obtain ⟨before, behind, hxs, -, hstart, -, hposition⟩ := exists_of_getElem?_layOut hi
  rw [String.toList_ofList, hxs, Lexeme.join_append, hstart, positionAt_byteLength, hposition]

/-- **Lexemes that are not empty, laid out from the start of a text, tile the text that they make
up.** -/
theorem tiling_layOut {xs : List Lexeme} (h : ∀ x ∈ xs, x.chars ≠ []) :
    Tiling (String.ofList (Lexeme.join xs)) (Lexeme.layOut xs) where
  numbered i t ht := (numbered_layOut xs).index_eq ht
  first_start t ht := by
    rw [List.head?_eq_getElem?] at ht
    obtain ⟨before, behind, -, hlen, hstart, -⟩ := exists_of_getElem?_layOut ht
    rw [List.eq_nil_of_length_eq_zero hlen] at hstart
    exact hstart
  adjacent i t u ht hu := by
    obtain ⟨before, behind, hxs, hlen, -, hstop, -⟩ := exists_of_getElem?_layOut ht
    obtain ⟨before', behind', hxs', hlen', hstart', -⟩ := exists_of_getElem?_layOut hu
    -- the lexemes before `u` are those before `t`, and `t`
    have hbefore : before' = before ++ [t.toLexeme] := by
      have htake : xs.take (i + 1) = before' := by rw [hxs', List.take_left' hlen']
      rw [← htake, hxs, ← hlen, List.take_length_add_append]
      rfl
    rw [hstart', hstop, hbefore]
    simp
  last_stop t ht := by
    rw [List.getLast?_eq_getElem?] at ht
    obtain ⟨before, behind, hxs, hlen, -, hstop, -⟩ := exists_of_getElem?_layOut ht
    have hbehind : behind = [] := by
      refine List.eq_nil_of_length_eq_zero ?_
      have hlength : (Lexeme.layOut xs).length = xs.length := length_place _ _ _ _
      rw [hlength] at hlen
      have := congrArg List.length hxs
      simp only [List.length_append, List.length_cons] at this
      omega
    rw [hstop, ← byteLength_eq_utf8ByteSize, hxs, hbehind]
    simp
  not_empty t ht := by
    obtain ⟨i, hi⟩ := List.mem_iff_getElem?.1 ht
    obtain ⟨before, behind, hxs, -, hstart, hstop, -⟩ := exists_of_getElem?_layOut hi
    have hchars : 0 < t.chars.length := by
      refine List.length_pos_iff.2 (h t.toLexeme ?_)
      rw [hxs]
      exact List.mem_append_right _ (List.mem_cons_self ..)
    have := length_le_byteLength t.chars
    omega
  stop_le t ht := by
    obtain ⟨i, hi⟩ := List.mem_iff_getElem?.1 ht
    obtain ⟨before, behind, hxs, -, -, hstop, -⟩ := exists_of_getElem?_layOut hi
    rw [hstop, ← byteLength_eq_utf8ByteSize, hxs, Lexeme.join_append, Lexeme.join_cons,
      byteLength_append, byteLength_append]
    omega
  slice t ht := by
    obtain ⟨i, hi⟩ := List.mem_iff_getElem?.1 ht
    obtain ⟨before, behind, hxs, -, hstart, hstop, -⟩ := exists_of_getElem?_layOut hi
    have hextract := extract_toUTF8 (Lexeme.join before) t.chars (Lexeme.join behind)
    rw [hstart, hstop, hxs, Lexeme.join_append, Lexeme.join_cons, ← List.append_assoc, hextract,
      Lexeme.chars, String.ofList_toList]
  join := join_text_layOut xs
  counted t ht := by
    obtain ⟨i, hi⟩ := List.mem_iff_getElem?.1 ht
    obtain ⟨before, behind, hxs, -, hstart, -, hposition⟩ := exists_of_getElem?_layOut hi
    refine ⟨Lexeme.join before, t.chars ++ Lexeme.join behind, ?_, hstart.symm, ?_, ?_⟩
    · rw [String.toList_ofList, hxs, Lexeme.join_append, Lexeme.join_cons]
    · rw [hposition, after_origin]
    · rw [hposition, after_origin]
  walked := walked_layOut xs
  looked_up t ht := by
    rw [positionIn_lineStarts]
    exact walked_layOut xs t ht

end Token

end QSource
