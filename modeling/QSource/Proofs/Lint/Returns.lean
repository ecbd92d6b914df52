/-
**Rules and carriage returns.**

Put a carriage return before every line feed in the texts of tokens.  The rule about long lines does
not count a carriage return before a line feed, so that the lines of the tokens are as long as before;
and to all other rules the texts are renamed, some of them, without two becoming equal.

Main definitions:

* `QSource.AnnotatedToken.withReturns` — an annotated token with carriage returns in its text.

Main results:

* `QSource.lineParts_withReturns` — a text is cut into the same lines;
* `QSource.LinePiece.lineLength?_withReturns` — **a line is as long as before**;
* `QSource.longLineOwners_withReturns` — long lines belong to the same tokens;
* `QSource.flagged_withReturns` — **every rule objects to the same tokens**.
-/

import QSource.Proofs.Lint.Lines
import QSource.Proofs.Lint.Relabel
import QSource.Proofs.Token.Returns

set_option relaxedAutoImplicit false
set_option autoImplicit false

namespace QSource

open Text

/-- An annotated token with a carriage return before every line feed of its text. -/
def AnnotatedToken.withReturns (spans : Nat → Span) (t : AnnotatedToken) : AnnotatedToken :=
  { t with toToken := t.toToken.withReturns spans }

/-! ### Lines -/

theorem lineParts_lineFeed {s : List Char} (hs : s ≠ []) :
    lineParts ('\n' :: s) = ['\n'] :: lineParts s := by
  obtain ⟨c, s, rfl⟩ := List.exists_cons_of_ne_nil hs
  rw [lineParts]

theorem lineParts_cons {c : Char} (hc : c ≠ '\n') {s part : List Char} {parts : List (List Char)}
    (h : lineParts s = part :: parts) : lineParts (c :: s) = (c :: part) :: parts := by
  rw [lineParts]
  · rw [h]
  · rintro rfl
    exact absurd rfl hc
  · rintro d rest rfl
    exact absurd rfl hc

/-- A text is cut into the same lines. -/
theorem lineParts_withReturns (s : List Char) :
    lineParts (withReturns s) = (lineParts s).map withReturns := by
  fun_induction lineParts s with
  | case1 => rfl
  | case2 => rfl
  | case3 c rest ih =>
      have hne : withReturns (c :: rest) ≠ [] := mt withReturns_eq_nil.1 (List.cons_ne_nil c rest)
      rw [withReturns_lineFeed, lineParts_cons (by decide) (lineParts_lineFeed hne), ih,
        List.map_cons]
      rfl
  | case4 c rest hend hfeed part parts hparts ih =>
      have hc : c ≠ '\n' := by
        rintro rfl
        cases rest with
        | nil => exact hend rfl rfl
        | cons d rest => exact hfeed d rest rfl rfl
      rw [hparts, List.map_cons] at ih
      rw [withReturns_cons hc, lineParts_cons hc ih, List.map_cons, withReturns_cons hc]
  | case5 c rest _ _ hparts => exact absurd hparts (lineParts_ne_nil rest)

/-- Only the last character of a line is a line feed. -/
theorem lineFeed_not_mem_dropLast {s part : List Char} (h : part ∈ lineParts s) :
    '\n' ∉ part.dropLast := by
  fun_induction lineParts s generalizing part with
  | case1 => simp_all
  | case2 => simp_all
  | case3 c rest ih =>
      rcases List.mem_cons.1 h with rfl | h
      · simp
      · exact ih h
  | case4 c rest hend hfeed first parts hparts ih =>
      rcases List.mem_cons.1 h with rfl | h
      · have hfirst := ih (hparts ▸ List.mem_cons_self ..)
        cases first with
        | nil => simp
        | cons d first =>
            rw [List.dropLast_cons_cons]
            refine List.not_mem_cons_of_ne_of_not_mem ?_ hfirst
            rintro rfl
            cases rest with
            | nil => exact hend rfl rfl
            | cons e rest => exact hfeed e rest rfl rfl
      · exact ih (hparts ▸ List.mem_cons_of_mem _ h)
  | case5 c rest _ _ hparts => exact absurd hparts (lineParts_ne_nil rest)

/-- A part of a line, of a text without carriage returns. -/
structure LinePiece.Plain (piece : LinePiece) : Prop where
  lineFeed : '\n' ∉ piece.chars.dropLast
  carriageReturn : '\r' ∉ piece.chars

/-- A part of a token with a carriage return before every line feed of its text. -/
def LinePiece.withReturns (spans : Nat → Span) (piece : LinePiece) : LinePiece :=
  ⟨piece.token.withReturns spans, piece.column, Text.withReturns piece.chars⟩

section

variable (spans : Nat → Span) {prev : Option Char}

theorem getLast?_or_ne_return {s : List Char} (h : '\r' ∉ s) (hprev : prev ≠ some '\r') :
    s.getLast?.or prev ≠ some '\r' := by
  cases hlast : s.getLast? with
  | none => simpa using hprev
  | some c =>
      rintro ⟨⟩
      exact h (List.mem_of_getLast? hlast)

/-- **A line is as long as before**: the carriage return before its line feed does not count. -/
theorem LinePiece.lineLength?_withReturns {piece : LinePiece} (h : piece.Plain)
    (hprev : prev ≠ some '\r') :
    (piece.withReturns spans).lineLength? prev = piece.lineLength? prev := by
  obtain ⟨token, column, chars⟩ := piece
  obtain ⟨hfeed, hreturn⟩ := h
  cases chars using List.reverseRecOn with
  | nil => rfl
  | append_singleton body c =>
      simp only [List.dropLast_concat] at hfeed hreturn
      by_cases hc : c = '\n'
      · subst hc
        have hbody : '\r' ∉ body := fun hmem => hreturn (List.mem_append_left _ hmem)
        have hlast : body.reverse.head?.or prev ≠ some '\r' := by
          rw [List.head?_reverse]
          exact getLast?_or_ne_return hbody hprev
        have hnew : (Text.withReturns (body ++ ['\n'])).reverse = '\n' :: '\r' :: body.reverse := by
          simp [withReturns_of_not_mem hfeed]
        have hold : (body ++ ['\n']).reverse = '\n' :: body.reverse := by simp
        simp only [LinePiece.withReturns, lineLength?, hnew, hold, if_neg hlast]
        rfl
      · simp [LinePiece.withReturns, withReturns_of_not_mem hfeed, withReturns_cons hc, lineLength?,
          hc]

theorem LinePiece.chars_mem_of_mem_cut {token : AnnotatedToken} {column : Nat} {s : List Char}
    {piece : LinePiece} (h : piece ∈ LinePiece.cut token column s) : piece.chars ∈ lineParts s := by
  unfold LinePiece.cut at h
  split at h
  · simp at h
  · next first others hparts =>
      rw [hparts]
      rcases List.mem_cons.1 h with rfl | h
      · exact List.mem_cons_self ..
      · obtain ⟨part, hpart, rfl⟩ := List.mem_map.1 h
        exact List.mem_cons_of_mem _ hpart

theorem LinePiece.cut_withReturns (t : AnnotatedToken) (column : Nat) (s : List Char) :
    LinePiece.cut (t.withReturns spans) column (Text.withReturns s) =
      (LinePiece.cut t column s).map (LinePiece.withReturns spans) := by
  rw [cut, lineParts_withReturns, cut]
  cases lineParts s with
  | nil => rfl
  | cons first others => simp [LinePiece.withReturns, Function.comp_def]

theorem longLinesFrom_withReturns (limit : Nat) (owner : Option AnnotatedToken)
    {pieces : List LinePiece} (h : ∀ piece ∈ pieces, piece.Plain) (hprev : prev ≠ some '\r') :
    longLinesFrom limit (owner.map (AnnotatedToken.withReturns spans)) prev
        (pieces.map (LinePiece.withReturns spans)) =
      (longLinesFrom limit owner prev pieces).map (AnnotatedToken.withReturns spans) := by
  induction pieces generalizing owner prev with
  | nil => rfl
  | cons piece rest ih =>
      obtain ⟨hpiece, hrest⟩ := List.forall_mem_cons.1 h
      have howner : (owner.map (AnnotatedToken.withReturns spans)).getD
          (piece.withReturns spans).token = (owner.getD piece.token).withReturns spans := by
        cases owner <;> rfl
      have hnext := getLast?_or_ne_return hpiece.carriageReturn hprev
      have hfeed : some '\n' ≠ some '\r' := by decide
      have hended := ih none hrest hfeed
      have hgoes := ih (some (owner.getD piece.token)) hrest hnext
      have hlast : (piece.withReturns spans).chars.getLast? = piece.chars.getLast? :=
        getLast?_withReturns _
      rw [Option.map_none] at hended
      rw [Option.map_some] at hgoes
      simp only [List.map_cons, longLinesFrom, howner, hlast,
        LinePiece.lineLength?_withReturns spans hpiece hprev, hended, hgoes]
      split
      · rw [List.map_append]
        split <;> rfl
      · rfl

theorem dropRepeats_withReturns (tokens : List AnnotatedToken) :
    dropRepeats (tokens.map (AnnotatedToken.withReturns spans)) =
      (dropRepeats tokens).map (AnnotatedToken.withReturns spans) := by
  induction tokens with
  | nil => rfl
  | cons t rest ih =>
      rw [List.map_cons, dropRepeats, ih, dropRepeats]
      cases dropRepeats rest with
      | nil => rfl
      | cons u others =>
          have hindex : ∀ t : AnnotatedToken, (t.withReturns spans).index = t.index := fun _ => rfl
          simp only [List.map_cons, hindex]
          split <;> rfl

/-- Long lines belong to the same tokens. -/
theorem longLineOwners_withReturns (limit : Nat) {tokens : List AnnotatedToken}
    (hreturn : ∀ t ∈ tokens, '\r' ∉ t.text.toList) :
    longLineOwners limit (tokens.map (AnnotatedToken.withReturns spans)) =
      (longLineOwners limit tokens).map (AnnotatedToken.withReturns spans) := by
  have hpieces : (tokens.map (AnnotatedToken.withReturns spans)).flatMap AnnotatedToken.pieces =
      (tokens.flatMap AnnotatedToken.pieces).map (LinePiece.withReturns spans) := by
    rw [List.flatMap_map, List.map_flatMap]
    refine List.flatMap_congr fun t _ => ?_
    have htext : (t.withReturns spans).text.toList = withReturns t.text.toList :=
      String.toList_ofList
    rw [AnnotatedToken.pieces, htext]
    exact LinePiece.cut_withReturns spans t _ _
  have hplain : ∀ piece ∈ tokens.flatMap AnnotatedToken.pieces, piece.Plain := by
    intro piece hpiece
    obtain ⟨t, ht, hcut⟩ := List.mem_flatMap.1 hpiece
    have hmem := LinePiece.chars_mem_of_mem_cut hcut
    refine ⟨lineFeed_not_mem_dropLast hmem, fun hc => hreturn t ht ?_⟩
    rw [← flatten_lineParts t.text.toList]
    exact List.mem_flatten.2 ⟨_, hmem, hc⟩
  rw [longLineOwners, hpieces, longLineOwners, ← dropRepeats_withReturns]
  exact congrArg _ (longLinesFrom_withReturns spans limit none hplain (by simp))

/-! ### All rules -/

/-- The other rules see the carriage returns as new names of some texts. -/
theorem relabels_withReturns {tokens : List AnnotatedToken}
    (h : ∀ t ∈ tokens, t.kind.holdsLines = false ∨ t.kind = .quotedEscape →
      '\n' ∉ t.text.toList) :
    Relabels 0 0 (fun text => String.ofList (withReturns text.toList))
      (AnnotatedToken.withReturns spans) tokens where
  kind _ _ := rfl
  text _ _ := rfl
  index _ _ := rfl
  scope _ _ := Option.map_id'.symm
  role _ _ := rfl
  usage _ _ := rfl
  reversed _ _ := rfl
  binding _ _ := Option.map_id'.symm
  injective a b heq := by
    have hlists := congrArg String.toList heq
    simp only [String.toList_ofList] at hlists
    exact String.toList_inj.1 (withReturns_injective hlists)
  append a b := by
    rw [String.toList_append, withReturns_append, String.ofList_append]
  quote := rfl
  kept t ht hkind := by
    have hline : t.kind.holdsLines = false ∨ t.kind = .quotedEscape := by
      rcases hkind with hkind | hkind | hkind
      · exact Or.inr hkind
      · exact Or.inl (by rw [hkind]; rfl)
      · exact Or.inl (by rw [hkind]; rfl)
    rw [withReturns_of_not_mem (h t ht hline), String.ofList_toList]

/-- **Every rule objects to the same tokens.** -/
theorem flagged_withReturns (limits : Thresholds) {tokens : List AnnotatedToken}
    (hreturn : ∀ t ∈ tokens, '\r' ∉ t.text.toList)
    (hline : ∀ t ∈ tokens, t.kind.holdsLines = false ∨ t.kind = .quotedEscape →
      '\n' ∉ t.text.toList) (rule : Rule) :
    rule.flagged limits (tokens.map (AnnotatedToken.withReturns spans)) =
      (rule.flagged limits tokens).map (AnnotatedToken.withReturns spans) := by
  by_cases hrule : rule = .lineLength
  · rw [hrule]
    exact longLineOwners_withReturns spans limits.lineLength hreturn
  · exact (relabels_withReturns spans hline).flagged_map limits hrule

end

end QSource
