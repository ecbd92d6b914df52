/-
**Kinds and carriage returns.**

Put a carriage return before every line feed of a text: a kind of token takes the same characters as
before, with the carriage returns among them.  A kind of one line does not get to see a line feed at
all.  A comment over lines looks at its lines one by one, and these stay.  Only an escape would take
a carriage return in the place of its line feed, so a run of escapes has to be one without line
feeds.

Main definitions:

* `QSource.Kind.holdsLines` — the kinds whose texts may hold a line feed;
* `QSource.Text.IsBreak` — a text that opens with the terminator of a line.

Main results:

* `QSource.firstLine_withReturns` — the first line stays;
* `QSource.Kind.lineFeed_not_mem_take` — a kind of one line stops before the first line feed;
* `QSource.Kind.length?_withReturns` — **a kind of code takes the same characters**;
* `QSource.Kind.quoted_length?_withReturns` — **so does a kind of piece of quoted text**.
-/

import QSource.Proofs.Text.Returns
import QSource.Proofs.Token.Lines

set_option relaxedAutoImplicit false
set_option autoImplicit false

namespace QSource

open Text

/-- The kinds whose texts may hold a line feed. -/
def Kind.holdsLines : Kind → Bool
  | .comment .block | .comment .final | .lineBreak | .quotedText | .quotedEscape => true
  | _ => false

variable {prev : Option Char} {s : List Char}

/-! ### Lines -/

theorem prefix_firstLine (s : List Char) : firstLine s <+: s := by
  fun_induction firstLine s with
  | case1 => exact List.nil_prefix
  | case2 => exact List.nil_prefix
  | case3 => exact List.nil_prefix
  | case4 c rest _ _ ih => exact (List.prefix_cons_inj c).2 ih

theorem lineFeed_not_mem_firstLine (s : List Char) : '\n' ∉ firstLine s := by
  fun_induction firstLine s with
  | case1 => exact List.not_mem_nil
  | case2 => exact List.not_mem_nil
  | case3 => exact List.not_mem_nil
  | case4 c rest hfeed _ ih => exact List.not_mem_cons_of_ne_of_not_mem (Ne.symm hfeed) ih

/-- **The first line stays** when a text has no carriage returns of its own. -/
theorem firstLine_withReturns (h : '\r' ∉ s) : firstLine (withReturns s) = firstLine s := by
  induction s with
  | nil => rfl
  | cons c s ih =>
      have hreturn : c ≠ '\r' := (List.ne_of_not_mem_cons h).symm
      by_cases hc : c = '\n'
      · subst hc
        rfl
      · rw [withReturns_cons hc, firstLine_cons hc hreturn, firstLine_cons hc hreturn,
          ih (List.not_mem_of_not_mem_cons h)]

/-! ### Kinds of one line -/

/-- The text opens with the terminator of a line. -/
def Text.IsBreak (b : List Char) : Prop := ∃ rest, b = '\n' :: rest ∨ b = '\r' :: '\n' :: rest

theorem Text.lineEnds_lineFeed (h : '\r' ∉ s) (b : List Char) : LineEnds s ('\n' :: b) :=
  ⟨rfl, fun _ hlast => h (List.mem_of_getLast? hlast)⟩

theorem Text.lineEnds_return (s b : List Char) : LineEnds s ('\r' :: '\n' :: b) :=
  ⟨rfl, fun hfeed => by simp at hfeed⟩

/-- A text with a line feed falls apart where its first line ends. -/
theorem Text.exists_lineEnds (h : '\n' ∈ s) :
    ∃ line b, s = line ++ b ∧ '\n' ∉ line ∧ LineEnds line b ∧ IsBreak b := by
  obtain ⟨line, rest, rfl, hline⟩ := List.eq_append_cons_of_mem h
  by_cases hreturn : line.getLast? = some '\r'
  · obtain ⟨line, rfl⟩ := List.getLast?_eq_some_iff.1 hreturn
    exact ⟨line, '\r' :: '\n' :: rest, List.append_assoc .., fun hmem => hline (by simp [hmem]),
      lineEnds_return line rest, rest, Or.inr rfl⟩
  · exact ⟨line, '\n' :: rest, rfl, hline, ⟨rfl, fun _ => hreturn⟩, rest, Or.inl rfl⟩

/-- A kind of one line takes nothing where a line ends. -/
theorem Kind.length?_of_isBreak {kind : Kind} (hcode : kind ∈ codeKinds)
    (hlines : kind.holdsLines = false) {b : List Char} (hb : IsBreak b) :
    kind.length? prev b = none := by
  have hbreak : kind ≠ .lineBreak := by
    rintro rfl
    cases hlines
  obtain ⟨rest, hb⟩ := hb
  by_cases hblank : kind = .whitespace
  · subst hblank
    rcases hb with rfl | rfl <;> rfl
  · by_cases hsemicolon : kind = .semicolon
    · subst hsemicolon
      rcases hb with rfl | rfl <;> rfl
    · rcases hb with rfl | rfl <;>
        exact Kind.length?_of_separator _ hcode rfl hblank hbreak hsemicolon

/-- A kind of one line takes what it would take from the line alone. -/
theorem Kind.length?_append_of_isBreak {kind : Kind} (hcode : kind ∈ codeKinds)
    (hlines : kind.holdsLines = false) {line b : List Char} (hends : LineEnds line b)
    (hb : IsBreak b) :
    kind.length? prev (line ++ b) = if line = [] then none else kind.length? prev line := by
  split
  · next hnil =>
      rw [hnil, List.nil_append]
      exact Kind.length?_of_isBreak hcode hlines hb
  · next hne =>
      have hspans : kind.spansLines = false := by
        rw [Bool.eq_false_iff]
        intro hspans
        rcases Kind.spansLines_iff.1 hspans with rfl | rfl <;> cases hlines
      exact Kind.length?_append_of_lineEnds hcode hspans prev hne hends

/-- **A kind of one line stops before the first line feed**, if not earlier. -/
theorem Kind.lineFeed_not_mem_take {kind : Kind} (hcode : kind ∈ codeKinds)
    (hlines : kind.holdsLines = false) {n : Nat} (h : kind.length? prev s = some n) :
    '\n' ∉ s.take n := by
  intro hmem
  obtain ⟨line, b, rfl, hline, hends, hb⟩ := exists_lineEnds (List.mem_of_mem_take hmem)
  rw [Kind.length?_append_of_isBreak hcode hlines hends hb] at h
  split at h
  · simp at h
  · rw [List.take_append_of_le_length (Kind.length?_le h)] at hmem
    exact hline (List.mem_of_mem_take hmem)

/-- A carriage return before the first line feed makes no difference to a kind of one line. -/
theorem Kind.length?_line_withReturns {kind : Kind} (hcode : kind ∈ codeKinds)
    (hlines : kind.holdsLines = false) (h : '\r' ∉ s) :
    kind.length? prev (withReturns s) = kind.length? prev s := by
  by_cases hfeed : '\n' ∈ s
  · obtain ⟨line, rest, rfl, hline⟩ := List.eq_append_cons_of_mem hfeed
    have hreturn : '\r' ∉ line := fun hmem => h (List.mem_append_left _ hmem)
    rw [withReturns_append, withReturns_lineFeed, withReturns_of_not_mem hline,
      Kind.length?_append_of_isBreak hcode hlines (lineEnds_return _ _) ⟨_, Or.inr rfl⟩,
      Kind.length?_append_of_isBreak hcode hlines (lineEnds_lineFeed hreturn _) ⟨_, Or.inl rfl⟩]
  · rw [withReturns_of_not_mem hfeed]

/-! ### Comments over lines -/

theorem throughClosingMarker_withReturns (fresh : Bool) (h : '\r' ∉ s) :
    throughClosingMarker fresh (withReturns s) =
      (withReturns (s.take (throughClosingMarker fresh s))).length := by
  induction s generalizing fresh with
  | nil => rfl
  | cons c s ih =>
      have hs := List.not_mem_of_not_mem_cons h
      by_cases hc : c = '\n'
      · -- an empty line closes nothing, and the next line starts behind the line feed
        subst hc
        have hempty : ∀ rest, isMarkerLine '\\' (firstLine ('\n' :: rest)) = false := fun _ => rfl
        have hreturn : ∀ rest, isMarkerLine '\\' (firstLine ('\r' :: '\n' :: rest)) = false :=
          fun _ => rfl
        rw [withReturns_lineFeed, throughClosingMarker, throughClosingMarker, throughClosingMarker]
        simp only [hempty, hreturn, Bool.and_false, Bool.false_eq_true, if_false]
        have hrest := ih true hs
        simp [hrest, Nat.add_comm 1]
      · have hfirst := firstLine_withReturns h
        rw [withReturns_cons hc] at hfirst
        have hfresh : (c == '\n') = false := beq_eq_false_iff_ne.2 hc
        rw [withReturns_cons hc, throughClosingMarker, throughClosingMarker, hfirst, hfresh]
        split
        · rw [← List.prefix_iff_eq_take.1 (prefix_firstLine (c :: s)),
            withReturns_of_not_mem (lineFeed_not_mem_firstLine (c :: s))]
        · rw [ih false hs, Nat.add_comm 1 (throughClosingMarker false s), List.take_succ_cons,
            withReturns_cons hc, List.length_cons, Nat.add_comm]

/-- **A kind of code takes the same characters** when a carriage return is put before every line
feed. -/
theorem Kind.length?_withReturns {kind : Kind} (hcode : kind ∈ codeKinds) (h : '\r' ∉ s) :
    kind.length? prev (withReturns s) =
      (kind.length? prev s).map fun n => (withReturns (s.take n)).length := by
  cases hlines : kind.holdsLines with
  | false =>
      -- what is taken holds no line feed, so it stays
      rw [Kind.length?_line_withReturns hcode hlines h]
      cases hn : kind.length? prev s with
      | none => rfl
      | some n =>
          rw [Option.map_some, withReturns_of_not_mem (Kind.lineFeed_not_mem_take hcode hlines hn),
            List.length_take, Nat.min_eq_left (Kind.length?_le hn)]
  | true =>
      have hfirst := firstLine_withReturns h
      cases kind with
      | comment form =>
          cases form with
          | block =>
              simp only [Kind.length?, commentLength?, hfirst, throughClosingMarker_withReturns _ h]
              split <;> rfl
          | final =>
              simp only [Kind.length?, commentLength?, hfirst]
              split
              · simp
              · rfl
          | line => cases hlines
      | lineBreak =>
          cases s with
          | nil => rfl
          | cons c rest =>
              by_cases hc : c = '\n'
              · subst hc
                rfl
              · have hreturn : c ≠ '\r' := (List.ne_of_not_mem_cons h).symm
                have hnone : ∀ rest, lineBreakLength? (c :: rest) = none := by
                  intro rest
                  simp [lineBreakLength?, hc, hreturn]
                rw [withReturns_cons hc, Kind.length?, Kind.length?, hnone, hnone]
                rfl
      | quotedText | quotedEscape => simp [codeKinds] at hcode
      | _ => cases hlines

/-! ### Pieces of quoted text -/

theorem takeWhile_isPlainQuoted_withReturns (s : List Char) :
    (withReturns s).takeWhile isPlainQuoted = withReturns (s.takeWhile isPlainQuoted) := by
  induction s with
  | nil => rfl
  | cons c s ih =>
      by_cases hc : c = '\n'
      · subst hc
        have hfeed : isPlainQuoted '\n' = true := rfl
        have hreturn : isPlainQuoted '\r' = true := rfl
        rw [withReturns_lineFeed, List.takeWhile_cons_of_pos hreturn,
          List.takeWhile_cons_of_pos hfeed, List.takeWhile_cons_of_pos hfeed, ih,
          withReturns_lineFeed]
      · rw [withReturns_cons hc, List.takeWhile_cons, List.takeWhile_cons]
        split
        · rw [ih, withReturns_cons hc]
        · rfl

/-- A run of escapes without a line feed stays. -/
theorem escapeRunLength_withReturns (h : '\n' ∉ s.take (escapeRunLength s)) :
    escapeRunLength (withReturns s) = escapeRunLength s := by
  by_cases hfeed : '\n' ∈ s
  · obtain ⟨line, rest, rfl, hline⟩ := List.eq_append_cons_of_mem hfeed
    -- a line feed is no digit and no backslash, and neither is a carriage return
    have hle : escapeRunLength (line ++ '\n' :: rest) ≤ line.length := by
      by_contra hlt
      refine h ?_
      rw [List.take_append, List.mem_append]
      obtain ⟨n, hn⟩ := Nat.exists_eq_add_one.2 (Nat.sub_pos_of_lt (Nat.not_le.1 hlt))
      rw [hn, List.take_succ_cons]
      exact Or.inr (List.mem_cons_self ..)
    rw [withReturns_append, withReturns_lineFeed, withReturns_of_not_mem hline, escapeRunLength,
      escapeUnits_append_cons (by decide) (by decide) rfl rfl hle, ← escapeRunLength]
  · rw [withReturns_of_not_mem hfeed]

/-- **A kind of piece of quoted text takes the same characters** when a carriage return is put before
every line feed, if no escape takes a line feed. -/
theorem Kind.quoted_length?_withReturns {kind : Kind} (hquoted : kind ∈ quotedKinds)
    (h : '\n' ∉ s.take (escapeRunLength s)) :
    kind.length? none (withReturns s) =
      (kind.length? none s).map fun n => (withReturns (s.take n)).length := by
  rcases Kind.eq_of_mem_quotedKinds hquoted with rfl | rfl | rfl
  · cases s with
    | nil => rfl
    | cons c s =>
        by_cases hc : c = '\n'
        · subst hc
          rfl
        · by_cases hquote : c = '"'
          · subst hquote
            rfl
          · simp [Kind.length?, Pattern.char, Pattern.length?, withReturns_cons hc, hquote]
  · rw [Kind.length?, Kind.length?, escapeRunLength_withReturns h, positive?]
    split
    · rfl
    · rw [Option.map_some, withReturns_of_not_mem h, List.length_take,
        Nat.min_eq_left (escapeRunLength_le s)]
  · have hprefix := List.prefix_iff_eq_take.1 (List.takeWhile_prefix (l := s) isPlainQuoted)
    rw [Kind.length?, Kind.length?, takeWhile_isPlainQuoted_withReturns, positive?, positive?]
    by_cases hnil : s.takeWhile isPlainQuoted = []
    · rw [hnil]
      rfl
    · rw [if_neg (by simpa using hnil), if_neg (by simpa using hnil), Option.map_some, ← hprefix]

end QSource
