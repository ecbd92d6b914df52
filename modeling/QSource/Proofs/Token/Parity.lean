/-
**Where a quoted text ends.**

Inside quotes a scan reads runs of plain characters and runs of escapes, and an escape is a backslash
with one character or with three digits.  Where the text ends can be told without all this: at the first
quote with an even number of backslashes directly before it.  An escape may begin with a backslash
behind others, but it takes two of them or none, so no run of escapes changes the parity of what
follows, and a quote that an escape takes has an odd number.

Main definitions:

* `QSource.ClosesAt`, `QSource.ClosesFirst` — **a quote closes a text**, and it is the first to do so;
* `QSource.EscapeRun` — escapes one behind the other;
* `QSource.WellCut` — **runs of two kinds take turns**, each as long as possible.

Main results:

* `QSource.closesAt_append` — a run does not change where the text is closed;
* `QSource.Kind.longest_of_first?` — a scan reads the longest run;
* `QSource.closesFirst_of_scanQuoted`, `QSource.not_closesAt_of_scanQuoted` — **a scan reads a quoted
  text up to the quote that closes it**, if there is one.
-/

import QSource.Proofs.Token.Quotes

set_option relaxedAutoImplicit false
set_option autoImplicit false

namespace QSource

/-! ### Closing quotes -/

/-- The number of backslashes at the end of a text. -/
def trailingBackslashes (s : List Char) : Nat := (s.reverse.takeWhile (· == '\\')).length

/-- **A quote closes the text** `s` that stands behind an opening quote: before it stands `body`, which
ends in an even number of backslashes, and behind it the rest. -/
structure ClosesAt (s body behind : List Char) : Prop where
  eq : s = body ++ '"' :: behind
  even : trailingBackslashes body % 2 = 0

/-- No quote before this one closes the text. -/
structure ClosesFirst (s body behind : List Char) : Prop extends ClosesAt s body behind where
  first : ∀ body' behind', ClosesAt s body' behind' → body.length ≤ body'.length

theorem trailingBackslashes_le (s : List Char) : trailingBackslashes s ≤ s.length := by
  rw [trailingBackslashes, ← s.length_reverse]
  exact (List.takeWhile_sublist _).length_le

/-- A character before a text matters only where nothing but backslashes follows it. -/
theorem trailingBackslashes_cons (c : Char) (s : List Char) :
    trailingBackslashes (c :: s) =
      if trailingBackslashes s = s.length ∧ c = '\\' then trailingBackslashes s + 1
      else trailingBackslashes s := by
  rw [trailingBackslashes, trailingBackslashes, List.reverse_cons, List.takeWhile_append,
    List.length_reverse]
  by_cases hall : (s.reverse.takeWhile (· == '\\')).length = s.length
  · by_cases hc : c = '\\' <;> simp [hall, hc]
  · simp [hall]

theorem trailingBackslashes_plain {c : Char} (hc : c ≠ '\\') (s : List Char) :
    trailingBackslashes (c :: s) = trailingBackslashes s := by
  rw [trailingBackslashes_cons, if_neg (mt And.right hc)]

/-- **A backslash and the character behind it do not change the parity.** -/
theorem trailingBackslashes_escape (c : Char) (s : List Char) :
    trailingBackslashes ('\\' :: c :: s) % 2 = trailingBackslashes s % 2 := by
  have hle := trailingBackslashes_le s
  have hcons := trailingBackslashes_cons c s
  rw [trailingBackslashes_cons, List.length_cons]
  by_cases hc : c = '\\'
  · simp only [hc, and_true] at hcons ⊢
    split at hcons <;> split <;> omega
  · rw [if_neg (mt And.right hc)] at hcons
    rw [if_neg (by omega), hcons]

section

variable {s body behind : List Char}

theorem closesAt_plain {c : Char} (hc : isPlainQuoted c = true) :
    ClosesAt (c :: s) body behind ↔ ∃ body', body = c :: body' ∧ ClosesAt s body' behind := by
  have hne : c ≠ '"' ∧ c ≠ '\\' := by simpa [isPlainQuoted] using hc
  constructor
  · rintro ⟨heq, heven⟩
    rcases List.cons_eq_append_iff.1 heq with ⟨rfl, hcons⟩ | ⟨body', rfl, hs⟩
    · exact absurd (List.cons.inj hcons).1.symm hne.1
    · exact ⟨body', rfl, hs, by rwa [trailingBackslashes_plain hne.2] at heven⟩
  · rintro ⟨body', rfl, rfl, heven⟩
    exact ⟨rfl, by rwa [trailingBackslashes_plain hne.2]⟩

/-- **Neither a backslash nor the character behind it closes the text.** -/
theorem closesAt_escape {c : Char} : ClosesAt ('\\' :: c :: s) body behind ↔
    ∃ body', body = '\\' :: c :: body' ∧ ClosesAt s body' behind := by
  constructor
  · rintro ⟨heq, heven⟩
    rcases List.cons_eq_append_iff.1 heq with ⟨-, hcons⟩ | ⟨rest, rfl, hrest⟩
    · simp at hcons
    · rcases List.cons_eq_append_iff.1 hrest with ⟨rfl, -⟩ | ⟨body', rfl, hs⟩
      · -- the quote right behind a backslash
        simp [trailingBackslashes] at heven
      · exact ⟨body', rfl, hs, by rwa [trailingBackslashes_escape] at heven⟩
  · rintro ⟨body', rfl, rfl, heven⟩
    exact ⟨rfl, by rwa [trailingBackslashes_escape]⟩

theorem not_closesAt_nil : ¬ ClosesAt [] body behind := fun h => by simpa using h.eq

theorem not_closesAt_backslash : ¬ ClosesAt ['\\'] body behind := by
  rintro ⟨heq, -⟩
  rcases List.cons_eq_append_iff.1 heq with ⟨-, hcons⟩ | ⟨rest, -, hrest⟩
  · simp at hcons
  · simp at hrest

end

/-! ### Runs -/

/-- Escapes one behind the other: backslashes, each with three digits or with one character. -/
inductive EscapeRun : List Char → Prop
  | nil : EscapeRun []
  | digits {a b c : Char} {s : List Char} (ha : a.isDigit = true) (hb : b.isDigit = true)
      (hc : c.isDigit = true) (h : EscapeRun s) : EscapeRun ('\\' :: a :: b :: c :: s)
  | one {c : Char} {s : List Char} (h : EscapeRun s) : EscapeRun ('\\' :: c :: s)

/-- What a piece of a kind holds: plain characters, or escapes. -/
def Kind.Reads : Kind → List Char → Prop
  | .quotedText, piece => ∀ c ∈ piece, isPlainQuoted c = true
  | .quotedEscape, piece => EscapeRun piece
  | _, _ => False

/-- The longest of the texts with which `s` starts and for which `p` holds. -/
structure Longest (p : List Char → Prop) (s piece : List Char) : Prop where
  holds : p piece
  starts : piece <+: s
  longest : ∀ longer, longer <+: s → p longer → longer.length ≤ piece.length

/-- **Runs of the two kinds take turns** at the start of a text: none is empty, each is as long as
possible, and the next one is of the other kind. -/
inductive WellCut : List Char → List Lexeme → Prop
  | nil (s : List Char) : WellCut s []
  | cons {x : Lexeme} {xs : List Lexeme} {s : List Char} (hne : x.chars ≠ [])
      (hlongest : Longest x.kind.Reads (x.chars ++ s) x.chars)
      (hturn : ∀ y ∈ xs.head?, y.kind ≠ x.kind) (h : WellCut s xs) :
      WellCut (x.chars ++ s) (x :: xs)

theorem EscapeRun.append {s t : List Char} (hs : EscapeRun s) (ht : EscapeRun t) :
    EscapeRun (s ++ t) := by
  induction hs with
  | nil => exact ht
  | digits ha hb hc _ ih => exact .digits ha hb hc ih
  | one _ ih => exact .one ih

theorem Kind.Reads.append {kind : Kind} {s t : List Char} (hs : kind.Reads s) (ht : kind.Reads t) :
    kind.Reads (s ++ t) := by
  cases kind with
  | quotedText => exact List.forall_mem_append.2 ⟨hs, ht⟩
  | quotedEscape => exact EscapeRun.append hs ht
  | _ => exact hs

theorem isPlainQuoted_of_isDigit {c : Char} (hc : c.isDigit = true) : isPlainQuoted c = true := by
  simp only [isPlainQuoted, Bool.and_eq_true, bne_iff_ne, ne_eq]
  constructor <;> rintro rfl <;> simp at hc

/-- **A run does not change where the text behind it is closed.** -/
theorem closesAt_append {kind : Kind} {piece : List Char} (h : kind.Reads piece)
    {s body behind : List Char} : ClosesAt (piece ++ s) body behind ↔
      ∃ body', body = piece ++ body' ∧ ClosesAt s body' behind := by
  cases kind with
  | quotedText =>
      induction piece generalizing body with
      | nil => simp
      | cons c piece ih =>
          obtain ⟨hc, hpiece⟩ := List.forall_mem_cons.1 h
          rw [List.cons_append, closesAt_plain hc]
          simp only [ih hpiece]
          grind
  | quotedEscape =>
      have hrun : EscapeRun piece := h
      clear h
      induction hrun generalizing body with
      | nil => simp
      | digits ha hb hc _ ih =>
          simp only [List.cons_append, closesAt_escape, closesAt_plain (isPlainQuoted_of_isDigit hb),
            closesAt_plain (isPlainQuoted_of_isDigit hc), ih]
          grind
      | one _ ih =>
          simp only [List.cons_append, closesAt_escape, ih]
          grind
  | _ => exact h.elim

/-! ### What a scan reads in quotes -/

theorem longest_plain (s : List Char) :
    Longest (Kind.Reads .quotedText) s (s.take (s.takeWhile isPlainQuoted).length) where
  holds := fun c => mem_take_takeWhile
  starts := List.take_prefix _ _
  longest := by
    rintro longer ⟨rest, rfl⟩ hlonger
    rw [List.takeWhile_append_of_pos hlonger, List.length_append, List.length_take]
    simp

theorem escapeRun_take (s : List Char) : EscapeRun (s.take (escapeRunLength s)) := by
  rw [escapeRunLength]
  fun_induction escapeUnits s with
  | case1 a b c rest hdigits ih =>
      simp only [Bool.and_eq_true] at hdigits
      rw [List.foldr_cons, List.length_cons, Nat.add_comm]
      exact .digits hdigits.1.1 hdigits.1.2 hdigits.2 ih
  | case2 a b c rest hdigits ih =>
      rw [List.foldr_cons, List.length_singleton, Nat.add_comm]
      exact .one ih
  | case3 a rest hshort ih =>
      rw [List.foldr_cons, List.length_singleton, Nat.add_comm]
      exact .one ih
  | case4 => exact .nil

/-- **No run of escapes at the start of a text is longer than the one that is read.**  The induction is
on the units that are read; a shorter way to read one with digits ends the run. -/
theorem length_le_of_escapeRun {s longer : List Char} (hrun : EscapeRun longer)
    (h : longer <+: s) : longer.length ≤ escapeRunLength s := by
  rw [escapeRunLength]
  fun_induction escapeUnits s generalizing longer with
  | case1 a b c rest hdigits ih =>
      simp only [Bool.and_eq_true] at hdigits
      rw [List.foldr_cons]
      cases hrun with
      | nil => exact Nat.zero_le _
      | digits ha hb hc hrun =>
          simp only [List.cons_prefix_cons] at h
          have hle := ih hrun h.2.2.2.2
          simp only [List.length_cons]
          omega
      | one hrun =>
          -- the next escape would have to start with a digit
          simp only [List.cons_prefix_cons] at h
          cases hrun with
          | nil =>
              simp only [List.length_cons, List.length_nil]
              omega
          | _ =>
              have hb := hdigits.1.2
              rw [← (List.cons_prefix_cons.1 h.2.2).1] at hb
              simp at hb
  | case2 a b c rest hdigits ih =>
      rw [List.foldr_cons]
      cases hrun with
      | nil => exact Nat.zero_le _
      | digits ha hb hc hrun =>
          simp only [List.cons_prefix_cons] at h
          obtain ⟨-, rfl, rfl, rfl, -⟩ := h
          simp [ha, hb, hc] at hdigits
      | one hrun =>
          simp only [List.cons_prefix_cons] at h
          have hle := ih hrun h.2.2
          simp only [List.length_cons]
          omega
  | case3 a rest hshort ih =>
      rw [List.foldr_cons]
      cases hrun with
      | nil => exact Nat.zero_le _
      | digits ha hb hc hrun =>
          simp only [List.cons_prefix_cons] at h
          obtain ⟨behind, hrest⟩ := h.2.2
          exact (hshort _ _ _ hrest.symm).elim
      | one hrun =>
          simp only [List.cons_prefix_cons] at h
          have hle := ih hrun h.2.2
          simp only [List.length_cons]
          omega
  | case4 s hne hother =>
      cases hrun with
      | nil => exact Nat.zero_le _
      | _ =>
          obtain ⟨behind, rfl⟩ := h
          exact (hother _ _ rfl).elim

theorem longest_escape (s : List Char) :
    Longest (Kind.Reads .quotedEscape) s (s.take (escapeRunLength s)) where
  holds := escapeRun_take s
  starts := List.take_prefix _ _
  longest := by
    intro longer hlonger hrun
    rw [List.length_take, Nat.min_eq_left (escapeRunLength_le s)]
    exact length_le_of_escapeRun hrun hlonger

/-- **A piece of a quoted text is the longest run of its kind.** -/
theorem Kind.longest_of_first? {prev : Option Char} {s : List Char} {kind : Kind} {n : Nat}
    (h : Kind.first? quotedKinds prev s = some (kind, n)) (hkind : kind ≠ .closeQuote) :
    Longest kind.Reads s (s.take n) := by
  obtain ⟨hmem, hlength⟩ := Kind.mem_of_first? h
  have hpiece := Kind.isPiece_of_mem_quotedKinds hmem hkind
  cases kind <;> simp [Kind.isPiece] at hpiece
  · rw [← eq_of_positive? hlength]
    exact longest_plain s
  · rw [← eq_of_positive? hlength]
    exact longest_escape s

/-- Inside quotes only a backslash that ends the text fits no kind. -/
theorem eq_backslash_of_first? {prev : Option Char} {c : Char} {rest : List Char}
    (h : Kind.first? quotedKinds prev (c :: rest) = none) : c :: rest = ['\\'] := by
  have hlength := Kind.first?_eq_none.1 h
  have hquote : c ≠ '"' := by
    rintro rfl
    exact Option.some_ne_none _ (hlength .closeQuote (by decide))
  have hplain : isPlainQuoted c = false := by
    have hnone := hlength .quotedText (by decide)
    rw [Bool.eq_false_iff]
    intro hc
    simp [Kind.length?, positive?, hc] at hnone
  obtain rfl : c = '\\' := by simpa [isPlainQuoted, hquote] using hplain
  cases rest with
  | nil => rfl
  | cons a rest =>
      -- the backslash and the character behind it would be a run
      have hnone := hlength .quotedEscape (by decide)
      have hrun : EscapeRun ['\\', a] := .one .nil
      have hle := length_le_of_escapeRun hrun (List.prefix_append ['\\', a] rest)
      have hpos : escapeRunLength ('\\' :: a :: rest) ≠ 0 := Nat.ne_of_gt (Nat.lt_of_succ_lt hle)
      simp [Kind.length?, positive?, hpos] at hnone

/-- A piece that is as long as possible is followed by one of the other kind. -/
theorem WellCut.cons_of_longest {x : Lexeme} {xs : List Lexeme} {s : List Char}
    (hne : x.chars ≠ []) (hlongest : Longest x.kind.Reads (x.chars ++ s) x.chars)
    (h : WellCut s xs) : WellCut (x.chars ++ s) (x :: xs) := by
  refine .cons hne hlongest (fun y hy hsame => ?_) h
  cases h with
  | nil => simp at hy
  | @cons y' xs s hne' hlongest' hturn h =>
      obtain rfl : y' = y := by simpa using hy
      -- the two pieces together would be a longer one
      have hle := hlongest.longest (x.chars ++ y'.chars)
        (by rw [← List.append_assoc]; exact List.prefix_append _ _)
        (hlongest.holds.append (hsame ▸ hlongest'.holds))
      rw [List.length_append] at hle
      have hpos := List.length_pos_iff.2 hne'
      omega

/-! ### Where a quoted text ends -/

/-- A run at the start of a text does not change which quote is the first to close it. -/
theorem ClosesFirst.append {kind : Kind} {piece : List Char} (hpiece : kind.Reads piece)
    {s body behind : List Char} (h : ClosesFirst s body behind) :
    ClosesFirst (piece ++ s) (piece ++ body) behind where
  toClosesAt := (closesAt_append hpiece).2 ⟨body, rfl, h.toClosesAt⟩
  first := by
    intro longer behind' hlonger
    obtain ⟨body', rfl, hcloses⟩ := (closesAt_append hpiece).1 hlonger
    have hle := h.first _ _ hcloses
    rw [List.length_append, List.length_append]
    omega

/-- **A scan reads a quoted text up to the first quote that closes it**, as runs that take turns. -/
theorem closesFirst_of_scanQuoted {s behind : List Char} {xs : List Lexeme}
    (h : scanQuoted s = some (xs, behind)) : ∃ pieces,
      xs = pieces ++ [⟨.closeQuote, "\""⟩] ∧ ClosesFirst s (Lexeme.join pieces) behind ∧
        WellCut s pieces := by
  fun_induction scanQuoted s generalizing xs with
  | case1 => simp at h
  | case2 c rest n hfirst =>
      obtain ⟨rfl, rfl⟩ := Prod.mk.inj (Option.some.inj h)
      obtain ⟨hn, rest', hs⟩ := Kind.exists_of_quote (Or.inr rfl) (Kind.mem_of_first? hfirst).2
      obtain ⟨rfl, rfl⟩ := List.cons.inj hs
      obtain rfl : n = 0 := Nat.succ.inj hn
      exact ⟨[], rfl, ⟨⟨rfl, rfl⟩, fun body' _ _ => Nat.zero_le _⟩, .nil _⟩
  | case3 c rest kind n hfirst hkind ih =>
      obtain ⟨⟨tail, rest'⟩, htail, heq⟩ := Option.map_eq_some_iff.1 h
      obtain ⟨rfl, rfl⟩ := Prod.mk.inj heq
      obtain ⟨pieces, rfl, hcloses, hcut⟩ := ih htail
      have hlongest := Kind.longest_of_first? hfirst hkind
      rw [← Lexeme.chars_ofPrefix kind] at hlongest
      have hne := Lexeme.chars_ofPrefix_ne_nil kind c rest n
      have hs : (Lexeme.ofPrefix kind (c :: rest) (n + 1)).chars ++ rest.drop n = c :: rest := by
        rw [Lexeme.chars_ofPrefix]
        exact List.take_append_drop (n + 1) (c :: rest)
      have hkind' : (Lexeme.ofPrefix kind (c :: rest) (n + 1)).kind = kind := rfl
      generalize Lexeme.ofPrefix kind (c :: rest) (n + 1) = x at hlongest hne hs hkind' ⊢
      subst hkind'
      rw [← hs] at hlongest ⊢
      exact ⟨x :: pieces, rfl, hcloses.append hlongest.holds, hcut.cons_of_longest hne hlongest⟩
  | case4 => simp at h

/-- **A quoted text that a scan does not read to an end is closed by no quote.** -/
theorem not_closesAt_of_scanQuoted {s : List Char} (h : scanQuoted s = none)
    (body behind : List Char) : ¬ ClosesAt s body behind := by
  fun_induction scanQuoted s generalizing body with
  | case1 => exact not_closesAt_nil
  | case2 => simp at h
  | case3 c rest kind n hfirst hkind ih =>
      have hholds := (Kind.longest_of_first? hfirst hkind).holds
      have htail := ih (Option.map_eq_none_iff.1 h)
      rw [← List.take_append_drop (n + 1) (c :: rest), closesAt_append hholds]
      rintro ⟨body', -, hcloses⟩
      exact htail body' hcloses
  | case4 c rest hnone =>
      rw [eq_backslash_of_first? (Kind.first?_eq_none_of_succ hnone)]
      exact not_closesAt_backslash

end QSource
