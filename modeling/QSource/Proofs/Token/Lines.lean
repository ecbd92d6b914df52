/-
**Texts are cut into tokens line by line.**

A scan never looks back further than one character, and outside of comments that run over lines it
never looks past the end of a line.  So a text whose scan reaches the end of a line may be cut there:
what follows is scanned as if it were a text of its own, and its tokens only change their places.

Main definitions:

* `QSource.Token.shift`, `QSource.LexError.shift` — a token and an error of a text that stands
  behind another one.

Main results:

* `QSource.Cut.scan_eq` — a step is what a scan does;
* `QSource.scanQuoted_append` — a quoted text does not look past its closing quote;
* `QSource.scan_append` — **a scan goes on behind the end of a line**;
* `QSource.scan_append_line` — a scan goes on behind a line feed as at the start of a text.
-/

import QSource.Proofs.Lexicon.Starts
import QSource.Proofs.Text.Position
import QSource.Proofs.Token.Obstacle

set_option relaxedAutoImplicit false
set_option autoImplicit false

namespace QSource

open Text

/-! ### Steps -/

/-- A kind that fits first in one place fits first in another one, if no earlier kind fits there that
did not fit before. -/
theorem Kind.first?_of_first? {table : List Kind} {prev prev' : Option Char} {s s' : List Char}
    {kind : Kind} {n n' : Nat} (h : Kind.first? table prev s = some (kind, n))
    (hnone : ∀ k ∈ table, k.length? prev s = none → k.length? prev' s' = none)
    (hkind : kind.length? prev' s' = some n') :
    Kind.first? table prev' s' = some (kind, n') := by
  induction table with
  | nil => simp [Kind.first?] at h
  | cons k table ih =>
      obtain ⟨hk, htable⟩ := List.forall_mem_cons.1 hnone
      cases hlength : k.length? prev s with
      | some m =>
          obtain ⟨rfl, -⟩ : k = kind ∧ m = n := by simpa [Kind.first?, hlength] using h
          simp [Kind.first?, hkind]
      | none =>
          have hrest : Kind.first? table prev s = some (kind, n) := by
            simpa [Kind.first?, hlength] using h
          simpa [Kind.first?, hk hlength] using ih hrest htable

theorem exists_cons_of_first? {table : List Kind} {prev : Option Char} {s : List Char} {kind : Kind}
    {n : Nat} (h : Kind.first? table prev s = some (kind, n)) :
    ∃ c rest m, s = c :: rest ∧ n = m + 1 := by
  have hpos := Kind.pos_of_first? h
  have hle := Kind.length?_le (Kind.mem_of_first? h).2
  obtain ⟨c, rest, rfl⟩ := List.exists_cons_of_length_pos (Nat.lt_of_lt_of_le hpos hle)
  obtain ⟨m, rfl⟩ := Nat.exists_eq_add_one.2 hpos
  exact ⟨c, rest, m, rfl, rfl⟩

/-- **A step is what a scan does.** -/
theorem Cut.scan_eq {prev prev' : Option Char} {s s' : List Char} {xs : List Lexeme}
    (h : Cut prev s xs prev' s') : scan prev s = (scan prev' s').prepend xs := by
  cases h with
  | code hfirst hkind =>
      obtain ⟨c, rest, m, rfl, rfl⟩ := exists_cons_of_first? hfirst
      rw [scan, hfirst]
      simp only [hkind, if_false]
      rfl
  | quoted hfirst hbody =>
      obtain ⟨c, rest, m, rfl, rfl⟩ := exists_cons_of_first? hfirst
      rw [List.drop_succ_cons] at hbody
      rw [scan, hfirst]
      simp only [if_true]
      split
      · next body' behind' hbody' =>
          obtain ⟨rfl, rfl⟩ := Prod.mk.inj (Option.some.inj (hbody'.symm.trans hbody))
          rfl
      · next hnone => simp [hnone] at hbody

/-! ### Quoted texts -/

theorem takeWhile_append_of_mem {accepts : Char → Bool} {s : List Char} {c : Char} (hc : c ∈ s)
    (hreject : accepts c = false) (b : List Char) :
    (s ++ b).takeWhile accepts = s.takeWhile accepts := by
  induction s with
  | nil => simp at hc
  | cons d s ih =>
      rw [List.cons_append, List.takeWhile_cons, List.takeWhile_cons]
      split
      · next hd =>
          rcases List.mem_cons.1 hc with rfl | hc
          · simp [hreject] at hd
          · rw [ih hc]
      · rfl

/-- A backslash with one character behind it is an escape unless three digits follow. -/
theorem escapeUnits_cons {a : Char} {rest : List Char}
    (h : ∀ b c rest', rest = b :: c :: rest' → ¬(a.isDigit && b.isDigit && c.isDigit) = true) :
    escapeUnits ('\\' :: a :: rest) = [a] :: escapeUnits rest := by
  match rest with
  | [] => rfl
  | [b] => rfl
  | b :: c :: rest' => rw [escapeUnits, if_neg (h b c rest' rfl)]

theorem escapeUnits_of_ne {c : Char} (hc : c ≠ '\\') (rest : List Char) :
    escapeUnits (c :: rest) = [] := by
  simp [escapeUnits, hc]

/-- **A run of escapes does not look past a character that is no backslash and no digit**: whichever
such character stands behind `x`, and whatever behind that, the run is the same. -/
theorem escapeUnits_append_cons {x y y' : List Char} {c c' : Char} (hc : c ≠ '\\')
    (hc' : c' ≠ '\\') (hdigit : c.isDigit = false) (hdigit' : c'.isDigit = false)
    (h : escapeRunLength (x ++ c :: y) ≤ x.length) :
    escapeUnits (x ++ c' :: y') = escapeUnits (x ++ c :: y) := by
  rw [escapeRunLength] at h
  fun_induction escapeUnits x with
  | case1 a b d rest hdigits ih =>
      simp only [List.cons_append, escapeUnits, if_pos hdigits, List.foldr_cons, List.length_cons,
        List.length_nil] at h ⊢
      rw [ih (by omega)]
  | case2 a b d rest hdigits ih =>
      simp only [List.cons_append, escapeUnits, if_neg hdigits, List.foldr_cons, List.length_cons,
        List.length_nil] at h ih ⊢
      rw [ih (by omega)]
  | case3 a rest hlong ih =>
      have hunit : ∀ e y, e.isDigit = false →
          escapeUnits ('\\' :: a :: (rest ++ e :: y)) = [a] :: escapeUnits (rest ++ e :: y) := by
        intro e y he
        refine escapeUnits_cons fun b d rest' hrest => ?_
        cases rest with
        | nil =>
            obtain ⟨rfl, -⟩ := List.cons.inj hrest
            simp [he]
        | cons b' rest =>
            cases rest with
            | nil =>
                obtain ⟨rfl, htail⟩ := List.cons.inj hrest
                obtain ⟨rfl, -⟩ := List.cons.inj htail
                simp [he]
            | cons d' rest'' => exact absurd rfl (hlong b' d' rest'')
      simp only [List.cons_append, hunit _ _ hdigit, hunit _ _ hdigit', List.foldr_cons,
        List.length_cons, List.length_nil] at h ⊢
      rw [ih (by omega)]
  | case4 x hlong hshort =>
      cases x with
      | nil => rw [List.nil_append, List.nil_append, escapeUnits_of_ne hc, escapeUnits_of_ne hc']
      | cons d x =>
          by_cases hd : d = '\\'
          · subst hd
            cases x with
            | nil =>
                -- the escape would take `c`
                have hunit : escapeUnits ('\\' :: c :: y) = [c] :: escapeUnits y :=
                  escapeUnits_cons fun _ _ _ _ => by simp [hdigit]
                simp [hunit] at h
                omega
            | cons e x => exact absurd rfl (hshort e x)
          · simp only [List.cons_append, escapeUnits_of_ne hd]

theorem escapeRunLength_append {s : List Char} (h : '"' ∈ s.drop (escapeRunLength s))
    (b : List Char) : escapeRunLength (s ++ b) = escapeRunLength s := by
  obtain ⟨x, y, hdrop⟩ := List.append_of_mem h
  have hle : escapeRunLength s ≤ (s.take (escapeRunLength s) ++ x).length := by
    rw [List.length_append, List.length_take, Nat.min_eq_left (escapeRunLength_le s)]
    omega
  have hs : s = (s.take (escapeRunLength s) ++ x) ++ '"' :: y := by
    rw [List.append_assoc, ← hdrop, List.take_append_drop]
  generalize s.take (escapeRunLength s) ++ x = before at hs hle
  subst hs
  rw [List.append_assoc, List.cons_append, escapeRunLength, escapeRunLength,
    escapeUnits_append_cons (by decide) (by decide) rfl rfl hle]

theorem Kind.eq_of_mem_quotedKinds {kind : Kind} (h : kind ∈ quotedKinds) :
    kind = .closeQuote ∨ kind = .quotedEscape ∨ kind = .quotedText := by
  simpa [quotedKinds] using h

/-- Up to a quote behind the run of escapes, no kind of piece looks at what follows. -/
theorem Kind.length?_append_of_quote {kind : Kind} (hkind : kind ∈ quotedKinds) {s : List Char}
    (h : '"' ∈ s.drop (escapeRunLength s)) (b : List Char) :
    kind.length? none (s ++ b) = kind.length? none s := by
  have hquote : '"' ∈ s := List.mem_of_mem_drop h
  rcases Kind.eq_of_mem_quotedKinds hkind with rfl | rfl | rfl
  · exact Pattern.length?_char_append (List.ne_nil_of_mem hquote) b
  · rw [Kind.length?, Kind.length?, escapeRunLength_append h]
  · rw [Kind.length?, Kind.length?, takeWhile_append_of_mem hquote rfl]

theorem exists_of_closeQuote_length? {s : List Char} {n : Nat}
    (h : Kind.closeQuote.length? none s = some n) : ∃ rest, s = '"' :: rest ∧ n = 1 := by
  cases s with
  | nil => simp [Kind.length?, Pattern.char, Pattern.length?] at h
  | cons c rest =>
      by_cases hc : c = '"'
      · simp only [Kind.length?, Pattern.char, Pattern.length?, hc, List.head?_cons,
          Option.any_some, beq_self_eq_true, if_true, Option.some.injEq] at h
        exact ⟨rest, by rw [hc], h.symm⟩
      · simp [Kind.length?, Pattern.char, Pattern.length?, hc] at h

/-- Where escapes stand they are what a quoted text goes on with: they are tried before plain
characters, and none of them is a closing quote. -/
theorem Kind.first?_of_escapeRunLength_ne_zero {s : List Char} (h : escapeRunLength s ≠ 0) :
    Kind.first? quotedKinds none s = some (.quotedEscape, escapeRunLength s) := by
  have hclose : Kind.closeQuote.length? none s = none := by
    cases hclose : Kind.closeQuote.length? none s with
    | none => rfl
    | some m =>
        obtain ⟨rest, rfl, -⟩ := exists_of_closeQuote_length? hclose
        exact absurd (by rw [escapeRunLength, escapeUnits_of_ne (by decide)]; rfl) h
  have hlength : Kind.quotedEscape.length? none s = some (escapeRunLength s) := by
    rw [Kind.length?, positive?, if_neg h]
  simp only [Kind.first?, quotedKinds, List.findSome?_cons, hclose, hlength, Option.map_none,
    Option.map_some]

/-- While a quoted text is not closed, a quote stands behind the run of escapes at its start. -/
theorem quote_mem_drop_of_first? {s : List Char} {kind : Kind} {n : Nat}
    (hfirst : Kind.first? quotedKinds none s = some (kind, n))
    (h : kind = .closeQuote ∨ '"' ∈ s.drop n) : '"' ∈ s.drop (escapeRunLength s) := by
  obtain ⟨hmem, hlength⟩ := Kind.mem_of_first? hfirst
  by_cases hrun : escapeRunLength s = 0
  · rw [hrun, List.drop_zero]
    rcases h with rfl | h
    · obtain ⟨rest, rfl, -⟩ := exists_of_closeQuote_length? hlength
      exact List.mem_cons_self ..
    · exact List.mem_of_mem_drop h
  · have hescape := Kind.first?_of_escapeRunLength_ne_zero hrun
    obtain ⟨rfl, rfl⟩ := Prod.mk.inj (Option.some.inj (hescape.symm.trans hfirst))
    exact h.resolve_left Kind.noConfusion

/-- The quoted texts that are closed: `body` are the lexemes of `s` up to its closing quote, and
`behind` is what follows. -/
inductive Closed : List Char → List Lexeme → List Char → Prop
  /-- The closing quote. -/
  | close {s : List Char} {n : Nat}
      (hfirst : Kind.first? quotedKinds none s = some (.closeQuote, n)) :
      Closed s [.ofPrefix .closeQuote s n] (s.drop n)
  /-- A piece, and a quoted text that is closed. -/
  | piece {s : List Char} {kind : Kind} {n : Nat} {tail : List Lexeme} {behind : List Char}
      (hfirst : Kind.first? quotedKinds none s = some (kind, n)) (hkind : kind ≠ .closeQuote)
      (htail : Closed (s.drop n) tail behind) : Closed s (.ofPrefix kind s n :: tail) behind

theorem closed_of_scanQuoted {s : List Char} {body : List Lexeme} {behind : List Char}
    (h : scanQuoted s = some (body, behind)) : Closed s body behind := by
  fun_induction scanQuoted s generalizing body with
  | case1 => simp at h
  | case2 c rest n hfirst =>
      obtain ⟨rfl, rfl⟩ := Prod.mk.inj (Option.some.inj h)
      exact .close hfirst
  | case3 c rest kind n hfirst hkind ih =>
      obtain ⟨⟨tail, rest'⟩, htail, heq⟩ := Option.map_eq_some_iff.1 h
      obtain ⟨rfl, rfl⟩ := Prod.mk.inj heq
      exact .piece hfirst hkind (ih htail)
  | case4 => simp at h

theorem Closed.scanQuoted_eq {s : List Char} {body : List Lexeme} {behind : List Char}
    (h : Closed s body behind) : scanQuoted s = some (body, behind) := by
  induction h with
  | close hfirst =>
      obtain ⟨c, rest, m, rfl, rfl⟩ := exists_cons_of_first? hfirst
      rw [scanQuoted, hfirst]
      rfl
  | piece hfirst hkind _ ih =>
      obtain ⟨c, rest, m, rfl, rfl⟩ := exists_cons_of_first? hfirst
      rw [List.drop_succ_cons] at ih
      rw [scanQuoted, hfirst]
      simp only [hkind, if_false, ih]
      rfl

/-- A quoted text ends with the quote that closes it. -/
theorem Closed.exists_join {s : List Char} {body : List Lexeme} {behind : List Char}
    (h : Closed s body behind) :
    ∃ inside, Lexeme.join body = inside ++ ['"'] ∧ s = inside ++ '"' :: behind := by
  induction h with
  | close hfirst =>
      obtain ⟨rest, rfl, rfl⟩ := exists_of_closeQuote_length? (Kind.mem_of_first? hfirst).2
      exact ⟨[], by simp, rfl⟩
  | @piece s kind n tail behind hfirst hkind _ ih =>
      obtain ⟨inside, hjoin, hrest⟩ := ih
      refine ⟨s.take n ++ inside, ?_, ?_⟩
      · rw [Lexeme.join_cons, Lexeme.chars_ofPrefix, hjoin, List.append_assoc]
      · rw [List.append_assoc, ← hrest, List.take_append_drop]

theorem Lexeme.ofPrefix_append {s : List Char} {n : Nat} (h : n ≤ s.length) (kind : Kind)
    (b : List Char) : Lexeme.ofPrefix kind (s ++ b) n = .ofPrefix kind s n := by
  rw [ofPrefix, ofPrefix, List.take_append_of_le_length h]

/-- While a quoted text is not closed, the next piece of it does not depend on what follows. -/
theorem Kind.first?_append_of_quote {s : List Char} {kind : Kind} {n : Nat}
    (hfirst : Kind.first? quotedKinds none s = some (kind, n))
    (h : kind = .closeQuote ∨ '"' ∈ s.drop n) (b : List Char) :
    Kind.first? quotedKinds none (s ++ b) = some (kind, n) := by
  -- a quote stands behind the run of escapes, and no kind looks past it
  have hlength : ∀ k ∈ quotedKinds, k.length? none (s ++ b) = k.length? none s :=
    fun k hk => Kind.length?_append_of_quote hk (quote_mem_drop_of_first? hfirst h) b
  obtain ⟨hmem, hkind⟩ := Kind.mem_of_first? hfirst
  exact Kind.first?_of_first? hfirst (fun k hk hnone => (hlength k hk).trans hnone)
    ((hlength kind hmem).trans hkind)

/-- **A quoted text does not look past its closing quote.** -/
theorem Closed.append {s : List Char} {body : List Lexeme} {behind : List Char}
    (h : Closed s body behind) (b : List Char) : Closed (s ++ b) body (behind ++ b) := by
  induction h with
  | @close s n hfirst =>
      have hle := Kind.length?_le (Kind.mem_of_first? hfirst).2
      have hclosed := Closed.close (Kind.first?_append_of_quote hfirst (Or.inl rfl) b)
      rwa [Lexeme.ofPrefix_append hle, List.drop_append_of_le_length hle] at hclosed
  | @piece s kind n tail behind hfirst hkind htail ih =>
      have hle := Kind.length?_le (Kind.mem_of_first? hfirst).2
      obtain ⟨inside, -, hrest⟩ := htail.exists_join
      have hquote : '"' ∈ s.drop n := by simp [hrest]
      rw [← List.drop_append_of_le_length hle] at ih
      have hclosed := Closed.piece (Kind.first?_append_of_quote hfirst (Or.inr hquote) b) hkind ih
      rwa [Lexeme.ofPrefix_append hle] at hclosed

theorem scanQuoted_append {s : List Char} {body : List Lexeme} {behind : List Char}
    (h : scanQuoted s = some (body, behind)) (b : List Char) :
    scanQuoted (s ++ b) = some (body, behind ++ b) :=
  ((closed_of_scanQuoted h).append b).scanQuoted_eq

/-! ### Scans -/

section

variable {prev prev' : Option Char} {s s' b : List Char} {xs : List Lexeme}

/-- The character before the place where a step stops is the last one that it took. -/
theorem Cut.getLast?_join (h : Cut prev s xs prev' s') :
    prev' = (Lexeme.join xs).getLast? ∧ prev' ≠ none := by
  cases h with
  | code hfirst hkind =>
      obtain ⟨c, rest, m, rfl, rfl⟩ := exists_cons_of_first? hfirst
      simp [Lexeme.join_cons]
  | quoted hfirst hbody =>
      obtain ⟨inside, hjoin, -⟩ := (closed_of_scanQuoted hbody).exists_join
      rw [Lexeme.join_cons, hjoin, ← List.append_assoc, List.getLast?_concat]
      simp

/-- The character before the end of the text is seen from every place in it. -/
theorem Cut.getLast?_or (h : Cut prev s xs prev' s') :
    s.getLast?.or prev = s'.getLast?.or prev' := by
  obtain ⟨hlast, hsome⟩ := h.getLast?_join
  obtain ⟨c, hc⟩ := Option.ne_none_iff_exists'.1 hsome
  rw [← h.join_append, List.getLast?_append, Option.or_assoc, ← hlast, hc]
  rfl

theorem Cut.suffix (h : Cut prev s xs prev' s') : s' <:+ s := ⟨_, h.join_append⟩

/-- A kind that does not fit a text does not fit it either when further lines follow. -/
theorem Kind.length?_append_eq_none {kind : Kind} (hcode : kind ∈ codeKinds) (hs : s ≠ [])
    (hend : LineEnds s b) (h : kind.length? prev s = none) : kind.length? prev (s ++ b) = none := by
  cases hlines : kind.spansLines with
  | false => rw [Kind.length?_append_of_lineEnds hcode hlines prev hs hend, h]
  | true =>
      rcases Kind.spansLines_iff.1 hlines with rfl | rfl <;>
        simpa [Kind.length?, commentLength?, firstLine_append hend] using h

/-- A token that does not end with the text is the same when further lines follow. -/
theorem Kind.length?_append_eq_some {kind : Kind} {n : Nat} (hcode : kind ∈ codeKinds)
    (hend : LineEnds s b) (h : kind.length? prev s = some n)
    (hlines : kind.spansLines = true → n < s.length) : kind.length? prev (s ++ b) = some n := by
  have hs : s ≠ [] := by
    rintro rfl
    have hpos := Kind.pos_of_length? h
    have hle := Kind.length?_le h
    rw [List.length_nil] at hle
    omega
  cases hspans : kind.spansLines with
  | false => rw [Kind.length?_append_of_lineEnds hcode hspans prev hs hend, h]
  | true =>
      have hlt := hlines hspans
      rcases Kind.spansLines_iff.1 hspans with rfl | rfl
      · simp only [Kind.length?, commentLength?, firstLine_append hend] at h ⊢
        split at h
        · next hmarker =>
            rw [← Option.some.inj h] at hlt
            rw [if_pos hmarker, throughClosingMarker_append hend hlt, ← Option.some.inj h]
        · simp at h
      · -- a last comment takes the whole text
        simp only [Kind.length?, commentLength?] at h
        split at h
        · exact absurd (Option.some.inj h) (Nat.ne_of_gt hlt)
        · simp at h

/-- **A step is the same when further lines follow**, unless it is a comment over lines that ends
with the text. -/
theorem Cut.append (h : Cut prev s xs prev' s') (hend : LineEnds s b)
    (hlines : s' = [] → ∀ x ∈ xs.getLast?, x.kind.spansLines = false) :
    Cut prev (s ++ b) xs prev' (s' ++ b) := by
  have hfirst' : ∀ {kind n}, Kind.first? codeKinds prev s = some (kind, n) →
      (kind.spansLines = true → n < s.length) →
      Kind.first? codeKinds prev (s ++ b) = some (kind, n) := by
    intro kind n hfirst hlt
    obtain ⟨hcode, hlength⟩ := Kind.mem_of_first? hfirst
    obtain ⟨c, rest, m, rfl, rfl⟩ := exists_cons_of_first? hfirst
    exact Kind.first?_of_first? hfirst
      (fun k hk => Kind.length?_append_eq_none hk (List.cons_ne_nil _ _) hend)
      (Kind.length?_append_eq_some hcode hend hlength hlt)
  cases h with
  | @code kind n hfirst hkind =>
      have hle := Kind.length?_le (Kind.mem_of_first? hfirst).2
      -- a comment over lines that ends before the text is closed there
      have hlt : kind.spansLines = true → n < s.length := by
        intro hspans
        by_contra hend
        have hnone := hlines (List.drop_eq_nil_of_le (Nat.not_lt.1 hend)) _ rfl
        exact Bool.false_ne_true (hnone.symm.trans hspans)
      have hcut := Cut.code (hfirst' hfirst hlt) hkind
      rwa [Lexeme.ofPrefix_append hle, List.take_append_of_le_length hle,
        List.drop_append_of_le_length hle] at hcut
  | @quoted n body behind hfirst hbody =>
      have hle := Kind.length?_le (Kind.mem_of_first? hfirst).2
      have hbody' := scanQuoted_append hbody b
      rw [← List.drop_append_of_le_length hle] at hbody'
      have hcut := Cut.quoted (hfirst' hfirst (by simp [Kind.spansLines])) hbody'
      rwa [Lexeme.ofPrefix_append hle] at hcut

/-- **A scan goes on behind the end of a line**: it hands over the last character that it has read,
and nothing else. -/
theorem scan_append (hscan : (scan prev s).obstacle = none) (hend : LineEnds s b)
    (hlast : ∀ x ∈ (scan prev s).lexemes.getLast?, x.kind.spansLines = false) :
    scan prev (s ++ b) = (scan (s.getLast?.or prev) b).prepend (scan prev s).lexemes := by
  induction prev, s using scan_induction with
  | done => rfl
  | cut prev s xs prev' s' hcut ih =>
      have hlines : s' = [] → ∀ x ∈ xs.getLast?, x.kind.spansLines = false := by
        rintro rfl x hx
        exact hlast x (by simpa [Scan.prepend, scan] using hx)
      have hlast' : ∀ x ∈ (scan prev' s').lexemes.getLast?, x.kind.spansLines = false := by
        intro x hx
        refine hlast x ?_
        rw [Scan.prepend, List.getLast?_append, hx]
        rfl
      rw [(hcut.append hend hlines).scan_eq, ih hscan (hend.of_suffix hcut.suffix) hlast',
        hcut.getLast?_or]
      simp [Scan.prepend]
  | stuck => simp at hscan
  | unclosed => simp at hscan

/-- A scan at the start of a line is like one at the start of a text. -/
theorem scan_lineFeed (s : List Char) : scan (some '\n') s = scan none s := by
  cases s with
  | nil => simp [scan]
  | cons c rest =>
      have hfirst : Kind.first? codeKinds (some '\n') (c :: rest) =
          Kind.first? codeKinds none (c :: rest) := by
        simp only [Kind.first?, Kind.length?_lineFeed]
      rw [scan, scan, hfirst]

/-- A line feed behind a scanned text is a token, and the next line is scanned on its own. -/
theorem scan_append_line (hscan : (scan none s).obstacle = none) (hreturn : s.getLast? ≠ some '\r')
    (hlast : ∀ x ∈ (scan none s).lexemes.getLast?, x.kind.spansLines = false) (b : List Char) :
    scan none (s ++ '\n' :: b) =
      (scan none b).prepend ((scan none s).lexemes ++ [⟨.lineBreak, "\n"⟩]) := by
  have hend : LineEnds s ('\n' :: b) := ⟨rfl, fun _ => hreturn⟩
  have hbreak : ∀ prev, scan prev ('\n' :: b) = (scan none b).prepend [⟨.lineBreak, "\n"⟩] := by
    intro prev
    rw [(Cut.code (Kind.first?_lineFeed b prev) (by decide)).scan_eq]
    exact congrArg (Scan.prepend [⟨.lineBreak, "\n"⟩]) (scan_lineFeed b)
  rw [scan_append hscan hend hlast, hbreak]
  simp [Scan.prepend]

end

end QSource
