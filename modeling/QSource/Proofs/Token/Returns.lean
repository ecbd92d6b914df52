/-
**Tokens and carriage returns.**

Put a carriage return before every line feed of a text that is cut into tokens: it is cut in the same
places, so that its tokens have the same kinds, numbers, lines and columns, and their texts are the
old ones with the carriage returns.  Tokens of one line keep their texts.

Main definitions:

* `QSource.Lexeme.withReturns`, `QSource.Token.withReturns` — a lexeme and a token with carriage
  returns before the line feeds of its text.

Main results:

* `QSource.Cut.withReturns` — **a step stays a step**;
* `QSource.scan_withReturns` — a scan takes the same steps;
* `QSource.lineFeed_not_mem_chars` — tokens of one line hold no line feed;
* `QSource.exists_tokenize_withReturns` — **a text with carriage returns has the same tokens**.
-/

import QSource.Proofs.Lexicon.Returns

set_option relaxedAutoImplicit false
set_option autoImplicit false

namespace QSource

open Text

/-- A lexeme with a carriage return before every line feed of its text. -/
def Lexeme.withReturns (x : Lexeme) : Lexeme := ⟨x.kind, String.ofList (Text.withReturns x.chars)⟩

@[simp] theorem Lexeme.chars_withReturns (x : Lexeme) :
    x.withReturns.chars = Text.withReturns x.chars := String.toList_ofList

theorem Lexeme.withReturns_of_not_mem {x : Lexeme} (h : '\n' ∉ x.chars) : x.withReturns = x := by
  rw [withReturns, Text.withReturns_of_not_mem h, chars, String.ofList_toList]

/-! ### Steps -/

section

variable {prev prev' : Option Char} {s s' : List Char} {kind : Kind} {n : Nat}

theorem withReturns_eq_append (s : List Char) (n : Nat) :
    withReturns s = withReturns (s.take n) ++ withReturns (s.drop n) := by
  rw [← withReturns_append, List.take_append_drop]

theorem take_withReturns (s : List Char) (n : Nat) :
    (withReturns s).take (withReturns (s.take n)).length = withReturns (s.take n) := by
  rw [withReturns_eq_append s n, List.take_left]

theorem drop_withReturns (s : List Char) (n : Nat) :
    (withReturns s).drop (withReturns (s.take n)).length = withReturns (s.drop n) := by
  rw [withReturns_eq_append s n, List.drop_left]

theorem Lexeme.ofPrefix_withReturns (kind : Kind) (s : List Char) (n : Nat) :
    Lexeme.ofPrefix kind (Text.withReturns s) (Text.withReturns (s.take n)).length =
      (Lexeme.ofPrefix kind s n).withReturns := by
  rw [ofPrefix, take_withReturns, withReturns, chars_ofPrefix]
  rfl

/-- The first kind that fits takes the same characters if all kinds of the table do. -/
theorem Kind.first?_withReturns {table : List Kind}
    (hlength : ∀ k ∈ table, k.length? prev (withReturns s) =
      (k.length? prev s).map fun n => (withReturns (s.take n)).length)
    (h : Kind.first? table prev s = some (kind, n)) :
    Kind.first? table prev (withReturns s) = some (kind, (withReturns (s.take n)).length) := by
  obtain ⟨hmem, hkind⟩ := Kind.mem_of_first? h
  refine Kind.first?_of_first? h (fun k hk hnone => ?_) ?_
  · rw [hlength k hk, hnone, Option.map_none]
  · rw [hlength kind hmem, hkind, Option.map_some]

/-- The escapes at the start of a text hold no line feed if the piece there is no escape with one. -/
theorem lineFeed_not_mem_escapes (hfirst : Kind.first? quotedKinds none s = some (kind, n))
    (hescape : kind = .quotedEscape → '\n' ∉ s.take n) : '\n' ∉ s.take (escapeRunLength s) := by
  by_cases hrun : escapeRunLength s = 0
  · rw [hrun, List.take_zero]
    exact List.not_mem_nil
  · have hescapes := Kind.first?_of_escapeRunLength_ne_zero hrun
    obtain ⟨rfl, rfl⟩ := Prod.mk.inj (Option.some.inj (hescapes.symm.trans hfirst))
    exact hescape rfl

/-- **A quoted text stays one** if no escape in it takes a line feed. -/
theorem Closed.withReturns {body : List Lexeme} {behind : List Char} (h : Closed s body behind)
    (hescape : ∀ x ∈ body, x.kind = .quotedEscape → '\n' ∉ x.chars) :
    Closed (Text.withReturns s) (body.map Lexeme.withReturns) (Text.withReturns behind) := by
  have hnext : ∀ {s kind n}, Kind.first? quotedKinds none s = some (kind, n) →
      (kind = .quotedEscape → '\n' ∉ (Lexeme.ofPrefix kind s n).chars) →
      Kind.first? quotedKinds none (Text.withReturns s) =
        some (kind, (Text.withReturns (s.take n)).length) := by
    intro s kind n hfirst hescape
    rw [Lexeme.chars_ofPrefix] at hescape
    exact Kind.first?_withReturns (fun k hk =>
      Kind.quoted_length?_withReturns hk (lineFeed_not_mem_escapes hfirst hescape)) hfirst
  induction h with
  | @close s n hfirst =>
      have hclosed := Closed.close (hnext hfirst Kind.noConfusion)
      rwa [Lexeme.ofPrefix_withReturns, drop_withReturns] at hclosed
  | @piece s kind n tail behind hfirst hkind _ ih =>
      obtain ⟨hhead, htail⟩ := List.forall_mem_cons.1 hescape
      have hrest := ih htail
      rw [← drop_withReturns] at hrest
      have hclosed := Closed.piece (hnext hfirst hhead) hkind hrest
      rwa [Lexeme.ofPrefix_withReturns] at hclosed

/-- **A step stays a step** when a carriage return is put before every line feed, if no escape takes
a line feed. -/
theorem Cut.withReturns {xs : List Lexeme} (h : Cut prev s xs prev' s') (hreturn : '\r' ∉ s)
    (hescape : ∀ x ∈ xs, x.kind = .quotedEscape → '\n' ∉ x.chars) :
    Cut prev (Text.withReturns s) (xs.map Lexeme.withReturns) prev' (Text.withReturns s') := by
  have hnext : ∀ {kind n}, Kind.first? codeKinds prev s = some (kind, n) →
      Kind.first? codeKinds prev (Text.withReturns s) =
        some (kind, (Text.withReturns (s.take n)).length) :=
    Kind.first?_withReturns fun k hk => Kind.length?_withReturns hk hreturn
  cases h with
  | @code kind n hfirst hkind =>
      have hcut := Cut.code (hnext hfirst) hkind
      rwa [Lexeme.ofPrefix_withReturns, take_withReturns, drop_withReturns,
        getLast?_withReturns] at hcut
  | @quoted n body behind hfirst hbody =>
      obtain ⟨-, hpieces⟩ := List.forall_mem_cons.1 hescape
      have hclosed := ((closed_of_scanQuoted hbody).withReturns hpieces).scanQuoted_eq
      rw [← drop_withReturns] at hclosed
      have hcut := Cut.quoted (hnext hfirst) hclosed
      rwa [Lexeme.ofPrefix_withReturns] at hcut

/-! ### Scans -/

/-- **A scan takes the same steps** when a carriage return is put before every line feed, if no
escape takes a line feed. -/
theorem scan_withReturns (hscan : (scan prev s).obstacle = none) (hreturn : '\r' ∉ s)
    (hescape : ∀ x ∈ (scan prev s).lexemes, x.kind = .quotedEscape → '\n' ∉ x.chars) :
    scan prev (withReturns s) = ⟨(scan prev s).lexemes.map Lexeme.withReturns, none⟩ := by
  induction prev, s using scan_induction with
  | done => simp [scan]
  | cut prev s xs prev' s' hcut ih =>
      obtain ⟨hxs, hrest⟩ := List.forall_mem_append.1 hescape
      have hreturn' : '\r' ∉ s' := fun hmem => hreturn (hcut.suffix.subset hmem)
      rw [(hcut.withReturns hreturn hxs).scan_eq, ih hscan hreturn' hrest]
      simp [Scan.prepend]
  | stuck => simp at hscan
  | unclosed => simp at hscan

theorem Kind.mem_codeKinds (h : kind ∉ quotedKinds) : kind ∈ codeKinds := by
  cases kind with
  | comment form => cases form <;> decide
  | literal form => cases form <;> decide
  | opening pair => cases pair <;> decide
  | closing pair => cases pair <;> decide
  | quotedText | quotedEscape | closeQuote => exact absurd (by decide) h
  | _ => decide

/-- **Tokens of one line hold no line feed.** -/
theorem lineFeed_not_mem_chars {x : Lexeme} (hx : x ∈ (scan prev s).lexemes)
    (hlines : x.kind.holdsLines = false) : '\n' ∉ x.chars := by
  obtain ⟨prev', s', n, hlength, hchars⟩ := exists_of_mem_scan prev s x hx
  rw [hchars]
  by_cases hquoted : x.kind ∈ quotedKinds
  · rcases Kind.eq_of_mem_quotedKinds hquoted with hkind | hkind | hkind
    · -- both quotes are the same character
      have hopen : Kind.openQuote.length? prev' s' = some n := by rwa [hkind] at hlength
      exact Kind.lineFeed_not_mem_take (by decide) rfl hopen
    · simp [hkind, Kind.holdsLines] at hlines
    · simp [hkind, Kind.holdsLines] at hlines
  · exact Kind.lineFeed_not_mem_take (Kind.mem_codeKinds hquoted) hlines hlength

end

/-! ### Tokens -/

/-- A token with a carriage return before every line feed of its text, and with the bytes that are
given for its number. -/
def Token.withReturns (spans : Nat → Span) (t : Token) : Token :=
  ⟨t.toLexeme.withReturns, t.index, spans t.index, t.position⟩

theorem Token.place_withReturns (spans : Nat → Span) (index offset offset' : Nat) (p : Position)
    (xs : List Lexeme)
    (h : ∀ i t, (Token.place index offset' p (xs.map Lexeme.withReturns))[i]? = some t →
      spans (index + i) = t.span) :
    Token.place index offset' p (xs.map Lexeme.withReturns) =
      (Token.place index offset p xs).map (Token.withReturns spans) := by
  induction xs generalizing index offset offset' p with
  | nil => rfl
  | cons x xs ih =>
      have hspan := h 0 _ rfl
      simp only [List.map_cons, Token.place, Lexeme.chars_withReturns,
        Position.after_withReturns] at h hspan ⊢
      rw [ih (index + 1) (offset + byteLength x.chars) _ _ fun i t ht => ?_]
      · rw [Token.withReturns, ← hspan]
        rfl
      · rw [Nat.add_right_comm]
        exact h (i + 1) t ht

/-- A token of a text has its lexeme from the scan of the text. -/
theorem toLexeme_mem_scan {source : String} {tokens : List Token} (h : tokenize source = .ok tokens)
    {t : Token} (ht : t ∈ tokens) : t.toLexeme ∈ (scan none source.toList).lexemes := by
  obtain ⟨rfl, -⟩ := eq_layOut_of_tokenize h
  rw [← Token.map_toLexeme_place 0 0 Position.origin (scan none source.toList).lexemes]
  exact List.mem_map_of_mem ht

theorem lineFeed_not_mem_text {source : String} {tokens : List Token}
    (h : tokenize source = .ok tokens) {t : Token} (ht : t ∈ tokens)
    (hlines : t.kind.holdsLines = false) : '\n' ∉ t.text.toList :=
  lineFeed_not_mem_chars (toLexeme_mem_scan h ht) hlines

/-- The characters of tokens are characters of the text. -/
theorem mem_source_of_mem_text {source : String} {tokens : List Token}
    (h : tokenize source = .ok tokens) {t : Token} (ht : t ∈ tokens) {c : Char}
    (hc : c ∈ t.text.toList) : c ∈ source.toList := by
  rw [← join_scan (eq_layOut_of_tokenize h).2]
  exact List.mem_flatMap.2 ⟨t.toLexeme, toLexeme_mem_scan h ht, hc⟩

/-- **A text with carriage returns has the same tokens**, up to their bytes, if the text itself has
none and no escape takes a line feed. -/
theorem exists_tokenize_withReturns {source : String} {tokens : List Token}
    (h : tokenize source = .ok tokens) (hreturn : '\r' ∉ source.toList)
    (hescape : ∀ t ∈ tokens, t.kind = .quotedEscape → '\n' ∉ t.text.toList) :
    ∃ spans, tokenize (String.ofList (withReturns source.toList)) =
      .ok (tokens.map (Token.withReturns spans)) := by
  obtain ⟨rfl, hnone⟩ := eq_layOut_of_tokenize h
  have hescape' : ∀ x ∈ (scan none source.toList).lexemes,
      x.kind = .quotedEscape → '\n' ∉ x.chars := by
    intro x hx
    rw [← Token.map_toLexeme_place 0 0 Position.origin (scan none source.toList).lexemes] at hx
    obtain ⟨t, ht, rfl⟩ := List.mem_map.1 hx
    exact hescape t ht
  have hscan := scan_withReturns hnone hreturn hescape'
  generalize (scan none source.toList).lexemes = xs at hscan
  -- the bytes are read off the layout of the new lexemes, by the numbers of the tokens
  refine ⟨fun i => (((Lexeme.layOut (xs.map Lexeme.withReturns))[i]?).map (·.span)).getD ⟨0, 0⟩, ?_⟩
  rw [tokenize, String.toList_ofList, hscan]
  refine congrArg Except.ok (Token.place_withReturns _ 0 0 0 Position.origin xs fun i t ht => ?_)
  rw [Nat.zero_add, Lexeme.layOut, ht]
  rfl

end QSource
