/-
**Reading inverts writing for words and literals.**

Put any words and literals one behind the other, with semicolons between them: the text is cut into
exactly these tokens again.  Each of them is the first kind of the table that fits at its place, since
no earlier kind takes it and its own kind takes the whole of it, up to the semicolon.

Main results:

* `QSource.Kind.first?_literal`, `QSource.Kind.first?_keyword`, `QSource.Kind.first?_identifier` —
  **a word or a literal is what its own kind takes**;
* `QSource.tokenize_atoms` — **the tokens of words and literals between semicolons**.
-/

import Mathlib.Data.List.TakeWhile
import QSource.Proofs.Lexicon.Telling
import QSource.Proofs.Token.Lines

set_option relaxedAutoImplicit false
set_option autoImplicit false

namespace QSource

open Text Grammar Pattern
open scoped Computability

/-! ### Literals -/

/-- The first character of a literal is one that its pattern does not refuse. -/
theorem LiteralForm.exists_cons_of_mem_texts {form : LiteralForm} {x : List Char}
    (h : x ∈ form.texts) : ∃ c rest, x = c :: rest ∧ (form.pattern true).refuses c = false := by
  have hread := LiteralForm.length?_of_mem_texts h
  have hpos := pos_of_length? (form.takesSome_pattern true) hread
  obtain ⟨c, rest, rfl⟩ := List.exists_cons_of_length_pos hpos
  refine ⟨c, rest, rfl, ?_⟩
  rw [Bool.eq_false_iff]
  intro hrefuse
  simp [Pattern.length?_of_refuses hrefuse] at hread

/-- No literal looks like a channel operator. -/
theorem startsChannel_of_mem_number {x : List Char} (h : x ∈ LiteralForm.number.texts)
    (prev : Option Char) : startsChannel prev x = false := by
  rw [Bool.eq_false_iff]
  intro hchannel
  obtain ⟨d, rest, rfl, hd⟩ := exists_of_startsChannel hchannel
  -- a number has no colon behind its digits, and a channel operator has no sign
  obtain ⟨u, rfl | hu, hadmits⟩ := LiteralForm.admits_of_mem_texts h
  · obtain ⟨-, hafter⟩ := start_append (x := [d]) (y := ':' :: rest) (by simpa using hd) rfl
    rw [List.singleton_append] at hafter
    rw [hafter] at hadmits
    cases hadmits
  · obtain ⟨rfl, -⟩ := List.cons.inj hu
    simp at hd

/-- The kinds that are tried before the literals. -/
def Kind.beforeLiterals : List Kind :=
  [.comment .block, .comment .final, .comment .line, .openQuote]

section

variable {prev : Option Char} {b : List Char}

/-- Comments and quotes have their own opening characters. -/
theorem Kind.length?_of_mem_beforeLiterals {k : Kind} (hk : k ∈ beforeLiterals) {c : Char}
    (hslash : c ≠ '/') (hback : c ≠ '\\') (hquote : c ≠ '"') (rest : List Char) :
    k.length? prev (c :: rest) = none := by
  simp only [beforeLiterals, List.mem_cons, List.not_mem_nil, or_false] at hk
  rcases hk with rfl | rfl | rfl | rfl
  · exact commentLength?_of_ne rest hslash hback .block
  · exact commentLength?_of_ne rest hslash hback .final
  · exact commentLength?_of_ne rest hslash hback .line
  · exact Pattern.length?_of_refuses (by simpa [char, refuses] using hquote) rest

/-- **A literal is what its own form takes** where a minus sign may stand before it. -/
theorem Kind.first?_literal {form : LiteralForm} {x : List Char} (h : x ∈ form.texts)
    (hprev : mayBeSigned prev = true) (hb : ∀ c ∈ b.head?, isSeparator c = true) :
    Kind.first? codeKinds prev (x ++ b) = some (.literal form, x.length) := by
  obtain ⟨c, rest, rfl, hopen⟩ := LiteralForm.exists_cons_of_mem_texts h
  have hne : ∀ d, (form.pattern true).refuses d = true → c ≠ d := by
    rintro d hd rfl
    exact Bool.false_ne_true (hopen.symm.trans hd)
  have hread := LiteralForm.length?_of_mem_texts h
  have hmem : Kind.literal form ∈ codeKinds := by cases form <;> decide
  refine Kind.first?_of_earlier hmem ?_ fun k hk => ?_
  · rw [Kind.length?, LiteralForm.length?_append hb, LiteralForm.length?, hprev, hread, if_neg]
    rintro ⟨rfl, hchannel⟩
    rw [startsChannel_of_mem_number h] at hchannel
    exact Bool.false_ne_true hchannel
  · -- the other kinds before it are literals of earlier forms
    have htable : codeKinds.takeWhile (· != .literal form) =
        Kind.beforeLiterals ++ form.earlier.map Kind.literal := by
      cases form <;> rfl
    rw [htable] at hk
    rcases List.mem_append.1 hk with hk | hk
    · exact Kind.length?_of_mem_beforeLiterals hk (hne _ (by cases form <;> rfl))
        (hne _ (by cases form <;> rfl)) (hne _ (by cases form <;> rfl)) _
    · obtain ⟨other, hother, rfl⟩ := List.mem_map.1 hk
      rw [Kind.length?, LiteralForm.length?_append hb, LiteralForm.length?, hprev,
        LiteralForm.misses_of_mem_earlier hother _ h, ite_self]

/-! ### Words -/

/-- A letter opens no literal. -/
theorem LiteralForm.length?_of_isAlpha {c : Char} (hc : c.isAlpha = true) (form : LiteralForm)
    (rest : List Char) : form.length? prev (c :: rest) = none := by
  have hrefuse : ∀ signed, (form.pattern signed).refuses c = true := by
    have hascii : c.toNat < 128 := toNat_lt_of_isWordChar (isWordChar_of_isAlpha hc)
    intro signed
    revert hc
    refine forall_ascii (P := fun c => c.isAlpha = true → (form.pattern signed).refuses c = true) ?_
      hascii
    cases form <;> cases signed <;> decide +kernel
  exact LiteralForm.length?_of_refuses rest (hrefuse _)

theorem isDigit_of_isAlpha {c : Char} (hc : c.isAlpha = true) : c.isDigit = false :=
  forall_ascii (P := fun c => c.isAlpha = true → c.isDigit = false) (by decide +kernel)
    (toNat_lt_of_isWordChar (isWordChar_of_isAlpha hc)) hc

/-- A point before a letter opens no literal: a number has digits behind its point. -/
theorem LiteralForm.length?_of_point_isAlpha {c : Char} (hc : c.isAlpha = true)
    (form : LiteralForm) (rest : List Char) : form.length? prev ('.' :: c :: rest) = none := by
  have hdecimal : Pattern.decimal.length? ('.' :: c :: rest) = none := by
    refine length?_alt_of_none (Pattern.length?_of_refuses rfl _) ?_
    simp [char, oneOrMore, length?_seq, Pattern.length?, isDigit_of_isAlpha hc]
  have hsign : ∀ signed, (sign signed ++ Pattern.decimal).length? ('.' :: c :: rest) = none := by
    intro signed
    have hnone : (sign signed).length? ('.' :: c :: rest) = some 0 := by cases signed <;> rfl
    rw [length?_seq, hnone, Option.bind_some, List.drop_zero, hdecimal]
    rfl
  cases form with
  | number =>
      rw [LiteralForm.length?, pattern, length?_seq_of_none (length?_seq_of_none (hsign _) _),
        ite_self]
  | _ =>
      refine LiteralForm.length?_of_refuses _ ?_
      generalize mayBeSigned prev = signed
      cases signed <;> rfl

theorem ne_of_isAlpha {c d : Char} (hc : c.isAlpha = true) (hd : d.isAlpha = false) : c ≠ d := by
  rintro rfl
  exact Bool.false_ne_true (hd.symm.trans hc)

/-- The kinds that are tried before the words. -/
def Kind.beforeWords : List Kind := beforeLiterals ++ LiteralForm.all.map Kind.literal

/-- A letter opens a word or a name and nothing that is tried before. -/
theorem Kind.length?_of_isAlpha {k : Kind} (hk : k ∈ beforeWords) {c : Char}
    (hc : c.isAlpha = true) (rest : List Char) : k.length? prev (c :: rest) = none := by
  rcases List.mem_append.1 hk with hk | hk
  · exact Kind.length?_of_mem_beforeLiterals hk (ne_of_isAlpha hc rfl) (ne_of_isAlpha hc rfl)
      (ne_of_isAlpha hc rfl) rest
  · obtain ⟨form, -, rfl⟩ := List.mem_map.1 hk
    exact form.length?_of_isAlpha hc rest

/-- So does a point before a letter. -/
theorem Kind.length?_of_point_isAlpha {k : Kind} (hk : k ∈ beforeWords) {c : Char}
    (hc : c.isAlpha = true) (rest : List Char) : k.length? prev ('.' :: c :: rest) = none := by
  rcases List.mem_append.1 hk with hk | hk
  · exact Kind.length?_of_mem_beforeLiterals hk (by decide) (by decide) (by decide) _
  · obtain ⟨form, -, rfl⟩ := List.mem_map.1 hk
    exact form.length?_of_point_isAlpha hc rest

/-- Built-in words are made of the characters of words, and open with a letter. -/
theorem word_of_isReserved {x : List Char} (h : isReserved (String.ofList x) = true) :
    (∀ c ∈ x, isWordChar c = true) ∧ ∃ c rest, x = c :: rest ∧ c.isAlpha = true := by
  have hall : ∀ word ∈ reservedWords, word.toList.all isWordChar = true ∧
      word.toList.head?.any Char.isAlpha = true := by decide +kernel
  obtain ⟨hword, hhead⟩ := hall _ (List.contains_iff_mem.1 h)
  rw [String.toList_ofList] at hword hhead
  refine ⟨List.all_eq_true.1 hword, ?_⟩
  obtain ⟨c, hc, halpha⟩ := (Option.any_eq_true _ _).1 hhead
  obtain ⟨rest, rfl⟩ := List.head?_eq_some_iff.1 hc
  exact ⟨c, rest, rfl, halpha⟩

/-- **A built-in word is a keyword**, if no point stands before it. -/
theorem Kind.first?_keyword {x : List Char} (h : isReserved (String.ofList x) = true)
    (hprev : prev ≠ some '.') (hb : ∀ c ∈ b.head?, isSeparator c = true) :
    Kind.first? codeKinds prev (x ++ b) = some (.keyword, x.length) := by
  obtain ⟨hword, c, rest, rfl, hc⟩ := word_of_isReserved h
  refine Kind.first?_of_earlier (by decide) ?_ fun k hk => ?_
  · have htake : (c :: rest).takeWhile isWordChar = c :: rest :=
      List.takeWhile_eq_self_iff.2 hword
    rw [Kind.length?, keywordLength?_append hb]
    simp only [keywordLength?, htake]
    rw [if_pos]
    exact ⟨hc, hprev, h, by simp⟩
  · have htable : codeKinds.takeWhile (· != .keyword) = Kind.beforeWords := rfl
    rw [htable] at hk
    exact Kind.length?_of_isAlpha hk hc _

/-- Every character of a name is one of a word or a point. -/
theorem forall_mem_name {x : List Char} (h : x ∈ name) :
    ∀ c ∈ x, isWordChar c = true ∨ c = '.' := by
  have hpart : ∀ {accepts : Char → Bool}, (∀ c, accepts c = true → isWordChar c = true) →
      ∀ part ∈ ofClass accepts + lit '.' * ofClass accepts,
        ∀ c ∈ part, isWordChar c = true ∨ c = '.' := by
    intro accepts haccepts part hpart
    rcases (Language.mem_add _ _ _).1 hpart with ⟨c, hc, rfl⟩ | hpart
    · exact List.forall_mem_singleton.2 (Or.inl (haccepts c hc))
    · obtain ⟨_, ⟨d, hd, rfl⟩, _, ⟨c, hc, rfl⟩, rfl⟩ := Language.mem_mul.1 hpart
      exact List.forall_mem_cons.2 ⟨Or.inr (beq_iff_eq.1 hd),
        List.forall_mem_singleton.2 (Or.inl (haccepts c hc))⟩
  obtain ⟨first, hfirst, _, htail, rfl⟩ := Language.mem_mul.1 h
  obtain ⟨parts, rfl, hparts⟩ := Language.mem_kstar.1 htail
  refine List.forall_mem_append.2 ⟨hpart (fun _ => isWordChar_of_isAlpha) first hfirst, ?_⟩
  intro c hc
  obtain ⟨part, hmem, hc⟩ := List.mem_flatten.1 hc
  exact hpart (fun _ => id) part (hparts part hmem) c hc

/-- Behind its opening a name goes on to its end: a character of a word follows every point. -/
theorem nameTail_of_mem_kstar {x : List Char}
    (h : x ∈ (ofClass isWordChar + lit '.' * ofClass isWordChar)∗) : nameTail x = x.length := by
  obtain ⟨parts, rfl, hparts⟩ := Language.mem_kstar.1 h
  clear h
  induction parts with
  | nil => rfl
  | cons part parts ih =>
      obtain ⟨hpart, hrest⟩ := List.forall_mem_cons.1 hparts
      have hparts' := ih hrest
      rw [List.flatten_cons]
      rcases (Language.mem_add _ _ _).1 hpart with ⟨c, hc, rfl⟩ | hpart
      · simp [nameTail, hc, hparts', Nat.add_comm]
      · obtain ⟨_, ⟨d, hd, rfl⟩, _, ⟨c, hc, rfl⟩, rfl⟩ := Language.mem_mul.1 hpart
        rw [beq_iff_eq.1 hd]
        simp [nameTail, hc, hparts']
        omega

/-- A name opens with a letter, perhaps behind a point, and its own kind takes the whole of it. -/
theorem exists_of_mem_name {x : List Char} (h : x ∈ name) :
    nameLength? x = some x.length ∧
      ∃ c rest, c.isAlpha = true ∧ (x = c :: rest ∨ x = '.' :: c :: rest) := by
  obtain ⟨first, hfirst, tail, htail, rfl⟩ := Language.mem_mul.1 h
  have hlength := nameTail_of_mem_kstar htail
  rcases (Language.mem_add _ _ _).1 hfirst with ⟨c, hc, rfl⟩ | hfirst
  · refine ⟨?_, c, tail, hc, Or.inl rfl⟩
    simp [nameLength?, hc, hlength, Nat.add_comm]
  · obtain ⟨_, ⟨d, hd, rfl⟩, _, ⟨c, hc, rfl⟩, rfl⟩ := Language.mem_mul.1 hfirst
    obtain rfl := beq_iff_eq.1 hd
    refine ⟨?_, c, tail, hc, Or.inr rfl⟩
    simp [nameLength?, nameTail, hc, isWordChar_of_isAlpha hc, hlength]
    omega

/-- A name that is not built in is no keyword: a word in it ends with the name or before a point. -/
theorem keywordLength?_of_mem_name {x : List Char} (h : x ∈ name)
    (hword : isReserved (String.ofList x) = false) : keywordLength? prev x = none := by
  simp only [keywordLength?]
  refine if_neg ?_
  rintro ⟨-, -, hreserved, hpoint⟩
  cases hrest : x.dropWhile isWordChar with
  | nil =>
      -- the word is the whole name
      rw [List.takeWhile_eq_self_iff.2 (List.dropWhile_eq_nil_iff.1 hrest), hword] at hreserved
      exact Bool.false_ne_true hreserved
  | cons c rest =>
      have hcut : x = x.takeWhile isWordChar ++ c :: rest := by
        rw [← hrest, List.takeWhile_append_dropWhile]
      have hnot : isWordChar c = false := by
        have hhead := List.head?_dropWhile_not isWordChar x
        rwa [hrest] at hhead
      have hc : c = '.' := by
        have hmem : c ∈ x := hcut ▸ List.mem_append_right _ (List.mem_cons_self ..)
        exact (forall_mem_name h c hmem).resolve_left (by rw [hnot]; exact Bool.false_ne_true)
      refine hpoint ?_
      rw [hc] at hcut
      generalize x.takeWhile isWordChar = word at hcut
      rw [hcut, List.getElem?_append_right (Nat.le_refl _), Nat.sub_self]
      rfl

/-- **A name that is not built in is an identifier.** -/
theorem Kind.first?_identifier {x : List Char} (h : x ∈ name)
    (hword : isReserved (String.ofList x) = false) (hb : ∀ c ∈ b.head?, isSeparator c = true) :
    Kind.first? codeKinds prev (x ++ b) = some (.identifier, x.length) := by
  obtain ⟨hlength, hopen⟩ := exists_of_mem_name h
  have hkeyword : keywordLength? prev (x ++ b) = none := by
    rw [keywordLength?_append hb, keywordLength?_of_mem_name h hword]
  refine Kind.first?_of_earlier (by decide) ?_ fun k hk => ?_
  · rw [Kind.length?, nameLength?_append hb, hlength]
  · have htable : codeKinds.takeWhile (· != .identifier) = Kind.beforeWords ++ [.keyword] := rfl
    rw [htable] at hk
    rcases List.mem_append.1 hk with hk | hk
    · obtain ⟨c, rest, hc, rfl | rfl⟩ := hopen
      · exact Kind.length?_of_isAlpha hk hc _
      · exact Kind.length?_of_point_isAlpha hk hc _
    · rw [List.mem_singleton.1 hk]
      exact hkeyword

/-! ### Atoms between semicolons -/

/-- **A word or a literal is what its own kind takes** at the start of a text or behind a semicolon,
up to a separator. -/
theorem Lexeme.IsAtom.first? {x : Lexeme} (h : x.IsAtom) (hprev : prev = none ∨ prev = some ';')
    (hb : ∀ c ∈ b.head?, isSeparator c = true) :
    Kind.first? codeKinds prev (x.chars ++ b) = some (x.kind, x.chars.length) := by
  have hatom : x.chars ∈ x.kind.atomTexts := h
  have hsigned : mayBeSigned prev = true := by rcases hprev with rfl | rfl <;> decide
  have hpoint : prev ≠ some '.' := by rcases hprev with rfl | rfl <;> decide
  cases hkind : x.kind with
  | literal form =>
      rw [hkind] at hatom
      exact Kind.first?_literal hatom hsigned hb
  | keyword =>
      rw [hkind] at hatom
      exact Kind.first?_keyword hatom hpoint hb
  | identifier =>
      rw [hkind] at hatom
      exact Kind.first?_identifier hatom.1 hatom.2 hb
  | _ =>
      rw [hkind] at hatom
      exact absurd hatom (Language.notMem_zero _)

/-- The step of a scan at a word or a literal. -/
theorem Lexeme.IsAtom.cut {x : Lexeme} (h : x.IsAtom) (hprev : prev = none ∨ prev = some ';')
    (hb : ∀ c ∈ b.head?, isSeparator c = true) :
    Cut prev (x.chars ++ b) [x] x.chars.getLast? b := by
  have hfirst := h.first? hprev hb
  have hkind : x.kind ≠ .openQuote := by
    intro hkind
    have hatom : x.chars ∈ x.kind.atomTexts := h
    rw [hkind] at hatom
    exact Language.notMem_zero _ hatom
  have hcut := Cut.code hfirst hkind
  have hlexeme : Lexeme.ofPrefix x.kind (x.chars ++ b) x.chars.length = x := by
    rw [Lexeme.ofPrefix, List.take_left, Lexeme.chars, String.ofList_toList]
  rwa [hlexeme, List.take_left, List.drop_left] at hcut

end

/-- The semicolon, as a token. -/
def Lexeme.semicolon : Lexeme := ⟨.semicolon, ";"⟩

theorem scan_atoms {atoms : List Lexeme} (h : ∀ x ∈ atoms, x.IsAtom) {prev : Option Char}
    (hprev : prev = none ∨ prev = some ';') :
    scan prev (Lexeme.join (atoms.intersperse .semicolon)) =
      ⟨atoms.intersperse .semicolon, none⟩ := by
  induction atoms generalizing prev with
  | nil => simp [scan]
  | cons x atoms ih =>
      obtain ⟨hx, hatoms⟩ := List.forall_mem_cons.1 h
      cases atoms with
      | nil =>
          have hcut := hx.cut (b := []) hprev (by simp)
          rw [List.append_nil] at hcut
          rw [List.intersperse_singleton, Lexeme.join_cons, Lexeme.join_nil, List.append_nil,
            hcut.scan_eq, scan]
          rfl
      | cons y atoms =>
          rw [List.intersperse_cons_cons, Lexeme.join_cons, Lexeme.join_cons]
          generalize hbehind : Lexeme.join (List.intersperse .semicolon (y :: atoms)) = behind
          have hcut : Cut prev (x.chars ++ ';' :: behind) [x] x.chars.getLast? (';' :: behind) :=
            hx.cut hprev (by rintro c ⟨⟩; rfl)
          have hmark : Cut x.chars.getLast? (';' :: behind) [.semicolon] (some ';') behind :=
            Cut.code (Kind.first?_semicolon behind _) Kind.noConfusion
          have hrest := ih hatoms (Or.inr rfl)
          rw [hbehind] at hrest
          exact (hcut.scan_eq.trans (congrArg _ (hmark.scan_eq.trans (congrArg _ hrest))))

/-- **Reading inverts writing for words and literals.**  Write any of them one behind the other, with
semicolons between them: the text is cut into these tokens, each of its kind, with a semicolon
between any two. -/
theorem tokenize_atoms {atoms : List Lexeme} (h : ∀ x ∈ atoms, x.IsAtom) :
    tokenize (String.intercalate ";" (atoms.map (·.text))) =
      .ok (Lexeme.layOut (atoms.intersperse ⟨.semicolon, ";"⟩)) := by
  have htext : (String.intercalate ";" (atoms.map (·.text))).toList =
      Lexeme.join (atoms.intersperse .semicolon) := by
    rw [String.toList_intercalate, List.map_map]
    clear h
    induction atoms with
    | nil => rfl
    | cons x atoms ih =>
        cases atoms with
        | nil => simp [Lexeme.chars]
        | cons y atoms =>
            rw [List.intersperse_cons_cons, Lexeme.join_cons, Lexeme.join_cons, ← ih]
            simp [Lexeme.chars, Lexeme.semicolon, List.intercalate]
  rw [tokenize, htext, scan_atoms h (Or.inl rfl)]
  rfl

/-- A month could be a number up to its letter, the number ends with the letter of its type and not
with a power of ten, and the keyword is a part of the name. -/
theorem tokenize_atoms_month :
    let atoms : List Lexeme := [⟨.literal .month, "2024.01m"⟩, ⟨.literal .number, "-.5e"⟩,
      ⟨.literal .symbol, "`a.b"⟩, ⟨.keyword, "in"⟩, ⟨.identifier, ".in.x"⟩]
    (∀ x ∈ atoms, x.IsAtom) ∧
      tokenize (String.intercalate ";" ["2024.01m", "-.5e", "`a.b", "in", ".in.x"]) =
        .ok (Lexeme.layOut (atoms.intersperse ⟨.semicolon, ";"⟩)) := by
  intro atoms
  have hlit : ∀ c : Char, [c] ∈ lit c := fun c => ⟨c, beq_self_eq_true c, rfl⟩
  have hchar : ∀ {accepts : Char → Bool} {c : Char}, accepts c = true → [c] ∈ ofClass accepts :=
    fun {_ c} hc => ⟨c, hc, rfl⟩
  have hskip : ∀ l : Language Char, [] ∈ optional l := fun l => Language.nil_mem_one |> Or.inl
  have hmonth : "2024".toList ++ ".".toList ++ "01".toList ++ "m".toList ∈
      LiteralForm.month.texts :=
    Language.append_mem_mul (Language.append_mem_mul (Language.append_mem_mul
      (mem_ofClass_pow.2 (by simp)) (hlit '.')) (mem_ofClass_pow.2 (by simp))) (hlit 'm')
  have hnumber : "-".toList ++ (".".toList ++ ("5".toList ++ [])) ++ [] ++ "e".toList ∈
      LiteralForm.number.texts :=
    Language.append_mem_mul (Language.append_mem_mul (Language.append_mem_mul
      (Or.inr (hlit '-')) (Or.inr (Language.append_mem_mul (hlit '.')
        (Language.append_mem_mul (hchar rfl) (Language.nil_mem_kstar _))))) (hskip _))
      (Or.inr (hchar (by decide)))
  have hsymbol : "`".toList ++ "a.b".toList ∈ LiteralForm.symbol.texts :=
    Language.append_mem_mul (hlit '`') (mem_ofClass_kstar.2 (List.all_eq_true.1 rfl))
  have hname : (".".toList ++ "i".toList) ++ ["n".toList, ".".toList ++ "x".toList].flatten ∈
      name :=
    Language.append_mem_mul (Or.inr (Language.append_mem_mul (hlit '.') (hchar rfl)))
      (Language.join_mem_kstar (List.forall_mem_cons.2 ⟨Or.inl (hchar rfl),
        List.forall_mem_singleton.2 (Or.inr (Language.append_mem_mul (hlit '.') (hchar rfl)))⟩))
  have hbuiltin : isReserved (String.ofList "in".toList) = true := by decide +kernel
  have hown : isReserved (String.ofList ".in.x".toList) = false := by decide +kernel
  have hatoms : ∀ x ∈ atoms, x.IsAtom := by
    simp only [atoms, List.forall_mem_cons]
    exact ⟨hmonth, hnumber, hsymbol, hbuiltin, ⟨hname, hown⟩, by simp⟩
  exact ⟨hatoms, tokenize_atoms hatoms⟩

end QSource
