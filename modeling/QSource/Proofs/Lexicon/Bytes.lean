/-
**Kinds asked of bytes.**

What a kind takes is said of the characters of a text.  It may as well be asked of the bytes of the
text, with a byte before them in place of the character before it.  All classes that a kind asks about
lie in ASCII or outside of what it tells apart, and lines end with characters of ASCII, so the bytes give
the same answer: the number of bytes of the characters that are taken.

Only escapes are no matter of bytes.  Behind a backslash a whole character belongs to the escape, of
which a reader of bytes would take the first byte.

Main definitions:

* `QSource.Pattern.Bars` — the classes that may not follow, where a pattern forbids one, are of one sort.

Main results:

* `QSource.Pattern.length?_octets` — **a pattern in ASCII takes as much of the bytes**;
* `QSource.firstLine_octets`, `QSource.closingText_octets` — lines are made of the bytes of lines;
* `QSource.Kind.length?_octets_of_not_isFree` — a kind in ASCII takes as many bytes as characters;
* `QSource.Kind.length?_octets` — **a kind takes the bytes of what it takes of the characters**.
-/

import QSource.Proofs.Lexicon.Blocks
import QSource.Proofs.Text.Bytes

set_option relaxedAutoImplicit false
set_option autoImplicit false

namespace QSource

open Text Pattern

/-! ### Patterns -/

namespace Pattern

/-- All classes that may not follow where the pattern forbids one lie in `P`. -/
def Bars (P : Char → Prop) : Pattern → Prop
  | .notBefore accepts => ∀ c, accepts c = true → P c
  | .seq first second | .alt first second => first.Bars P ∧ second.Bars P
  | .opt part => part.Bars P
  | _ => True

variable {P : Char → Prop}

@[simp] theorem bars_run {accepts : Char → Bool} : (run accepts).Bars P := trivial

@[simp] theorem bars_atMost {count : Nat} {accepts : Char → Bool} : (atMost count accepts).Bars P := trivial

@[simp] theorem bars_char {c : Char} : (char c).Bars P := trivial

@[simp] theorem bars_oneOf {choices : String} : (oneOf choices).Bars P := trivial

@[simp] theorem bars_oneOrMore {accepts : Char → Bool} : (oneOrMore accepts).Bars P := ⟨trivial, trivial⟩

@[simp] theorem bars_append {a b : Pattern} : (a ++ b).Bars P ↔ a.Bars P ∧ b.Bars P := Iff.rfl

@[simp] theorem bars_or {a b : Pattern} : (a ||| b).Bars P ↔ a.Bars P ∧ b.Bars P := Iff.rfl

@[simp] theorem bars_opt {part : Pattern} : part.opt.Bars P ↔ part.Bars P := Iff.rfl

@[simp] theorem bars_exactly {count : Nat} {accepts : Char → Bool} : (exactly count accepts).Bars P := by
  induction count with
  | zero => trivial
  | succ count ih => exact ⟨trivial, ih⟩

/-- **A pattern in ASCII takes as much of the bytes** as of the characters. -/
theorem length?_octets {p : Pattern} (hcode : IsCode p) (hbars : p.Bars (·.toNat < 128)) (s : List Char) :
    p.length? (octets s) = p.length? s := by
  have hascii : ∀ {a : Pattern}, IsCode a → a.Within (·.toNat < 128) := fun ha =>
    ha.mono fun _ => toNat_lt_of_isCodeChar
  induction p generalizing s with
  | empty => rfl
  | one accepts => rw [length?, length?, alike_head?_octets s accepts (.of_ascii (hascii hcode))]
  | notBefore accepts => rw [length?, length?, alike_head?_octets s accepts (.of_ascii hbars)]
  | run accepts =>
      rw [length?, length?, takeWhile_octets (.of_ascii (hascii hcode)),
        octets_of_ascii (forall_mem_takeWhile (hascii hcode))]
  | atMost count accepts =>
      rw [length?, length?, ← List.take_takeWhile, ← List.take_takeWhile,
        takeWhile_octets (.of_ascii (hascii hcode)), octets_of_ascii (forall_mem_takeWhile (hascii hcode))]
  | seq first second ihfirst ihsecond =>
      rw [length?, length?, ihfirst hcode.1 hbars.1]
      cases hfirst : first.length? s with
      | none => rfl
      | some n =>
          have htaken := forall_mem_take (hascii hcode.1) hfirst
          simp only [Option.bind_some]
          rw [drop_octets (length?_le hfirst) htaken, ihsecond hcode.2 hbars.2]
  | alt first second ihfirst ihsecond =>
      rw [length?, length?, ihfirst hcode.1 hbars.1, ihsecond hcode.2 hbars.2]
  | opt part ih => rw [length?, length?, ih hcode hbars]

end Pattern

/-- What may not follow a literal lies in ASCII. -/
theorem LiteralForm.bars_pattern (form : LiteralForm) (signed : Bool) :
    (form.pattern signed).Bars (·.toNat < 128) := by
  have hword : wordEnd.Bars (·.toNat < 128) := fun _ => toNat_lt_of_isWordChar
  have hdigit : (notBefore Char.isDigit).Bars (·.toNat < 128) := fun _ => toNat_lt_of_isDigit
  have hsign : (sign signed).Bars (·.toNat < 128) := by cases signed <;> trivial
  cases form with
  | symbol =>
      refine ⟨⟨trivial, fun c hc => ?_⟩, trivial⟩
      rw [beq_iff_eq.1 hc]
      decide
  | _ =>
      simp only [LiteralForm.pattern, calendarDay, Pattern.clock, Pattern.fraction, Pattern.decimal,
        Pattern.minutesOnward, Pattern.nanosecondsOfDay, Pattern.exponent, digits, bars_append, bars_or,
        bars_opt, bars_char, bars_oneOf, bars_oneOrMore, bars_run, bars_atMost, bars_exactly, hword,
        hdigit, hsign, and_self]

/-! ### Texts that start outside of ASCII -/

section

variable {s : List Char} (h : Foreign s)

include h

/-- **A kind that takes ASCII only does not fit** a text that starts outside of it. -/
theorem Kind.length?_of_foreign {kind : Kind} (hfree : kind.isFree = false) (prev : Option Char) :
    kind.length? prev s = none := by
  cases hlength : kind.length? prev s with
  | none => rfl
  | some n =>
      obtain ⟨m, rfl⟩ := Nat.exists_eq_add_one.2 (Kind.pos_of_length? hlength)
      cases s with
      | nil => exact absurd (Kind.length?_le hlength) (Nat.not_succ_le_zero m)
      | cons c rest =>
          have hcode := Kind.isCodeChar_of_length? hfree hlength c (by simp)
          exact absurd (toNat_lt_of_isCodeChar hcode) (Nat.not_lt.2 (h c rfl))

theorem blankRun_of_foreign : blankRun s = 0 := by
  have hnone : Kind.whitespace.length? none s = none := Kind.length?_of_foreign h rfl none
  simpa [Kind.length?, positive?] using hnone

theorem startsChannel_of_foreign (prev : Option Char) : startsChannel prev s = false := by
  have hnone : Kind.operator.length? prev s = none := Kind.length?_of_foreign h rfl prev
  rw [Kind.length?, operatorLength?] at hnone
  split at hnone
  · cases hnone
  · next hchannel => exact Bool.eq_false_iff.2 hchannel

theorem nameTail_of_foreign : nameTail s = 0 := by
  cases s with
  | nil => rfl
  | cons c rest =>
      have hc := h c rfl
      have hword : isWordChar c = false := eq_false_of_ascii (fun _ => toNat_lt_of_isWordChar) hc
      have hpoint : c ≠ '.' := fun heq => by simp [heq] at hc
      simp [nameTail, hword, hpoint]

end

/-! ### Kinds in ASCII -/

theorem coarse_isWordChar : Coarse isWordChar := .of_ascii fun _ => toNat_lt_of_isWordChar

theorem coarse_isAlpha : Coarse Char.isAlpha :=
  .of_ascii fun _ hc => toNat_lt_of_isWordChar (isWordChar_of_isAlpha hc)

theorem coarse_isBlank : Coarse isBlank :=
  .of_ascii fun _ hc => toNat_lt_of_isCodeChar (isCodeChar_of_isBlank hc)

theorem coarse_contains {choices : List Char} (h : choices.all (·.toNat < 128) = true) :
    Coarse choices.contains :=
  .of_ascii fun c hc => of_decide_eq_true (List.all_eq_true.1 h c (List.contains_iff_mem.1 hc))

theorem nameTail_octets (s : List Char) : nameTail (octets s) = nameTail s := by
  induction s with
  | nil => rfl
  | cons c s ih =>
      rcases Nat.lt_or_ge c.toNat 128 with hc | hc
      · rw [octets_cons_of_lt hc, nameTail, nameTail, ih, alike_head?_octets s _ coarse_isWordChar]
      · have hforeign : Foreign (c :: s) := foreign_cons.2 hc
        rw [nameTail_of_foreign hforeign, nameTail_of_foreign hforeign.octets]

theorem blankRun_octets (s : List Char) : blankRun (octets s) = blankRun s := by
  induction s with
  | nil => rfl
  | cons c s ih =>
      rcases Nat.lt_or_ge c.toNat 128 with hc | hc
      · have hfeed := (alike_head?_octets s).eq_some_iff (c := '\n') (by decide)
        rw [octets_cons_of_lt hc, blankRun, blankRun, ih]
        simp only [bne, Bool.beq_eq_decide_eq, hfeed]
      · have hforeign : Foreign (c :: s) := foreign_cons.2 hc
        rw [blankRun_of_foreign hforeign, blankRun_of_foreign hforeign.octets]

theorem lineBreakLength?_cons (c : Char) (rest : List Char) :
    lineBreakLength? (c :: rest) =
      if c = '\n' then some 1 else if c = '\r' ∧ rest.head? = some '\n' then some 2 else none := by
  unfold lineBreakLength?
  split
  · next hs => rw [if_pos (List.cons.inj hs).1]
  · next hs =>
      obtain ⟨rfl, rfl⟩ := List.cons.inj hs
      rfl
  · next hfeed hreturn =>
      have hc : c ≠ '\n' := fun hc => hfeed rest (by rw [hc])
      rw [if_neg hc, if_neg]
      rintro ⟨rfl, hhead⟩
      obtain ⟨rest, rfl⟩ := List.head?_eq_some_iff.1 hhead
      exact hreturn rest rfl

theorem startsChannel_of_head?_ne {prev : Option Char} {c : Char} {rest : List Char}
    (h : rest.head? ≠ some ':') : startsChannel prev (c :: rest) = false := by
  rw [Bool.eq_false_iff]
  intro hchannel
  obtain ⟨d, rest', heq, -⟩ := exists_of_startsChannel hchannel
  obtain ⟨rfl, rfl⟩ := List.cons.inj heq
  exact h rfl

section

variable {byte prev : Option Char} (h : Alike byte prev)

include h

theorem mayBeSigned_alike : mayBeSigned byte = mayBeSigned prev := by
  rw [mayBeSigned, mayBeSigned, h _ (coarse_isWordChar.or (coarse_contains (by decide)))]

theorem atLineStart_alike : atLineStart byte = atLineStart prev := by
  have hall : ∀ o : Option Char, atLineStart o = !o.any fun c => !(c == '\n') := by
    intro o
    cases o <;> simp [atLineStart]
  rw [hall, hall, h _ (Coarse.beq (by decide)).not]

theorem startsChannel_octets (s : List Char) : startsChannel byte (octets s) = startsChannel prev s := by
  rcases ascii_or_foreign s with ⟨c, rest, rfl, hc⟩ | hforeign
  · rw [octets_cons_of_lt hc]
    by_cases hcolon : rest.head? = some ':'
    · obtain ⟨rest, rfl⟩ := List.head?_eq_some_iff.1 hcolon
      have hnext := (alike_head?_octets rest).eq_some_iff (c := ':') (by decide)
      rw [octets_cons_of_lt (by decide), startsChannel, startsChannel,
        h _ (coarse_isWordChar.or (Coarse.beq (by decide)))]
      simp only [bne, Bool.beq_eq_decide_eq, hnext]
    · have hbyte : (octets rest).head? ≠ some ':' :=
        mt ((alike_head?_octets rest).eq_some_iff (by decide)).1 hcolon
      rw [startsChannel_of_head?_ne hcolon, startsChannel_of_head?_ne hbyte]
  · rw [startsChannel_of_foreign hforeign, startsChannel_of_foreign hforeign.octets]

theorem LiteralForm.length?_octets (form : LiteralForm) (s : List Char) :
    form.length? byte (octets s) = form.length? prev s := by
  rw [LiteralForm.length?, LiteralForm.length?, startsChannel_octets h, mayBeSigned_alike h,
    Pattern.length?_octets (form.isCode_pattern _) (form.bars_pattern _)]

theorem keywordLength?_octets (s : List Char) :
    keywordLength? byte (octets s) = keywordLength? prev s := by
  have hrun : octets (s.takeWhile isWordChar) = s.takeWhile isWordChar :=
    octets_of_ascii (forall_mem_takeWhile fun _ => toNat_lt_of_isWordChar)
  have hbehind : (octets s)[(s.takeWhile isWordChar).length]? = some '.' ↔
      s[(s.takeWhile isWordChar).length]? = some '.' := by
    rw [← List.head?_drop, ← List.head?_drop, drop_octets (List.takeWhile_prefix _).length_le
      fun c hc => toNat_lt_of_isWordChar (mem_take_takeWhile hc)]
    exact (alike_head?_octets _).eq_some_iff (by decide)
  simp only [keywordLength?, takeWhile_octets coarse_isWordChar, hrun, ne_eq, hbehind,
    h.eq_some_iff (c := '.') (by decide), alike_head?_octets s _ coarse_isAlpha]

theorem operatorLength?_octets (s : List Char) :
    operatorLength? byte (octets s) = operatorLength? prev s := by
  have hbars : operatorPattern.Bars (·.toNat < 128) := by
    simp only [operatorPattern, bars_or, bars_append, bars_char, bars_oneOf, and_self]
  rw [operatorLength?, operatorLength?, startsChannel_octets h,
    Pattern.length?_octets isCode_operatorPattern hbars]

/-- **A kind in ASCII takes as many bytes as characters.** -/
theorem Kind.length?_octets_of_not_isFree {kind : Kind} (hfree : kind.isFree = false) (s : List Char) :
    kind.length? byte (octets s) = kind.length? prev s := by
  have hchar : ∀ {c : Char}, isCodeChar c = true → (char c).length? (octets s) = (char c).length? s :=
    fun hc => Pattern.length?_octets (isCode_char hc) bars_char s
  rcases ascii_or_foreign s with ⟨c, rest, rfl, hc⟩ | hforeign
  · cases kind with
    | comment | command | quotedText | quotedEscape => simp [isFree] at hfree
    | literal form => exact form.length?_octets h _
    | keyword => exact keywordLength?_octets h _
    | identifier =>
        rw [Kind.length?, Kind.length?, octets_cons_of_lt hc, nameLength?, nameLength?, nameTail_octets,
          alike_head?_octets rest _ coarse_isAlpha]
    | whitespace => rw [Kind.length?, Kind.length?, blankRun_octets]
    | lineBreak =>
        have hfeed := (alike_head?_octets rest).eq_some_iff (c := '\n') (by decide)
        simp only [Kind.length?, octets_cons_of_lt hc, lineBreakLength?_cons, hfeed]
    | operator => exact operatorLength?_octets h _
    | iterator => exact Pattern.length?_octets isCode_iteratorPattern ⟨trivial, trivial⟩ _
    | doubleColon => exact Pattern.length?_octets isCode_doubleColon ⟨trivial, trivial⟩ _
    | openQuote | closeQuote | colon | semicolon => exact hchar rfl
    | opening pair | closing pair => cases pair <;> exact hchar rfl
  · rw [Kind.length?_of_foreign hforeign hfree, Kind.length?_of_foreign hforeign.octets hfree]

end

/-! ### Lines -/

theorem ended_octets (part : List Char) :
    Line.ended (octets part) = ⟨octets (Line.ended part).content, (Line.ended part).terminator⟩ := by
  have hlast := (alike_getLast?_octets part).eq_some_iff (c := '\r') (by decide)
  by_cases hreturn : part.getLast? = some '\r'
  · obtain ⟨front, rfl⟩ := List.getLast?_eq_some_iff.1 hreturn
    rw [Line.ended, Line.ended, if_pos hreturn, if_pos (hlast.2 hreturn), octets_append,
      octets_of_lt (by decide), List.dropLast_concat, List.dropLast_concat]
  · rw [Line.ended, Line.ended, if_neg hreturn, if_neg (mt hlast.1 hreturn)]

theorem octets_append_lineFeed (part rest : List Char) :
    octets (part ++ '\n' :: rest) = octets part ++ '\n' :: octets rest := by
  rw [octets_append, octets_cons_of_lt (by decide)]

/-- **The first line of the bytes** is made of the bytes of the first line. -/
theorem firstLine_octets (s : List Char) : firstLine (octets s) = octets (firstLine s) := by
  induction s using lines_induction with
  | last s h => rw [firstLine_of_not_mem h, firstLine_of_not_mem (lineFeed_not_mem_octets h)]
  | more part rest h _ =>
      rw [octets_append_lineFeed, firstLine_append_lineFeed h,
        firstLine_append_lineFeed (lineFeed_not_mem_octets h), ended_octets]

theorem isMarkerLine_of_head?_ne {marker : Char} {s : List Char} (h : s.head? ≠ some marker) :
    isMarkerLine marker s = false := by
  cases s with
  | nil => rfl
  | cons c rest =>
      have hc : c ≠ marker := by simpa using h
      simp [isMarkerLine, hc]

theorem isMarkerLine_octets {marker : Char} (hmarker : marker.toNat < 128) (s : List Char) :
    isMarkerLine marker (octets s) = isMarkerLine marker s := by
  have hhead := (alike_head?_octets s).eq_some_iff hmarker
  by_cases hs : s.head? = some marker
  · obtain ⟨rest, rfl⟩ := List.head?_eq_some_iff.1 hs
    rw [octets_cons_of_lt hmarker, isMarkerLine, isMarkerLine, all_octets coarse_isBlank]
  · rw [isMarkerLine_of_head?_ne hs, isMarkerLine_of_head?_ne (mt hhead.1 hs)]

/-! ### Comments, commands and quoted text -/

theorem isMarker_ended_octets {marker : Char} (hmarker : marker.toNat < 128) (part : List Char) :
    (Line.ended (octets part)).IsMarker marker ↔ (Line.ended part).IsMarker marker := by
  rw [← isMarkerLine_iff, ← isMarkerLine_iff, ended_octets, isMarkerLine_octets hmarker]

/-- **The lines up to a closing marker** are made of the bytes of these lines. -/
theorem closingText_octets (s : List Char) :
    closingText (lines (octets s)) = octets (closingText (lines s)) := by
  induction s using lines_induction with
  | last s h =>
      rw [lines_of_not_mem h, lines_of_not_mem (lineFeed_not_mem_octets h), closingText_last,
        closingText_last]
  | more part rest h ih =>
      have hiff := isMarker_ended_octets (show ('\\').toNat < 128 by decide) part
      rw [octets_append_lineFeed, lines_append h, lines_append (lineFeed_not_mem_octets h)]
      by_cases hmarker : (Line.ended part).IsMarker '\\'
      · rw [closingText_cons_of_isMarker hmarker, closingText_cons_of_isMarker (hiff.2 hmarker),
          ended_octets]
      · rw [closingText_cons_of_not_isMarker hmarker,
          closingText_cons_of_not_isMarker (mt hiff.1 hmarker), ih, Line.text_ended, Line.text_ended,
          octets_append, octets_append, octets_of_lt (by decide)]

theorem blockText?_octets (s : List Char) :
    blockText? (lines (octets s)) = (blockText? (lines s)).map octets := by
  induction s using lines_induction with
  | last s h =>
      have hiff := isMarkerLine_octets (show ('/').toNat < 128 by decide) s
      rw [lines_of_not_mem h, lines_of_not_mem (lineFeed_not_mem_octets h), blockText?, blockText?]
      simp only [← isMarkerLine_iff, hiff]
      split <;> simp [Line.text]
  | more part rest h _ =>
      have hiff := isMarker_ended_octets (show ('/').toNat < 128 by decide) part
      rw [octets_append_lineFeed, lines_append h, lines_append (lineFeed_not_mem_octets h), blockText?,
        blockText?, closingText_octets, Line.text_ended, Line.text_ended]
      simp only [hiff]
      split
      · rw [Option.map_some, octets_append, octets_append, octets_of_lt (by decide)]
      · rfl

/-- A positive number of characters takes a positive number of bytes. -/
theorem positive?_byteLength {s : List Char} {n : Nat} (hn : n ≤ s.length) :
    positive? (byteLength (s.take n)) = (positive? n).map fun n => byteLength (s.take n) := by
  have hlength := length_le_byteLength (s.take n)
  rw [List.length_take_of_le hn] at hlength
  rcases Nat.eq_zero_or_pos n with rfl | hpos
  · rfl
  · rw [positive?, positive?, if_neg (by omega), if_neg (by omega), Option.map_some]

theorem quotedText_octets (s : List Char) :
    positive? ((octets s).takeWhile isPlainQuoted).length =
      (positive? (s.takeWhile isPlainQuoted).length).map fun n => byteLength (s.take n) := by
  have hclass : Coarse isPlainQuoted := (Coarse.beq (by decide)).not.and (Coarse.beq (by decide)).not
  have hprefix := List.takeWhile_prefix isPlainQuoted (l := s)
  rw [takeWhile_octets hclass, length_octets, ← positive?_byteLength hprefix.length_le,
    ← List.prefix_iff_eq_take.1 hprefix]

theorem commandLength?_of_head?_ne {prev : Option Char} {s : List Char} (h : s.head? ≠ some '\\') :
    commandLength? prev s = none := by
  cases s with
  | nil => rfl
  | cons c rest => exact commandLength?_of_ne rest (by simpa using h)

theorem commandLength?_cons (prev : Option Char) (rest : List Char) :
    commandLength? prev ('\\' :: rest) =
      if atLineStart prev && rest.head?.any (fun c => !(isBlank c || c == '\r' || c == '\n')) then
        some (firstLine ('\\' :: rest)).length
      else
        none := by
  cases rest <;> simp [commandLength?]

section

variable {byte prev : Option Char} (h : Alike byte prev) (s : List Char)

include h

theorem commentLength?_octets (form : CommentForm) :
    commentLength? form byte (octets s) =
      (commentLength? form prev s).map fun n => byteLength (s.take n) := by
  have hstart := atLineStart_alike h
  have htake : s.take (firstLine s).length = firstLine s :=
    (List.prefix_iff_eq_take.1 (prefix_firstLine s)).symm
  cases form with
  | block =>
      by_cases hprev : atLineStart prev = true
      · rw [commentLength?_block hprev, commentLength?_block (hstart.trans hprev), blockText?_octets,
          Option.map_map, Option.map_map]
        refine Option.map_congr fun comment hcomment => ?_
        obtain ⟨behind, hs, -⟩ := exists_of_blockText? hcomment
        simp only [Function.comp_apply, length_octets]
        rw [hs, List.take_left]
      · simp [commentLength?, hstart, hprev]
  | final =>
      have hmarker := isMarkerLine_octets (show ('\\').toNat < 128 by decide) (firstLine s)
      simp only [commentLength?, hstart, firstLine_octets, hmarker]
      split <;> simp
  | line =>
      have hhead := (alike_head?_octets s).eq_some_iff (c := '/') (by decide)
      simp only [commentLength?, hstart, firstLine_octets, h _ coarse_isBlank, Bool.beq_eq_decide_eq,
        hhead]
      split <;> simp [htake]

theorem commandLength?_octets :
    commandLength? byte (octets s) = (commandLength? prev s).map fun n => byteLength (s.take n) := by
  have hhead := (alike_head?_octets s).eq_some_iff (c := '\\') (by decide)
  have htake : s.take (firstLine s).length = firstLine s :=
    (List.prefix_iff_eq_take.1 (prefix_firstLine s)).symm
  by_cases hs : s.head? = some '\\'
  · obtain ⟨rest, rfl⟩ := List.head?_eq_some_iff.1 hs
    have hclass : Coarse fun c => !(isBlank c || c == '\r' || c == '\n') :=
      ((coarse_isBlank.or (Coarse.beq (by decide))).or (Coarse.beq (by decide))).not
    rw [octets_cons_of_lt (by decide), commandLength?_cons, commandLength?_cons, atLineStart_alike h,
      alike_head?_octets rest _ hclass, ← octets_cons_of_lt (by decide), firstLine_octets, length_octets]
    split <;> simp [htake]
  · rw [commandLength?_of_head?_ne hs, commandLength?_of_head?_ne (mt hhead.1 hs), Option.map_none]

/-- **A kind takes the bytes of what it takes of the characters**, if it is not the kind of escapes. -/
theorem Kind.length?_octets {kind : Kind} (hkind : kind ≠ .quotedEscape) :
    kind.length? byte (octets s) = (kind.length? prev s).map fun n => byteLength (s.take n) := by
  cases hfree : kind.isFree with
  | true =>
      cases kind with
      | comment form => exact commentLength?_octets h s form
      | command => exact commandLength?_octets h s
      | quotedText => exact quotedText_octets s
      | quotedEscape => exact absurd rfl hkind
      | _ => simp [isFree] at hfree
  | false =>
      rw [Kind.length?_octets_of_not_isFree h hfree]
      cases hlength : kind.length? prev s with
      | none => rfl
      | some n =>
          have hascii : ∀ c ∈ s.take n, c.toNat < 128 := fun c hc =>
            toNat_lt_of_isCodeChar (Kind.isCodeChar_of_length? hfree hlength c hc)
          rw [Option.map_some, byteLength_of_ascii hascii, List.length_take_of_le (Kind.length?_le hlength)]

end

end QSource
