/-
**Kinds read with every access checked.**

A kind says of the characters behind a place how many of them it takes.  What reads a text finds that out
by offsets: it slices the text at the place, and the bytes of it at offsets that it has computed.  An
offset may lie behind the end of the bytes, and inside of a character of the text.

Here each kind is read like that, with every slice and every index checked: the reading is `none` as soon
as one of them fails, and `some none` where the kind does not fit.  None of them ever fails, and what is
found are the bytes of the characters that the kind takes.

Main definitions:

* `QSource.since?`, `QSource.upTo?`, `QSource.between?` — slices of bytes;
* `QSource.Pattern.stop?` — the place at which a pattern stops, read from a place on;
* `QSource.lineLength?`, `QSource.closing?` — the end of a line, and of the lines of a block comment;
* `QSource.escapeStop?` — the end of a run of escapes;
* `QSource.Kind.read?`, `QSource.Kind.readAt?` — **a kind read with every access checked**.

Main results:

* `QSource.Pattern.stop?_eq`, `QSource.closing?_eq`, `QSource.escapeStop?_eq` — the readers stay inside the
  text;
* `QSource.Kind.readAt?_eq` — **no access fails between characters**, and the kind takes what it takes of
  the characters there.
-/

import QSource.Proofs.Lexicon.Bytes

set_option relaxedAutoImplicit false
set_option autoImplicit false

namespace QSource

open Text Pattern

/-! ### Slices of bytes -/

section

variable (bytes : List Char)

/-- The bytes from `start` on, `none` if there are fewer. -/
def since? (start : Nat) : Option (List Char) :=
  if start ≤ bytes.length then some (bytes.drop start) else none

/-- The bytes up to `stop`, `none` if there are fewer. -/
def upTo? (stop : Nat) : Option (List Char) :=
  if stop ≤ bytes.length then some (bytes.take stop) else none

/-- The bytes from `start` up to `stop`. -/
def between? (start stop : Nat) : Option (List Char) := (upTo? bytes stop).bind (since? · start)

end

theorem since?_append (x y : List Char) : since? (x ++ y) x.length = some y := by
  rw [since?, if_pos (by simp), List.drop_left]

theorem upTo?_append (x y : List Char) : upTo? (x ++ y) x.length = some x := by
  rw [upTo?, if_pos (by simp), List.take_left]

theorem between?_append (x y z : List Char) :
    between? (x ++ y ++ z) x.length (x ++ y).length = some y := by
  rw [between?, upTo?_append, Option.bind_some, since?_append]

/-! ### Patterns -/

/-- The place at which a pattern stops that is read from the place `start` on.  Each of its parts slices
the bytes at the place where it begins; one that may be left out goes back there if it does not fit. -/
def Pattern.stop? (bytes : List Char) : Pattern → Nat → Option (Option Nat)
  | .seq first second, start =>
    (first.stop? bytes start).bind fun found => match found with
      | some middle => second.stop? bytes middle
      | none => some none
  | .alt first second, start =>
    (first.stop? bytes start).bind fun found => match found with
      | some stop => some (some stop)
      | none => second.stop? bytes start
  | .opt part, start => (part.stop? bytes start).map (·.or (some start))
  | part, start => (since? bytes start).map fun rest => (part.length? rest).map (start + ·)

/-- **A pattern stays inside the bytes.** -/
theorem Pattern.stop?_eq (p : Pattern) {bytes : List Char} {start : Nat} (h : start ≤ bytes.length) :
    p.stop? bytes start = some ((p.length? (bytes.drop start)).map (start + ·)) := by
  have hsince : since? bytes start = some (bytes.drop start) := if_pos h
  induction p generalizing start with
  | empty | one | run | atMost | notBefore => rw [stop?, hsince, Option.map_some] <;> simp
  | seq first second ihfirst ihsecond =>
      rw [stop?, ihfirst h hsince, length?]
      cases hfirst : first.length? (bytes.drop start) with
      | none => rfl
      | some n =>
          have hn := length?_le hfirst
          rw [List.length_drop] at hn
          have hmiddle : start + n ≤ bytes.length := by omega
          simp only [Option.map_some, Option.bind_some]
          rw [ihsecond hmiddle (if_pos hmiddle), List.drop_drop, Option.map_map]
          simp only [Function.comp_def, Nat.add_assoc]
  | alt first second ihfirst ihsecond =>
      rw [stop?, ihfirst h hsince, length?]
      cases hfirst : first.length? (bytes.drop start) with
      | none => exact ihsecond h hsince
      | some n => rfl
  | opt part ih =>
      rw [stop?, ih h hsince, length?]
      cases part.length? (bytes.drop start) <;> rfl

/-- The length of a literal. -/
def LiteralForm.read? (form : LiteralForm) (byte : Option Char) (bytes : List Char) :
    Option (Option Nat) :=
  if form = .number ∧ startsChannel byte bytes then some none
  else (form.pattern (mayBeSigned byte)).stop? bytes 0

theorem LiteralForm.read?_eq (form : LiteralForm) (byte : Option Char) (bytes : List Char) :
    form.read? byte bytes = some (form.length? byte bytes) := by
  rw [read?, length?]
  split
  · rfl
  · rw [Pattern.stop?_eq _ (Nat.zero_le _), List.drop_zero]
    simp

/-! ### Lines -/

/-- The length of the first line.  The byte before the first line feed is looked at if there is one. -/
def lineLength? (bytes : List Char) : Option Nat :=
  match bytes.idxOf? '\n' with
  | none => some bytes.length
  | some 0 => some 0
  | some (before + 1) => bytes[before]?.map fun b => if b = '\r' then before else before + 1

theorem lineLength?_eq (bytes : List Char) : lineLength? bytes = some (firstLine bytes).length := by
  induction bytes using lines_induction with
  | last s h =>
      have hnone : s.idxOf? '\n' = none := by simpa using h
      rw [lineLength?, hnone, firstLine_of_not_mem h]
  | more part rest h _ =>
      have hnone : part.findIdx? (· == '\n') = none := List.idxOf?_eq_none_iff.2 h
      have hsome : (part ++ '\n' :: rest).idxOf? '\n' = some part.length := by
        rw [List.idxOf?, List.findIdx?_append, hnone]
        simp [List.findIdx?_cons]
      rw [lineLength?, hsome, firstLine_append_lineFeed h]
      cases part using List.reverseRecOn with
      | nil => rfl
      | append_singleton front b _ =>
          have hlast : (front ++ [b] ++ '\n' :: rest)[front.length]? = some b := by simp
          rw [List.length_append, List.length_singleton]
          simp only [hlast, Option.map_some, Line.ended, List.getLast?_concat, Option.some.injEq]
          split <;> simp

/-- Whether a line is `marker` followed by nothing but blanks.  What is behind the marker is sliced off
if the line starts with one. -/
def markerLine? (marker : Char) (line : List Char) : Option Bool :=
  if line.head? = some marker then (since? line 1).map (·.all isBlank) else some false

theorem markerLine?_eq (marker : Char) (line : List Char) :
    markerLine? marker line = some (isMarkerLine marker line) := by
  by_cases hline : line.head? = some marker
  · obtain ⟨rest, rfl⟩ := List.head?_eq_some_iff.1 hline
    simp [markerLine?, isMarkerLine, since?]
  · rw [markerLine?, if_neg hline, isMarkerLine_of_head?_ne hline]

/-! ### Comments and commands -/

/-- The end of a block comment, looked for from the end of a line at the place `start` on.  The
terminator is stepped over and the line behind it read; the place behind the terminator is clamped to the
bytes before they are sliced there. -/
def closing? (bytes : List Char) (start : Nat) : Option Nat :=
  if _ : start < bytes.length then
    bytes[start]?.bind fun b =>
      let next := start + if b = '\r' then 2 else 1
      let clamped := min next bytes.length
      (since? bytes clamped).bind fun rest =>
        (lineLength? rest).bind fun length =>
          (between? bytes clamped (next + length)).bind fun line =>
            (markerLine? '\\' line).bind fun closes =>
              if closes then some (next + length) else closing? bytes (next + length)
  else
    some bytes.length
termination_by bytes.length - start
decreasing_by split <;> omega

theorem closing?_length (bytes : List Char) : closing? bytes bytes.length = some bytes.length := by
  rw [closing?, dif_neg (Nat.lt_irrefl _)]

/-- **One turn** goes from the end of a line to the end of the next one, inside the bytes. -/
theorem closing?_step (x rest : List Char) {t : List Char} (ht : IsTerminator t) :
    closing? (x ++ t ++ rest) x.length =
      if isMarkerLine '\\' (firstLine rest) then some (x ++ t ++ firstLine rest).length
      else closing? (x ++ t ++ rest) (x ++ t ++ firstLine rest).length := by
  obtain ⟨behind, hrest⟩ := prefix_firstLine rest
  -- the terminator has as many bytes as are stepped over
  obtain ⟨b, hb, hlength⟩ : ∃ b, t.head? = some b ∧ t.length = if b = '\r' then 2 else 1 := by
    rcases ht with rfl | rfl
    · exact ⟨'\n', rfl, rfl⟩
    · exact ⟨'\r', rfl, rfl⟩
  have hpos : 0 < t.length := by
    rw [hlength]
    split <;> omega
  have hlt : x.length < (x ++ t ++ rest).length := by
    simp only [List.length_append]
    omega
  have hbyte : (x ++ t ++ rest)[x.length]? = some b := by
    rw [List.append_assoc, List.getElem?_append_right (Nat.le_refl _), Nat.sub_self,
      List.getElem?_append_left hpos, ← List.head?_eq_getElem?, hb]
  have hline := between?_append (x ++ t) (firstLine rest) behind
  rw [List.append_assoc (x ++ t), hrest] at hline
  rw [closing?, dif_pos hlt, hbyte]
  simp only [Option.bind_some, ← hlength, ← List.length_append]
  rw [Nat.min_eq_left (by simp), since?_append, Option.bind_some, lineLength?_eq, Option.bind_some,
    ← List.length_append, hline, Option.bind_some, markerLine?_eq, Option.bind_some]

/-- **The search for the end of a block comment stays inside the bytes.** -/
theorem closing?_eq (rest : List Char) : ∀ {x t : List Char}, IsTerminator t →
    closing? (x ++ t ++ rest) x.length = some (x ++ t ++ closingText (lines rest)).length := by
  induction rest using lines_induction with
  | last rest h =>
      intro x t ht
      rw [closing?_step x rest ht, firstLine_of_not_mem h, closing?_length, ite_self, lines_of_not_mem h,
        closingText_last]
  | more part rest h ih =>
      intro x t ht
      rw [closing?_step x _ ht, firstLine_append_lineFeed h, lines_append h]
      by_cases hmarker : (Line.ended part).IsMarker '\\'
      · rw [if_pos (isMarkerLine_iff.2 hmarker), closingText_cons_of_isMarker hmarker]
      · have hnext := @ih (x ++ t ++ (Line.ended part).content) _ (Line.isTerminator_ended part)
        rw [if_neg (mt isMarkerLine_iff.1 hmarker), closingText_cons_of_not_isMarker hmarker,
          append_lineFeed, Line.text]
        simpa only [List.append_assoc] using hnext

/-- From the end of the first line on, the end of the comment is found that the kind takes. -/
theorem closing?_firstLine (bytes : List Char) :
    closing? bytes (firstLine bytes).length = some (throughClosingMarker false bytes) := by
  induction bytes using lines_induction with
  | last s h => rw [firstLine_of_not_mem h, closing?_length, throughClosingMarker_of_not_mem h]
  | more part rest h _ =>
      have hclosing := @closing?_eq rest (Line.ended part).content _ (Line.isTerminator_ended part)
      rw [firstLine_append_lineFeed h, throughClosingMarker_line h, throughClosingMarker_eq,
        ← Line.text_ended, append_lineFeed, Line.text, hclosing, List.length_append]

/-- Whether the first line is a marker line. -/
def opensWith? (marker : Char) (bytes : List Char) : Option Bool :=
  (lineLength? bytes).bind fun length => (upTo? bytes length).bind (markerLine? marker)

theorem opensWith?_eq (marker : Char) (bytes : List Char) :
    opensWith? marker bytes = some (isMarkerLine marker (firstLine bytes)) := by
  obtain ⟨behind, hbytes⟩ := prefix_firstLine bytes
  have hline := upTo?_append (firstLine bytes) behind
  rw [hbytes] at hline
  rw [opensWith?, lineLength?_eq, Option.bind_some, hline, Option.bind_some, markerLine?_eq]

/-- The length of a comment. -/
def readComment? (form : CommentForm) (byte : Option Char) (bytes : List Char) : Option (Option Nat) :=
  match form with
  | .block =>
    if atLineStart byte then
      (opensWith? '/' bytes).bind fun opens =>
        if opens then (lineLength? bytes).bind fun length => (closing? bytes length).map some
        else some none
    else some none
  | .final =>
    if atLineStart byte then
      (opensWith? '\\' bytes).map fun opens => if opens then some bytes.length else none
    else some none
  | .line =>
    if bytes.head? = some '/' ∧ (atLineStart byte || byte.any isBlank) then
      (lineLength? bytes).map some
    else some none

theorem readComment?_eq (form : CommentForm) (byte : Option Char) (bytes : List Char) :
    readComment? form byte bytes = some (commentLength? form byte bytes) := by
  cases form with
  | block =>
      cases hstart : atLineStart byte <;>
        simp [readComment?, commentLength?, hstart, opensWith?_eq, lineLength?_eq, closing?_firstLine]
      split <;> rfl
  | final =>
      cases hstart : atLineStart byte <;> simp [readComment?, commentLength?, hstart, opensWith?_eq]
  | line =>
      simp only [readComment?, commentLength?, lineLength?_eq, Bool.and_eq_true, beq_iff_eq]
      split <;> rfl

/-- The length of a command. -/
def readCommand? (byte : Option Char) (bytes : List Char) : Option (Option Nat) :=
  match bytes with
  | '\\' :: next :: _ =>
    if atLineStart byte && !(isBlank next || next == '\r' || next == '\n') then
      (lineLength? bytes).map some
    else some none
  | _ => some none

theorem readCommand?_eq (byte : Option Char) (bytes : List Char) :
    readCommand? byte bytes = some (commandLength? byte bytes) := by
  unfold readCommand?
  split
  · rw [lineLength?_eq, commandLength?]
    split <;> rfl
  · next hother => rw [commandLength?]; exact hother

/-! ### Keywords -/

/-- The length of a keyword.  Its word is sliced out of the text, by the number of its bytes. -/
def readKeyword? (byte : Option Char) (s : List Char) : Option (Option Nat) :=
  let bytes := octets s
  if bytes.head?.any Char.isAlpha ∧ byte ≠ some '.' then
    let length := (bytes.takeWhile isWordChar).length
    (takeBytes? s length).map fun word =>
      if isReserved (String.ofList word) ∧ bytes[length]? ≠ some '.' then some length else none
  else some none

theorem readKeyword?_eq (byte : Option Char) (s : List Char) :
    readKeyword? byte s = some (keywordLength? byte (octets s)) := by
  have hrun : octets (s.takeWhile isWordChar) = s.takeWhile isWordChar :=
    octets_of_ascii (forall_mem_takeWhile fun _ => toNat_lt_of_isWordChar)
  have hslice : takeBytes? s (s.takeWhile isWordChar).length = some (s.takeWhile isWordChar) := by
    have htake := takeBytes?_append (s.takeWhile isWordChar) (s.dropWhile isWordChar) 0
    rw [List.takeWhile_append_dropWhile, Nat.add_zero, ← length_octets, hrun] at htake
    simpa [takeBytes?] using htake
  simp only [readKeyword?, keywordLength?, takeWhile_octets coarse_isWordChar, hrun, hslice,
    Option.map_some]
  split
  · next hopens => simp only [hopens, true_and, ne_eq, not_false_eq_true]
  · next hopens => rw [if_neg fun hword => hopens ⟨hword.1, hword.2.1⟩]

/-! ### Escapes -/

/-- The number of bytes of the unit of an escape, read from what is behind the backslash: three digits,
which are looked for among the bytes, or else one character.  There is none at the end of the text. -/
def unitBytes? (unit : List Char) : Option (Option Nat) :=
  let bytes := octets unit
  if 3 ≤ bytes.length then
    (upTo? bytes 3).map fun three =>
      if three.all Char.isDigit then some 3 else unit.head?.map Char.utf8Size
  else some (unit.head?.map Char.utf8Size)

theorem lt_of_dropBytes? {s rest : List Char} {c : Char} {start : Nat}
    (h : dropBytes? s start = some (c :: rest)) : start < byteLength s := by
  obtain ⟨before, rfl, rfl⟩ := dropBytes?_eq_some.1 h
  have hpos := c.utf8Size_pos
  rw [byteLength_append, byteLength_cons]
  omega

/-- The end of a run of escapes that goes on at the place `start` of a text. -/
def escapeStop? (s : List Char) (start : Nat) : Option Nat :=
  match _h : dropBytes? s start with
  | none => none
  | some ('\\' :: _) =>
    (dropBytes? s (start + 1)).bind fun unit =>
      (unitBytes? unit).bind fun found => match found with
        | some n => escapeStop? s (start + 1 + n)
        | none => some start
  | some _ => some start
termination_by byteLength s - start
decreasing_by
  have := lt_of_dropBytes? _h
  omega

/-- A run of a class is as long as the first characters that all belong to it. -/
theorem le_length_takeWhile_iff {accepts : Char → Bool} {s : List Char} {n : Nat} :
    n ≤ (s.takeWhile accepts).length ↔ n ≤ s.length ∧ (s.take n).all accepts = true := by
  induction s generalizing n with
  | nil => simp
  | cons c s ih =>
      cases n with
      | zero => simp
      | succ n => by_cases hc : accepts c = true <;> simp [hc, ih]

theorem unitBytes?_eq (unit : List Char) :
    unitBytes? unit =
      some (if 3 ≤ (unit.takeWhile Char.isDigit).length then some 3 else unit.head?.map Char.utf8Size) := by
  have hclass : ∀ c : Char, c.isDigit = true → c.toNat < 128 := fun _ => toNat_lt_of_isDigit
  rw [← octets_of_ascii (forall_mem_takeWhile hclass), ← takeWhile_octets (.of_ascii hclass)]
  by_cases hlength : 3 ≤ (octets unit).length
  · have hthree : upTo? (octets unit) 3 = some ((octets unit).take 3) := if_pos hlength
    simp only [unitBytes?, if_pos hlength, hthree, Option.map_some, le_length_takeWhile_iff,
      and_iff_right hlength]
  · simp only [unitBytes?, le_length_takeWhile_iff, hlength, false_and, if_false]

/-- **One turn** at a backslash. -/
theorem escapeStop?_step (x unit : List Char) :
    escapeStop? (x ++ '\\' :: unit) (byteLength x) =
      (unitBytes? unit).bind fun found => match found with
        | some n => escapeStop? (x ++ '\\' :: unit) (byteLength x + 1 + n)
        | none => some (byteLength x) := by
  have hstart := dropBytes?_append x ('\\' :: unit)
  have hbehind : dropBytes? (x ++ '\\' :: unit) (byteLength x + 1) = some unit :=
    dropBytes?_eq_some.2 ⟨x ++ ['\\'], by simp, by simp; rfl⟩
  rw [escapeStop?]
  split
  · next hnone => simp [hstart] at hnone
  · rw [hbehind, Option.bind_some]
  · next hother hsome => exact (hother _ (Option.some.inj (hsome.symm.trans hstart))).elim

theorem escapeStop?_of_head?_ne (x : List Char) {s : List Char} (h : s.head? ≠ some '\\') :
    escapeStop? (x ++ s) (byteLength x) = some (byteLength x) := by
  have hstart := dropBytes?_append x s
  rw [escapeStop?]
  split
  · next hnone => simp [hstart] at hnone
  · next hsome =>
      rw [hstart, Option.some.injEq] at hsome
      simp [hsome] at h
  · rfl

/-- A unit of one character. -/
theorem unitBytes?_char {c : Char} {rest : List Char}
    (h : ((c :: rest).takeWhile Char.isDigit).length < 3) :
    unitBytes? ([c] ++ rest) = some (some (byteLength [c])) := by
  rw [unitBytes?_eq, List.singleton_append, if_neg (Nat.not_le.2 h)]
  rfl

/-- **The search for the end of a run of escapes stays between the characters of the text.** -/
theorem escapeStop?_eq (s x : List Char) :
    escapeStop? (x ++ s) (byteLength x) = some (byteLength (x ++ s.take (escapeRunLength s))) := by
  have hturn : ∀ {taken rest : List Char} {n : Nat},
      unitBytes? (taken ++ rest) = some (some (byteLength taken)) →
      (∀ x, escapeStop? (x ++ rest) (byteLength x) = some (byteLength (x ++ rest.take n))) →
      ∀ x, escapeStop? (x ++ '\\' :: (taken ++ rest)) (byteLength x) =
        some (byteLength (x ++ ('\\' :: (taken ++ rest)).take (taken.length + 1 + n))) := by
    intro taken rest n hunit ih x
    have htake : ('\\' :: (taken ++ rest)).take (taken.length + 1 + n) = '\\' :: taken ++ rest.take n :=
      @List.take_length_add_append _ ('\\' :: taken) rest n
    have hnext := ih (x ++ '\\' :: taken)
    have hsize : byteLength (x ++ '\\' :: taken) = byteLength x + 1 + byteLength taken := by
      rw [byteLength_append, byteLength_cons, Nat.add_assoc]
      rfl
    rw [hsize, List.append_assoc, List.append_assoc, List.cons_append] at hnext
    rw [escapeStop?_step, hunit, htake]
    exact hnext
  rw [escapeRunLength]
  fun_induction escapeUnits s generalizing x with
  | case1 a b c rest hdigits ih =>
      simp only [Bool.and_eq_true] at hdigits
      obtain ⟨⟨ha, hb⟩, hc⟩ := hdigits
      refine @hturn [a, b, c] rest _ ?_ ih x
      rw [unitBytes?_eq]
      simp [ha, hb, hc, utf8Size_of_lt (toNat_lt_of_isDigit _)]
  | case2 a b c rest hdigits ih =>
      refine @hturn [a] (b :: c :: rest) _ (unitBytes?_char ?_) ih x
      rw [← Nat.not_le, le_length_takeWhile_iff]
      simpa using hdigits
  | case3 a rest hshort ih =>
      have hlength : rest.length < 2 := by
        rcases rest with _ | ⟨b, _ | ⟨c, rest⟩⟩
        · decide
        · simp
        · exact (hshort b c rest rfl).elim
      have hrun := (List.takeWhile_prefix Char.isDigit (l := a :: rest)).length_le
      rw [List.length_cons] at hrun
      exact @hturn [a] rest _ (unitBytes?_char (by omega)) ih x
  | case4 s hlong hunit =>
      by_cases hs : s.head? = some '\\'
      · obtain ⟨rest, rfl⟩ := List.head?_eq_some_iff.1 hs
        cases rest with
        | nil => rw [escapeStop?_step, unitBytes?_eq]; simp
        | cons a rest => exact (hunit a rest rfl).elim
      · rw [escapeStop?_of_head?_ne x hs]
        simp

/-! ### Kinds -/

/-- **The length of a token of a kind, read with every access checked** from what is left of a text and
the byte before it.  The kinds that are not listed look at single bytes only, and have none where the
bytes end. -/
def Kind.read? (kind : Kind) (byte : Option Char) (s : List Char) : Option (Option Nat) :=
  match kind with
  | .comment form => readComment? form byte (octets s)
  | .literal form => form.read? byte (octets s)
  | .quotedEscape => (escapeStop? s 0).map positive?
  | .keyword => readKeyword? byte s
  | .command => readCommand? byte (octets s)
  | _ => some (kind.length? byte (octets s))

/-- The byte before an offset. -/
def byteBefore (source : List Char) (offset : Nat) : Option Char :=
  if offset = 0 then none else (octets source)[offset - 1]?

/-- The same at an offset of a text, which is sliced there. -/
def Kind.readAt? (kind : Kind) (source : List Char) (offset : Nat) : Option (Option Nat) :=
  (dropBytes? source offset).bind (kind.read? (byteBefore source offset))

theorem Kind.read?_eq (kind : Kind) {byte prev : Option Char} (h : Alike byte prev) (s : List Char) :
    kind.read? byte s = some ((kind.length? prev s).map fun n => byteLength (s.take n)) := by
  by_cases hescape : kind = .quotedEscape
  · subst hescape
    have hstop := escapeStop?_eq s []
    rw [List.nil_append, List.nil_append, byteLength_nil] at hstop
    rw [read?, hstop, Option.map_some, positive?_byteLength (escapeRunLength_le s), Kind.length?]
  · rw [← Kind.length?_octets h s hescape]
    cases kind with
    | comment form => exact readComment?_eq form byte (octets s)
    | literal form => exact form.read?_eq byte (octets s)
    | keyword => exact readKeyword?_eq byte s
    | command => exact readCommand?_eq byte (octets s)
    | quotedEscape => exact absurd rfl hescape
    | _ => rfl

theorem alike_byteBefore (before behind : List Char) :
    Alike (byteBefore (before ++ behind) (byteLength before)) before.getLast? := by
  have hbyte : byteBefore (before ++ behind) (byteLength before) = (octets before).getLast? := by
    rcases Nat.eq_zero_or_pos (byteLength before) with hzero | hpos
    · have hnil : octets before = [] := List.length_eq_zero_iff.1 ((length_octets before).trans hzero)
      rw [byteBefore, if_pos hzero, hnil, List.getLast?_nil]
    · rw [byteBefore, if_neg (by omega), octets_append, List.getElem?_append_left (by simp; omega),
        List.getLast?_eq_getElem?, length_octets]
  rw [hbyte]
  exact alike_getLast?_octets before

/-- **No access fails between characters.**  Read at the offset behind `before`, a kind takes the bytes of
the characters that it takes there. -/
theorem Kind.readAt?_eq (kind : Kind) (before behind : List Char) :
    kind.readAt? (before ++ behind) (byteLength before) =
      some ((kind.length? before.getLast? behind).map fun n => byteLength (behind.take n)) := by
  rw [readAt?, dropBytes?_append, Option.bind_some, Kind.read?_eq kind (alike_byteBefore before behind)]

theorem Kind.pos_byteLength_of_length? {kind : Kind} {prev : Option Char} {s : List Char} {n : Nat}
    (h : kind.length? prev s = some n) : 0 < byteLength (s.take n) := by
  have hle := length_le_byteLength (s.take n)
  rw [List.length_take_of_le (Kind.length?_le h)] at hle
  exact Nat.lt_of_lt_of_le (Kind.pos_of_length? h) hle

/-- **What is taken is not empty, and it ends between characters of the text.** -/
theorem Kind.bounds_of_readAt? {kind : Kind} {before behind : List Char} {n : Nat}
    (h : kind.readAt? (before ++ behind) (byteLength before) = some (some n)) :
    0 < n ∧ byteLength before + n ≤ byteLength (before ++ behind) ∧
      OnBoundary (before ++ behind) (byteLength before + n) := by
  rw [Kind.readAt?_eq, Option.some.injEq, Option.map_eq_some_iff] at h
  obtain ⟨k, hk, rfl⟩ := h
  have hcut : before ++ behind = before ++ behind.take k ++ behind.drop k := by
    rw [List.append_assoc, List.take_append_drop]
  rw [← byteLength_append]
  refine ⟨Kind.pos_byteLength_of_length? hk, ?_, before ++ behind.take k, behind.drop k, hcut, rfl⟩
  rw [hcut, byteLength_append (_ ++ _)]
  exact Nat.le_add_right _ _

/-- The first kind of a table that fits at an offset, with the number of bytes that it takes.  The kinds
behind it are not read. -/
def Kind.firstAt? (source : List Char) (offset : Nat) : List Kind → Option (Option (Kind × Nat))
  | [] => some none
  | kind :: table =>
    (kind.readAt? source offset).bind fun found => match found with
      | some n => some (some (kind, n))
      | none => firstAt? source offset table

/-- **The first kind that fits is found without a failing access.** -/
theorem Kind.firstAt?_eq (table : List Kind) (before behind : List Char) :
    Kind.firstAt? (before ++ behind) (byteLength before) table =
      some ((Kind.first? table before.getLast? behind).map
        (Prod.map id fun n => byteLength (behind.take n))) := by
  induction table with
  | nil => rfl
  | cons kind table ih =>
      rw [firstAt?, Kind.readAt?_eq, Option.bind_some, Kind.first?, List.findSome?_cons]
      cases kind.length? before.getLast? behind with
      | none => exact ih
      | some n => rfl

/-- **No kind is found that takes nothing.** -/
theorem Kind.filter_firstAt? {table : List Kind} {before behind : List Char} {found : Option (Kind × Nat)}
    (h : Kind.firstAt? (before ++ behind) (byteLength before) table = some found) :
    found.filter (0 < ·.2) = found := by
  rw [Kind.firstAt?_eq, Option.some.injEq] at h
  cases hfirst : Kind.first? table before.getLast? behind with
  | none => rw [← h, hfirst]; rfl
  | some taken =>
      obtain ⟨kind, hmem, hlength⟩ := List.exists_of_findSome?_eq_some hfirst
      obtain ⟨n, hn, rfl⟩ := Option.map_eq_some_iff.1 hlength
      rw [← h, hfirst]
      exact Option.filter_some_pos (decide_eq_true (Kind.pos_byteLength_of_length? hn))

end QSource
