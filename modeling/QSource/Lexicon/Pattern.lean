/-
**Patterns** of short texts.

A pattern looks at the start of a text and says how many characters it takes. It takes as many as it
can and never goes back on a choice: a part left out or a run cut short is not tried again when a
later part fails.

Main definitions:

* `QSource.Pattern` — the patterns;
* `QSource.Pattern.length?` — how much of a text a pattern takes, if it fits;
* `QSource.Pattern.char`, `QSource.Pattern.oneOf`, `QSource.Pattern.exactly`,
  `QSource.Pattern.oneOrMore` — common patterns.

Main results:

* `QSource.Pattern.length?_le` — a pattern takes no more than there is.
-/

set_option relaxedAutoImplicit false
set_option autoImplicit false

namespace QSource

/-- What the start of a text may look like. -/
inductive Pattern where
  /-- Fits everywhere and takes nothing. -/
  | empty
  /-- One character of a class. -/
  | one (accepts : Char → Bool)
  /-- All the characters of a class that follow, perhaps none. -/
  | run (accepts : Char → Bool)
  /-- The characters of a class that follow, but no more than `count`. -/
  | atMost (count : Nat) (accepts : Char → Bool)
  /-- Takes nothing, and fits unless a character of the class follows. -/
  | notBefore (accepts : Char → Bool)
  /-- One pattern and then another. -/
  | seq (first second : Pattern)
  /-- The first of two patterns that fits. -/
  | alt (first second : Pattern)
  /-- A pattern that may be left out. -/
  | opt (part : Pattern)

namespace Pattern

instance : Append Pattern := ⟨Pattern.seq⟩

instance : OrOp Pattern := ⟨Pattern.alt⟩

/-- The character `c`. -/
def char (c : Char) : Pattern := .one (· == c)

/-- One of the characters of `choices`. -/
def oneOf (choices : String) : Pattern := .one choices.toList.contains

/-- As many characters of a class as given. -/
def exactly : Nat → (Char → Bool) → Pattern
  | 0, _ => .empty
  | n + 1, accepts => .one accepts ++ exactly n accepts

/-- A run that is not empty. -/
def oneOrMore (accepts : Char → Bool) : Pattern := .one accepts ++ .run accepts

/-- The number of characters that a pattern takes from the start of a text, `none` if the text does
not fit. -/
def length? : Pattern → List Char → Option Nat
  | .empty, _ => some 0
  | .one accepts, s => if s.head?.any accepts then some 1 else none
  | .run accepts, s => some (s.takeWhile accepts).length
  | .atMost count accepts, s => some ((s.take count).takeWhile accepts).length
  | .notBefore accepts, s => if s.head?.any accepts then none else some 0
  | .seq first second, s =>
    (first.length? s).bind fun n => (second.length? (s.drop n)).map (n + ·)
  | .alt first second, s => (first.length? s).or (second.length? s)
  | .opt part, s => (part.length? s).or (some 0)

theorem length?_seq (a b : Pattern) (s : List Char) :
    (a ++ b).length? s =
      (a.length? s).bind fun n => (b.length? (s.drop n)).map (n + ·) := rfl

private theorem takeWhile_length_le (accepts : Char → Bool) (s : List Char) :
    (s.takeWhile accepts).length ≤ s.length :=
  (List.takeWhile_sublist accepts).length_le

/-- A pattern takes no more characters than the text has. -/
theorem length?_le {p : Pattern} {s : List Char} {n : Nat} (h : p.length? s = some n) :
    n ≤ s.length := by
  induction p generalizing s n with
  | empty => simp only [length?, Option.some.injEq] at h; omega
  | one accepts =>
    cases s with
    | nil => simp [length?] at h
    | cons c s =>
      simp only [length?] at h
      split at h
      · simp only [Option.some.injEq] at h
        simp [← h]
      · simp at h
  | run accepts =>
    simp only [length?, Option.some.injEq] at h
    exact h ▸ takeWhile_length_le accepts s
  | atMost count accepts =>
    simp only [length?, Option.some.injEq] at h
    have := takeWhile_length_le accepts (s.take count)
    simp only [List.length_take] at this
    omega
  | notBefore accepts =>
    simp only [length?] at h
    split at h
    · simp at h
    · simp only [Option.some.injEq] at h
      omega
  | seq a b iha ihb =>
    simp only [length?] at h
    obtain ⟨k, hk, hb⟩ := Option.bind_eq_some_iff.1 h
    obtain ⟨m, hm, rfl⟩ := Option.map_eq_some_iff.1 hb
    have h₁ := iha hk
    have h₂ := ihb hm
    rw [List.length_drop] at h₂
    omega
  | alt a b iha ihb =>
    simp only [length?, Option.or_eq_some_iff] at h
    rcases h with h | ⟨_, h⟩
    · exact iha h
    · exact ihb h
  | opt a iha =>
    simp only [length?, Option.or_eq_some_iff, Option.some.injEq] at h
    rcases h with h | ⟨_, h⟩
    · exact iha h
    · omega

end Pattern

end QSource
