/-
**Carriage returns before line feeds.**

Some systems end a line with a carriage return and a line feed.  A text with line feeds alone is
brought into this form by putting a carriage return before each of them.  Lines stay what they were,
and so do the lines and columns of their characters: only the bytes move on.

Main definitions:

* `QSource.Text.withReturns` — **a text with a carriage return before each of its line feeds**.

Main results:

* `QSource.Text.withReturns_injective` — no two texts become the same;
* `QSource.Text.Position.after_withReturns` — lines and columns do not see the carriage returns.
-/

import Mathlib.Data.List.Induction
import QSource.Text.Position

set_option relaxedAutoImplicit false
set_option autoImplicit false

namespace QSource.Text

/-- A text with a carriage return before each of its line feeds. -/
def withReturns (s : List Char) : List Char :=
  s.flatMap fun c => if c = '\n' then ['\r', '\n'] else [c]

@[simp] theorem withReturns_nil : withReturns [] = [] := rfl

@[simp] theorem withReturns_lineFeed (s : List Char) :
    withReturns ('\n' :: s) = '\r' :: '\n' :: withReturns s := rfl

theorem withReturns_cons {c : Char} (hc : c ≠ '\n') (s : List Char) :
    withReturns (c :: s) = c :: withReturns s := by
  rw [withReturns, List.flatMap_cons, if_neg hc]
  rfl

@[simp] theorem withReturns_append (s t : List Char) :
    withReturns (s ++ t) = withReturns s ++ withReturns t := List.flatMap_append

theorem withReturns_of_not_mem {s : List Char} (h : '\n' ∉ s) : withReturns s = s := by
  induction s with
  | nil => rfl
  | cons c s ih =>
      have hc : c ≠ '\n' := (List.ne_of_not_mem_cons h).symm
      rw [withReturns_cons hc, ih (List.not_mem_of_not_mem_cons h)]

@[simp] theorem withReturns_eq_nil {s : List Char} : withReturns s = [] ↔ s = [] := by
  cases s with
  | nil => simp
  | cons c s =>
      by_cases hc : c = '\n'
      · simp [hc]
      · simp [withReturns_cons hc]

/-- A text does not get shorter. -/
theorem byteLength_le_withReturns (s : List Char) : byteLength s ≤ byteLength (withReturns s) := by
  induction s with
  | nil => exact Nat.le_refl _
  | cons c s ih =>
      by_cases hc : c = '\n'
      · simp only [hc, withReturns_lineFeed, byteLength_cons]
        omega
      · simp only [withReturns_cons hc, byteLength_cons]
        omega

/-- No line feed stands at the start, since its carriage return is there. -/
theorem head?_withReturns_ne (s : List Char) : (withReturns s).head? ≠ some '\n' := by
  cases s with
  | nil => simp
  | cons c s =>
      by_cases hc : c = '\n'
      · simp [hc]
      · simp [withReturns_cons hc, hc]

@[simp] theorem getLast?_withReturns (s : List Char) :
    (withReturns s).getLast? = s.getLast? := by
  induction s using List.reverseRecOn with
  | nil => rfl
  | append_singleton s c _ =>
      by_cases hc : c = '\n'
      · simp [hc]
      · simp [withReturns_cons hc]

/-- **No two texts become the same**: the carriage return before a line feed is never their own. -/
theorem withReturns_injective : Function.Injective withReturns := by
  intro s
  induction s with
  | nil =>
      intro t h
      exact (withReturns_eq_nil.1 h.symm).symm
  | cons c s ih =>
      intro t h
      cases t with
      | nil => exact absurd (withReturns_eq_nil.1 h) (List.cons_ne_nil c s)
      | cons d t =>
          by_cases hc : c = '\n'
          · by_cases hd : d = '\n'
            · subst hc hd
              rw [withReturns_lineFeed, withReturns_lineFeed, List.cons.injEq, List.cons.injEq] at h
              rw [ih h.2.2]
            · subst hc
              rw [withReturns_lineFeed, withReturns_cons hd, List.cons.injEq] at h
              exact absurd (h.2 ▸ rfl) (head?_withReturns_ne t)
          · by_cases hd : d = '\n'
            · subst hd
              rw [withReturns_lineFeed, withReturns_cons hc, List.cons.injEq] at h
              exact absurd (h.2 ▸ rfl) (head?_withReturns_ne s)
            · rw [withReturns_cons hc, withReturns_cons hd, List.cons.injEq] at h
              rw [h.1, ih h.2]

/-! ### Lines and columns -/

/-- **Lines and columns do not see the carriage returns.** -/
@[simp] theorem Position.after_withReturns (p : Position) (s : List Char) :
    p.after (withReturns s) = p.after s := by
  induction s generalizing p with
  | nil => rfl
  | cons c s ih =>
      by_cases hc : c = '\n'
      · subst hc
        rw [withReturns_lineFeed, Position.after_cons, Position.after_cons, Position.after_cons, ih]
        rfl
      · rw [withReturns_cons hc, Position.after_cons, Position.after_cons, ih]

end QSource.Text
