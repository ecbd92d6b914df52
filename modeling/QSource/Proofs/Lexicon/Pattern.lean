/-
**What patterns take.**

A pattern is put together from classes of characters, so three things can be read off it without a
text: whether it takes anything at all when it fits, which characters it can take, and with which one
it can end.

Main definitions:

* `QSource.Pattern.takesSome` — the pattern takes a character whenever it fits;
* `QSource.Pattern.Within` — all that the pattern takes is of one sort;
* `QSource.Pattern.EndsIn` — the last character that the pattern takes is of one sort.

Main results:

* `QSource.Pattern.pos_of_length?` — **a pattern that takes some character has a positive length**;
* `QSource.Pattern.forall_mem_take` — **a pattern takes nothing but characters of its classes**;
* `QSource.Pattern.getLast?_take` — **a pattern ends with a character of a class that may come last**.
-/

import QSource.Lexicon.Pattern

set_option relaxedAutoImplicit false
set_option autoImplicit false

namespace QSource.Pattern

/-! ### Whether a pattern takes anything -/

/-- The pattern takes at least one character whenever it fits. -/
def takesSome : Pattern → Bool
  | .one _ => true
  | .seq first second => first.takesSome || second.takesSome
  | .alt first second => first.takesSome && second.takesSome
  | _ => false

/-- **A pattern that takes some character has a positive length.** -/
theorem pos_of_length? {p : Pattern} (hp : p.takesSome = true) {s : List Char} {n : Nat}
    (h : p.length? s = some n) : 0 < n := by
  induction p generalizing s n with
  | one accepts =>
      rw [length?] at h
      split at h
      · rw [Option.some.injEq] at h
        omega
      · simp at h
  | seq first second ihfirst ihsecond =>
      rw [length?] at h
      obtain ⟨k, hk, hrest⟩ := Option.bind_eq_some_iff.1 h
      obtain ⟨m, hm, rfl⟩ := Option.map_eq_some_iff.1 hrest
      rw [takesSome, Bool.or_eq_true] at hp
      rcases hp with hp | hp
      · have := ihfirst hp hk
        omega
      · have := ihsecond hp hm
        omega
  | alt first second ihfirst ihsecond =>
      rw [length?, Option.or_eq_some_iff] at h
      rw [takesSome, Bool.and_eq_true] at hp
      rcases h with h | ⟨-, h⟩
      · exact ihfirst hp.1 h
      · exact ihsecond hp.2 h
  | empty | run | atMost | notBefore | opt => simp [takesSome] at hp

/-! ### When a pattern fits -/

theorem isSome_length?_alt {a b : Pattern} {s : List Char} :
    ((a ||| b).length? s).isSome = ((a.length? s).isSome || (b.length? s).isSome) :=
  Option.isSome_or

/-- A part that may be left out never keeps a pattern from fitting. -/
theorem isSome_length?_append_opt {a b : Pattern} {s : List Char} :
    ((a ++ b.opt).length? s).isSome = (a.length? s).isSome := by
  rw [length?_seq]
  cases a.length? s with
  | none => rfl
  | some n => simp [length?]

theorem isSome_length?_oneOf {choices : String} {c : Char} {rest : List Char} :
    ((oneOf choices).length? (c :: rest)).isSome = choices.toList.contains c := by
  by_cases hc : choices.toList.contains c = true <;> simp_all [oneOf, length?]

theorem isSome_length?_oneOrMore {accepts : Char → Bool} {c : Char} {rest : List Char} :
    ((oneOrMore accepts).length? (c :: rest)).isSome = accepts c := by
  by_cases hc : accepts c = true <;> simp [oneOrMore, length?_seq, length?, hc]

/-- Where a run at the end of a pattern stops, no character of its class follows. -/
theorem head?_drop_of_run {a : Pattern} {accepts : Char → Bool} {s : List Char} {n : Nat}
    (h : (a ++ run accepts).length? s = some n) : ∀ c ∈ (s.drop n).head?, accepts c = false := by
  obtain ⟨k, -, hrest⟩ := Option.bind_eq_some_iff.1 (length?_seq a (run accepts) s ▸ h)
  obtain ⟨m, hm, rfl⟩ := Option.map_eq_some_iff.1 hrest
  obtain rfl := Option.some.inj hm
  have hdrop : s.drop (k + ((s.drop k).takeWhile accepts).length) = (s.drop k).dropWhile accepts := by
    have hsplit : (s.drop k).takeWhile accepts ++ (s.drop k).dropWhile accepts = s.drop k :=
      List.takeWhile_append_dropWhile
    rw [← List.drop_drop]
    exact (congrArg (List.drop _) hsplit.symm).trans List.drop_left
  intro c hc
  have hhead := List.head?_dropWhile_not accepts (s.drop k)
  rwa [← hdrop, hc] at hhead

/-! ### Which characters a pattern takes -/

/-- All classes of which the pattern takes characters lie in `P`. -/
def Within (P : Char → Prop) : Pattern → Prop
  | .empty | .notBefore _ => True
  | .one accepts | .run accepts | .atMost _ accepts => ∀ c, accepts c = true → P c
  | .seq first second | .alt first second => first.Within P ∧ second.Within P
  | .opt part => part.Within P

variable {P : Char → Prop}

@[simp] theorem within_empty : empty.Within P := trivial

@[simp] theorem within_notBefore {accepts : Char → Bool} : (notBefore accepts).Within P := trivial

@[simp] theorem within_run {accepts : Char → Bool} :
    (run accepts).Within P ↔ ∀ c, accepts c = true → P c := Iff.rfl

@[simp] theorem within_atMost {count : Nat} {accepts : Char → Bool} :
    (atMost count accepts).Within P ↔ ∀ c, accepts c = true → P c := Iff.rfl

@[simp] theorem within_opt {part : Pattern} : part.opt.Within P ↔ part.Within P := Iff.rfl

@[simp] theorem within_append {a b : Pattern} : (a ++ b).Within P ↔ a.Within P ∧ b.Within P := Iff.rfl

@[simp] theorem within_or {a b : Pattern} : (a ||| b).Within P ↔ a.Within P ∧ b.Within P := Iff.rfl

@[simp] theorem within_char {c : Char} : (char c).Within P ↔ P c := by
  simp [char, Within]

@[simp] theorem within_oneOf {choices : String} :
    (oneOf choices).Within P ↔ ∀ c ∈ choices.toList, P c := by
  simp [oneOf, Within]

theorem within_exactly {accepts : Char → Bool} (h : ∀ c, accepts c = true → P c) (count : Nat) :
    (exactly count accepts).Within P := by
  induction count with
  | zero => exact trivial
  | succ count ih => exact ⟨h, ih⟩

@[simp] theorem within_oneOrMore {accepts : Char → Bool} :
    (oneOrMore accepts).Within P ↔ ∀ c, accepts c = true → P c := and_self_iff

/-- All that a pattern takes is of a sort to which its classes belong. -/
theorem Within.mono {Q : Char → Prop} {p : Pattern} (h : p.Within P) (hPQ : ∀ c, P c → Q c) :
    p.Within Q := by
  induction p with
  | empty | notBefore => trivial
  | one accepts | run accepts | atMost count accepts => exact fun c hc => hPQ c (h c hc)
  | seq first second ihfirst ihsecond | alt first second ihfirst ihsecond =>
      exact ⟨ihfirst h.1, ihsecond h.2⟩
  | opt part ih => exact ih h

theorem forall_mem_takeWhile {accepts : Char → Bool} (h : ∀ c, accepts c = true → P c)
    {s : List Char} : ∀ c ∈ s.takeWhile accepts, P c := by
  intro c hc
  exact h c (List.all_eq_true.1 List.all_takeWhile c hc)

/-- **A pattern takes nothing but characters of its classes.** -/
theorem forall_mem_take {p : Pattern} (hp : p.Within P) {s : List Char} {n : Nat}
    (h : p.length? s = some n) : ∀ c ∈ s.take n, P c := by
  induction p generalizing s n with
  | empty =>
      rw [length?, Option.some.injEq] at h
      simp [← h]
  | notBefore accepts =>
      by_cases hnext : s.head?.any accepts = true
      · simp [length?, hnext] at h
      · obtain rfl : 0 = n := by simpa [length?, hnext] using h
        simp
  | one accepts =>
      cases s with
      | nil => simp
      | cons c s =>
          by_cases haccepts : accepts c = true
          · obtain rfl : 1 = n := by simpa [length?, haccepts] using h
            simpa using hp c haccepts
          · simp [length?, haccepts] at h
  | run accepts =>
      rw [length?, Option.some.injEq] at h
      rw [← h, ← List.prefix_iff_eq_take.1 (List.takeWhile_prefix accepts)]
      exact forall_mem_takeWhile hp
  | atMost count accepts =>
      rw [length?, Option.some.injEq] at h
      have htaken := (List.takeWhile_prefix accepts).trans (List.take_prefix count s)
      rw [← h, ← List.prefix_iff_eq_take.1 htaken]
      exact forall_mem_takeWhile hp
  | seq first second ihfirst ihsecond =>
      rw [length?] at h
      obtain ⟨k, hk, hrest⟩ := Option.bind_eq_some_iff.1 h
      obtain ⟨m, hm, rfl⟩ := Option.map_eq_some_iff.1 hrest
      rw [List.take_add]
      exact List.forall_mem_append.2 ⟨ihfirst hp.1 hk, ihsecond hp.2 hm⟩
  | alt first second ihfirst ihsecond =>
      rw [length?, Option.or_eq_some_iff] at h
      rcases h with h | ⟨-, h⟩
      · exact ihfirst hp.1 h
      · exact ihsecond hp.2 h
  | opt part ih =>
      rw [length?, Option.or_eq_some_iff] at h
      rcases h with h | ⟨-, h⟩
      · exact ih hp h
      · rw [Option.some.injEq] at h
        simp [← h]

/-! ### With which character a pattern ends -/

/-- The classes from which the last character can come lie in `P`.  A part with another one behind it
counts only where the other one may take nothing. -/
def EndsIn (P : Char → Prop) : Pattern → Prop
  | .empty | .notBefore _ => True
  | .one accepts | .run accepts | .atMost _ accepts => ∀ c, accepts c = true → P c
  | .seq first second => second.EndsIn P ∧ (second.takesSome = true ∨ first.EndsIn P)
  | .alt first second => first.EndsIn P ∧ second.EndsIn P
  | .opt part => part.EndsIn P

@[simp] theorem endsIn_empty : empty.EndsIn P := trivial

@[simp] theorem endsIn_notBefore {accepts : Char → Bool} : (notBefore accepts).EndsIn P := trivial

@[simp] theorem endsIn_run {accepts : Char → Bool} :
    (run accepts).EndsIn P ↔ ∀ c, accepts c = true → P c := Iff.rfl

@[simp] theorem endsIn_atMost {count : Nat} {accepts : Char → Bool} :
    (atMost count accepts).EndsIn P ↔ ∀ c, accepts c = true → P c := Iff.rfl

@[simp] theorem endsIn_opt {part : Pattern} : part.opt.EndsIn P ↔ part.EndsIn P := Iff.rfl

@[simp] theorem endsIn_append {a b : Pattern} :
    (a ++ b).EndsIn P ↔ b.EndsIn P ∧ (b.takesSome = true ∨ a.EndsIn P) := Iff.rfl

@[simp] theorem endsIn_or {a b : Pattern} : (a ||| b).EndsIn P ↔ a.EndsIn P ∧ b.EndsIn P := Iff.rfl

@[simp] theorem endsIn_char {c : Char} : (char c).EndsIn P ↔ P c := within_char

@[simp] theorem endsIn_oneOf {choices : String} :
    (oneOf choices).EndsIn P ↔ ∀ c ∈ choices.toList, P c := within_oneOf

/-- All that a pattern takes is of the sort of which its last character is. -/
theorem Within.endsIn {p : Pattern} (h : p.Within P) : p.EndsIn P := by
  induction p with
  | empty | notBefore => trivial
  | one accepts | run accepts | atMost count accepts => exact h
  | seq first second ihfirst ihsecond => exact ⟨ihsecond h.2, .inr (ihfirst h.1)⟩
  | alt first second ihfirst ihsecond => exact ⟨ihfirst h.1, ihsecond h.2⟩
  | opt part ih => exact ih h

private theorem getLast?_take_of_within {p : Pattern} (hp : p.Within P) {s : List Char} {n : Nat}
    (h : p.length? s = some n) : ∀ c ∈ (s.take n).getLast?, P c :=
  fun c hc => forall_mem_take hp h c (List.mem_of_getLast? hc)

/-- **A pattern ends with a character of a class that may come last**, if it takes anything. -/
theorem getLast?_take {p : Pattern} (hp : p.EndsIn P) {s : List Char} {n : Nat}
    (h : p.length? s = some n) : ∀ c ∈ (s.take n).getLast?, P c := by
  induction p generalizing s n with
  | empty => exact getLast?_take_of_within within_empty h
  | notBefore accepts => exact getLast?_take_of_within within_notBefore h
  | one accepts => exact getLast?_take_of_within (p := .one accepts) hp h
  | run accepts => exact getLast?_take_of_within (within_run.2 hp) h
  | atMost count accepts => exact getLast?_take_of_within (within_atMost.2 hp) h
  | seq first second ihfirst ihsecond =>
      rw [length?] at h
      obtain ⟨k, hk, hrest⟩ := Option.bind_eq_some_iff.1 h
      obtain ⟨m, hm, rfl⟩ := Option.map_eq_some_iff.1 hrest
      intro c hc
      rw [List.take_add, List.getLast?_append, Option.mem_def, Option.or_eq_some_iff] at hc
      rcases hc with hc | ⟨hnone, hc⟩
      · exact ihsecond hp.1 hm c hc
      · -- the second part took nothing, so it may do so
        have hle := length?_le hm
        have hzero : m = 0 := by
          have hnil := congrArg List.length (List.getLast?_eq_none_iff.1 hnone)
          rw [List.length_take, List.length_nil] at hnil
          omega
        have hfirst := hp.2.resolve_left fun hsome => by
          have := pos_of_length? hsome hm
          omega
        exact ihfirst hfirst hk c hc
  | alt first second ihfirst ihsecond =>
      rw [length?, Option.or_eq_some_iff] at h
      rcases h with h | ⟨-, h⟩
      · exact ihfirst hp.1 h
      · exact ihsecond hp.2 h
  | opt part ih =>
      rw [length?, Option.or_eq_some_iff] at h
      rcases h with h | ⟨-, h⟩
      · exact ih hp h
      · rw [Option.some.injEq] at h
        simp [← h]

end QSource.Pattern
