/-
**The steps of a scan.**

`Cut` lists the ways in which a scan goes on: with a token of code, or with a whole quoted text.
What is proved of scans goes through it, so a fact about the lexemes of a text has to be proved of
two steps, and of the two ways in which a scan gets stuck.

Main definitions:

* `QSource.Cut` — **the steps of a scan**.

Main results:

* `QSource.scan_induction` — **what every step hands back holds of every scan**;
* `QSource.exists_of_mem_scan` — every lexeme of a scan is what its kind takes at some place.
-/

import QSource.Proofs.Lexicon.Kinds
import QSource.Token.Scan

set_option relaxedAutoImplicit false
set_option autoImplicit false

namespace QSource

open Text

/-! ### The first kind that fits -/

theorem Kind.mem_of_first? {table : List Kind} {prev : Option Char} {s : List Char} {kind : Kind}
    {n : Nat} (h : Kind.first? table prev s = some (kind, n)) :
    kind ∈ table ∧ kind.length? prev s = some n := by
  obtain ⟨kind', hmem, hlength⟩ := List.exists_of_findSome?_eq_some h
  obtain ⟨n', hn', heq⟩ := Option.map_eq_some_iff.1 hlength
  obtain ⟨rfl, rfl⟩ := Prod.mk.inj heq
  exact ⟨hmem, hn'⟩

theorem Kind.first?_eq_none {table : List Kind} {prev : Option Char} {s : List Char} :
    Kind.first? table prev s = none ↔ ∀ kind ∈ table, kind.length? prev s = none := by
  simp [Kind.first?]

theorem Kind.pos_of_first? {table : List Kind} {prev : Option Char} {s : List Char} {kind : Kind}
    {n : Nat} (h : Kind.first? table prev s = some (kind, n)) : 0 < n :=
  Kind.pos_of_length? (Kind.mem_of_first? h).2

/-- No kind fits if none fits with a positive length. -/
theorem Kind.first?_eq_none_of_succ {table : List Kind} {prev : Option Char} {s : List Char}
    (h : ∀ kind n, Kind.first? table prev s ≠ some (kind, n + 1)) :
    Kind.first? table prev s = none := by
  cases hfirst : Kind.first? table prev s with
  | none => rfl
  | some found =>
      obtain ⟨kind, n⟩ := found
      obtain ⟨m, rfl⟩ := Nat.exists_eq_add_one.2 (Kind.pos_of_first? hfirst)
      exact absurd hfirst (h kind m)

/-! ### Steps -/

/-- The ways in which a scan of `s`, behind the character `prev`, goes on: with some lexemes, up to
the rest of the text and the character before that. -/
inductive Cut (prev : Option Char) (s : List Char) : List Lexeme → Option Char → List Char → Prop
  /-- A token of code. -/
  | code {kind : Kind} {n : Nat} (hfirst : Kind.first? codeKinds prev s = some (kind, n))
      (hkind : kind ≠ .openQuote) :
      Cut prev s [.ofPrefix kind s n] (s.take n).getLast? (s.drop n)
  /-- A quoted text, from its opening to its closing quote. -/
  | quoted {n : Nat} {body : List Lexeme} {behind : List Char}
      (hfirst : Kind.first? codeKinds prev s = some (.openQuote, n))
      (hbody : scanQuoted (s.drop n) = some (body, behind)) :
      Cut prev s (.ofPrefix .openQuote s n :: body) (some '"') behind

/-- **What holds where a scan ends, and where it gets stuck, and is handed back by every step, holds
of every scan.** -/
theorem scan_induction {P : Option Char → List Char → Scan → Prop}
    (done : ∀ prev, P prev [] ⟨[], none⟩)
    (cut : ∀ prev s xs prev' s', Cut prev s xs prev' s' → P prev' s' (scan prev' s') →
      P prev s ((scan prev' s').prepend xs))
    (stuck : ∀ prev c rest, Kind.first? codeKinds prev (c :: rest) = none →
      P prev (c :: rest) ⟨[], some .unexpectedCharacter⟩)
    (unclosed : ∀ prev s n, Kind.first? codeKinds prev s = some (.openQuote, n) →
      scanQuoted (s.drop n) = none → P prev s ⟨[], some .unterminatedLiteral⟩)
    (prev : Option Char) (s : List Char) : P prev s (scan prev s) := by
  fun_induction scan prev s with
  | case1 prev => exact done prev
  | case2 prev c rest n body behind hbody hfirst ih =>
      exact cut prev (c :: rest) _ _ _ (.quoted hfirst hbody) ih
  | case3 prev c rest n hbody hfirst => exact unclosed prev (c :: rest) (n + 1) hfirst hbody
  | case4 prev c rest kind n hfirst hkind ih =>
      exact cut prev (c :: rest) _ _ _ (.code hfirst hkind) ih
  | case5 prev c rest hnone =>
      exact stuck prev c rest (Kind.first?_eq_none_of_succ hnone)

/-! ### Lexemes -/

/-- Every lexeme of a quoted text is what its kind takes at some place. -/
theorem exists_of_mem_scanQuoted {s : List Char} {body : List Lexeme} {behind : List Char}
    (h : scanQuoted s = some (body, behind)) : ∀ x ∈ body, ∃ prev s' n,
      x.kind.length? prev s' = some n ∧ x.chars = s'.take n := by
  have hchars : ∀ {kind s' n}, Kind.first? quotedKinds none s' = some (kind, n) →
      ∃ prev s'' n', (Lexeme.ofPrefix kind s' n).kind.length? prev s'' = some n' ∧
        (Lexeme.ofPrefix kind s' n).chars = s''.take n' := by
    intro kind s' n hfirst
    exact ⟨none, s', n, (Kind.mem_of_first? hfirst).2, Lexeme.chars_ofPrefix kind s' n⟩
  fun_induction scanQuoted s generalizing body with
  | case1 => simp at h
  | case2 c rest n hfirst =>
      obtain ⟨rfl, rfl⟩ := Prod.mk.inj (Option.some.inj h)
      intro x hx
      rw [List.mem_singleton.1 hx]
      exact hchars hfirst
  | case3 c rest kind n hfirst hkind ih =>
      obtain ⟨⟨tail, rest'⟩, htail, heq⟩ := Option.map_eq_some_iff.1 h
      obtain ⟨rfl, rfl⟩ := Prod.mk.inj heq
      exact List.forall_mem_cons.2 ⟨hchars hfirst, ih htail⟩
  | case4 => simp at h

/-- **Every lexeme of a scan is what its kind takes at some place.** -/
theorem exists_of_mem_scan (prev : Option Char) (s : List Char) :
    ∀ x ∈ (scan prev s).lexemes, ∃ prev' s' n,
      x.kind.length? prev' s' = some n ∧ x.chars = s'.take n := by
  induction prev, s using scan_induction with
  | done => simp
  | cut prev s xs prev' s' hcut ih =>
      refine List.forall_mem_append.2 ⟨?_, ih⟩
      cases hcut with
      | code hfirst hkind =>
          refine List.forall_mem_singleton.2 ⟨prev, s, _, (Kind.mem_of_first? hfirst).2, ?_⟩
          exact Lexeme.chars_ofPrefix _ _ _
      | quoted hfirst hbody =>
          refine List.forall_mem_cons.2 ⟨⟨prev, s, _, (Kind.mem_of_first? hfirst).2, ?_⟩, ?_⟩
          · exact Lexeme.chars_ofPrefix _ _ _
          · exact exists_of_mem_scanQuoted hbody
  | stuck => simp
  | unclosed => simp

end QSource
