/-
**A scan that meets no obstacle cuts its text into tokens without loss.**

Main results:

* `QSource.chars_ne_nil_of_mem_scan` — no lexeme of a scan is empty;
* `QSource.exists_of_tokenize_eq_ok` — the tokens of a text are laid-out lexemes that make it up;
* `QSource.tiling_of_tokenize` — **the tokens of a text tile it**.
-/

import QSource.Proofs.Token.Place
import QSource.Token.Scan

set_option relaxedAutoImplicit false
set_option autoImplicit false

namespace QSource

open Text

theorem Lexeme.chars_ofPrefix_ne_nil (kind : Kind) (c : Char) (rest : List Char) (n : Nat) :
    (Lexeme.ofPrefix kind (c :: rest) (n + 1)).chars ≠ [] := by
  rw [Lexeme.chars_ofPrefix, List.take_succ_cons]
  exact List.cons_ne_nil _ _

/-! ### Lexemes are not empty -/

theorem chars_ne_nil_of_mem_scanQuoted {s : List Char} {body : List Lexeme} {behind : List Char}
    (h : scanQuoted s = some (body, behind)) : ∀ x ∈ body, x.chars ≠ [] := by
  fun_induction scanQuoted s generalizing body with
  | case1 => simp at h
  | case2 c rest n hfirst =>
      simp only [Option.some.injEq, Prod.mk.injEq] at h
      obtain ⟨rfl, rfl⟩ := h
      intro x hx
      rw [List.mem_singleton.1 hx]
      exact Lexeme.chars_ofPrefix_ne_nil _ _ _ _
  | case3 c rest kind n hfirst hkind ih =>
      obtain ⟨⟨tail, rest'⟩, htail, heq⟩ := Option.map_eq_some_iff.1 h
      simp only [Prod.mk.injEq] at heq
      obtain ⟨rfl, rfl⟩ := heq
      intro x hx
      rcases List.mem_cons.1 hx with rfl | hx
      · exact Lexeme.chars_ofPrefix_ne_nil _ _ _ _
      · exact ih htail x hx
  | case4 => simp at h

/-- **No lexeme of a scan is empty**, whether or not something stopped the scan. -/
theorem chars_ne_nil_of_mem_scan (prev : Option Char) (s : List Char) :
    ∀ x ∈ (scan prev s).lexemes, x.chars ≠ [] := by
  fun_induction scan prev s with
  | case1 => simp
  | case2 prev c rest n body behind hbody hfirst ih =>
      intro x hx
      rcases List.mem_append.1 hx with hx | hx
      · rcases List.mem_cons.1 hx with rfl | hx
        · exact Lexeme.chars_ofPrefix_ne_nil _ _ _ _
        · exact chars_ne_nil_of_mem_scanQuoted hbody x hx
      · exact ih x hx
  | case3 => simp
  | case4 prev c rest kind n hfirst hkind ih =>
      intro x hx
      rcases List.mem_append.1 hx with hx | hx
      · rw [List.mem_singleton.1 hx]
        exact Lexeme.chars_ofPrefix_ne_nil _ _ _ _
      · exact ih x hx
  | case5 => simp

/-! ### The tokens of a text -/

/-- The tokens of a text are the laid-out lexemes of its scan, which nothing stopped. -/
theorem eq_layOut_of_tokenize {source : String} {tokens : List Token}
    (h : tokenize source = .ok tokens) :
    tokens = Lexeme.layOut (scan none source.toList).lexemes ∧
      (scan none source.toList).obstacle = none := by
  simp only [tokenize] at h
  split at h
  · next hnone => exact ⟨(Except.ok.inj h).symm, hnone⟩
  · simp at h

theorem join_scan {prev : Option Char} {s : List Char} (h : (scan prev s).obstacle = none) :
    Lexeme.join (scan prev s).lexemes = s := by
  obtain ⟨rest, hrest, hnil⟩ := join_scan_prefix prev s
  rw [hnil h, List.append_nil] at hrest
  exact hrest.symm

/-- The tokens of a text are laid-out lexemes that are not empty and make up the text. -/
theorem exists_of_tokenize_eq_ok {source : String} {tokens : List Token}
    (h : tokenize source = .ok tokens) :
    ∃ xs, tokens = Lexeme.layOut xs ∧ Lexeme.join xs = source.toList ∧ ∀ x ∈ xs, x.chars ≠ [] := by
  obtain ⟨htokens, hnone⟩ := eq_layOut_of_tokenize h
  exact ⟨_, htokens, join_scan hnone, chars_ne_nil_of_mem_scan _ _⟩

/-- **The tokens of a text tile it.** -/
theorem tiling_of_tokenize {source : String} {tokens : List Token}
    (h : tokenize source = .ok tokens) : Token.Tiling source tokens := by
  obtain ⟨xs, rfl, hjoin, hchars⟩ := exists_of_tokenize_eq_ok h
  have htiling := Token.tiling_layOut hchars
  rwa [hjoin, String.ofList_toList] at htiling

theorem numbered_of_tokenize {source : String} {tokens : List Token}
    (h : tokenize source = .ok tokens) : Token.Numbered tokens := by
  obtain ⟨xs, rfl, -, -⟩ := exists_of_tokenize_eq_ok h
  exact Token.numbered_layOut xs

end QSource
