/-
**Built-in words and names.**

A keyword is always a built-in word.  The other way round a built-in word is a keyword only where no
point stands beside it: a point before it or behind it could belong to a dotted name.  It need not,
for a name does not end with a point, and a number may; then the word is left to the names, although
it is the whole of one.

Main definitions:

* `QSource.BesidePoint` — a token stands next to one that ends, or begins, with a point.

Main results:

* `QSource.Kind.first?_of_isAlpha` — what opens with a letter is a keyword or a name;
* `QSource.isReserved_of_keyword` — a keyword is a built-in word;
* `QSource.kind_of_isReserved` — **a built-in word is a keyword or, beside a point, a name**.
-/

import QSource.Proofs.Token.Atoms
import QSource.Proofs.Token.Readings
import QSource.Proofs.Token.Returns

set_option relaxedAutoImplicit false
set_option autoImplicit false

namespace QSource

open Text

/-! ### What opens with a letter -/

section

variable {prev : Option Char} {x b : List Char}

/-- What opens with a letter is a keyword, if one stands there, and a name otherwise. -/
theorem Kind.first?_of_isAlpha {c : Char} (hc : c.isAlpha = true) (rest : List Char) :
    Kind.first? codeKinds prev (c :: rest) =
      match keywordLength? prev (c :: rest) with
      | some n => some (.keyword, n)
      | none => some (.identifier, 1 + nameTail rest) := by
  cases hkeyword : keywordLength? prev (c :: rest) with
  | some n =>
      refine Kind.first?_of_earlier (by decide) hkeyword fun k hk => ?_
      exact Kind.length?_of_isAlpha (k := k) hk hc rest
  | none =>
      refine Kind.first?_of_earlier (by decide) (by simp [Kind.length?, nameLength?, hc]) fun k hk => ?_
      have htable : codeKinds.takeWhile (· != .identifier) = Kind.beforeWords ++ [.keyword] := rfl
      rw [htable] at hk
      rcases List.mem_append.1 hk with hk | hk
      · exact Kind.length?_of_isAlpha hk hc rest
      · rw [List.mem_singleton.1 hk]
        exact hkeyword

/-- A name that stops after characters of words stops where no other follows. -/
theorem nameTail_append_of_forall (hx : ∀ c ∈ x, isWordChar c = true) :
    nameTail (x ++ b) = x.length + nameTail b := by
  induction x with
  | nil => simp
  | cons c x ih =>
      obtain ⟨hc, hx⟩ := List.forall_mem_cons.1 hx
      rw [List.cons_append, nameTail, hc, Bool.true_or, if_pos rfl, ih hx, List.length_cons]
      omega

theorem nameTail_eq_zero (h : nameTail b = 0) : b.head?.any isWordChar = false := by
  cases b with
  | nil => rfl
  | cons c b =>
      rw [nameTail] at h
      split at h
      · omega
      · next hnot =>
          rw [Bool.or_eq_true, not_or] at hnot
          simpa using hnot.1

/-- What a keyword takes is a built-in word without a point on either side. -/
theorem of_keywordLength?_append (h : keywordLength? prev (x ++ b) = some x.length) :
    isReserved (String.ofList x) = true ∧ prev ≠ some '.' ∧ b.head? ≠ some '.' := by
  simp only [keywordLength?] at h
  split at h
  · next hcond =>
      obtain ⟨-, hprev, hreserved, hpoint⟩ := hcond
      have hlength : ((x ++ b).takeWhile isWordChar).length = x.length := Option.some.inj h
      have hword : (x ++ b).takeWhile isWordChar = x :=
        (List.prefix_of_prefix_length_le (List.takeWhile_prefix _) (List.prefix_append x b)
          (Nat.le_of_eq hlength)).eq_of_length hlength
      rw [hword] at hreserved hpoint
      rw [List.getElem?_append_right (Nat.le_refl _), Nat.sub_self, ← List.head?_eq_getElem?] at hpoint
      exact ⟨hreserved, hprev, hpoint⟩
  · simp at h

/-- A built-in word is a keyword where no word goes on and no point stands beside it. -/
theorem keywordLength?_of_isReserved (h : isReserved (String.ofList x) = true)
    (hb : b.head?.any isWordChar = false) (hprev : prev ≠ some '.') (hpoint : b.head? ≠ some '.') :
    keywordLength? prev (x ++ b) = some x.length := by
  obtain ⟨hword, c, rest, rfl, hc⟩ := word_of_isReserved h
  have htake : ((c :: rest) ++ b).takeWhile isWordChar = c :: rest := by
    rw [takeWhile_append_of_head? hb, List.takeWhile_eq_self_iff.2 hword]
  simp only [keywordLength?, htake]
  rw [if_pos]
  refine ⟨hc, hprev, h, ?_⟩
  rwa [List.getElem?_append_right (Nat.le_refl _), Nat.sub_self, ← List.head?_eq_getElem?]

/-- **A built-in word that is a token of its own** is a keyword, or it is a name and stands beside a
point. -/
theorem Kind.eq_of_first?_isReserved {kind : Kind} (h : isReserved (String.ofList x) = true)
    (hfirst : Kind.first? codeKinds prev (x ++ b) = some (kind, x.length)) :
    (kind = .keyword ∧ prev ≠ some '.' ∧ b.head? ≠ some '.') ∨
      (kind = .identifier ∧ (prev = some '.' ∨ b.head? = some '.')) := by
  obtain ⟨hword, c, rest, rfl, hc⟩ := word_of_isReserved h
  rw [List.cons_append, Kind.first?_of_isAlpha hc, ← List.cons_append] at hfirst
  split at hfirst
  · next n hkeyword =>
      obtain ⟨rfl, rfl⟩ := Prod.mk.inj (Option.some.inj hfirst)
      exact Or.inl ⟨rfl, (of_keywordLength?_append hkeyword).2⟩
  · next hkeyword =>
      obtain ⟨rfl, hlength⟩ := Prod.mk.inj (Option.some.inj hfirst)
      refine Or.inr ⟨rfl, ?_⟩
      by_contra hnot
      obtain ⟨hprev, hpoint⟩ := not_or.1 hnot
      -- the name stops with the word, so no word goes on there
      rw [nameTail_append_of_forall (List.forall_mem_cons.1 hword).2, List.length_cons] at hlength
      have hb := nameTail_eq_zero (b := b) (by omega)
      rw [keywordLength?_of_isReserved h hb hprev hpoint] at hkeyword
      simp at hkeyword

/-- A keyword is a built-in word. -/
theorem isReserved_of_first?_keyword
    (hfirst : Kind.first? codeKinds prev (x ++ b) = some (.keyword, x.length)) :
    isReserved (String.ofList x) = true :=
  (of_keywordLength?_append (Kind.mem_of_first? hfirst).2).1

end

/-! ### Neighbours -/

/-- The token stands next to one that ends with a point, or that begins with one behind it. -/
def BesidePoint (tokens : List Token) (t : Token) : Prop :=
  ∃ u ∈ tokens, u.index + 1 = t.index ∧ u.chars.getLast? = some '.' ∨
    u.index = t.index + 1 ∧ u.chars.head? = some '.'

section

variable {source : String} {tokens : List Token}

theorem chars_ne_nil_of_tokenize (h : tokenize source = .ok tokens) {t : Token} (ht : t ∈ tokens) :
    t.chars ≠ [] :=
  chars_ne_nil_of_mem_scan _ _ _ (toLexeme_mem_scan h ht)

/-- The token before another one is the last of those before it. -/
theorem exists_index_succ_eq_iff (hnumbered : Token.Numbered tokens) {before behind : List Token}
    {t : Token} (hsplit : tokens = before ++ t :: behind) {p : Token → Prop} :
    (∃ u ∈ tokens, u.index + 1 = t.index ∧ p u) ↔ ∃ u, before.getLast? = some u ∧ p u := by
  subst hsplit
  have ht : t.index = before.length := hnumbered.index_eq (by simp)
  constructor
  · rintro ⟨u, hu, hindex, hp⟩
    have hplace := hnumbered.getElem?_index hu
    rw [List.getElem?_append_left (by omega)] at hplace
    refine ⟨u, ?_, hp⟩
    rw [List.getLast?_eq_getElem?, ← hplace]
    congr 1
    omega
  · rintro ⟨u, hlast, hp⟩
    obtain ⟨init, rfl⟩ := List.getLast?_eq_some_iff.1 hlast
    have hu : u.index = init.length := hnumbered.index_eq (by simp)
    exact ⟨u, by simp, by rw [ht, hu, List.length_append, List.length_singleton], hp⟩

/-- The token behind another one is the first of those behind it. -/
theorem exists_index_eq_succ_iff (hnumbered : Token.Numbered tokens) {before behind : List Token}
    {t : Token} (hsplit : tokens = before ++ t :: behind) {p : Token → Prop} :
    (∃ u ∈ tokens, u.index = t.index + 1 ∧ p u) ↔ ∃ u, behind.head? = some u ∧ p u := by
  subst hsplit
  have ht : t.index = before.length := hnumbered.index_eq (by simp)
  constructor
  · rintro ⟨u, hu, hindex, hp⟩
    have hplace := hnumbered.getElem?_index hu
    rw [hindex, ht, List.getElem?_append_right (by omega), Nat.add_sub_cancel_left] at hplace
    exact ⟨u, by rwa [List.head?_eq_getElem?], hp⟩
  · rintro ⟨u, hhead, hp⟩
    obtain ⟨rest, rfl⟩ := List.head?_eq_some_iff.1 hhead
    refine ⟨u, by simp, ?_, hp⟩
    rw [ht]
    exact hnumbered.index_eq (by simp)

/-- The characters around a token tell whether a point stands beside it. -/
theorem besidePoint_iff (h : tokenize source = .ok tokens) {before behind : List Token} {t : Token}
    (hsplit : tokens = before ++ t :: behind) :
    BesidePoint tokens t ↔ (Lexeme.join (before.map (·.toLexeme))).getLast? = some '.' ∨
      (Lexeme.join (behind.map (·.toLexeme))).head? = some '.' := by
  have hnumbered := numbered_of_tokenize h
  have hchars : ∀ u ∈ tokens, u.chars ≠ [] := fun u => chars_ne_nil_of_tokenize h
  simp only [BesidePoint, and_or_left, exists_or]
  rw [exists_index_succ_eq_iff hnumbered hsplit, exists_index_eq_succ_iff hnumbered hsplit]
  subst hsplit
  refine or_congr ?_ ?_
  · rcases List.eq_nil_or_concat before with rfl | ⟨init, u, rfl⟩
    · simp
    · simp [hchars u (by simp)]
  · cases behind with
    | nil => simp
    | cons u behind => simp [hchars u (by simp)]

/-- **A built-in word outside quotes is a keyword, or a name that stands beside a point.** -/
theorem kind_of_isReserved (h : tokenize source = .ok tokens) {t : Token} (ht : t ∈ tokens)
    (hcode : t.kind ∈ codeKinds) (hreserved : isReserved t.text = true) :
    t.kind = .keyword ∧ ¬ BesidePoint tokens t ∨ t.kind = .identifier ∧ BesidePoint tokens t := by
  obtain ⟨before, behind, hsplit⟩ := List.append_of_mem ht
  have hfirst := first?_of_tokenize h hsplit hcode
  have hword : isReserved (String.ofList t.chars) = true := by
    rwa [Lexeme.chars, String.ofList_toList]
  rw [besidePoint_iff h hsplit, not_or]
  exact Kind.eq_of_first?_isReserved hword hfirst

/-- **A keyword is a built-in word.** -/
theorem isReserved_of_keyword (h : tokenize source = .ok tokens) {t : Token} (ht : t ∈ tokens)
    (hkind : t.kind = .keyword) : isReserved t.text = true := by
  obtain ⟨before, behind, hsplit⟩ := List.append_of_mem ht
  have hfirst := first?_of_tokenize h hsplit (by rw [hkind]; decide)
  rw [hkind] at hfirst
  have hword := isReserved_of_first?_keyword hfirst
  rwa [Lexeme.chars, String.ofList_toList] at hword

end

end QSource
