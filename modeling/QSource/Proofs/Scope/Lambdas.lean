/-
**Every lambda has its own scope.**

A lambda that stands outside parameter lists has exactly one scope of the table, the one with its
braces, and every scope is that of such a lambda.  The scope of a token is that of the innermost lambda
around it.

A parameter list is read for its names only, so a lambda that stands in one is passed over: it has no
scope, and what stands between its braces is put into the scope around the list.  So the statement is
about lambdas that may be chosen: it holds of those outside parameter lists, and not of all that the
tree has.

Main definitions:

* `QSource.Node.braces?` — the places of the braces of a lambda;
* `QSource.Innermost` — the innermost of some lambdas around a place;
* `QSource.OwnScopes` — **every one of some lambdas has its own scope**.

Main results:

* `QSource.exists_scope_of_mem_outside` — a lambda outside parameter lists has a scope;
* `QSource.scope_eq_some_iff` — the tokens of a scope;
* `QSource.ownScopes_outside` — **every lambda outside parameter lists has its own scope**;
* `QSource.not_ownScopes_all` — lambdas in parameter lists have to be left aside.
-/

import QSource.Proofs.Scope.Context
import QSource.Proofs.Scope.Forest

set_option relaxedAutoImplicit false
set_option autoImplicit false

namespace QSource

/-! ### Lambdas and their braces -/

/-- The places of the braces of a lambda. -/
def Node.braces? : Node → Option (Nat × Nat)
  | .enclosed .lambda first _ last => some (first.index, last.index)
  | _ => none

theorem Node.braces?_eq_some {x : Node} {first last : Nat} (h : x.braces? = some (first, last)) :
    ∃ opening items closing, x = .enclosed .lambda opening items closing ∧
      opening.index = first ∧ closing.index = last := by
  unfold Node.braces? at h
  split at h
  · next opening items closing =>
      rw [Option.some.injEq, Prod.mk.injEq] at h
      exact ⟨opening, items, closing, rfl, h.1, h.2⟩
  · simp at h

/-- One of the lambdas has the braces, and the place stands between them or is one of them. -/
def Around (lambdas : List Node) (index first last : Nat) : Prop :=
  (∃ x ∈ lambdas, x.braces? = some (first, last)) ∧ first ≤ index ∧ index ≤ last

/-- The braces are those of the innermost of the lambdas around the place. -/
def Innermost (lambdas : List Node) (index first last : Nat) : Prop :=
  Around lambdas index first last ∧
    ∀ first' last' : Nat, Around lambdas index first' last' → first' ≤ first ∧ last ≤ last'

theorem innermost_iff {lambdas : List Node} {index first last : Nat} :
    Innermost lambdas index first last ↔ Around lambdas index first last ∧
      ∀ x ∈ lambdas, ∀ braces ∈ x.braces?, braces.1 ≤ index ∧ index ≤ braces.2 →
        braces.1 ≤ first ∧ last ≤ braces.2 := by
  refine and_congr_right fun _ => ⟨fun h x hx braces hbraces hcovers => ?_, ?_⟩
  · exact h braces.1 braces.2 ⟨⟨x, hx, hbraces⟩, hcovers⟩
  · rintro h first' last' ⟨⟨x, hx, hbraces⟩, hcovers⟩
    exact h x hx (first', last') hbraces hcovers

instance (lambdas : List Node) (index first last : Nat) :
    Decidable (Around lambdas index first last) :=
  inferInstanceAs (Decidable ((∃ x ∈ lambdas, x.braces? = some (first, last)) ∧ _))

instance (lambdas : List Node) (index first last : Nat) :
    Decidable (Innermost lambdas index first last) :=
  decidable_of_iff _ innermost_iff.symm

/-- **Every one of the lambdas has its own scope**, and there are no other scopes.  The scope of a token
is that of the innermost lambda around it, if there is one. -/
structure OwnScopes (lambdas nodes : List Node) : Prop where
  own : ∀ x ∈ lambdas, ∀ first last : Nat, x.braces? = some (first, last) →
    ∃! j : Nat, ∃ s, (analyze nodes).scopes[j]? = some s ∧ s.first = first ∧ s.last = last
  lambda : ∀ s ∈ (analyze nodes).scopes, ∃ x ∈ lambdas, x.braces? = some (s.first, s.last)
  innermost : ∀ t ∈ (analyze nodes).tokens,
    (t.scope = none ∧ ∀ first last : Nat, ¬ Around lambdas t.index first last) ∨
      ∃ s ∈ (analyze nodes).scopes, t.scope = some s.id ∧
        Innermost lambdas t.index s.first s.last

/-! ### The scopes of lambdas -/

section

variable {tokens : List Token} {nodes : List Node}

/-- **A lambda outside parameter lists has a scope.** -/
theorem exists_scope_of_mem_outside {x : Node} (hx : x ∈ Node.outside nodes) {first last : Nat}
    (hbraces : x.braces? = some (first, last)) :
    ∃ s ∈ (analyze nodes).scopes, s.first = first ∧ s.last = last := by
  obtain ⟨opening, items, closing, rfl, rfl, rfl⟩ := Node.braces?_eq_some hbraces
  obtain ⟨before, scope, query, sign, behind, houtline⟩ :=
    Node.exists_outline_eq_append none 0 true false false nodes hx
  let r : Region := ⟨0 + before.regions.length, scope, opening.index, closing.index,
    declaredParams items⟩
  have hr : r ∈ (outline nodes).regions := by
    rw [outline, houtline]
    simp [Node.outline, r]
  exact ⟨_, mem_scopes_iff.2 ⟨r, hr, rfl⟩, rfl, rfl⟩

theorem exists_braces_of_mem_scopes {s : Scope} (hs : s ∈ (analyze nodes).scopes) :
    ∃ x ∈ Node.outside nodes, x.braces? = some (s.first, s.last) := by
  obtain ⟨x, hx, first, items, last, rfl, hfirst, hlast, -⟩ :=
    Node.exists_lambda_of_mem_regions none 0 true false false nodes (mem_regions_of_mem_scopes hs)
  exact ⟨_, hx, by rw [Node.braces?, hfirst, hlast]⟩

variable (hnumbered : Token.Numbered tokens) (h : parse tokens = .ok nodes)

include hnumbered h

/-- How two scopes lie, from their numbers. -/
theorem apart_of_id_lt {s s' : Scope} (hs : s ∈ (analyze nodes).scopes)
    (hs' : s' ∈ (analyze nodes).scopes) (hlt : s.id < s'.id) :
    s.first < s'.first ∧ (s.last < s'.first ∨ s'.last < s.last) := by
  obtain ⟨hi, hs⟩ := List.getElem?_eq_some_iff.1 (getElem?_scopes_iff.2 ⟨hs, rfl⟩)
  obtain ⟨hi', hs'⟩ := List.getElem?_eq_some_iff.1 (getElem?_scopes_iff.2 ⟨hs', rfl⟩)
  have hapart := List.pairwise_iff_getElem.1 (pairwise_scopes hnumbered h) _ _ hi hi' hlt
  rwa [hs, hs'] at hapart

/-- A scope is known by its opening brace. -/
theorem eq_of_first_eq {s s' : Scope} (hs : s ∈ (analyze nodes).scopes)
    (hs' : s' ∈ (analyze nodes).scopes) (heq : s.first = s'.first) : s = s' := by
  rcases Nat.lt_trichotomy s.id s'.id with hlt | hid | hgt
  · have hfirst := (apart_of_id_lt hnumbered h hs hs' hlt).1
    omega
  · exact eq_of_id_eq hs hs' hid
  · have hfirst := (apart_of_id_lt hnumbered h hs' hs hgt).1
    omega

/-- The last scope around a place is the innermost one. -/
theorem innermost_of_isLargest {index j : Nat}
    (hlargest : IsLargest (fun j => ∃ s, (analyze nodes).scopes[j]? = some s ∧ s.Covers index)
      (some j)) :
    ∃ s ∈ (analyze nodes).scopes, s.id = j ∧
      Innermost (Node.outside nodes) index s.first s.last := by
  obtain ⟨⟨s, hj, hcovers⟩, hlast⟩ := hlargest
  obtain ⟨hs, hid⟩ := getElem?_scopes_iff.1 hj
  refine ⟨s, hs, hid, ⟨exists_braces_of_mem_scopes hs, hcovers⟩, ?_⟩
  rintro first' last' ⟨⟨x, hx, hbraces⟩, hcovers'⟩
  obtain ⟨s', hs', rfl, rfl⟩ := exists_scope_of_mem_outside hx hbraces
  have hle : s'.id ≤ j := hlast s'.id ⟨s', getElem?_scopes_iff.2 ⟨hs', rfl⟩, hcovers'⟩
  rcases Nat.lt_or_eq_of_le (hid ▸ hle) with hlt | heq
  · have hapart := apart_of_id_lt hnumbered h hs' hs hlt
    have hfirst := hcovers.1
    have hlast' := hcovers'.2
    omega
  · rw [eq_of_id_eq hs' hs heq]
    exact ⟨Nat.le_refl _, Nat.le_refl _⟩

/-- A token is put into a scope just if the lambda of the scope is the innermost one around it. -/
theorem scope_eq_some_iff {t : AnnotatedToken} (ht : t ∈ (analyze nodes).tokens) {s : Scope}
    (hs : s ∈ (analyze nodes).scopes) :
    t.scope = some s.id ↔ Innermost (Node.outside nodes) t.index s.first s.last := by
  have hlargest := isLargest_scope hnumbered h ht
  constructor
  · intro hscope
    rw [hscope] at hlargest
    obtain ⟨s', hs', hid, hinnermost⟩ := innermost_of_isLargest hnumbered h hlargest
    rwa [eq_of_id_eq hs hs' hid.symm]
  · intro hinnermost
    cases hscope : t.scope with
    | none =>
        rw [hscope] at hlargest
        exact absurd ⟨s, getElem?_scopes_iff.2 ⟨hs, rfl⟩, hinnermost.1.2⟩ (hlargest s.id)
    | some j =>
        rw [hscope] at hlargest
        obtain ⟨s', hs', rfl, hinnermost'⟩ := innermost_of_isLargest hnumbered h hlargest
        -- of two innermost lambdas each lies inside the other
        have hle := (hinnermost.2 _ _ hinnermost'.1).1
        have hge := (hinnermost'.2 _ _ hinnermost.1).1
        rw [eq_of_first_eq hnumbered h hs hs' (Nat.le_antisymm hge hle)]

end

/-- **Every lambda outside parameter lists has its own scope.** -/
theorem ownScopes_outside {tokens : List Token} {nodes : List Node}
    (hnumbered : Token.Numbered tokens) (h : parse tokens = .ok nodes) :
    OwnScopes (Node.outside nodes) nodes where
  own := by
    intro x hx first last hbraces
    obtain ⟨s, hs, rfl, rfl⟩ := exists_scope_of_mem_outside hx hbraces
    refine ⟨s.id, ⟨s, getElem?_scopes_iff.2 ⟨hs, rfl⟩, rfl, rfl⟩, ?_⟩
    rintro j ⟨s', hj, hfirst, -⟩
    obtain ⟨hs', rfl⟩ := getElem?_scopes_iff.1 hj
    rw [eq_of_first_eq hnumbered h hs' hs hfirst]
  lambda := fun s hs => exists_braces_of_mem_scopes hs
  innermost := by
    intro t ht
    have hlargest := isLargest_scope hnumbered h ht
    cases hscope : t.scope with
    | none =>
        rw [hscope] at hlargest
        refine Or.inl ⟨rfl, ?_⟩
        rintro first last ⟨⟨x, hx, hbraces⟩, hcovers⟩
        obtain ⟨s, hs, rfl, rfl⟩ := exists_scope_of_mem_outside hx hbraces
        exact hlargest s.id ⟨s, getElem?_scopes_iff.2 ⟨hs, rfl⟩, hcovers⟩
    | some j =>
        rw [hscope] at hlargest
        obtain ⟨s, hs, rfl, hinnermost⟩ := innermost_of_isLargest hnumbered h hlargest
        exact Or.inr ⟨s, hs, rfl, hinnermost⟩

/-- Lambdas in the brackets, in the group and in the body of a lambda. -/
theorem ownScopes_outside_nested :
    let tokens := Lexeme.layOut [⟨.opening .brace, "\x7b"⟩, ⟨.identifier, "f"⟩,
      ⟨.opening .bracket, "["⟩, ⟨.opening .brace, "\x7b"⟩, ⟨.identifier, "x"⟩,
      ⟨.closing .brace, "\x7d"⟩, ⟨.closing .bracket, "]"⟩, ⟨.opening .paren, "("⟩,
      ⟨.opening .brace, "\x7b"⟩, ⟨.opening .brace, "\x7b"⟩, ⟨.identifier, "y"⟩,
      ⟨.closing .brace, "\x7d"⟩, ⟨.closing .brace, "\x7d"⟩, ⟨.closing .paren, ")"⟩,
      ⟨.closing .brace, "\x7d"⟩]
    ∃ nodes, Token.Numbered tokens ∧ parse tokens = .ok nodes ∧
      OwnScopes (Node.outside nodes) nodes ∧
      (Node.outside nodes).filterMap Node.braces? = [(0, 14), (3, 5), (8, 12), (9, 11)] ∧
      (analyze nodes).tokens.map (·.scope) = [some 0, some 0, some 0, some 1, some 1, some 1,
        some 0, some 0, some 2, some 3, some 3, some 3, some 2, some 0, some 0] := by
  intro tokens
  have hnumbered : Token.Numbered tokens := Token.numbered_layOut _
  exact ⟨_, hnumbered, rfl, ownScopes_outside hnumbered rfl, by decide +kernel, by decide +kernel⟩

/-! ### Parameter lists -/

/-- **Lambdas in parameter lists have to be left aside**: the second lambda of `{[a;{x}]a}` has no
scope. -/
theorem not_ownScopes_all :
    let tokens := Lexeme.layOut [⟨.opening .brace, "\x7b"⟩, ⟨.opening .bracket, "["⟩,
      ⟨.identifier, "a"⟩, ⟨.semicolon, ";"⟩, ⟨.opening .brace, "\x7b"⟩, ⟨.identifier, "x"⟩,
      ⟨.closing .brace, "\x7d"⟩, ⟨.closing .bracket, "]"⟩, ⟨.identifier, "a"⟩,
      ⟨.closing .brace, "\x7d"⟩]
    ∃ nodes, Token.Numbered tokens ∧ parse tokens = .ok nodes ∧
      ¬ OwnScopes (Node.all nodes) nodes := by
  intro tokens
  let inner : Node := .enclosed .lambda tokens[4] [.leaf .identifier tokens[5]] tokens[6]
  let nodes : List Node := [.enclosed .lambda tokens[0]
    [.enclosed (.params []) tokens[1]
      [.leaf .identifier tokens[2], .leaf .semicolon tokens[3], inner] tokens[7],
      .leaf .identifier tokens[8]] tokens[9]]
  refine ⟨nodes, Token.numbered_layOut _, rfl, ?_⟩
  intro hscopes
  have hinner : inner ∈ Node.all nodes := by simp [nodes, Node.self_mem_subtrees]
  obtain ⟨j, ⟨s, hj, hfirst, -⟩, -⟩ := hscopes.own inner hinner 4 6 rfl
  have hnone : ∀ s ∈ (analyze nodes).scopes, s.first ≠ 4 := by decide +kernel
  exact hnone s (List.mem_of_getElem? hj) hfirst

end QSource
