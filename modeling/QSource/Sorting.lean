/-
**Sorting by insertion**, for short lists and lists that are nearly in order.

Main definitions:

* `QSource.insertSorted`, `QSource.sort` — insertion into a sorted list, and sorting.

Main results:

* `QSource.sort_perm` — sorting only rearranges;
* `QSource.pairwise_sort` — the result is in order, for a transitive and total comparison.
-/

set_option relaxedAutoImplicit false
set_option autoImplicit false

namespace QSource

variable {α : Type}

/-- Puts `x` before the first element that is not smaller. -/
def insertSorted (le : α → α → Bool) (x : α) : List α → List α
  | [] => [x]
  | y :: ys => if le x y then x :: y :: ys else y :: insertSorted le x ys

/-- The elements of a list in order; equal elements keep their order. -/
def sort (le : α → α → Bool) (xs : List α) : List α := xs.foldr (insertSorted le) []

theorem insertSorted_perm (le : α → α → Bool) (x : α) (ys : List α) :
    (insertSorted le x ys).Perm (x :: ys) := by
  induction ys with
  | nil => exact .refl _
  | cons y ys ih =>
    rw [insertSorted]
    split
    · exact .refl _
    · exact (ih.cons y).trans (.swap x y ys)

/-- Sorting only rearranges. -/
theorem sort_perm (le : α → α → Bool) (xs : List α) : (sort le xs).Perm xs := by
  induction xs with
  | nil => exact .refl _
  | cons x xs ih => exact (insertSorted_perm le x _).trans (ih.cons x)

@[simp] theorem mem_sort {le : α → α → Bool} {x : α} {xs : List α} :
    x ∈ sort le xs ↔ x ∈ xs :=
  (sort_perm le xs).mem_iff

theorem pairwise_insertSorted {le : α → α → Bool}
    (trans : ∀ a b c, le a b = true → le b c = true → le a c = true)
    (total : ∀ a b, le a b = true ∨ le b a = true) (x : α) {ys : List α}
    (h : ys.Pairwise fun a b => le a b = true) :
    (insertSorted le x ys).Pairwise fun a b => le a b = true := by
  induction ys with
  | nil => exact List.pairwise_singleton _ _
  | cons y ys ih =>
    obtain ⟨hy, hys⟩ := List.pairwise_cons.1 h
    rw [insertSorted]
    split
    · next hxy =>
      refine List.pairwise_cons.2 ⟨fun z hz => ?_, h⟩
      rcases List.mem_cons.1 hz with rfl | hz
      · exact hxy
      · exact trans _ _ _ hxy (hy z hz)
    · next hxy =>
      refine List.pairwise_cons.2 ⟨fun z hz => ?_, ih hys⟩
      rcases List.mem_cons.1 ((insertSorted_perm le x ys).mem_iff.1 hz) with rfl | hz
      · exact (total y z).resolve_right hxy
      · exact hy z hz

/-- Sorting by a transitive and total comparison puts the elements in order. -/
theorem pairwise_sort {le : α → α → Bool}
    (trans : ∀ a b c, le a b = true → le b c = true → le a c = true)
    (total : ∀ a b, le a b = true ∨ le b a = true) (xs : List α) :
    (sort le xs).Pairwise fun a b => le a b = true := by
  induction xs with
  | nil => exact .nil
  | cons x xs ih => exact pairwise_insertSorted trans total x ih

end QSource
