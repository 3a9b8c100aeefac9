/-!
# Stable sorting

Sorting by insertion. Elements of which neither comes before the other keep their order.
-/

namespace Typings.Order

variable {α : Type}

/-- Puts an element in front of the first one that does not come before it. -/
def insert (before : α → α → Bool) (a : α) : List α → List α
  | [] => [a]
  | b :: bs => if before b a then b :: insert before a bs else a :: b :: bs

/-- The elements in order, `before` saying which of two comes first. -/
def sort (before : α → α → Bool) (xs : List α) : List α := xs.foldr (insert before) []

theorem insert_perm (before : α → α → Bool) (a : α) (xs : List α) :
    (insert before a xs).Perm (a :: xs) := by
  induction xs with
  | nil => exact .refl _
  | cons b bs ih =>
    simp only [insert]
    split
    · exact (ih.cons b).trans (.swap a b bs)
    · exact .refl _

/-- Sorting loses and adds nothing. -/
theorem sort_perm (before : α → α → Bool) (xs : List α) : (sort before xs).Perm xs := by
  induction xs with
  | nil => exact .refl _
  | cons a as ih => exact (insert_perm before a _).trans (ih.cons a)

end Typings.Order
