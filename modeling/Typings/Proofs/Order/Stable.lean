import Mathlib.Order.Lattice
import Typings.Order

/-!
# Sorting by a key

Sorting by a key puts the keys in order and leaves the elements of each key in the order they had.
A list with these two properties is the only one of its kind, so that sorting forgets all of the
order of its input but the order among elements of one key.
-/

namespace Typings.Order

variable {α β : Type} [LinearOrder β] {key : α → β}

-- ---------------------------------------------------------------------------
-- Keys in order
-- ---------------------------------------------------------------------------

theorem pairwise_insert {a : α} {xs : List α} (h : xs.Pairwise fun x y => key x ≤ key y) :
    (insert (fun x y => key x < key y) a xs).Pairwise fun x y => key x ≤ key y := by
  induction xs with
  | nil => simp [insert]
  | cons b bs ih =>
    obtain ⟨hb, hbs⟩ := List.pairwise_cons.mp h
    simp only [insert, decide_eq_true_eq]
    split
    · rename_i hba
      refine List.pairwise_cons.mpr ⟨?_, ih hbs⟩
      intro x hx
      rcases List.mem_cons.mp ((insert_perm _ a bs).mem_iff.mp hx) with rfl | hx
      · exact le_of_lt hba
      · exact hb x hx
    · rename_i hba
      refine List.pairwise_cons.mpr ⟨?_, h⟩
      intro x hx
      rcases List.mem_cons.mp hx with rfl | hx
      · exact le_of_not_gt hba
      · exact le_trans (le_of_not_gt hba) (hb x hx)

/-- Sorting by a key puts the keys in order. -/
theorem pairwise_sort (xs : List α) :
    (sort (fun x y => key x < key y) xs).Pairwise fun x y => key x ≤ key y := by
  induction xs with
  | nil => exact .nil
  | cons a as ih => exact pairwise_insert ih

-- ---------------------------------------------------------------------------
-- Elements of one key
-- ---------------------------------------------------------------------------

theorem filter_insert (k : β) (a : α) (xs : List α) :
    (insert (fun x y => key x < key y) a xs).filter (key · = k) =
      (a :: xs).filter (key · = k) := by
  induction xs with
  | nil => rfl
  | cons b bs ih =>
    simp only [insert, decide_eq_true_eq]
    split
    · rename_i hba
      -- `a` moves past `b`, whose key is another one
      rw [List.filter_cons, ih]
      by_cases hb : key b = k
      · have ha : key a ≠ k := fun ha => absurd hba (by rw [ha, hb]; exact lt_irrefl k)
        simp [hb, ha]
      · simp [hb, List.filter_cons]
    · rfl

/-- Sorting leaves the elements of a key in the order they had. -/
theorem filter_sort (k : β) (xs : List α) :
    (sort (fun x y => key x < key y) xs).filter (key · = k) = xs.filter (key · = k) := by
  induction xs with
  | nil => rfl
  | cons a as ih =>
    show (insert _ a (sort _ as)).filter _ = _
    rw [filter_insert, List.filter_cons, List.filter_cons, ih]

/-- Lists that agree on the elements of every key have the same elements. -/
theorem mem_iff_of_filter {xs ys : List α}
    (h : ∀ k, xs.filter (key · = k) = ys.filter (key · = k)) (z : α) : z ∈ xs ↔ z ∈ ys := by
  have hz : z ∈ xs.filter (key · = key z) ↔ z ∈ ys.filter (key · = key z) := by rw [h]
  simpa [List.mem_filter] using hz

/-- Two lists with their keys in order are equal when they agree on the elements of every key. -/
theorem eq_of_pairwise_of_filter {xs ys : List α} (hxs : xs.Pairwise fun x y => key x ≤ key y)
    (hys : ys.Pairwise fun x y => key x ≤ key y)
    (h : ∀ k, xs.filter (key · = k) = ys.filter (key · = k)) : xs = ys := by
  induction xs generalizing ys with
  | nil => exact (List.eq_nil_iff_forall_not_mem.2 fun y hy => by
      simpa using (mem_iff_of_filter h y).2 hy).symm
  | cons x xs ih =>
    cases ys with
    | nil => simpa using (mem_iff_of_filter h x).1 List.mem_cons_self
    | cons y ys =>
      obtain ⟨hx, hxtail⟩ := List.pairwise_cons.mp hxs
      obtain ⟨hy, hytail⟩ := List.pairwise_cons.mp hys
      have hxy : key x ≤ key y := by
        rcases List.mem_cons.mp ((mem_iff_of_filter h y).2 List.mem_cons_self) with rfl | hmem
        · exact le_rfl
        · exact hx y hmem
      have hyx : key y ≤ key x := by
        rcases List.mem_cons.mp ((mem_iff_of_filter h x).1 List.mem_cons_self) with rfl | hmem
        · exact le_rfl
        · exact hy x hmem
      -- both lists start with the first element of their smallest key
      have hhead : x = y := by
        have hfirst := h (key y)
        simp only [List.filter_cons, le_antisymm hxy hyx, decide_true, if_true] at hfirst
        exact (List.cons.inj hfirst).1
      subst hhead
      refine congrArg (x :: ·) (ih hxtail hytail fun k => ?_)
      have hk := h k
      simp only [List.filter_cons] at hk
      split at hk
      · exact (List.cons.inj hk).2
      · exact hk

/-- Sorting forgets all of the order of a list but the order among elements of one key. -/
theorem sort_eq_of_filter {xs ys : List α}
    (h : ∀ k, xs.filter (key · = k) = ys.filter (key · = k)) :
    sort (fun x y => key x < key y) xs = sort (fun x y => key x < key y) ys := by
  refine eq_of_pairwise_of_filter (pairwise_sort xs) (pairwise_sort ys) fun k => ?_
  rw [filter_sort, filter_sort, h]

end Typings.Order
