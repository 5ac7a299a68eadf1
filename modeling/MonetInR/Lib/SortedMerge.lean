import Mathlib.Data.List.Nodup
import Mathlib.Order.Lattice

/-!
# Merging strictly increasing lists

A strictly increasing list stands for the set of its members.  Two cursors that move upwards
compute the union and the intersection of two such sets in one pass.

## Main definitions

* `SortedMerge.union`, `SortedMerge.inter`: the two merge loops

## Main results

* `SortedMerge.mem_union`, `SortedMerge.mem_inter`: the members of a merge
* `SortedMerge.pairwise_union`, `SortedMerge.pairwise_inter`: a merge is strictly increasing
* `SortedMerge.takeWhile_lt`, `SortedMerge.dropWhile_lt`: running up to a bound is filtering by it
-/

namespace SortedMerge

open List

variable {α : Type*} [LinearOrder α]

/-- The loop that takes the smaller element, and one of two equal ones. -/
def union : List α → List α → List α
  | [], ys => ys
  | x :: xs, [] => x :: xs
  | x :: xs, y :: ys =>
    if x < y then x :: union xs (y :: ys)
    else if y < x then y :: union (x :: xs) ys
    else x :: union xs ys
termination_by xs ys => xs.length + ys.length

/-- The loop that passes over the smaller element, and takes one of two equal ones. -/
def inter : List α → List α → List α
  | [], _ => []
  | _ :: _, [] => []
  | x :: xs, y :: ys =>
    if x < y then inter xs (y :: ys)
    else if y < x then inter (x :: xs) ys
    else x :: inter xs ys
termination_by xs ys => xs.length + ys.length

variable {xs ys : List α} {z : α}

theorem mem_union : z ∈ union xs ys ↔ z ∈ xs ∨ z ∈ ys := by
  fun_induction union xs ys with
  | case1 ys => simp
  | case2 x xs => simp
  | case3 x xs y ys hlt ih =>
    rw [mem_cons, ih, ← or_assoc, ← mem_cons]
  | case4 x xs y ys _ hlt ih =>
    rw [mem_cons, ih, mem_cons (a := z) (b := y), or_left_comm]
  | case5 x xs y ys hxy hyx ih =>
    -- the two heads are equal, and one copy stands for both
    obtain rfl : x = y := le_antisymm (not_lt.mp hyx) (not_lt.mp hxy)
    rw [mem_cons, mem_cons, mem_cons]
    tauto

theorem pairwise_union (hxs : xs.Pairwise (· < ·)) (hys : ys.Pairwise (· < ·)) :
    (union xs ys).Pairwise (· < ·) := by
  fun_induction union xs ys with
  | case1 ys => exact hys
  | case2 x xs => exact hxs
  | case3 x xs y ys hlt ih =>
    refine pairwise_cons.mpr ⟨fun z hz => ?_, ih hxs.of_cons hys⟩
    rcases mem_union.mp hz with h | h
    · exact rel_of_pairwise_cons hxs h
    · rcases mem_cons.mp h with rfl | h
      · exact hlt
      · exact hlt.trans (rel_of_pairwise_cons hys h)
  | case4 x xs y ys _ hlt ih =>
    refine pairwise_cons.mpr ⟨fun z hz => ?_, ih hxs hys.of_cons⟩
    rcases mem_union.mp hz with h | h
    · rcases mem_cons.mp h with rfl | h
      · exact hlt
      · exact hlt.trans (rel_of_pairwise_cons hxs h)
    · exact rel_of_pairwise_cons hys h
  | case5 x xs y ys hxy hyx ih =>
    obtain rfl : x = y := le_antisymm (not_lt.mp hyx) (not_lt.mp hxy)
    refine pairwise_cons.mpr ⟨fun z hz => ?_, ih hxs.of_cons hys.of_cons⟩
    rcases mem_union.mp hz with h | h
    · exact rel_of_pairwise_cons hxs h
    · exact rel_of_pairwise_cons hys h

/-- An element below the head of an increasing list is not on it. -/
theorem notMem_of_lt_head {x y : α} (hys : (y :: ys).Pairwise (· < ·))
    (h : x < y) : x ∉ y :: ys := by
  intro hx
  rcases mem_cons.mp hx with rfl | hx
  · exact h.false
  · exact (h.trans (rel_of_pairwise_cons hys hx)).false

section

variable (hxs : xs.Pairwise (· < ·)) (b : α)

include hxs

theorem mem_inter (hys : ys.Pairwise (· < ·)) :
    z ∈ inter xs ys ↔ z ∈ xs ∧ z ∈ ys := by
  fun_induction inter xs ys with
  | case1 ys => simp
  | case2 x xs => simp
  | case3 x xs y ys hlt ih =>
    -- x lies below everything that is left of the other list
    have hx := notMem_of_lt_head hys hlt
    rw [ih hxs.of_cons hys, mem_cons (a := z) (b := x)]
    refine ⟨fun h => ⟨.inr h.1, h.2⟩, fun h => ⟨h.1.resolve_left ?_, h.2⟩⟩
    rintro rfl
    exact hx h.2
  | case4 x xs y ys _ hlt ih =>
    have hy := notMem_of_lt_head hxs hlt
    rw [ih hxs hys.of_cons, mem_cons (a := z) (b := y)]
    refine ⟨fun h => ⟨h.1, .inr h.2⟩, fun h => ⟨h.1, h.2.resolve_left ?_⟩⟩
    rintro rfl
    exact hy h.1
  | case5 x xs y ys hxy hyx ih =>
    obtain rfl : x = y := le_antisymm (not_lt.mp hyx) (not_lt.mp hxy)
    rw [mem_cons, ih hxs.of_cons hys.of_cons, mem_cons, mem_cons, ← or_and_left]

theorem pairwise_inter (hys : ys.Pairwise (· < ·)) :
    (inter xs ys).Pairwise (· < ·) := by
  fun_induction inter xs ys with
  | case1 ys => exact List.Pairwise.nil
  | case2 x xs => exact List.Pairwise.nil
  | case3 x xs y ys _ ih => exact ih hxs.of_cons hys
  | case4 x xs y ys _ _ ih => exact ih hxs hys.of_cons
  | case5 x xs y ys _ _ ih =>
    refine pairwise_cons.mpr ⟨fun z hz => ?_, ih hxs.of_cons hys.of_cons⟩
    exact rel_of_pairwise_cons hxs ((mem_inter hxs.of_cons hys.of_cons).mp hz).1

/-! ## Running up to a bound -/

theorem takeWhile_lt : xs.takeWhile (· < b) = xs.filter (· < b) := by
  induction xs with
  | nil => rfl
  | cons x xs ih =>
    by_cases hx : x < b
    · simp [hx, ih hxs.of_cons]
    · have hnil : xs.filter (· < b) = [] := by
        refine filter_eq_nil_iff.mpr fun y hy => ?_
        simpa using (not_lt.mp hx).trans (rel_of_pairwise_cons hxs hy).le
      simp [hx, hnil]

theorem dropWhile_lt : xs.dropWhile (· < b) = xs.filter (b ≤ ·) := by
  induction xs with
  | nil => rfl
  | cons x xs ih =>
    by_cases hx : x < b
    · simp [hx, ih hxs.of_cons]
    · have hall : xs.filter (b ≤ ·) = xs := by
        refine filter_eq_self.mpr fun y hy => ?_
        simpa using (not_lt.mp hx).trans (rel_of_pairwise_cons hxs hy).le
      simp [hall, not_lt.mp hx]

end

end SortedMerge
