import Mathlib.Data.List.Perm.Basic
import MonetInR.Lib.IntervalSearch

/-!
# Stable rearrangements

A sort is stable if elements that compare equal keep the order they had.  One list is a stable
rearrangement of another if, for every element, the elements tied with it form the same list in
both; such a rearrangement is a permutation.  Two neighbouring blocks may change places if no
element of one is tied with one of the other, and that is all a stable merge does.

The last part is about arrays: what copying a piece of an array does to its slices.

## Main definitions

* `StableOrder.SameOrder`: a stable rearrangement
* `StableOrder.IsMerge`: a stable merge of two sorted lists
* `StableOrder.blit`: copy a piece of one array into another

## Main results

* `StableOrder.SameOrder.perm`: a stable rearrangement is a permutation
* `StableOrder.sameOrder_swap`: changing the places of blocks without ties
* `StableOrder.IsMerge.left_first` and its companions: what may come first or last in a merge
-/

namespace StableOrder

open List

variable {ρ : Type*}

/-- Any two elements can be compared, and comparisons chain. -/
structure Preordering (le : ρ → ρ → Bool) : Prop where
  total : ∀ a b, le a b = true ∨ le b a = true
  trans : ∀ {a b c}, le a b = true → le b c = true → le a c = true

/-- Neither comes before the other. -/
def tied (le : ρ → ρ → Bool) (x y : ρ) : Bool := le x y && le y x

variable (le : ρ → ρ → Bool)

/-- The elements tied with any one element are the same, in the same order. -/
def SameOrder (l l' : List ρ) : Prop := ∀ x, l.filter (tied le x) = l'.filter (tied le x)

/-- A stable merge of two lists: a stable rearrangement of both, one after the other, that is
sorted. -/
structure IsMerge (A B R : List ρ) : Prop where
  order : SameOrder le (A ++ B) R
  sorted : R.Pairwise fun x y => le x y = true

variable {le}

namespace Preordering

variable (hle : Preordering le) (a : ρ)

include hle

theorem refl : le a a = true := (hle.total a a).elim id id

theorem tied_self : tied le a a = true := by
  rw [tied, hle.refl a]
  rfl

/-- Elements tied with the same one are tied. -/
theorem tied_of_tied {x y z : ρ} (hx : tied le z x = true) (hy : tied le z y = true) :
    tied le x y = true := by
  rw [tied, Bool.and_eq_true] at *
  exact ⟨hle.trans hx.2 hy.1, hle.trans hy.2 hx.1⟩

/-- What is not before the other one comes behind it. -/
theorem le_of_not_le {a b : ρ} (h : le a b = false) : le b a = true :=
  (hle.total a b).resolve_left (by rw [h]; exact Bool.false_ne_true)

theorem not_le_of_not_le_of_le {a b c : ρ} (h : le b a = false) (hbc : le b c = true) :
    le c a = false := by
  by_contra hc
  rw [Bool.not_eq_false] at hc
  rw [hle.trans hbc hc] at h
  cases h

theorem not_le_of_le_of_not_le {a b c : ρ} (hab : le a b = true) (h : le c b = false) :
    le c a = false := by
  by_contra hc
  rw [Bool.not_eq_false] at hc
  rw [hle.trans hc hab] at h
  cases h

end Preordering

theorem not_tied_of_not_le' {x y : ρ} (h : le x y = false) : tied le x y = false := by
  rw [tied, h, Bool.false_and]

/-! ## Rearrangements -/

namespace SameOrder

theorem refl (l : List ρ) : SameOrder le l l := fun _ => rfl

theorem trans {l l' l'' : List ρ} (h : SameOrder le l l') (h' : SameOrder le l' l'') :
    SameOrder le l l'' := fun x => (h x).trans (h' x)

theorem append {A A' B B' : List ρ} (hA : SameOrder le A A') (hB : SameOrder le B B') :
    SameOrder le (A ++ B) (A' ++ B') := by
  intro x
  rw [filter_append, filter_append, hA x, hB x]

/-- **A stable rearrangement is a permutation.** -/
theorem perm (hle : Preordering le) {l l' : List ρ} (h : SameOrder le l l') : l.Perm l' := by
  classical
  rw [perm_iff_count]
  intro x
  -- `x` is tied with itself, so its occurrences are among those that are compared
  rw [← count_filter (hle.tied_self x), h x, count_filter (hle.tied_self x)]

end SameOrder

/-- **Blocks without ties between them may change places.** -/
theorem sameOrder_swap (hle : Preordering le) {A B : List ρ}
    (h : ∀ x ∈ A, ∀ y ∈ B, tied le x y = false) : SameOrder le (A ++ B) (B ++ A) := by
  intro z
  rw [filter_append, filter_append]
  -- one of the two blocks has nothing that is tied with `z`
  by_cases hA : A.filter (tied le z) = []
  · rw [hA, append_nil, nil_append]
  obtain ⟨x, hx⟩ := exists_mem_of_ne_nil _ hA
  rw [mem_filter] at hx
  have hB : B.filter (tied le z) = [] := by
    rw [filter_eq_nil_iff]
    intro y hy hzy
    have := hle.tied_of_tied hx.2 hzy
    rw [h x hx.1 y hy] at this
    cases this
  rw [hB, append_nil, nil_append]

/-- A list without ties may be reversed. -/
theorem sameOrder_reverse (hle : Preordering le) {l : List ρ}
    (h : l.Pairwise fun x y => tied le x y = false) : SameOrder le l l.reverse := by
  induction l with
  | nil => exact .refl _
  | cons x l ih =>
    rw [pairwise_cons] at h
    rw [reverse_cons]
    refine SameOrder.trans (sameOrder_swap hle (A := [x]) (B := l) ?_) ((ih h.2).append (.refl _))
    intro x' hx' y hy
    rw [mem_singleton.mp hx']
    exact h.1 y hy

/-! ## Merging -/

namespace IsMerge

variable {A B R : List ρ}

theorem of_nil_right (hA : A.Pairwise fun x y => le x y = true) : IsMerge le A [] A :=
  ⟨by rw [append_nil]; exact .refl _, hA⟩

theorem of_nil_left (hB : B.Pairwise fun x y => le x y = true) : IsMerge le [] B B := ⟨.refl _, hB⟩

section

variable (hle : Preordering le)

include hle

section

variable (h : IsMerge le A B R)

include h

theorem forall_iff {p : ρ → Prop} : (∀ x ∈ R, p x) ↔ (∀ x ∈ A, p x) ∧ ∀ x ∈ B, p x := by
  rw [← forall_mem_append]
  have hperm := h.order.perm hle
  exact ⟨fun hp x hx => hp x (hperm.mem_iff.mp hx), fun hp x hx => hp x (hperm.mem_iff.mpr hx)⟩

/-- The beginning of the first list comes first if nothing goes before it. -/
theorem left_first {A₁ : List ρ} (hA₁ : (A₁ ++ A).Pairwise fun x y => le x y = true)
    (hB : ∀ x ∈ A₁, ∀ y ∈ B, le x y = true) : IsMerge le (A₁ ++ A) B (A₁ ++ R) := by
  rw [pairwise_append] at hA₁
  refine ⟨?_, pairwise_append.mpr ⟨hA₁.1, h.sorted, fun x hx => ?_⟩⟩
  · rw [append_assoc]
    exact (SameOrder.refl A₁).append h.order
  · exact (h.forall_iff hle).mpr ⟨hA₁.2.2 x hx, hB x hx⟩

/-- The beginning of the second list comes first if all of the first list goes behind it. -/
theorem right_first {B₁ : List ρ} (hB₁ : (B₁ ++ B).Pairwise fun x y => le x y = true)
    (hA : ∀ y ∈ B₁, ∀ x ∈ A, le x y = false) : IsMerge le A (B₁ ++ B) (B₁ ++ R) := by
  rw [pairwise_append] at hB₁
  refine ⟨?_, pairwise_append.mpr ⟨hB₁.1, h.sorted, fun y hy => ?_⟩⟩
  · have hswap : SameOrder le (A ++ B₁) (B₁ ++ A) :=
      sameOrder_swap hle fun x hx y hy => not_tied_of_not_le' (hA y hy x hx)
    rw [← append_assoc]
    apply (hswap.append (.refl B)).trans
    rw [append_assoc]
    exact (SameOrder.refl B₁).append h.order
  · exact (h.forall_iff hle).mpr ⟨fun x hx => hle.le_of_not_le (hA y hy x hx), hB₁.2.2 y hy⟩

/-- The end of the first list comes last if all of the second list goes before it. -/
theorem left_last {A₂ : List ρ} (hA₂ : (A ++ A₂).Pairwise fun x y => le x y = true)
    (hB : ∀ x ∈ A₂, ∀ y ∈ B, le x y = false) : IsMerge le (A ++ A₂) B (R ++ A₂) := by
  rw [pairwise_append] at hA₂
  refine ⟨?_, pairwise_append.mpr ⟨h.sorted, hA₂.2.1, ?_⟩⟩
  · have hswap : SameOrder le (A₂ ++ B) (B ++ A₂) :=
      sameOrder_swap hle fun x hx y hy => not_tied_of_not_le' (hB x hx y hy)
    rw [append_assoc]
    apply ((SameOrder.refl A).append hswap).trans
    rw [← append_assoc]
    exact h.order.append (.refl A₂)
  · exact (h.forall_iff hle).mpr ⟨hA₂.2.2, fun y hy x hx => hle.le_of_not_le (hB x hx y hy)⟩

/-- The end of the second list comes last if nothing goes behind it. -/
theorem right_last {B₂ : List ρ} (hB₂ : (B ++ B₂).Pairwise fun x y => le x y = true)
    (hA : ∀ y ∈ B₂, ∀ x ∈ A, le x y = true) : IsMerge le A (B ++ B₂) (R ++ B₂) := by
  rw [pairwise_append] at hB₂
  refine ⟨?_, pairwise_append.mpr ⟨h.sorted, hB₂.2.1, ?_⟩⟩
  · rw [← append_assoc]
    exact h.order.append (.refl B₂)
  · exact (h.forall_iff hle).mpr ⟨fun x hx y hy => hA y hy x hx, hB₂.2.2⟩

end

end

end IsMerge

/-! ## Copying pieces of arrays -/

open IntervalSearch

variable {lo hi d s k i : ℕ} {f g : ℕ → ρ}

/-- The array `b` with the `k` entries from `d` on replaced by those of `src` from `s` on. -/
def blit (b : ℕ → ρ) (d : ℕ) (src : ℕ → ρ) (s k : ℕ) : ℕ → ρ :=
  fun i => if d ≤ i ∧ i < d + k then src (s + (i - d)) else b i

/-- The slices of two arrays with the same entries, at some distance. -/
theorem slice_shift (h : ∀ j, j < k → f (d + j) = g (s + j)) :
    slice f d (d + k) = slice g s (s + k) := by
  induction k with
  | zero => rw [slice_eq_nil f (by omega), slice_eq_nil g (by omega)]
  | succ k ih =>
    rw [← Nat.add_assoc, ← Nat.add_assoc, slice_snoc f (Nat.le_add_right _ _),
      slice_snoc g (Nat.le_add_right _ _), ih fun j hj => h j (Nat.lt_succ_of_lt hj),
      h k (Nat.lt_succ_self k)]

section

variable (b src : ℕ → ρ)

include b src

theorem blit_of_not (h : i < d ∨ d + k ≤ i) : blit b d src s k i = b i :=
  if_neg (by omega)

theorem blit_of_mem (h1 : d ≤ i) (h2 : i < d + k) : blit b d src s k i = src (s + (i - d)) :=
  if_pos ⟨h1, h2⟩

/-- A single entry. -/
theorem update_eq_blit (d s : ℕ) : Function.update b d (src s) = blit b d src s 1 := by
  funext i
  by_cases hi : i = d
  · subst hi
    rw [Function.update_self, blit_of_mem b src le_rfl (Nat.lt_succ_self _), Nat.sub_self,
      Nat.add_zero]
  · rw [Function.update_of_ne hi, blit_of_not b src (by omega)]

theorem slice_blit : slice (blit b d src s k) d (d + k) = slice src s (s + k) := by
  apply slice_shift
  intro j hj
  rw [blit_of_mem b src (by omega) (by omega)]
  congr 1
  omega

/-- The same with the ends given otherwise. -/
theorem slice_blit_of_eq {d' e t u : ℕ} (hd : d' = d) (he : e = d + k) (ht : t = s) (hu : u = s + k)
    : slice (blit b d src s k) d' e = slice src t u := by
  rw [hd, he, ht, hu, slice_blit]

theorem slice_blit_of_disjoint (h : hi ≤ d ∨ d + k ≤ lo) :
    slice (blit b d src s k) lo hi = slice b lo hi :=
  slice_congr fun i h1 h2 => blit_of_not b src (by omega)

end

theorem pairwise_slice_iff {R : ρ → ρ → Prop} :
    (slice f lo hi).Pairwise R ↔ ∀ i j, lo ≤ i → i < j → j < hi → R (f i) (f j) := by
  refine ⟨fun h i j h1 h2 h3 => ?_, pairwise_slice⟩
  rw [slice_append f h1 (by omega : i ≤ hi), slice_cons f (by omega : i < hi)] at h
  exact (pairwise_cons.mp (pairwise_append.mp h).2.1).1 _ (mem_slice.mpr ⟨j, h2, h3, rfl⟩)

/-- A relation between neighbours that chains relates all entries of a piece. -/
theorem rel_of_neighbours {R : ρ → ρ → Prop} (htrans : ∀ {a b c}, R a b → R b c → R a c)
    (h : ∀ i, lo < i → i < hi → R (f (i - 1)) (f i)) (i j : ℕ) (h1 : lo ≤ i) (h2 : i < j)
    (h3 : j < hi) : R (f i) (f j) := by
  induction j, h2 using Nat.le_induction with
  | base => exact h (i + 1) (by omega) h3
  | succ j hj ih => exact htrans (ih (by omega)) (h (j + 1) (by omega) h3)

theorem getElem_slice (h : i < (slice f lo hi).length) : (slice f lo hi)[i] = f (lo + i) := by
  simp [slice]

/-- A piece that is turned around. -/
theorem slice_reverse (h : ∀ i, lo ≤ i → i < hi → g i = f (lo + (hi - 1) - i)) :
    slice g lo hi = (slice f lo hi).reverse := by
  apply ext_getElem
  · simp
  · intro i h1 h2
    rw [length_slice] at h1
    rw [getElem_reverse, getElem_slice, getElem_slice, h (lo + i) (by omega) (by omega),
      length_slice]
    congr 1
    omega

end StableOrder
