import Mathlib.Data.Nat.Count

/-!
# Numbering rows by their keys

Rows are visited one after the other.  A row whose key has occurred before gets the number of the
earlier row; any other gets the next number.  Then equal numbers mean equal keys, the numbers are in
the order in which the keys occur first, and the first row and the size of each class are known.

## Main definitions

* `Numbered`: the numbers of the first rows, with the first rows and the sizes of the classes

## Main results

* `Numbered.new`, `Numbered.old`: one more row
-/

namespace Numbering

open Function Nat

variable {κ : Type*}

/-- The first `n` rows are numbered by their keys in the order of first occurrence, with `m`
numbers. -/
structure Numbered (key : ℕ → κ) (n : ℕ) (id : ℕ → ℕ) (m : ℕ) (first size : ℕ → ℕ) : Prop where
  id_lt : ∀ i < n, id i < m
  same : ∀ i < n, ∀ j < n, id i = id j ↔ key i = key j
  first_lt : ∀ k < m, first k < n
  id_first : ∀ k < m, id (first k) = k
  first_le : ∀ i < n, first (id i) ≤ i
  ordered : ∀ k l, k < l → l < m → first k < first l
  size_eq : ∀ k < m, size k = count (fun i => id i = k) n

variable {key : ℕ → κ} {n m : ℕ} {id first size : ℕ → ℕ}

theorem numbered_zero (key : ℕ → κ) (id first size : ℕ → ℕ) : Numbered key 0 id 0 first size := by
  constructor <;> intros <;> omega

/-- Numbers of later rows do not matter. -/
theorem Numbered.count_congr {id' : ℕ → ℕ} (h : ∀ i < n, id' i = id i) (k : ℕ) :
    count (fun i => id' i = k) n = count (fun i => id i = k) n := by
  induction n with
  | zero => rfl
  | succ n ih =>
    rw [count_succ, count_succ, ih fun i hi => h i (hi.trans n.lt_succ_self),
      h n n.lt_succ_self]

section

variable (h : Numbered key n id m first size)

include h

/-- Only the classes of the keys matter. -/
theorem Numbered.congr {κ' : Type*} {key' : ℕ → κ'}
    (hkey : ∀ i < n, ∀ j < n, key i = key j ↔ key' i = key' j) : Numbered key' n id m first size :=
  { h with same := fun i hi j hj => (h.same i hi j hj).trans (hkey i hi j hj) }

/-- The first row of a class has as many rows before it as there are classes before it. -/
theorem Numbered.le_first {k : ℕ} (hk : k < m) : k ≤ first k := by
  induction k with
  | zero => exact zero_le _
  | succ k ih =>
    have := h.ordered k (k + 1) k.lt_succ_self hk
    omega

/-- There are no more numbers than rows. -/
theorem Numbered.le : m ≤ n := by
  cases m with
  | zero => exact zero_le n
  | succ m =>
    have := h.le_first m.lt_succ_self
    have := h.first_lt m m.lt_succ_self
    omega

/-- A row with a new key. -/
theorem Numbered.new (hnew : ∀ j < n, key j ≠ key n) :
    Numbered key (n + 1) (update id n m) (m + 1) (update first m n) (update size m 1) := by
  have hid : ∀ i < n, update id n m i = id i := fun i hi =>
    update_of_ne hi.ne _ _
  have hfirst : ∀ k < m, update first m n k = first k := fun k hk =>
    update_of_ne hk.ne _ _
  have hself : update id n m n = m := update_self ..
  have hfself : update first m n m = n := update_self ..
  refine ⟨fun i hi => ?_, fun i hi j hj => ?_, fun k hk => ?_, fun k hk => ?_, fun i hi => ?_,
    fun k l hkl hl => ?_, fun k hk => ?_⟩
  · rcases Nat.lt_succ_iff_lt_or_eq.mp hi with hi | rfl
    · rw [hid i hi]
      exact (h.id_lt i hi).trans m.lt_succ_self
    · rw [hself]
      exact m.lt_succ_self
  · -- the number `m` is not in use yet
    rcases Nat.lt_succ_iff_lt_or_eq.mp hi with hi | rfl <;>
      rcases Nat.lt_succ_iff_lt_or_eq.mp hj with hj | rfl
    · rw [hid i hi, hid j hj]
      exact h.same i hi j hj
    · rw [hid i hi, hself]
      exact iff_of_false (h.id_lt i hi).ne (hnew i hi)
    · rw [hid j hj, hself]
      exact iff_of_false (h.id_lt j hj).ne' (hnew j hj).symm
    · exact iff_of_true rfl rfl
  · rcases Nat.lt_succ_iff_lt_or_eq.mp hk with hk | rfl
    · rw [hfirst k hk]
      exact (h.first_lt k hk).trans n.lt_succ_self
    · rw [hfself]
      exact n.lt_succ_self
  · rcases Nat.lt_succ_iff_lt_or_eq.mp hk with hk | rfl
    · rw [hfirst k hk, hid _ (h.first_lt k hk)]
      exact h.id_first k hk
    · rw [hfself, hself]
  · rcases Nat.lt_succ_iff_lt_or_eq.mp hi with hi | rfl
    · rw [hid i hi, hfirst _ (h.id_lt i hi)]
      exact h.first_le i hi
    · rw [hself, hfself]
  · rcases Nat.lt_succ_iff_lt_or_eq.mp hl with hl | rfl
    · rw [hfirst k (hkl.trans hl), hfirst l hl]
      exact h.ordered k l hkl hl
    · rw [hfself, hfirst k hkl]
      exact h.first_lt k hkl
  · rw [count_succ, Numbered.count_congr hid, hself]
    rcases Nat.lt_succ_iff_lt_or_eq.mp hk with hk | rfl
    · rw [update_of_ne hk.ne, if_neg hk.ne']
      exact h.size_eq k hk
    · have hzero : count (fun i => id i = k) n = 0 := by
        rw [count_iff_forall_not]
        exact fun i hi => (h.id_lt i hi).ne
      rw [update_self, if_pos rfl, hzero]

/-- A row with the key of row `j`. -/
theorem Numbered.old {j : ℕ} (hj : j < n) (hkey : key j = key n) :
    Numbered key (n + 1) (update id n (id j)) m first (update size (id j) (size (id j) + 1)) := by
  have hid : ∀ i < n, update id n (id j) i = id i := fun i hi =>
    update_of_ne hi.ne _ _
  have hself : update id n (id j) n = id j := update_self ..
  refine ⟨fun i hi => ?_, fun i hi l hl => ?_, fun k hk => ?_, fun k hk => ?_, fun i hi => ?_,
    h.ordered, fun k hk => ?_⟩
  · rcases Nat.lt_succ_iff_lt_or_eq.mp hi with hi | rfl
    · rw [hid i hi]
      exact h.id_lt i hi
    · rw [hself]
      exact h.id_lt j hj
  -- row `n` has the key and the number of row `j`
  · rcases Nat.lt_succ_iff_lt_or_eq.mp hi with hi | rfl <;>
      rcases Nat.lt_succ_iff_lt_or_eq.mp hl with hl | rfl
    · rw [hid i hi, hid l hl]
      exact h.same i hi l hl
    · rw [hid i hi, hself, ← hkey]
      exact h.same i hi j hj
    · rw [hid l hl, hself, ← hkey]
      exact h.same j hj l hl
    · exact iff_of_true rfl rfl
  · exact (h.first_lt k hk).trans n.lt_succ_self
  · rw [hid _ (h.first_lt k hk)]
    exact h.id_first k hk
  · rcases Nat.lt_succ_iff_lt_or_eq.mp hi with hi | rfl
    · rw [hid i hi]
      exact h.first_le i hi
    · rw [hself]
      exact (h.first_le j hj).trans hj.le
  -- only the group of row `j` grows
  · rw [count_succ, Numbered.count_congr hid, hself]
    by_cases hk' : id j = k
    · subst hk'
      rw [update_self, if_pos rfl, h.size_eq _ hk]
    · rw [update_of_ne (Ne.symm hk'), if_neg hk']
      exact h.size_eq k hk

end

/-- Different keys. -/
theorem numbered_of_injective (h : ∀ i < n, ∀ j < n, key i = key j → i = j) :
    Numbered key n (fun i => i) n (fun k => k) fun _ => 1 where
  id_lt _ hi := hi
  same i hi j hj := ⟨congrArg key, h i hi j hj⟩
  first_lt _ hk := hk
  id_first _ _ := rfl
  first_le _ _ := le_rfl
  ordered _ _ hkl _ := hkl
  size_eq k hk := by
    have hsum : ∀ n, count (fun i => i = k) n = if k < n then 1 else 0 := by
      intro n
      induction n with
      | zero => rfl
      | succ n ih =>
        rw [count_succ, ih]
        split_ifs <;> omega
    rw [hsum, if_pos hk]

/-- Equal keys. -/
theorem numbered_of_constant (hpos : 0 < n) (h : ∀ i < n, ∀ j < n, key i = key j) :
    Numbered key n (fun _ => 0) 1 (fun _ => 0) fun _ => n where
  id_lt _ _ := one_pos
  same i hi j hj := iff_of_true rfl (h i hi j hj)
  first_lt _ _ := hpos
  id_first k hk := (lt_one_iff.mp hk).symm
  first_le i _ := zero_le i
  ordered k l hkl hl := by omega
  size_eq k hk := by
    obtain rfl := lt_one_iff.mp hk
    simp

/-- If there are as many, every row has its own. -/
theorem Numbered.id_eq (h : Numbered key n id n first size) : ∀ i < n, id i = i := by
  have hfirst : ∀ d k, k + d + 1 = n → first k ≤ k := by
    intro d
    induction d with
    | zero =>
      intro k hk
      have := h.first_lt k (by omega)
      omega
    | succ d ih =>
      intro k hk
      have := ih (k + 1) (by omega)
      have := h.ordered k (k + 1) k.lt_succ_self (by omega)
      omega
  intro i hi
  have heq : first i = i := le_antisymm (hfirst (n - i - 1) i (by omega)) (h.le_first hi)
  have hid := h.id_first i hi
  rwa [heq] at hid

/-- A key that is none of the keys' first occurrences has not occurred. -/
theorem ne_of_first_ne (h : ∀ j < n, (∀ i < j, key i ≠ key j) → key j ≠ key n) :
    ∀ j < n, key j ≠ key n := by
  intro j hj heq
  classical
  have hex : ∃ i, key i = key n := ⟨j, heq⟩
  have hfirst := Nat.find_spec hex
  have hle : Nat.find hex ≤ j := Nat.find_min' hex heq
  refine h (Nat.find hex) (by omega) (fun i hi heq' => ?_) hfirst
  exact Nat.find_min hex hi (heq'.trans hfirst)

end Numbering
