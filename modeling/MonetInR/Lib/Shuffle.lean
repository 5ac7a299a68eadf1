import Mathlib.Algebra.Group.End

/-!
# Arrays that are shuffled within a range

A sort in place moves the entries of an array around, and those of a second array along with them
if there is one.  What it does to both is one permutation of the positions, which leaves the
positions outside of the sorted range alone.

## Main definitions

* `Shuffle.Arrays`: an array, and possibly a second one
* `Shuffle.Arrays.swap`: exchange two entries
* `Shuffle.ShuffledIn`: the entries of a range have been permuted

## Main results

* `ShuffledIn.trans`, `ShuffledIn.mono`, `shuffledIn_swap`: how shuffles compose
* `ShuffledIn.forall_of`: what holds for all entries of the range still does
-/

namespace Shuffle

variable {α β : Type*}

/-- An array of keys, and an array of entries that go with them if there is one.  The arrays are
taken to go on behind their end. -/
structure Arrays (α β : Type*) where
  h : ℕ → α
  t : Option (ℕ → β)

namespace Arrays

/-- Position `i` gets what position `σ i` had. -/
def permute (m : Arrays α β) (σ : Equiv.Perm ℕ) : Arrays α β := ⟨m.h ∘ σ, m.t.map fun t => t ∘ σ⟩

/-- Exchange the entries at two positions. -/
def swap (m : Arrays α β) (i j : ℕ) : Arrays α β := m.permute (Equiv.swap i j)

theorem permute_one (m : Arrays α β) : m.permute 1 = m := by
  obtain ⟨h, t⟩ := m
  cases t <;> rfl

theorem permute_permute (m : Arrays α β) (σ τ : Equiv.Perm ℕ) :
    (m.permute σ).permute τ = m.permute (σ * τ) := by
  obtain ⟨h, t⟩ := m
  cases t <;> rfl

theorem swap_h (m : Arrays α β) (i j k : ℕ) :
    (m.swap i j).h k = if k = i then m.h j else if k = j then m.h i else m.h k := by
  change m.h (Equiv.swap i j k) = _
  rw [Equiv.swap_apply_def]
  split_ifs <;> rfl

theorem swap_h_of_ne (m : Arrays α β) {i j k : ℕ} (hi : k ≠ i) (hj : k ≠ j) :
    (m.swap i j).h k = m.h k := by
  rw [swap_h, if_neg hi, if_neg hj]

end Arrays

/-- The entries at the positions from `lo` up to `hi` have been permuted. -/
def ShuffledIn (lo hi : ℕ) (m m' : Arrays α β) : Prop :=
  ∃ σ : Equiv.Perm ℕ, (∀ i, i < lo ∨ hi ≤ i → σ i = i) ∧ m' = m.permute σ

section

variable {lo hi i : ℕ} {m m₁ m₂ m₃ : Arrays α β}

theorem shuffledIn_refl (lo hi : ℕ) (m : Arrays α β) : ShuffledIn lo hi m m :=
  ⟨1, fun _ _ => rfl, m.permute_one.symm⟩

theorem ShuffledIn.trans (h1 : ShuffledIn lo hi m₁ m₂) (h2 : ShuffledIn lo hi m₂ m₃) :
    ShuffledIn lo hi m₁ m₃ := by
  obtain ⟨σ, hσ, rfl⟩ := h1
  obtain ⟨τ, hτ, rfl⟩ := h2
  refine ⟨σ * τ, fun i hi => ?_, m₁.permute_permute σ τ⟩
  rw [Equiv.Perm.mul_apply, hτ i hi, hσ i hi]

/-- A shuffle of a part is one of the whole. -/
theorem ShuffledIn.mono {lo' hi' : ℕ} (h : ShuffledIn lo' hi' m₁ m₂) (hlo : lo ≤ lo')
    (hhi : hi' ≤ hi) : ShuffledIn lo hi m₁ m₂ := by
  obtain ⟨σ, hσ, rfl⟩ := h
  exact ⟨σ, fun i hi => hσ i (hi.imp (fun h => h.trans_le hlo) fun h => hhi.trans h), rfl⟩

theorem shuffledIn_swap {j : ℕ} (hi1 : lo ≤ i) (hi2 : i < hi) (hj1 : lo ≤ j) (hj2 : j < hi) :
    ShuffledIn lo hi m (m.swap i j) := by
  refine ⟨Equiv.swap i j, fun k hk => ?_, rfl⟩
  refine Equiv.swap_apply_of_ne_of_ne ?_ ?_
  · omega
  · omega

/-- A permutation that leaves the outside alone maps the range to itself. -/
theorem mem_range_of_fixes {σ : Equiv.Perm ℕ} (hσ : ∀ i, i < lo ∨ hi ≤ i → σ i = i) (hi1 : lo ≤ i)
    (hi2 : i < hi) : lo ≤ σ i ∧ σ i < hi := by
  by_contra hout
  have hfix : σ (σ i) = σ i := hσ (σ i) (by omega)
  have hi : σ i = i := σ.injective hfix
  rw [hi] at hout
  exact hout ⟨hi1, hi2⟩

section

variable (h : ShuffledIn lo hi m₁ m₂)

include h

/-- Positions outside of the range keep their entries. -/
theorem ShuffledIn.outside (hi' : i < lo ∨ hi ≤ i) : m₂.h i = m₁.h i := by
  obtain ⟨σ, hσ, rfl⟩ := h
  exact congrArg m₁.h (hσ i hi')

/-- The entries of the range are the same as before. -/
theorem ShuffledIn.forall_of {P : α → Prop} (hP : ∀ i, lo ≤ i → i < hi → P (m₁.h i)) (i : ℕ)
    (hi1 : lo ≤ i) (hi2 : i < hi) : P (m₂.h i) := by
  obtain ⟨σ, hσ, rfl⟩ := h
  obtain ⟨h1, h2⟩ := mem_range_of_fixes hσ hi1 hi2
  exact hP (σ i) h1 h2

theorem ShuffledIn.symm : ShuffledIn lo hi m₂ m₁ := by
  obtain ⟨σ, hσ, rfl⟩ := h
  refine ⟨σ⁻¹, fun i hi => ?_, ?_⟩
  · exact Equiv.Perm.inv_eq_iff_eq.mpr (hσ i hi).symm
  · rw [m₁.permute_permute, mul_inv_cancel, m₁.permute_one]

end

end

end Shuffle
