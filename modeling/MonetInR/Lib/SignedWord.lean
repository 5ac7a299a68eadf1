import Mathlib.Algebra.Ring.Divisibility.Basic
import Mathlib.Data.Int.DivMod
import Mathlib.Tactic.Linarith

/-!
# Signed machine words

A signed word of `w` bits holds the numbers from `-2 ^ (w - 1)` on below `2 ^ (w - 1)`.  An
operation on signed words is undefined if its result is not among them; a conversion keeps the low
bits.

## Main definitions

* `Fits`, `signed`, `wrap`

## Main results

* `tmod_eq_tmod_iff`: when two numbers leave the same remainder
-/

namespace MonetInR.SignedWord

open Int

/-- A number that a word of `w` bits holds. -/
def Fits (w : ℕ) (v : ℤ) : Prop := -2 ^ (w - 1) ≤ v ∧ v < 2 ^ (w - 1)
  deriving Decidable

/-- The result of a signed operation, which is undefined if it does not fit. -/
def signed (w : ℕ) (v : ℤ) : Option ℤ := if Fits w v then some v else none

/-- Conversion to a word of `w` bits. -/
def wrap (w : ℕ) (v : ℤ) : ℤ := v.bmod (2 ^ w)

variable {w w' : ℕ} {v r : ℤ}

theorem signed_of_fits (h : Fits w v) : signed w v = some v := if_pos h

theorem Fits.mono (h : Fits w v) (hw : w ≤ w') : Fits w' v := by
  have hpow : (2 : ℤ) ^ (w - 1) ≤ 2 ^ (w' - 1) := by
    gcongr
    norm_num
  exact ⟨by linarith [h.1], by linarith [h.2]⟩

theorem fits_of_abs_lt (h : |v| < 2 ^ (w - 1)) : Fits w v := ⟨(abs_lt.mp h).1.le, (abs_lt.mp h).2⟩

/-- Both halves of the range have `2 ^ (w - 1)` numbers. -/
theorem cast_pow (hw : 0 < w) : ((2 ^ w : ℕ) : ℤ) = 2 * 2 ^ (w - 1) := by
  obtain ⟨n, rfl⟩ : ∃ n, w = n + 1 := ⟨w - 1, by omega⟩
  push_cast
  exact pow_succ' 2 n

theorem wrap_of_fits (hw : 0 < w) (h : Fits w v) : wrap w v = v := by
  have hpow := cast_pow hw
  have h1 := h.1
  have h2 := h.2
  apply bmod_eq_of_le <;> omega

theorem fits_wrap (hw : 0 < w) (v : ℤ) : Fits w (wrap w v) := by
  have hpow := cast_pow hw
  have h1 := le_bmod (x := v) (m := 2 ^ w) (by positivity)
  have h2 := bmod_lt (x := v) (m := 2 ^ w) (by positivity)
  constructor
  · change _ ≤ v.bmod (2 ^ w)
    omega
  · change v.bmod (2 ^ w) < _
    omega

/-- The number a conversion gives is the one that fits and has the same low bits. -/
theorem wrap_eq_iff {u : ℤ} (hw : 0 < w) (hu : Fits w u) :
    wrap w v = u ↔ ((2 ^ w : ℕ) : ℤ) ∣ v - u := by
  constructor
  · rintro rfl
    exact dvd_sub_comm.mp dvd_bmod_sub_self
  · intro h
    have hmod : v % (2 ^ w : ℕ) = u % (2 ^ w : ℕ) :=
      emod_eq_emod_iff_emod_sub_eq_zero.mpr (emod_eq_zero_of_dvd h)
    rw [← wrap_of_fits hw hu, wrap, wrap, bmod_def, bmod_def, hmod]

/-- A quotient fits unless the least number is divided by -1. -/
theorem fits_tdiv_iff (h : Fits w v) : Fits w (v.tdiv r) ↔ ¬ (v = -2 ^ (w - 1) ∧ r = -1) := by
  obtain ⟨h1, h2⟩ := h
  constructor
  · rintro hfits ⟨rfl, rfl⟩
    have := hfits.2
    rw [Int.tdiv_neg, Int.tdiv_one, neg_neg] at this
    exact lt_irrefl _ this
  unfold Fits
  rcases Nat.lt_or_ge r.natAbs 2 with hlt | hge
  · obtain rfl | rfl | rfl : r = 0 ∨ r = 1 ∨ r = -1 := by omega
    · rw [Int.tdiv_zero]
      omega
    · rw [Int.tdiv_one]
      omega
    · rw [Int.tdiv_neg, Int.tdiv_one]
      omega
  · have hdiv : (v.tdiv r).natAbs ≤ v.natAbs / 2 :=
      (natAbs_tdiv v r).trans_le (Nat.div_le_div_left hge (by norm_num))
    omega

theorem fits_tmod (h : Fits w v) (r : ℤ) : Fits w (v.tmod r) := by
  obtain ⟨h1, h2⟩ := h
  have hle := Nat.mod_le v.natAbs r.natAbs
  rw [← natAbs_tmod] at hle
  unfold Fits
  rcases le_or_gt 0 v with hpos | hneg
  · omega
  · have := tmod_nonneg r (show 0 ≤ -v by omega)
    rw [neg_tmod] at this
    omega

/-- **The remainders of two numbers agree** if the divisor divides the difference and either both
are 0 or the numbers have the same sign. -/
theorem tmod_eq_tmod_iff {a b : ℤ} :
    a.tmod r = b.tmod r ↔ r ∣ a - b ∧ (r ∣ a ∨ (0 ≤ a ↔ 0 ≤ b)) := by
  constructor
  · intro h
    have ha := mul_tdiv_add_tmod a r
    have hb := mul_tdiv_add_tmod b r
    have hdvd : r ∣ a - b := ⟨a.tdiv r - b.tdiv r, by rw [mul_sub]; omega⟩
    refine ⟨hdvd, or_iff_not_imp_left.mpr fun hra => ?_⟩
    have hrb : ¬ r ∣ b := mt (dvd_iff_dvd_of_dvd_sub hdvd).mpr hra
    -- a remainder other than 0 has the sign of the number
    have hsign : a.sign = b.sign := by
      have hsa := sign_tmod a r
      have hsb := sign_tmod b r
      rw [if_neg hra] at hsa
      rw [if_neg hrb, ← h] at hsb
      exact hsa.symm.trans hsb
    rw [← sign_nonneg_iff, hsign, sign_nonneg_iff]
  · rintro ⟨hdvd, hor⟩
    have hmod : a % r = b % r :=
      emod_eq_emod_iff_emod_sub_eq_zero.mpr (emod_eq_zero_of_dvd hdvd)
    have hiff : r ∣ a ↔ r ∣ b := dvd_iff_dvd_of_dvd_sub hdvd
    rw [tmod_eq_emod, tmod_eq_emod]
    congr 2
    apply if_congr _ rfl rfl
    tauto

end MonetInR.SignedWord
