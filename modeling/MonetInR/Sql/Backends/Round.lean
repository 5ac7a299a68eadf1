import Mathlib.Tactic.Linarith
import Mathlib.Tactic.Ring

/-!
# Rounding decimals

A decimal with `d` digits, `s` of them behind the point, is an integer.  `round_wrap` rounds it at
a position `r`, in front of the point if `r` is negative, with the powers of ten in the table
`scales`.  The table has 20 entries, of which 19 are given.

## Main definitions

* `scales`, `Decimal.round_wrap`

## Main results

* `Decimal.round_wrap_iff`: when rounding uses given entries only
-/

namespace MonetInR.Sql

/-- The entries that are given. -/
def scales : List ℤ := (List.range 19).map (10 ^ ·)

/-- A decimal type and the width of its integers, which are wide enough: 8 bits for 2 digits, 16 for
4, 32 for 9 and 64 for 18. -/
structure Decimal where
  bits : ℕ
  digits : ℕ
  scale : ℕ
  fits : 10 ^ digits < 2 ^ (bits - 1)
  digits_le : digits ≤ 18
  scale_le : scale ≤ digits

namespace Decimal

def nil (t : Decimal) : ℤ := -2 ^ (t.bits - 1)

/-- Rounds to a multiple of `p`, half of it away from zero. -/
def roundAt (v p : ℤ) : ℤ := (if 0 < v then v + p / 2 else v - p / 2).tdiv p * p

/-- There is no result if an entry is used that is not given, or if the assertion fails. -/
def roundWith (t : Decimal) (v dff : ℤ) : Option ℤ := do
  let p ← scales[dff.toNat]?
  if t.nil < roundAt v p ∧ roundAt v p < -t.nil then some (roundAt v p) else none

def round_wrap (t : Decimal) (v r : ℤ) : Option ℤ :=
  if v = t.nil then some t.nil
  else if t.digits < -r then some 0
  else if 0 < r ∧ r < t.scale then t.roundWith v (t.scale - r)
  else if r ≤ 0 ∧ 0 < -r + t.scale then t.roundWith v (-r + t.scale)
  else some v

/-- Nil, or a number with the digits of the type. -/
def IsValue (t : Decimal) (v : ℤ) : Prop := v = t.nil ∨ |v| < 10 ^ t.digits

theorem scales_getElem? (i : ℕ) : scales[i]? = if i ≤ 18 then some (10 ^ i) else none := by
  simp only [scales, List.getElem?_map]
  split_ifs with h
  · rw [List.getElem?_range (by omega)]
    rfl
  · rw [List.getElem?_eq_none (by simp; omega)]
    rfl

/-- Half of `p` is added, and the remainder left out. -/
def roundUp (p n : ℕ) : ℕ := (n + p / 2) / p * p

/-- Rounding does not look at the sign. -/
theorem roundAt_eq {p : ℕ} (hp : 0 < p) (n : ℕ) :
    roundAt n p = roundUp p n ∧ roundAt (-n) p = -roundUp p n := by
  have hneg : (-(n : ℤ) - p / 2).tdiv p * p = -roundUp p n := by
    rw [← neg_add', Int.neg_tdiv, neg_mul]
    rfl
  rcases Nat.eq_zero_or_pos n with rfl | hn
  · have hzero : roundUp p 0 = 0 := by
      rw [roundUp, Nat.zero_add, Nat.div_eq_of_lt (by omega), Nat.zero_mul]
    simp only [roundAt, Nat.cast_zero, neg_zero, lt_irrefl, if_false, hzero] at hneg ⊢
    exact ⟨hneg, hneg⟩
  · rw [roundAt, roundAt, if_pos (by omega), if_neg (by omega)]
    exact ⟨rfl, hneg⟩

theorem roundUp_roundUp {p : ℕ} (hp : 0 < p) (n : ℕ) : roundUp p (roundUp p n) = roundUp p n := by
  generalize hm : roundUp p n = m
  obtain rfl : (n + p / 2) / p * p = m := hm
  rw [roundUp, Nat.add_comm, Nat.add_mul_div_right _ _ hp, Nat.div_eq_of_lt (by omega),
    Nat.zero_add]

/-- At most one digit more comes out. -/
theorem roundUp_le {n d k : ℕ} (hn : n < 10 ^ d) : roundUp (10 ^ k) n ≤ 10 ^ d := by
  rcases le_or_gt k d with h | h
  · -- the power of ten is a multiple
    obtain ⟨c, hc⟩ := pow_dvd_pow 10 h
    have hpos : 0 < 10 ^ k := by positivity
    rw [roundUp, hc, Nat.mul_comm]
    apply Nat.mul_le_mul_left
    rw [← Nat.lt_succ_iff, Nat.div_lt_iff_lt_mul hpos, Nat.succ_mul, Nat.mul_comm, ← hc]
    omega
  · have hle : 10 * 10 ^ d ≤ 10 ^ k := by
      rw [← pow_succ']
      exact Nat.pow_le_pow_right (by decide) h
    rw [roundUp, Nat.div_eq_of_lt (by omega), Nat.zero_mul]
    exact Nat.zero_le _

variable {t : Decimal} {v r : ℤ} {k : ℕ}

theorem roundAt_spec (hv : |v| < 10 ^ t.digits) : |roundAt v (10 ^ k)| ≤ 10 ^ t.digits ∧
    roundAt (roundAt v (10 ^ k)) (10 ^ k) = roundAt v (10 ^ k) := by
  obtain ⟨n, hn⟩ := v.eq_nat_or_neg
  have hp : 0 < 10 ^ k := by positivity
  obtain ⟨hpos, hneg⟩ := roundAt_eq hp n
  obtain ⟨hpos', hneg'⟩ := roundAt_eq hp (roundUp (10 ^ k) n)
  rw [roundUp_roundUp hp] at hpos' hneg'
  have hle : n < 10 ^ t.digits → roundUp (10 ^ k) n ≤ 10 ^ t.digits := roundUp_le
  push_cast at hpos hneg hpos' hneg'
  zify at hle
  rcases hn with rfl | rfl
  · rw [hpos, hpos', Nat.abs_cast] at *
    exact ⟨hle hv, rfl⟩
  · rw [hneg, hneg', abs_neg, Nat.abs_cast] at *
    exact ⟨hle hv, rfl⟩

theorem nil_lt_of_abs (h : |v| ≤ 10 ^ t.digits) : t.nil < v ∧ v < -t.nil := by
  have hfits : (10 ^ t.digits : ℤ) < 2 ^ (t.bits - 1) := mod_cast t.fits
  rw [nil, neg_neg, ← abs_lt]
  exact h.trans_lt hfits

theorem roundWith_eq (hv : |roundAt v (10 ^ k)| ≤ 10 ^ t.digits) :
    t.roundWith v k = if k ≤ 18 then some (roundAt v (10 ^ k)) else none := by
  rw [roundWith, Int.toNat_natCast, scales_getElem?]
  split_ifs
  · exact if_pos (nil_lt_of_abs hv)
  · rfl

/-- Where an entry of the table is used. -/
theorem round_twice_iff (hv : |v| < 10 ^ t.digits)
    (hround : ∀ u ≠ t.nil, t.round_wrap u r = t.roundWith u k) :
    (∃ w, t.round_wrap v r = some w ∧ t.round_wrap w r = some w) ↔ k ≤ 18 := by
  obtain ⟨hle, hagain⟩ := roundAt_spec (k := k) hv
  rw [hround v (nil_lt_of_abs hv.le).1.ne', roundWith_eq hle]
  split_ifs with h
  · refine iff_of_true ⟨_, rfl, ?_⟩ h
    rw [hround _ (nil_lt_of_abs hle).1.ne', roundWith_eq (hagain.symm ▸ hle), hagain, if_pos h]
  · exact iff_of_false (by simp) h

/-- **Rounding uses given entries only, keeps its assertion and does nothing when it is repeated,
if and only if** the digits in front of the point that are rounded away and the scale are at most
18 together. -/
theorem round_wrap_iff (t : Decimal) (v : {v // t.IsValue v}) (r : ℤ) :
    (∃ w, t.round_wrap v r = some w ∧ t.round_wrap w r = some w) ↔
      v.1 = t.nil ∨ (r ≤ 0 → -r ≤ t.digits → -r + t.scale ≤ 18) := by
  obtain ⟨v, rfl | hv⟩ := v
  · exact iff_of_true ⟨_, if_pos rfl, if_pos rfl⟩ (.inl rfl)
  have hne := (nil_lt_of_abs hv.le).1.ne'
  have h18 := t.digits_le
  have hscale := t.scale_le
  by_cases hout : (t.digits : ℤ) < -r
  · have hzero : t.round_wrap 0 r = some 0 := by
      simp [round_wrap, hout, eq_comm]
    refine iff_of_true ⟨0, ?_, hzero⟩ (.inr fun _ h => absurd h (by omega))
    simp [round_wrap, hne, hout]
  by_cases hpos : 0 < r ∧ r < t.scale
  · rw [round_twice_iff (k := (t.scale - r).toNat) hv fun u hu => ?_]
    · omega
    · simp [round_wrap, hu, hout, hpos, hpos.2.le]
  by_cases hneg : r ≤ 0 ∧ 0 < -r + t.scale
  · rw [round_twice_iff (k := (-r + t.scale).toNat) hv fun u hu => ?_]
    · simp only [hne, false_or]
      omega
    · simp [round_wrap, hu, hout, hpos, hneg, hneg.2.le]
  · have hsame : t.round_wrap v r = some v := by
      simp only [round_wrap, hne, hout, hpos, hneg, if_false]
    exact iff_of_true ⟨v, hsame, hsame⟩ (.inr fun h _ => by omega)

/-- Rounding at ten digits in front of the point, with ten digits behind it, needs entry 20. -/
theorem round_wrap_outside : ∃ t : Decimal, t.digits = 18 ∧ t.scale = 10 ∧ t.bits = 64 ∧
    t.IsValue 5 ∧ t.round_wrap 5 (-10) = none :=
  ⟨⟨64, 18, 10, by decide, by decide, by decide⟩, rfl, rfl, rfl, .inr (by decide), by decide⟩

end Decimal

end MonetInR.Sql
