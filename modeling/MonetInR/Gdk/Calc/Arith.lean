import Mathlib.Algebra.Order.Ring.Abs
import Mathlib.Tactic.Ring
import MonetInR.Lib.SignedWord
import MonetInR.Gdk.Calc.Convert

/-!
# Arithmetic kernels

The bulk operators apply one of a family of kernels to every row, one kernel for each combination
of a left, a right and a result type.  What a kernel does with one row is modelled here; the loop
around it is that of `convertImpl`.

Operands narrower than an `int` are promoted, so that an operation is done in a width of at least
32 bits.  A signed operation whose result does not fit its width is undefined, and so is the row.

## Main definitions

* `addRow`, `subRow`, `mulRow`: addition, subtraction and multiplication with a check
* `divRow`, `modRow`: division and remainder

## Main results

* `checked_exact`: the checked kernels are exact or report an overflow
* `divMod_exact_iff`: quotient and remainder are exact unless the left operand is cut
-/

namespace MonetInR.Gdk

open SignedWord Option

/-- The width in which C computes with operands of two types. -/
def width (t u : IntType) : ℕ := max 32 (max t.bits u.bits)

/-- The tests for nil that come first in every kernel. -/
def nilOr (t₁ t₂ : IntType) (lft rgt : ℤ) (row : Option Conv) : Option Conv :=
  if lft = t₁.min ∨ rgt = t₂.min then some .nil else row

section Kernels

variable (t₁ t₂ t₃ : IntType) (lft rgt : ℤ)

/-! ## Addition and subtraction

If the result type is wider than both operands, nothing can overflow and there is no check.
Otherwise the check compares with the bounds of the result type before the operation is done. -/

/-- `(TYPE3) lft + rgt`, stored as `TYPE3`. -/
def addPlain : Option Conv :=
  (signed (width t₃ t₂) (wrap t₃.bits lft + rgt)).map fun v => .value (wrap t₃.bits v)

/-- `(TYPE3) lft - rgt`, stored as `TYPE3`. -/
def subPlain : Option Conv :=
  (signed (width t₃ t₂) (wrap t₃.bits lft - rgt)).map fun v => .value (wrap t₃.bits v)

/-- The addition of `ADD_3TYPE`, that is, `ADD_WITH_CHECK`. -/
def addChecked : Option Conv :=
  if rgt < 1 then
    (signed (width t₃ t₂) (t₃.min - rgt)).bind fun m =>
      if m ≥ lft then some .overflow else addPlain t₂ t₃ lft rgt
  else
    (signed (width t₃ t₂) (t₃.max - rgt)).bind fun m =>
      if m < lft then some .overflow else addPlain t₂ t₃ lft rgt

/-- The subtraction of `SUB_3TYPE`. -/
def subChecked : Option Conv :=
  if rgt < 1 then
    (signed (width t₃ t₂) (t₃.max + rgt)).bind fun m =>
      if m < lft then some .overflow else subPlain t₂ t₃ lft rgt
  else
    (signed (width t₃ t₂) (t₃.min + rgt)).bind fun m =>
      if m ≥ lft then some .overflow else subPlain t₂ t₃ lft rgt

/-- The result type is wider than both operands, so that there is an `_enlarge` kernel. -/
def Enlarges : Prop := max t₁.bits t₂.bits < t₃.bits
  deriving Decidable

/-- `add_int_int_lng` and its like. -/
def addRow : Option Conv := nilOr t₁ t₂ lft rgt
    (if Enlarges t₁ t₂ t₃ then addPlain t₂ t₃ lft rgt else addChecked t₂ t₃ lft rgt)

/-- `sub_int_int_lng` and its like. -/
def subRow : Option Conv := nilOr t₁ t₂ lft rgt
    (if Enlarges t₁ t₂ t₃ then subPlain t₂ t₃ lft rgt else subChecked t₂ t₃ lft rgt)

/-! ## Multiplication

Products are computed in a type that is twice as wide.  There need not be such a type for `lng`;
what is done then depends on the compiler. -/

/-- `(TYPE3) lft * rgt`, stored as `TYPE3`. -/
def mulPlain : Option Conv :=
  (signed (width t₃ t₂) (wrap t₃.bits lft * rgt)).map fun v => .value (wrap t₃.bits v)

/-- `MUL4_WITH_CHECK`.  `TYPE4` is twice as wide as `TYPE3`. -/
def MUL4_WITH_CHECK : Option Conv :=
  (signed (max 32 (2 * t₃.bits)) (wrap (2 * t₃.bits) lft * rgt)).map fun p =>
    let c := wrap (2 * t₃.bits) p
    if c ≤ t₃.min ∨ c > t₃.max then .overflow else .value (wrap t₃.bits c)

/-- `_mul128` and the test of its two words. -/
def mul128 : Option Conv :=
  let clo := wrap 64 (lft * rgt)
  let chi := (lft * rgt) / 2 ^ 64
  some (if (chi = 0 ∧ clo ≥ 0) ∨ (chi = -1 ∧ clo < 0 ∧ clo ≠ IntType.lng.min) then .value clo
    else .overflow)

/-- The absolute value and the sign of an operand of `LNGMUL_CHECK`. -/
def absSign (a sign : ℤ) : Option (ℕ × ℤ) :=
  if a < 0 then (signed 64 (-a)).map fun v => (v.toNat, -sign) else some (a.toNat, sign)

/-- `LNGMUL_CHECK`: the product of two halves each.  The bits from 31 on of the middle part and
bit 63 of the sum must be 0. -/
def LNGMUL_CHECK : Option Conv := (absSign lft 1).bind fun a => (absSign rgt a.2).bind fun b =>
    let a1 := a.1 >>> 32 % 2 ^ 32
    let a2 := a.1 % 2 ^ 32
    let b1 := b.1 >>> 32 % 2 ^ 32
    let b2 := b.1 % 2 ^ 32
    let c := (a1 * b2 + a2 * b1) % 2 ^ 64
    let c' := (c <<< 32 + a2 * b2) % 2 ^ 64
    if (a1 = 0 ∨ b1 = 0) ∧ c &&& (2 ^ 33 - 1) <<< 31 = 0 ∧ c' &&& 1 <<< 63 = 0 then
      (signed 64 (b.2 * c')).map .value
    else some .overflow

/-- How the compiler multiplies numbers of 64 bits. -/
inductive LngMul
  /-- With `HAVE___INT128`. -/
  | int128
  /-- With `HAVE__MUL128`. -/
  | mul128
  | halves

/-- `mul_int_int_lng` and its like. -/
def mulRow (m : LngMul) : Option Conv := nilOr t₁ t₂ lft rgt
    (if Enlarges t₁ t₂ t₃ then mulPlain t₂ t₃ lft rgt
    else if t₃ ≠ .lng then MUL4_WITH_CHECK t₃ lft rgt
    else match m with
      | .int128 => MUL4_WITH_CHECK t₃ lft rgt
      | .mul128 => mul128 lft rgt
      | .halves => LNGMUL_CHECK lft rgt)

/-! ## Division -/

/-- The tests that come first in `DIV_3TYPE` and `MOD_3TYPE`.  Division by zero is an error, or
gives nil. -/
def nilOrZero (row : Option Conv) : Option Conv :=
  nilOr t₁ t₂ lft rgt (if rgt = 0 then some .overflow else row)

/-- `div_int_bte_int` and its like: the quotient is converted. -/
def divRow : Option Conv := nilOrZero t₁ t₂ lft rgt
    ((signed (width t₁ t₂) (lft.tdiv rgt)).map fun q => .value (wrap t₃.bits q))

/-- `mod_int_bte_bte` and its like: the left operand is converted.  The remainder is undefined if
the quotient is. -/
def modRow : Option Conv :=
  let l := wrap t₃.bits lft
  nilOrZero t₁ t₂ lft rgt
    ((signed (width t₃ t₂) (l.tdiv rgt)).map fun _ => .value (wrap t₃.bits (l.tmod rgt)))

end Kernels

/-! ## The checked kernels are exact

Operands other than nil are less than a power of 2 in absolute value, and so are the results that
can be stored. -/

section Exact

variable {t₁ t₂ t₃ t : IntType} {lft rgt x a : ℤ} {v : IntVal t}

theorem IntType.bits_pos (t : IntType) : 0 < t.bits := by
  cases t <;> decide

theorem ne_bot_iff : v ≠ ⊥ ↔ v.1 ≠ t.min := not_congr Subtype.ext_iff

theorem abs_val_lt (h : v ≠ ⊥) : |v.1| < 2 ^ (t.bits - 1) := by
  have hne := ne_bot_iff.mp h
  have h1 := v.2.1
  have h2 := v.2.2
  unfold IntType.min at h1 hne
  unfold IntType.max at h2
  exact abs_lt.mpr ⟨by omega, by omega⟩

theorem convertNumber_of_lt (h : |x| < 2 ^ (t₃.bits - 1)) :
    convertNumber (.num t₃) x = .value x := by
  have h := abs_lt.mp h
  exact if_pos ⟨h.1, by unfold IntType.max; omega⟩

theorem convertNumber_of_le (h : 2 ^ (t₃.bits - 1) ≤ |x|) :
    convertNumber (.num t₃) x = .overflow := by
  refine if_neg fun hx => absurd (abs_lt.mpr ⟨hx.1, ?_⟩) (not_lt.mpr h)
  have := hx.2
  unfold IntType.max at this
  omega

/-- `GDK_int_min - rgt` and its like do not overflow. -/
theorem bound_fits (h : Fits t₃.bits x) : signed (width t₃ t₂) x = some x :=
  signed_of_fits (h.mono (le_max_of_le_right (le_max_left _ _)))

/-- A result in range is stored as it is. -/
theorem plain_eq (h : |x| < 2 ^ (t₃.bits - 1)) :
    (signed (width t₃ t₂) x).map (fun v => Conv.value (wrap t₃.bits v)) =
      some (convertNumber (.num t₃) x) := by
  have hfits := fits_of_abs_lt h
  rw [bound_fits hfits, map_some, wrap_of_fits t₃.bits_pos hfits, convertNumber_of_lt h]

theorem abs_lt_mono {m n : ℕ} (h : |x| < 2 ^ m) (hmn : m ≤ n) : |x| < 2 ^ n :=
  h.trans_le (pow_le_pow_right₀ (by norm_num) hmn)

theorem abs_mul_lt {m n : ℕ} (hl : |lft| < 2 ^ m) (hr : |rgt| < 2 ^ n) :
    |lft * rgt| < 2 ^ (m + n) := by
  rw [abs_mul, pow_add]
  exact mul_lt_mul'' hl hr (abs_nonneg _) (abs_nonneg _)

section Sums

variable (hl : |lft| < 2 ^ (t₃.bits - 1)) (hr : |rgt| < 2 ^ (t₃.bits - 1))
include hl hr

theorem addChecked_eq :
    addChecked t₂ t₃ lft rgt = some (convertNumber (.num t₃) (lft + rgt)) := by
  have hl' := abs_lt.mp hl
  have hr' := abs_lt.mp hr
  have hwrap : wrap t₃.bits lft = lft := wrap_of_fits t₃.bits_pos (fits_of_abs_lt hl)
  have hover := @convertNumber_of_le t₃ (lft + rgt)
  unfold addChecked addPlain IntType.min IntType.max
  rw [hwrap]
  split_ifs with hneg
  · rw [bound_fits ⟨by omega, by omega⟩, bind_some]
    split_ifs with hge
    · rw [hover (by rw [abs_of_neg] <;> omega)]
    · exact plain_eq (abs_lt.mpr ⟨by omega, by omega⟩)
  · rw [bound_fits ⟨by omega, by omega⟩, bind_some]
    split_ifs with hlt
    · rw [hover (by rw [abs_of_pos] <;> omega)]
    · exact plain_eq (abs_lt.mpr ⟨by omega, by omega⟩)

theorem subChecked_eq :
    subChecked t₂ t₃ lft rgt = some (convertNumber (.num t₃) (lft - rgt)) := by
  have hl' := abs_lt.mp hl
  have hr' := abs_lt.mp hr
  have hwrap : wrap t₃.bits lft = lft := wrap_of_fits t₃.bits_pos (fits_of_abs_lt hl)
  have hover := @convertNumber_of_le t₃ (lft - rgt)
  unfold subChecked subPlain IntType.min IntType.max
  rw [hwrap]
  split_ifs with hneg
  · rw [bound_fits ⟨by omega, by omega⟩, bind_some]
    split_ifs with hlt
    · rw [hover (by rw [abs_of_pos] <;> omega)]
    · exact plain_eq (abs_lt.mpr ⟨by omega, by omega⟩)
  · rw [bound_fits ⟨by omega, by omega⟩, bind_some]
    split_ifs with hge
    · rw [hover (by rw [abs_of_neg] <;> omega)]
    · exact plain_eq (abs_lt.mpr ⟨by omega, by omega⟩)

theorem mul4WithCheck_eq :
    MUL4_WITH_CHECK t₃ lft rgt = some (convertNumber (.num t₃) (lft * rgt)) := by
  have hpos := t₃.bits_pos
  have hfits : Fits (2 * t₃.bits) (lft * rgt) :=
    fits_of_abs_lt (abs_lt_mono (abs_mul_lt hl hr) (by omega))
  have hwrap := wrap_of_fits (w := 2 * t₃.bits) (by omega) ((fits_of_abs_lt hl).mono (by omega))
  rw [MUL4_WITH_CHECK, hwrap, signed_of_fits (hfits.mono (le_max_right _ _)), map_some]
  rw [wrap_of_fits (by omega) hfits]
  by_cases hlt : |lft * rgt| < 2 ^ (t₃.bits - 1)
  · have habs := abs_lt.mp hlt
    rw [if_neg (by unfold IntType.min IntType.max; omega), convertNumber_of_lt hlt,
      wrap_of_fits t₃.bits_pos (fits_of_abs_lt hlt)]
  · rw [convertNumber_of_le (not_lt.mp hlt), if_pos]
    by_contra hnot
    unfold IntType.min IntType.max at hnot
    exact hlt (abs_lt.mpr ⟨by omega, by omega⟩)

end Sums

/-! ### Products of 64 bits

Without a type of 128 bits the factors are cut in halves.  One of the upper halves has to be 0, so
that the product has two parts, which are tested for bits that are too high. -/

theorem and_mask_eq_zero {n k c : ℕ} (hc : c < 2 ^ (k + n)) :
    c &&& (2 ^ n - 1) <<< k = 0 ↔ c < 2 ^ k := by
  have hshift : c &&& (2 ^ n - 1) <<< k = (c / 2 ^ k) <<< k := by
    have hmod : c / 2 ^ k &&& (2 ^ n - 1) = c / 2 ^ k := by
      rw [Nat.and_two_pow_sub_one_eq_mod, Nat.mod_eq_of_lt]
      exact Nat.div_lt_of_lt_mul (by rwa [← pow_add])
    rw [← hmod, Nat.shiftLeft_and_distrib]
    refine Nat.eq_of_testBit_eq fun i => ?_
    simp only [← Nat.shiftRight_eq_div_pow]
    by_cases hi : i ≥ k
    · simp [hi]
    · simp [hi]
  rw [hshift, Nat.shiftLeft_eq, Nat.mul_eq_zero, Nat.div_eq_zero_iff]
  have := Nat.two_pow_pos k
  omega

/-- One of the factors has no upper half, so that the product has two parts. -/
theorem halves_eq {x y z : ℕ} (hx : x < 2 ^ 32) (hy : y < 2 ^ 31) (hz : z < 2 ^ 32) :
    x * y < 2 ^ 63 ∧ (x * y < 2 ^ 31 → x * y * 2 ^ 32 + x * z < 2 ^ 64) := by
  have hxy : x * y ≤ x * 2 ^ 31 := Nat.mul_le_mul_left _ hy.le
  refine ⟨by omega, fun hlt => ?_⟩
  rcases Nat.eq_zero_or_pos y with rfl | hpos
  · have := Nat.mul_lt_mul'' hx hz
    omega
  · have hle : x * 1 ≤ x * y := Nat.mul_le_mul_left _ hpos
    have : x * z < 2 ^ 31 * 2 ^ 32 := Nat.mul_lt_mul'' (by omega) hz
    omega

/-- The parts of the two factors, and what the tests of `LNGMUL_CHECK` say of the product. -/
theorem halves_test {a b a1 a2 b1 b2 : ℕ} (ha : a = a1 * 2 ^ 32 + a2) (hb : b = b1 * 2 ^ 32 + b2)
    (ha1 : a1 < 2 ^ 31) (hb1 : b1 < 2 ^ 31) (ha2 : a2 < 2 ^ 32) (hb2 : b2 < 2 ^ 32) {c c' : ℕ}
    (hc : c = (a1 * b2 + a2 * b1) % 2 ^ 64) (hc' : c' = (c <<< 32 + a2 * b2) % 2 ^ 64) :
    ((a1 = 0 ∨ b1 = 0) ∧ c &&& (2 ^ 33 - 1) <<< 31 = 0 ∧ c' &&& 1 <<< 63 = 0 ↔ a * b < 2 ^ 63) ∧
      (a * b < 2 ^ 63 → c' = a * b) := by
  have hmask := and_mask_eq_zero (n := 33) (k := 31) (c := c) (by omega)
  have hmask' : c' &&& 1 <<< 63 = 0 ↔ c' < 2 ^ 63 :=
    and_mask_eq_zero (n := 1) (k := 63) (by omega)
  have hprod : a * b = a1 * b1 * 2 ^ 64 + (a1 * b2 + a2 * b1) * 2 ^ 32 + a2 * b2 := by
    rw [ha, hb]
    ring
  have hA := halves_eq ha2 hb1 hb2
  have hB := halves_eq hb2 ha1 ha2
  rw [mul_comm b2 a1, mul_comm b2 a2] at hB
  by_cases hzero : a1 = 0 ∨ b1 = 0
  · rcases hzero with rfl | rfl
    · omega
    · omega
  · -- the product of the upper halves is at least 1
    have hpos : 1 ≤ a1 * b1 := Nat.mul_pos (by omega) (by omega)
    exact ⟨iff_of_false (fun h => hzero h.1) (by omega), fun h => by omega⟩

theorem absSign_eq (sign : ℤ) (h : |a| < 2 ^ 63) :
    ∃ s, absSign a sign = some (a.natAbs, s) ∧ s * a.natAbs = sign * a := by
  have h := abs_lt.mp h
  unfold absSign
  by_cases hneg : a < 0
  · refine ⟨-sign, ?_, ?_⟩
    · rw [if_pos hneg, signed_of_fits (show Fits 64 (-a) from ⟨by omega, by omega⟩),
        map_some, show (-a).toNat = a.natAbs by omega]
    · rw [show (a.natAbs : ℤ) = -a by omega, neg_mul_neg]
  · refine ⟨sign, ?_, ?_⟩
    · rw [if_neg hneg, show a.toNat = a.natAbs by omega]
    · rw [show (a.natAbs : ℤ) = a by omega]

theorem split_eq (h : |a| < 2 ^ 63) :
    a.natAbs = a.natAbs >>> 32 % 2 ^ 32 * 2 ^ 32 + a.natAbs % 2 ^ 32 ∧
      a.natAbs >>> 32 % 2 ^ 32 < 2 ^ 31 := by
  rw [Int.abs_eq_natAbs] at h
  constructor <;> omega

/-- **The product of 64 bits made of halves** is exact. -/
theorem lngmulCheck_eq (hl : |lft| < 2 ^ 63) (hr : |rgt| < 2 ^ 63) :
    LNGMUL_CHECK lft rgt = some (convertNumber (.num .lng) (lft * rgt)) := by
  obtain ⟨s, hs, hsl⟩ := absSign_eq 1 hl
  obtain ⟨s', hr', hsr⟩ := absSign_eq s hr
  obtain ⟨ha, ha1⟩ := split_eq hl
  obtain ⟨hb, hb1⟩ := split_eq hr
  have hmul : |lft * rgt| = (lft.natAbs * rgt.natAbs : ℕ) := by
    rw [Int.abs_eq_natAbs, Int.natAbs_mul]
  -- the sign belongs to the product
  have hsign : s' * (lft.natAbs * rgt.natAbs : ℕ) = lft * rgt := by
    rw [Nat.cast_mul, mul_left_comm, hsr, ← mul_assoc, mul_comm _ s, hsl, one_mul]
  rw [LNGMUL_CHECK, hs, bind_some, hr']
  obtain ⟨htest, heq⟩ := halves_test ha hb ha1 hb1 (Nat.mod_lt _ (by norm_num))
    (Nat.mod_lt _ (by norm_num)) rfl rfl
  by_cases hsmall : lft.natAbs * rgt.natAbs < 2 ^ 63
  · have habs : |lft * rgt| < 2 ^ (IntType.lng.bits - 1) := by
      rw [hmul]
      exact_mod_cast hsmall
    refine (if_pos (htest.mpr hsmall)).trans ?_
    rw [heq hsmall, hsign, convertNumber_of_lt habs,
      signed_of_fits (w := 64) (fits_of_abs_lt habs), map_some]
  · refine (if_neg (mt htest.mp hsmall)).trans ?_
    rw [convertNumber_of_le]
    rw [hmul]
    exact_mod_cast not_lt.mp hsmall

theorem mul128_eq : mul128 lft rgt = some (convertNumber (.num .lng) (lft * rgt)) := by
  obtain ⟨h1, h2⟩ := fits_wrap (w := 64) (by norm_num) (lft * rgt)
  have hdvd : _ ∣ wrap 64 (lft * rgt) - lft * rgt := Int.dvd_bmod_sub_self (m := 2 ^ 64)
  have hlt := @convertNumber_of_lt .lng (lft * rgt)
  have hle := @convertNumber_of_le .lng (lft * rgt)
  unfold mul128
  rw [show IntType.lng.min = -2 ^ 63 from rfl]
  generalize lft * rgt = p at *
  generalize wrap 64 p = clo at *
  dsimp only
  by_cases hp : |p| < 2 ^ 63
  · have habs := abs_lt.mp hp
    obtain rfl : clo = p := by omega
    rw [hlt hp, if_pos (by omega)]
  · have habs := mt abs_lt.mpr hp
    rw [hle (not_lt.mp hp), if_neg (by omega)]

/-! ### All checked kernels -/

/-- The operators with a check. -/
inductive CheckedOp
  | add
  | sub
  | mul

/-- The exact result. -/
def CheckedOp.exact (lft rgt : ℤ) : CheckedOp → ℤ
  | .add => lft + rgt
  | .sub => lft - rgt
  | .mul => lft * rgt

/-- What the kernel of an operator does with one row. -/
def CheckedOp.row (t₁ t₂ t₃ : IntType) (m : LngMul) (lft rgt : ℤ) : CheckedOp → Option Conv
  | .add => addRow t₁ t₂ t₃ lft rgt
  | .sub => subRow t₁ t₂ t₃ lft rgt
  | .mul => mulRow t₁ t₂ t₃ lft rgt m

/-- A type that is wider than two others is at least twice as wide. -/
theorem Enlarges.two_mul_le (h : Enlarges t₁ t₂ t₃) :
    2 * t₁.bits ≤ t₃.bits ∧ 2 * t₂.bits ≤ t₃.bits := by
  revert h
  cases t₁ <;> cases t₂ <;> cases t₃ <;> decide

theorem abs_exact_lt (h : Enlarges t₁ t₂ t₃) (hl : |lft| < 2 ^ (t₁.bits - 1))
    (hr : |rgt| < 2 ^ (t₂.bits - 1)) (op : CheckedOp) :
    |op.exact lft rgt| < 2 ^ (t₃.bits - 1) := by
  obtain ⟨h1, h2⟩ := h.two_mul_le
  have hp1 := t₁.bits_pos
  have hl' := abs_lt_mono hl (by omega : _ ≤ t₃.bits - 2)
  have hr' := abs_lt_mono hr (by omega : _ ≤ t₃.bits - 2)
  have hdouble : (2 : ℤ) ^ (t₃.bits - 1) = 2 ^ (t₃.bits - 2) + 2 ^ (t₃.bits - 2) := by
    rw [← two_mul, ← pow_succ']
    congr 1
    omega
  cases op with
  | add => exact hdouble ▸ (abs_add_le lft rgt).trans_lt (add_lt_add hl' hr')
  | sub => exact hdouble ▸ (abs_sub lft rgt).trans_lt (add_lt_add hl' hr')
  | mul => exact abs_lt_mono (abs_mul_lt hl hr) (by omega)

/-- **The checked kernels are exact.**  For operands that are not nil, a kernel stores the exact
result if it fits the result type and is not its nil, and reports an overflow otherwise; no signed
operation on the way is undefined. -/
theorem checked_exact (op : CheckedOp) (m : LngMul) (h : max t₁.bits t₂.bits ≤ t₃.bits)
    (a : IntVal t₁) (b : IntVal t₂) (ha : a ≠ ⊥) (hb : b ≠ ⊥) :
    op.row t₁ t₂ t₃ m a.1 b.1 = some (convertNumber (.num t₃) (op.exact a.1 b.1)) := by
  have hl := abs_val_lt ha
  have hr := abs_val_lt hb
  have hnil : ∀ row, nilOr t₁ t₂ a.1 b.1 row = row := fun row =>
    if_neg (not_or.mpr ⟨ne_bot_iff.mp ha, ne_bot_iff.mp hb⟩)
  have hl₃ := abs_lt_mono hl (Nat.sub_le_sub_right (le_of_max_le_left h) 1)
  have hr₃ := abs_lt_mono hr (Nat.sub_le_sub_right (le_of_max_le_right h) 1)
  have hwrap : wrap t₃.bits a.1 = a.1 := wrap_of_fits t₃.bits_pos (fits_of_abs_lt hl₃)
  by_cases henl : Enlarges t₁ t₂ t₃
  · have hlt := abs_exact_lt henl hl hr op
    cases op with
    | add => exact (hnil _).trans ((if_pos henl).trans
        (by rw [addPlain, hwrap]; exact plain_eq hlt))
    | sub => exact (hnil _).trans ((if_pos henl).trans
        (by rw [subPlain, hwrap]; exact plain_eq hlt))
    | mul => exact (hnil _).trans ((if_pos henl).trans
        (by rw [mulPlain, hwrap]; exact plain_eq hlt))
  · cases op with
    | add => exact (hnil _).trans ((if_neg henl).trans (addChecked_eq hl₃ hr₃))
    | sub => exact (hnil _).trans ((if_neg henl).trans (subChecked_eq hl₃ hr₃))
    | mul =>
      refine (hnil _).trans ((if_neg henl).trans ?_)
      by_cases hlng : t₃ = .lng
      · subst hlng
        cases m with
        | int128 => exact mul4WithCheck_eq hl₃ hr₃
        | mul128 => exact mul128_eq
        | halves => exact lngmulCheck_eq hl₃ hr₃
      · rw [if_pos hlng]
        exact mul4WithCheck_eq hl₃ hr₃

/-- Two numbers of 64 bits whose product is just too large. -/
theorem checked_exact_lng :
    CheckedOp.mul.row .lng .lng .lng .halves (2 ^ 32) (2 ^ 31) = some .overflow :=
  @checked_exact .lng .lng .lng .mul .halves (by decide) ⟨2 ^ 32, by decide⟩ ⟨2 ^ 31, by decide⟩
    (ne_bot_iff.mpr (by decide)) (ne_bot_iff.mpr (by decide))

end Exact

/-! ## Quotients and remainders

The quotient is converted after the division, but for the remainder it is the left operand that is
converted, before the division. -/

section Division

variable {t₁ t₂ t₃ t₄ : IntType}

/-- Both the quotient and the remainder are those of the full left operand. -/
def DivModExact (t₁ t₂ t₃ t₄ : IntType) (lft rgt : ℤ) : Prop :=
  divRow t₁ t₂ t₃ lft rgt = some (.value (lft.tdiv rgt)) ∧
  modRow t₁ t₂ t₄ lft rgt = some (.value (lft.tmod rgt))

/-- **The left operands whose remainder survives the conversion to `TYPE3`.**  The divisor divides
what the conversion takes away, and either there is no remainder or the sign is kept.  In 32 bits
the least number may not be divided by -1. -/
def RemainderKept (t : IntType) (lft rgt : ℤ) : Prop :=
  rgt ∣ lft - wrap t.bits lft ∧ (rgt ∣ lft ∨ (0 ≤ lft ↔ 0 ≤ wrap t.bits lft)) ∧
    ¬ (t = .int ∧ wrap t.bits lft = t.min ∧ rgt = -1)

theorem abs_tdiv_le (a r : ℤ) : |a.tdiv r| ≤ |a| := by
  rw [Int.abs_eq_natAbs, Int.abs_eq_natAbs]
  exact_mod_cast Int.natAbs_tdiv_le_natAbs a r

/-- The quotient of two operands that are not nil is exact, since `TYPE3` is no narrower than
`TYPE1`. -/
theorem divRow_eq (h : t₁.bits ≤ t₃.bits) {lft rgt : ℤ} (hl : |lft| < 2 ^ (t₁.bits - 1))
    (hnil : ¬ (lft = t₁.min ∨ rgt = t₂.min)) (hr : rgt ≠ 0) :
    divRow t₁ t₂ t₃ lft rgt = some (.value (lft.tdiv rgt)) := by
  have hfits : Fits t₁.bits (lft.tdiv rgt) := fits_of_abs_lt ((abs_tdiv_le lft rgt).trans_lt hl)
  have hw : t₁.bits ≤ width t₁ t₂ := le_max_of_le_right (le_max_left _ _)
  rw [divRow, nilOrZero, nilOr, if_neg hnil, if_neg hr, signed_of_fits (hfits.mono hw),
    map_some, wrap_of_fits t₃.bits_pos (hfits.mono h)]

/-- A remainder is undefined only in 32 bits: where the operand is cut the divisor is no wider than
the result, and narrower types are promoted. -/
theorem quotient_defined_iff (h : min t₁.bits t₂.bits ≤ t₄.bits) {lft : ℤ} (rgt : ℤ)
    (hl : |lft| < 2 ^ (t₁.bits - 1)) :
    Fits (width t₄ t₂) ((wrap t₄.bits lft).tdiv rgt) ↔
      ¬ (t₄ = .int ∧ wrap t₄.bits lft = t₄.min ∧ rgt = -1) := by
  have hfits := fits_wrap t₄.bits_pos lft
  by_cases hleast : wrap t₄.bits lft = t₄.min ∧ rgt = -1
  · obtain ⟨hmin, rfl⟩ := hleast
    -- an operand that is not cut is not the least number
    have hcut : t₄.bits < t₁.bits := by
      by_contra hge
      have habs := abs_lt_mono hl (Nat.sub_le_sub_right (not_lt.mp hge) 1)
      rw [wrap_of_fits t₄.bits_pos (fits_of_abs_lt habs)] at hmin
      exact absurd (abs_lt.mp habs).1 (by rw [hmin]; exact lt_irrefl _)
    have ht2 : t₂.bits ≤ t₄.bits := by omega
    rw [hmin]
    revert hcut ht2
    cases t₄ <;> cases t₂ <;> cases t₁ <;> decide
  · refine iff_of_true ?_ fun hand => hleast hand.2
    exact ((fits_tdiv_iff hfits).mpr hleast).mono (le_max_of_le_right (le_max_left _ _))

/-- **Quotient and remainder are exact** if and only if the remainder survives the conversion of
the left operand to the result type of the remainder. -/
theorem divMod_exact_iff (hdiv : t₁.bits ≤ t₃.bits) (hmod : min t₁.bits t₂.bits ≤ t₄.bits)
    (a : IntVal t₁) (b : IntVal t₂) (ha : a ≠ ⊥) (hb : b ≠ ⊥) (hzero : b.1 ≠ 0) :
    DivModExact t₁ t₂ t₃ t₄ a.1 b.1 ↔ RemainderKept t₄ a.1 b.1 := by
  have hl := abs_val_lt ha
  have hnil : ¬ (a.1 = t₁.min ∨ b.1 = t₂.min) := not_or.mpr ⟨ne_bot_iff.mp ha, ne_bot_iff.mp hb⟩
  have hdef := quotient_defined_iff hmod b.1 hl
  have hrem := fits_tmod (fits_wrap t₄.bits_pos a.1) b.1
  have hrow : modRow t₁ t₂ t₄ a.1 b.1 =
      if Fits (width t₄ t₂) ((wrap t₄.bits a.1).tdiv b.1) then
        some (.value ((wrap t₄.bits a.1).tmod b.1)) else none := by
    unfold modRow nilOrZero nilOr signed
    rw [if_neg hnil, if_neg hzero, wrap_of_fits t₄.bits_pos hrem]
    split_ifs <;> rfl
  unfold DivModExact RemainderKept
  rw [divRow_eq hdiv hl hnil hzero, hrow, ← hdef, ← and_assoc, ← tmod_eq_tmod_iff]
  split_ifs with hfits
  · simp only [some.injEq, Conv.value.injEq, true_and]
    exact ⟨fun h => ⟨h.symm, hfits⟩, fun h => h.1.symm⟩
  · exact iff_of_false (fun h => nomatch h.2) fun h => hfits h.2

/-- A left operand that fits the result type. -/
theorem divMod_exact_small : DivModExact .sht .bte .sht .bte 100 7 :=
  (@divMod_exact_iff .sht .bte .sht .bte (by decide) (by decide) ⟨100, by decide⟩ ⟨7, by decide⟩
    (ne_bot_iff.mpr (by decide)) (ne_bot_iff.mpr (by decide)) (by decide)).mpr
    (by unfold RemainderKept; decide)

/-- The remainder of 300 by 7 is that of 44: `mod_sht_bte_bte` returns 2 and not 6. -/
theorem divMod_cut : ¬ DivModExact .sht .bte .sht .bte 300 7 ∧
    modRow .sht .bte .bte 300 7 = some (.value 2) ∧ (300 : ℤ).tmod 7 = 6 := by
  unfold DivModExact
  decide

end Division

end MonetInR.Gdk
