import Mathlib.Tactic.Order
import Mathlib.Tactic.Linarith

/-!
# Atoms

The kernel handles values of any type through a table of atom operations.  Searching, joining
and hashing use the comparison `atomCmp`, whose least value is the type's nil, the hash function
and the size of a stored value.

A column that is sorted downwards is searched with the comparison multiplied by `-1`.
`Before reverse` is the order that results, and the lemmas below let the proofs treat both
directions at once.
-/

namespace MonetInR.Gdk

/-- An atom type: values ordered by `atomCmp` with nil as the least one, together with the
hash function and the size of a value in bytes. -/
class Atom (α : Type*) extends LinearOrder α, OrderBot α where
  atomHash : α → ℕ
  atomSize : ℕ

section Compare

variable {α : Type*} [LinearOrder α]

/-- The sign of a comparison. -/
def atomCmp (a b : α) : ℤ := if a < b then -1 else if b < a then 1 else 0

theorem atomCmp_lt_zero {a b : α} : atomCmp a b < 0 ↔ a < b := by
  unfold atomCmp
  split_ifs with h1 h2 <;> simp [h1]

theorem atomCmp_pos {a b : α} : 0 < atomCmp a b ↔ b < a := by
  unfold atomCmp
  split_ifs with h1 h2
  · simp [h1.le]
  · simp [h2]
  · simp [h2]

@[simp] theorem atomCmp_eq_zero {a b : α} : atomCmp a b = 0 ↔ a = b := by
  unfold atomCmp
  split_ifs with h1 h2
  · simp [h1.ne]
  · simp [h2.ne']
  · simp [le_antisymm (not_lt.mp h2) (not_lt.mp h1)]

/-- The two values `reverse` can take. -/
def IsDirection (reverse : ℤ) : Prop := reverse = 1 ∨ reverse = -1

/-- `a` comes strictly before `b` when the comparison is multiplied by `reverse`. -/
def Before (reverse : ℤ) (a b : α) : Prop := reverse * atomCmp a b < 0
  deriving Decidable

variable {reverse : ℤ} {a b c : α}

@[simp] theorem before_one : Before 1 a b ↔ a < b := by
  rw [Before, one_mul, atomCmp_lt_zero]

@[simp] theorem before_neg_one : Before (-1) a b ↔ b < a := by
  rw [Before, neg_one_mul, neg_lt_zero, atomCmp_pos]

section

variable (h : IsDirection reverse)

include h

theorem before_neg : Before (-reverse) a b ↔ Before reverse b a := by
  rcases h with rfl | rfl <;> simp

theorem reverse_mul_pos :
    0 < reverse * atomCmp a b ↔ Before reverse b a := by
  rcases h with rfl | rfl
  · rw [one_mul, atomCmp_pos, before_one]
  · rw [neg_one_mul, neg_pos, atomCmp_lt_zero, before_neg_one]

theorem reverse_mul_eq_zero : reverse * atomCmp a b = 0 ↔ a = b := by
  rcases h with rfl | rfl <;> simp

theorem before_irrefl : ¬ Before reverse a a := by
  rcases h with rfl | rfl <;> simp

theorem eq_of_not_before (hab : ¬ Before reverse a b) (hba : ¬ Before reverse b a) : a = b := by
  rcases h with rfl | rfl <;> simp only [before_one, before_neg_one] at * <;> order

theorem not_before_trans (hab : ¬ Before reverse b a)
    (hbc : ¬ Before reverse c b) : ¬ Before reverse c a := by
  rcases h with rfl | rfl <;> simp only [before_one, before_neg_one] at * <;> order

section

variable (hab : Before reverse a b)

include hab

theorem Before.trans (hbc : Before reverse b c) : Before reverse a c := by
  rcases h with rfl | rfl <;> simp only [before_one, before_neg_one] at * <;> order

theorem Before.asymm : ¬ Before reverse b a := by
  rcases h with rfl | rfl <;> simp only [before_one, before_neg_one] at * <;> order

theorem Before.ne : a ≠ b := fun he => before_irrefl h (he ▸ hab)

theorem Before.trans_not (hbc : ¬ Before reverse c b) : Before reverse a c := by
  rcases h with rfl | rfl <;> simp only [before_one, before_neg_one] at * <;> order

end

theorem Before.not_trans (hab : ¬ Before reverse b a)
    (hbc : Before reverse b c) : Before reverse a c := by
  rcases h with rfl | rfl <;> simp only [before_one, before_neg_one] at * <;> order

end

end Compare

/-! ## The integer atoms -/

/-- The integer types. -/
inductive IntType
  | bte
  | sht
  | int
  | lng
  deriving DecidableEq, Repr

namespace IntType

/-- The width in bits. -/
def bits : IntType → ℕ
  | bte => 8
  | sht => 16
  | int => 32
  | lng => 64

/-- `GDK_bte_min` and its like: the least number, which stands for nil. -/
def min (t : IntType) : ℤ := -2 ^ (t.bits - 1)

/-- `GDK_bte_max` and its like. -/
def max (t : IntType) : ℤ := 2 ^ (t.bits - 1) - 1

theorem min_lt_max (t : IntType) : t.min < t.max := by
  cases t <;> decide

end IntType

/-- The values of an integer type. -/
def IntVal (t : IntType) : Type := { v : ℤ // t.min ≤ v ∧ v ≤ t.max }

/-- `mix_sht`. -/
def mixSht (x : ℕ) : ℕ := (x >>> 7) ^^^ x

/-- `mix_int`. -/
def mixInt (x : ℕ) : ℕ := (x >>> 7) ^^^ (x >>> 13) ^^^ (x >>> 21) ^^^ x

namespace IntVal

variable {t : IntType}

instance : LinearOrder (IntVal t) := Subtype.instLinearOrder _

instance : OrderBot (IntVal t) where
  bot := ⟨t.min, le_refl _, t.min_lt_max.le⟩
  bot_le v := v.2.1

/-- The bits of a value, as an unsigned number. -/
def unsigned (v : IntVal t) : ℕ := (v.1 % 2 ^ t.bits).toNat

/-- `hash_bte` and its like, before the mask. -/
def hash (v : IntVal t) : ℕ :=
  match t with
  | .bte => unsigned v
  | .sht => mixSht (unsigned v)
  | .int => mixInt (unsigned v)
  | .lng => mixInt (unsigned v % 2 ^ 32 ^^^ unsigned v / 2 ^ 32)

instance : Atom (IntVal t) where
  atomHash := hash
  atomSize := t.bits / 8

end IntVal

/-! ## The floating-point atom -/

/-- The values of type dbl as their comparison sees them: the numbers that the bits make with a sign
and a magnitude, from `GDK_dbl_min`, which stands for nil, to infinity.  There is only one zero.
The patterns of nan and minus infinity are left out. -/
def DblVal : Type := { v : ℤ // -0x7FEFFFFFFFFFFFFF ≤ v ∧ v ≤ 0x7FF0000000000000 }

/-- `hash_dbl` of the bits, before the mask. -/
def hashDbl (x : ℕ) : ℕ := mixInt (x % 2 ^ 32 ^^^ x / 2 ^ 32)

namespace DblVal

instance : LinearOrder DblVal := Subtype.instLinearOrder _

instance : OrderBot DblVal where
  bot := ⟨-0x7FEFFFFFFFFFFFFF, le_refl _, by decide⟩
  bot_le v := v.2.1

/-- The sign and the magnitude of a bit pattern. -/
def magnitude (x : ℕ) : ℤ := if x < 2 ^ 63 then x else -(x - 2 ^ 63)

/-- The bits are those of a number from `GDK_dbl_min` to infinity, not of a nan. -/
def IsNumber (x : ℕ) : Prop :=
  -0x7FEFFFFFFFFFFFFF ≤ magnitude x ∧ magnitude x ≤ 0x7FF0000000000000
  deriving Decidable

/-- The value of the bits of a number. -/
def ofBits (x : ℕ) : DblVal := if h : IsNumber x then ⟨magnitude x, h⟩ else ⊥

/-- The bits of a value, with a positive zero. -/
def bits (v : DblVal) : ℕ := if 0 ≤ v.1 then v.1.toNat else 2 ^ 63 + (-v.1).toNat

instance : Atom DblVal where
  atomHash v := hashDbl v.bits
  atomSize := 8

end DblVal

end MonetInR.Gdk
