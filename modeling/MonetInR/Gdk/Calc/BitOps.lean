import Mathlib.Data.Nat.Bitwise
import MonetInR.Gdk.Calc.Arith
import MonetInR.Gdk.Calc.BulkConvert

/-!
# Bit operators

`BATcalcnot`, `BATcalcor`, `BATcalcand`, `BATcalcxor`, `BATcalclsh` and `BATcalcrsh` combine the
bits of integers.  Nil is the number whose sign bit alone is set, so that an operator can make it
of operands that are not nil; the loops count only the nils they write for other reasons.

The logical operators on type `bit` are left out.

## Main definitions

* `BATcalcnot`, `BitOp.bulk`
* `FlagsTrue`: the nil flags are true of the values stored
* `BitOp.MakesNil`: the operands that an operator makes nil of

## Main results

* `bitCall_flags_iff`
-/

namespace MonetInR.Gdk

open SignedWord Finset Nat

/-! ## One row

The operators work on the bits of the numbers, as C does on numbers in two's complement. -/

/-- The bits of a number. -/
def bitsOf (t : IntType) (v : ℤ) : ℕ := (v % 2 ^ t.bits).toNat

/-- The binary operators. -/
inductive BitOp
  | or
  | and
  | xor
  | lsh
  | rsh
  deriving DecidableEq

namespace BitOp

/-- `OR`, `AND`, `XOR`, `LSH` and `RSH`, stored in the type of the left operand. -/
def apply (t : IntType) (l r : ℤ) : BitOp → ℤ
  | or => wrap t.bits (bitsOf t l ||| bitsOf t r : ℕ)
  | and => wrap t.bits (bitsOf t l &&& bitsOf t r : ℕ)
  | xor => wrap t.bits (bitsOf t l ^^^ bitsOf t r : ℕ)
  | lsh => wrap t.bits (l * 2 ^ r.toNat)
  | rsh => l / 2 ^ r.toNat

def isShift (op : BitOp) : Prop := op = lsh ∨ op = rsh
  deriving Decidable

end BitOp

/-- `SHIFT_CHECK`. -/
def shiftCheck (t : IntType) (r : ℤ) : Prop := r < 0 ∨ r ≥ t.bits
  deriving Decidable

/-- The body of `BINARY_3TYPE_FUNC_nonil` if `nonil` holds, and that of `BINARY_3TYPE_FUNC` and
`BINARY_3TYPE_FUNC_CHECK` otherwise. -/
def bitRow (op : BitOp) (nonil : Bool) (t₁ t₂ : IntType) (l r : ℤ) : Conv :=
  if nonil then .value (op.apply t₁ l r)
  else if l = t₁.min ∨ r = t₂.min then .nil
  else if op.isShift ∧ shiftCheck t₁ r then .overflow
  else .value (op.apply t₁ l r)

/-- The body of `UNARY_2TYPE_FUNC` with `NOT`. -/
def notRow (nonil : Bool) (t : IntType) (v : ℤ) : Conv :=
  if nonil = false ∧ v = t.min then .nil else .value (-v - 1)

/-! ## The operators -/

/-- The column an operator returns. -/
structure Calculated where
  hseqbase : ℕ
  count : ℕ
  slot : ℕ → Option ℤ
  tsorted : Bool
  trevsorted : Bool
  tkey : Bool
  tnil : Bool
  tnonil : Bool

/-- `BATcalcnot`. -/
def BATcalcnot {t : IntType} (b : IntColumn t) (s : Option Candidates) : Option Calculated :=
  let c := CANDINIT b.toColumn s
  (convertImpl c b.hseqbase false false t.min
    (fun i => notRow (b.tnonil && c.cand.isNone) t (b.value i).1) b.count).map fun st =>
      { hseqbase := b.hseqbase, count := b.count, slot := st.slot
        tsorted := st.nils = 0 ∧ b.trevsorted = true
        trevsorted := st.nils = 0 ∧ b.tsorted = true
        tkey := b.tkey, tnil := st.nils ≠ 0, tnonil := st.nils = 0 }

/-- The operands of a binary operator: two columns (`BATcalcor`), or a column and a constant
(`BATcalcorcst`, `BATcalccstor`). -/
inductive Args (t₁ t₂ : IntType)
  | both (b₁ : IntColumn t₁) (b₂ : IntColumn t₂)
  | cstRight (b : IntColumn t₁) (v : IntVal t₂)
  | cstLeft (v : IntVal t₁) (b : IntColumn t₂)

namespace Args

variable {t₁ t₂ : IntType}

def lft : Args t₁ t₂ → ℕ → IntVal t₁
  | both b₁ _, i => b₁.value i
  | cstRight b _, i => b.value i
  | cstLeft v _, _ => v

def rgt : Args t₁ t₂ → ℕ → IntVal t₂
  | both _ b₂, i => b₂.value i
  | cstRight _ v, _ => v
  | cstLeft _ b, i => b.value i

def hseqbase : Args t₁ t₂ → ℕ
  | both b₁ _ => b₁.hseqbase
  | cstRight b _ => b.hseqbase
  | cstLeft _ b => b.hseqbase

def count : Args t₁ t₂ → ℕ
  | both b₁ _ => b₁.count
  | cstRight b _ => b.count
  | cstLeft _ b => b.count

/-- `CANDINIT` of the first column. -/
def cands (s : Option Candidates) : Args t₁ t₂ → CandRange
  | both b₁ _ => CANDINIT b₁.toColumn s
  | cstRight b _ => CANDINIT b.toColumn s
  | cstLeft _ b => CANDINIT b.toColumn s

/-- Neither operand has a nil, as far as the flags say. -/
def nonil : Args t₁ t₂ → Bool
  | both b₁ b₂ => b₁.tnonil && b₂.tnonil
  | cstRight b v => b.tnonil && v.1 ≠ t₂.min
  | cstLeft v b => b.tnonil && v.1 ≠ t₁.min

/-- `checkbats`. -/
def sameSize : Args t₁ t₂ → Prop
  | both b₁ b₂ => b₁.count = b₂.count
  | _ => True

instance : (a : Args t₁ t₂) → Decidable a.sameSize
  | both b₁ b₂ => inferInstanceAs (Decidable (b₁.count = b₂.count))
  | cstRight .. => isTrue trivial
  | cstLeft .. => isTrue trivial

end Args

namespace BitOp

variable {t₁ t₂ : IntType}

/-- The argument `nonil` of the loop.  `BATcalcand`, and `BATcalcor` of two columns, pass it also
if there is an array of candidates. -/
def skipsTests : BitOp → Args t₁ t₂ → CandRange → Bool
  | or, .both b₁ b₂, _ => (Args.both b₁ b₂).nonil
  | and, a, _ => a.nonil
  | or, a, c | xor, a, c => c.cand.isNone && a.nonil
  | _, _, _ => false

/-- The loop without tests does not look at the array of candidates. -/
def range (op : BitOp) (a : Args t₁ t₂) (s : Option Candidates) : CandRange :=
  if op.skipsTests a (a.cands s) then { a.cands s with cand := none } else a.cands s

/-- `BATcalcor`, `BATcalcand`, `BATcalcxor`, `BATcalclsh` and `BATcalcrsh`.  Only shifts look at
`abort`. -/
def bulk (op : BitOp) (a : Args t₁ t₂) (s : Option Candidates) (abort : Bool) : Option Calculated :=
  if ¬ a.sameSize ∨ ¬ op.isShift ∧ t₁ ≠ t₂ then none
  else
    (convertImpl (op.range a s) a.hseqbase false abort t₁.min
      (fun i => bitRow op (op.skipsTests a (a.cands s)) t₁ t₂ (a.lft i).1 (a.rgt i).1)
      a.count).map fun st =>
        { hseqbase := a.hseqbase, count := a.count, slot := st.slot
          tsorted := a.count ≤ 1 ∨ st.nils = a.count
          trevsorted := a.count ≤ 1 ∨ st.nils = a.count
          tkey := a.count ≤ 1, tnil := st.nils ≠ 0, tnonil := st.nils = 0 }

end BitOp

/-- A call of one of the operators. -/
inductive BitCall (t₁ t₂ : IntType)
  | not (b : IntColumn t₁)
  | binary (op : BitOp) (a : Args t₁ t₂) (abort : Bool)

/-- What the operator returns. -/
def BitCall.run {t₁ t₂ : IntType} (s : Option Candidates) : BitCall t₁ t₂ → Option Calculated
  | not b => BATcalcnot b s
  | binary op a abort => op.bulk a s abort

/-! ## The flags -/

/-- The nil flags are true of the values stored. -/
def FlagsTrue (nil : ℤ) (r : Calculated) : Prop :=
  (r.tnil = true → ∃ p < r.count, r.slot p = some nil) ∧
  (r.tnonil = true → ∀ p < r.count, r.slot p ≠ some nil)

/-- **The operands that an operator makes nil of**, though they are not nil. -/
def BitOp.MakesNil (t : IntType) (l r : ℤ) : BitOp → Prop
  | or => False
  -- no bit but the sign is in both
  | and => l < 0 ∧ r < 0 ∧ (l - t.min).toNat &&& (r - t.min).toNat = 0
  -- no bit but the sign is different
  | xor => l - r = 2 ^ (t.bits - 1) ∨ r - l = 2 ^ (t.bits - 1)
  -- of the bits that stay the lowest alone is set, and becomes the sign
  | lsh => 2 ^ t.bits ∣ l * 2 ^ r.toNat - t.min
  | rsh => False

/-- Row `p` is in the range of the loop, and a candidate if the loop looks at them. -/
def Covered (c : CandRange) (candoff p : ℕ) : Prop := c.start ≤ p ∧ p < c.stop ∧ c.Seen candoff p

namespace BitCall

variable {t₁ t₂ : IntType}

/-- Row `p` gets a value of the operator, and is not made nil for another reason. -/
def Valued (s : Option Candidates) (p : ℕ) : BitCall t₁ t₂ → Prop
  | not b => Covered (CANDINIT b.toColumn s) b.hseqbase p ∧ b.value p ≠ ⊥
  | binary op a _ => Covered (op.range a s) a.hseqbase p ∧ a.lft p ≠ ⊥ ∧ a.rgt p ≠ ⊥ ∧
      ¬ (op.isShift ∧ shiftCheck t₁ (a.rgt p).1)

/-- The operator makes nil of row `p`. -/
def MakesNil (p : ℕ) : BitCall t₁ t₂ → Prop
  | not b => (b.value p).1 = t₁.max
  | binary op a _ => op.MakesNil t₁ (a.lft p).1 (a.rgt p).1

def count : BitCall t₁ t₂ → ℕ
  | not b => b.count
  | binary _ a _ => a.count

end BitCall

/-! ## The values an operator makes

Nil has the sign bit and no other.  For each operator this is a condition on the sign and on the
other bits of the operands. -/

section Values

variable {t : IntType} {l r : ℤ}

theorem fits_min (t : IntType) : Fits t.bits t.min :=
  ⟨le_rfl, (neg_neg_of_pos (by positivity)).trans (by positivity)⟩

theorem pow_bits (t : IntType) : 2 ^ t.bits = 2 * 2 ^ (t.bits - 1) := by
  cases t <;> rfl

theorem wrap_eq_min_iff {n : ℕ} (h : n < 2 ^ t.bits) :
    wrap t.bits n = t.min ↔ n = 2 ^ (t.bits - 1) := by
  rw [wrap_eq_iff t.bits_pos (fits_min t), show t.min = -((2 ^ (t.bits - 1) : ℕ) : ℤ) by
    rfl, sub_neg_eq_add]
  norm_cast
  rw [pow_bits] at h ⊢
  constructor
  · rintro ⟨m, hm⟩
    -- the sum lies between two multiples
    have h1 : 0 < m := pos_of_ne_zero fun h0 => by rw [h0] at hm; omega
    have h2 : m < 2 := by
      by_contra hge
      have := mul_le_mul_left (2 * 2 ^ (t.bits - 1)) (not_lt.mp hge)
      omega
    obtain rfl : m = 1 := by omega
    omega
  · rintro rfl
    exact ⟨1, by omega⟩

theorem bitsOf_parts (h : |l| < 2 ^ (t.bits - 1)) :
    bitsOf t l / 2 ^ (t.bits - 1) = (if l < 0 then 1 else 0) ∧
    bitsOf t l % 2 ^ (t.bits - 1) = (if l < 0 then (l - t.min).toNat else l.toNat) := by
  obtain ⟨h1, h2⟩ := abs_lt.mp h
  have hpow : ((2 ^ (t.bits - 1) : ℕ) : ℤ) = 2 ^ (t.bits - 1) := by rfl
  have hbits : (2 : ℤ) ^ t.bits = 2 * 2 ^ (t.bits - 1) := by exact_mod_cast pow_bits t
  unfold bitsOf IntType.min
  rw [Nat.div_mod_unique (by positivity)]
  by_cases hneg : l < 0
  · rw [if_pos hneg, if_pos hneg, ← Int.add_emod_right, Int.emod_eq_of_lt (by omega) (by omega)]
    omega
  · rw [if_neg hneg, if_neg hneg, Int.emod_eq_of_lt (by omega) (by omega)]
    omega

theorem bitsOf_lt (t : IntType) (l : ℤ) : bitsOf t l < 2 ^ t.bits := by
  have hpow : ((2 ^ t.bits : ℕ) : ℤ) = 2 ^ t.bits := by rfl
  unfold bitsOf
  omega

theorem eq_two_pow_iff {n k : ℕ} : n = 2 ^ k ↔ n / 2 ^ k = 1 ∧ n % 2 ^ k = 0 := by
  rw [Nat.div_mod_unique (Nat.two_pow_pos k)]
  have := Nat.two_pow_pos k
  omega

/-- **When an operator makes nil** of operands that are not nil. -/
theorem apply_eq_min_iff (op : BitOp) (hl : |l| < 2 ^ (t.bits - 1))
    (hr : ¬ op.isShift → |r| < 2 ^ (t.bits - 1)) :
    op.apply t l r = t.min ↔ op.MakesNil t l r := by
  obtain ⟨hdl, hml⟩ := bitsOf_parts hl
  have hltl := bitsOf_lt t l
  have hltr := bitsOf_lt t r
  cases op with
  | or =>
    obtain ⟨hdr, hmr⟩ := bitsOf_parts (hr (by decide))
    -- a sign bit in the result comes with the other bits of a negative operand
    refine (wrap_eq_min_iff (or_lt_two_pow hltl hltr)).trans (iff_of_false ?_ id)
    rw [eq_two_pow_iff, or_div_two_pow, or_mod_two_pow, hdl, hdr, hml, hmr]
    have := abs_lt.mp hl
    have := abs_lt.mp (hr (by decide))
    unfold IntType.min
    split_ifs <;> simp <;> omega
  | and =>
    obtain ⟨hdr, hmr⟩ := bitsOf_parts (hr (by decide))
    refine (wrap_eq_min_iff (and_lt_two_pow _ hltr)).trans ?_
    rw [eq_two_pow_iff, and_div_two_pow, and_mod_two_pow, hdl, hdr]
    unfold BitOp.MakesNil
    split_ifs <;> simp [*]
  | xor =>
    obtain ⟨hdr, hmr⟩ := bitsOf_parts (hr (by decide))
    refine (wrap_eq_min_iff (xor_lt_two_pow hltl hltr)).trans ?_
    rw [eq_two_pow_iff, xor_div_two_pow, xor_mod_two_pow, hdl, hdr, hml, hmr]
    have := abs_lt.mp hl
    have := abs_lt.mp (hr (by decide))
    unfold BitOp.MakesNil IntType.min
    split_ifs <;> simp <;> omega
  | lsh => exact wrap_eq_iff t.bits_pos (fits_min t)
  | rsh =>
    -- a shift to the right moves a number towards zero
    refine iff_of_false (ne_of_gt ?_) id
    have := (abs_lt.mp hl).1
    have hpos : (0 : ℤ) < 2 ^ r.toNat := by positivity
    have hpos' : (0 : ℤ) < 2 ^ (t.bits - 1) := by positivity
    refine (show t.min < min l 0 by unfold IntType.min; omega).trans_le ?_
    rw [BitOp.apply, Int.le_ediv_iff_mul_le hpos]
    rcases le_total 0 l with hge | hneg
    · rw [min_eq_right hge, zero_mul]
      exact hge
    · rw [min_eq_left hneg]
      nlinarith

end Values

/-! ## Loops and flags

The loop is that of the conversions.  The flags are computed from the number of nils it has counted.
-/

section Flags

variable {c : CandRange} {candoff cnt : ℕ} {abort : Bool} {nil : ℤ} {conv x : ℕ → Conv}
  {st : LoopState} {s : Option Candidates}

/-- What a loop relies on. -/
structure RangeOk (c : CandRange) (candoff cnt : ℕ) : Prop where
  ascending : c.Ascending
  small : candoff + cnt ≤ 2 ^ 63
  le : c.start ≤ c.stop
  stop_le : c.stop ≤ cnt
  cursor : Cursor c candoff c.start 0 c.stop

theorem rangeOk_candinit {t : IntType} (b : IntColumn t) (hs : Proper s) :
    RangeOk (CANDINIT b.toColumn s) b.hseqbase b.count :=
  have h := ready_candinit (b := b) hs
  ⟨h.ascending, b.oids_small, h.le, h.stop_le, h.cursor _ le_rfl _⟩

theorem BitOp.rangeOk {t₁ t₂ : IntType} (op : BitOp) (a : Args t₁ t₂) (hs : Proper s) :
    RangeOk (op.range a s) a.hseqbase a.count := by
  have h : RangeOk (a.cands s) a.hseqbase a.count := by
    cases a <;> exact rangeOk_candinit _ hs
  unfold BitOp.range
  split_ifs
  · exact ⟨⟨nofun, nofun, nofun⟩, h.small, h.le, h.stop_le, nofun⟩
  · exact h

theorem RangeOk.written (h : RangeOk c candoff cnt)
    (hrun : convertImpl c candoff false abort nil conv cnt = some st) :
    Written nil cnt (rowCell c candoff conv c.stop) st := by
  rcases convertImpl_index abort nil conv h.ascending h.small h.le h.stop_le h.cursor with
    ⟨-, hnone⟩ | ⟨-, st', hsome, hwritten⟩
  · rw [hnone] at hrun
    cases hrun
  · rw [hsome] at hrun
    exact Option.some.inj hrun ▸ hwritten

/-- Nils are counted for the rows without a value, so that a value that is nil makes a flag false
if every row has one. -/
theorem flagsTrue_iff (h : Written nil cnt x st) {r : Calculated} (hcount : r.count = cnt)
    (hslot : r.slot = st.slot) (hnil : r.tnil = decide (st.nils ≠ 0))
    (hnonil : r.tnonil = decide (st.nils = 0)) :
    FlagsTrue nil r ↔ ((∀ p < cnt, ∃ w, x p = .value w) → ∀ p < cnt, x p ≠ .value nil) := by
  -- only rows without a value are counted
  have hzero : st.nils = 0 ↔ ∀ p < cnt, ∃ w, x p = .value w := by
    rw [h.nils, sum_eq_zero_iff]
    refine forall_congr' fun p => (imp_congr mem_range ?_)
    cases x p <;> simp [Conv.nils]
  have hstore : ∀ p < cnt, r.slot p = some ((x p).store nil) := fun p hp => by
    rw [hslot, h.slot, if_pos hp]
  unfold FlagsTrue
  rw [hcount, hnil, hnonil, decide_eq_true_iff, decide_eq_true_iff, ← hzero]
  constructor
  · rintro ⟨-, hflag⟩ hz p hp heq
    exact hflag hz p hp (by rw [hstore p hp, heq]; rfl)
  intro hvalues
  refine ⟨fun hne => ?_, fun hz p hp heq => ?_⟩
  · obtain ⟨p, hp, hnone⟩ : ∃ p < cnt, ¬ ∃ w, x p = .value w := by
      simpa only [not_forall, exists_prop] using mt hzero.mpr hne
    refine ⟨p, hp, (hstore p hp).trans ?_⟩
    cases hx : x p with
    | value w => exact absurd ⟨w, hx⟩ hnone
    | nil => rfl
    | overflow => rfl
  · obtain ⟨w, hw⟩ := hzero.mp hz p hp
    rw [hstore p hp, hw] at heq
    exact hvalues hz p hp (hw.trans (congrArg _ (Option.some.inj heq)))

/-- A row with a value that may be nil, from what the loop makes of the covered rows. -/
theorem rowCell_value_iff {p : ℕ} {V N : Prop} {v : ℤ}
    (hconv : conv p = .value v ∧ V ∨ (∀ w, conv p ≠ .value w) ∧ ¬ V) (hN : V → (v = nil ↔ N)) :
    ((∃ w, rowCell c candoff conv c.stop p = .value w) ↔ Covered c candoff p ∧ V) ∧
    (rowCell c candoff conv c.stop p = .value nil ↔ (Covered c candoff p ∧ V) ∧ N) := by
  by_cases hcov : Covered c candoff p
  · rw [rowCell_eq hcov]
    rcases hconv with ⟨hv, hV⟩ | ⟨hne, hV⟩
    · rw [hv]
      simpa [hcov, hV] using hN hV
    · simp [hV, hne]
  · rw [rowCell_eq_nil hcov]
    simp [hcov]

end Flags

/-! ## All operators -/

section Operators

variable {t₁ t₂ : IntType} {s : Option Candidates} {p : ℕ} {op : BitOp}

theorem notRow_value (b : IntColumn t₁) (nonil : Bool) (h : nonil = true → b.tnonil = true)
    (hp : p < b.count) :
    notRow nonil t₁ (b.value p).1 = .value (-(b.value p).1 - 1) ∧ b.value p ≠ ⊥ ∨
      (∀ w, notRow nonil t₁ (b.value p).1 ≠ .value w) ∧ ¬ b.value p ≠ ⊥ := by
  unfold notRow
  by_cases hbot : b.value p ≠ ⊥
  · exact .inl ⟨if_neg fun hand => ne_bot_iff.mp hbot hand.2, hbot⟩
  · have hnonil : nonil = false := by
      by_contra hne
      exact hbot (b.nonil_true (h (by simpa using hne)) p hp)
    refine .inr ⟨fun w => ?_, hbot⟩
    rw [if_pos ⟨hnonil, by simpa using mt ne_bot_iff.mpr hbot⟩]
    exact nofun

/-- The loop without tests is chosen only if the operands are not nil. -/
theorem skipsTests_spec {a : Args t₁ t₂} {c : CandRange} (hsize : a.sameSize)
    (h : op.skipsTests a c = true) (hp : p < a.count) :
    a.lft p ≠ ⊥ ∧ a.rgt p ≠ ⊥ ∧ ¬ op.isShift := by
  have hshift : ¬ op.isShift := by
    rintro (rfl | rfl) <;> cases a <;> cases h
  have hnonil : a.nonil = true := by
    cases op <;> cases a <;> simp_all [BitOp.skipsTests]
  cases a with
  | both b₁ b₂ =>
    have hand := Bool.and_eq_true_iff.mp hnonil
    exact ⟨b₁.nonil_true hand.1 p hp, b₂.nonil_true hand.2 p (hp.trans_eq hsize), hshift⟩
  | cstRight b v =>
    have hand := Bool.and_eq_true_iff.mp hnonil
    exact ⟨b.nonil_true hand.1 p hp, ne_bot_iff.mpr (of_decide_eq_true hand.2), hshift⟩
  | cstLeft v b =>
    have hand := Bool.and_eq_true_iff.mp hnonil
    exact ⟨ne_bot_iff.mpr (of_decide_eq_true hand.2), b.nonil_true hand.1 p hp, hshift⟩

theorem bitRow_value {nonil : Bool} {l : IntVal t₁} {r : IntVal t₂}
    (h : nonil = true → l ≠ ⊥ ∧ r ≠ ⊥ ∧ ¬ op.isShift) :
    let V := l ≠ ⊥ ∧ r ≠ ⊥ ∧ ¬ (op.isShift ∧ shiftCheck t₁ r.1)
    bitRow op nonil t₁ t₂ l.1 r.1 = .value (op.apply t₁ l.1 r.1) ∧ V ∨
      (∀ w, bitRow op nonil t₁ t₂ l.1 r.1 ≠ .value w) ∧ ¬ V := by
  unfold bitRow
  by_cases hskip : nonil = true
  · obtain ⟨hl, hr, hshift⟩ := h hskip
    exact .inl ⟨if_pos hskip, hl, hr, fun hand => hshift hand.1⟩
  split_ifs with hnil hcheck
  · refine .inr ⟨nofun, fun hV => ?_⟩
    exact hnil.elim (ne_bot_iff.mp hV.1) (ne_bot_iff.mp hV.2.1)
  · exact .inr ⟨nofun, fun hV => hV.2.2 hcheck⟩
  · rw [not_or] at hnil
    exact .inl ⟨rfl, ne_bot_iff.mpr hnil.1, ne_bot_iff.mpr hnil.2, hcheck⟩

/-- **The nil flags of a result are true** if and only if the operator makes nil of no row, or some
row has become nil for another reason. -/
theorem bitCall_flags_iff (call : BitCall t₁ t₂) (hs : Proper s) {r : Calculated}
    (hrun : call.run s = some r) :
    FlagsTrue t₁.min r ↔
      ((∀ p < call.count, call.Valued s p) → ∀ p < call.count, ¬ call.MakesNil p) := by
  -- what is said of the rows of the loop, in terms of the operands
  have key : ∀ {c : CandRange} {candoff : ℕ} {conv : ℕ → Conv}, (∀ p < call.count,
        ((∃ w, rowCell c candoff conv c.stop p = .value w) ↔ call.Valued s p) ∧
        (rowCell c candoff conv c.stop p = .value t₁.min ↔ call.Valued s p ∧ call.MakesNil p)) →
      (((∀ p < call.count, ∃ w, rowCell c candoff conv c.stop p = .value w) →
        ∀ p < call.count, rowCell c candoff conv c.stop p ≠ .value t₁.min) ↔
      ((∀ p < call.count, call.Valued s p) → ∀ p < call.count, ¬ call.MakesNil p)) := by
    intro c candoff conv h
    refine imp_congr_ctx (forall₂_congr fun p hp => (h p hp).1) fun hall =>
      forall₂_congr fun p hp => ?_
    rw [ne_eq, (h p hp).2, and_iff_right (hall p hp)]
  cases call with
  | not b =>
    obtain ⟨st, hst, rfl⟩ := Option.map_eq_some_iff.mp hrun
    refine (flagsTrue_iff ((rangeOk_candinit b hs).written hst) rfl rfl rfl rfl).trans
      (key fun p hp => ?_)
    refine rowCell_value_iff (notRow_value b _ (fun h => (Bool.and_eq_true_iff.mp h).1) hp)
      fun hne => ?_
    change _ ↔ (b.value p).1 = t₁.max
    unfold IntType.min IntType.max
    omega
  | binary op a abort =>
    change (if _ then _ else _) = _ at hrun
    split_ifs at hrun with hguard
    obtain ⟨hsize, hty⟩ := not_or.mp hguard
    obtain ⟨st, hst, rfl⟩ := Option.map_eq_some_iff.mp hrun
    refine (flagsTrue_iff ((op.rangeOk a hs).written hst) rfl rfl rfl rfl).trans
      (key fun p hp => ?_)
    refine rowCell_value_iff
      (bitRow_value fun h => skipsTests_spec (not_not.mp hsize) h hp) fun hV => ?_
    refine apply_eq_min_iff op (abs_val_lt hV.1) fun hshift => ?_
    obtain rfl : t₁ = t₂ := by
      by_contra hne
      exact hty ⟨hshift, hne⟩
    exact abs_val_lt hV.2.1

/-- The complements of 10, 20 and 30 are not nil. -/
theorem bitCall_flags_three : ∃ r, (BitCall.not threeBytes : BitCall .bte .bte).run none = some r ∧
      FlagsTrue IntType.bte.min r := by
  refine ⟨_, rfl, (@bitCall_flags_iff .bte .bte none (.not threeBytes) nofun _ rfl).mpr ?_⟩
  intro _
  change ∀ p < 3, ¬ (threeBytes.value p).1 = IntType.bte.max
  decide

/-- `10 ^ -118` is the pattern of nil, and the result is marked as one without nils. -/
theorem BATcalcxor_nil :
    ∃ r, (BitCall.binary .xor (.cstRight threeBytes ⟨-118, by decide⟩ : Args .bte .bte) false).run
        none = some r ∧ r.tnonil = true ∧ r.slot 0 = some IntType.bte.min ∧
      ¬ FlagsTrue IntType.bte.min r := by
  refine ⟨_, rfl, by decide +kernel, by decide +kernel, fun h => ?_⟩
  exact h.2 (by decide +kernel) 0 (by decide +kernel) (by decide +kernel)

end Operators

end MonetInR.Gdk
