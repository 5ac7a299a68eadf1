import MonetInR.Gdk.Column
import Mathlib.Algebra.BigOperators.Intervals

/-!
# Bulk conversion

`BATconvert` converts the tail of a column to another type.  The rows outside the candidate list
become nil, so that the result is aligned with the input.  There is one loop for every pair of
types.  Those that copy index both arrays with the row, and write every row in its place; the others
advance two pointers, but only if they meet no candidate or nothing but candidates from the first
row on.

Numbers are kept in the storage of their type: an oid in that of `lng`, a bit in that of `bte`.
The `bit`, `oid` and `wrd` columns are converted as their storage.

## Main definitions

* `convertLoop`: the loop all conversions share
* `BATconvert`
* `Converts`: what a conversion is to return

## Main results

* `convertLoop_index`: what an indexing loop writes
* `convertLoop_moving`: where a loop with moving pointers leaves them
-/

namespace MonetInR.Gdk

open Finset Function

/-- A type to convert to.  `TYPE_void` is taken for `TYPE_oid`, and `wrd` is `lng`. -/
inductive CalcType
  | bit
  | num (t : IntType)
  | oid
  deriving DecidableEq

/-- `ATOMstorage`. -/
def CalcType.storage : CalcType → IntType
  | bit => .bte
  | num t => t
  | oid => .lng

/-- The number that stands for nil. -/
def CalcType.nil (tp : CalcType) : ℤ := tp.storage.min

/-- A column of numbers with the sequence base of its tail, which is all there is of the tail if
its type is `TYPE_void`. -/
structure IntColumn (t : IntType) extends Column (IntVal t) where
  tseqbase : ℕ
  void_true : ttype = typeVoid → t = .lng ∧ ∀ i < count,
    (val (first + i)).1 = if tseqbase = oidNil then t.min else tseqbase + i
  void_small : ttype = typeVoid → tseqbase ≠ oidNil → tseqbase + count ≤ 2 ^ 63

/-! ## One value

What a loop does with the value of a candidate depends only on the two types.  Overflow is kept
apart from nil, since it may be an error. -/

/-- What becomes of one value. -/
inductive Conv
  | nil
  | overflow
  | value (v : ℤ)
  deriving DecidableEq

namespace Conv

/-- What is stored if overflow is not an error. -/
def store (nil : ℤ) : Conv → ℤ
  | value v => v
  | _ => nil

/-- How many nils it adds. -/
def nils : Conv → ℕ
  | value _ => 0
  | _ => 1

end Conv

/-- The body of `convertimpl_copy` and `convertimpl_enlarge`. -/
def enlargeValue (t : IntType) (v : ℤ) : Conv :=
  if v = t.min then .nil else .value v

/-- The body of `convertimpl_reduce`. -/
def reduceValue (t t' : IntType) (v : ℤ) : Conv :=
  if v = t.min then .nil
  else if v ≤ t'.min ∨ t'.max < v then .overflow
  else .value v

/-- The body of `convertimpl_oid_enlarge`. -/
def oidValue (t : IntType) (v : ℤ) : Conv :=
  if v = t.min then .nil
  else if v < 0 then .overflow
  else .value v

/-- The body of `convert2bit_impl`. -/
def bitValue (t : IntType) (v : ℤ) : Conv :=
  if v = t.min then .nil else .value (if v ≠ 0 then 1 else 0)

/-! ## The loops

One loop serves all conversions.  It differs between them in `moving`: whether the row is the index
into both arrays, or two pointers are advanced.  The end of the loop is part of the state, because
the last candidate ends it. -/

/-- The variables of a loop. -/
structure LoopState where
  /-- The result array, of which only some places have been written. -/
  slot : ℕ → Option ℤ
  nils : ℕ
  /-- By how much `src` and `dst` have been advanced. -/
  moved : ℕ
  /-- The index of `*cand`. -/
  cand : ℕ
  /-- `end`. -/
  stop : ℕ

namespace LoopState

/-- Write a value. -/
def set (st : LoopState) (p : ℕ) (v : ℤ) : LoopState :=
  { st with slot := Function.update st.slot p (some v) }

/-- Write the result of converting one value. -/
def put (st : LoopState) (nil : ℤ) (p : ℕ) (x : Conv) : LoopState :=
  { st.set p (x.store nil) with nils := st.nils + x.nils }

end LoopState

/-- `CANDLOOP`: write nils from `low` to `high`. -/
def CANDLOOP (nil : ℤ) (low high : ℕ) (st : LoopState) : LoopState := { st with
    slot := fun p => if st.moved + low ≤ p ∧ p < st.moved + high then some nil else st.slot p
    nils := st.nils + (high - low) }

section Loop

variable (c : CandRange) (candoff : ℕ)

/-- The first test of `CHECKCAND`: row `i` comes before the next candidate. -/
def isHole (i k : ℕ) : Bool :=
  match c.cand with
  | none => false
  | some a => i < sub64 (a k) candoff

/-- The rest of `CHECKCAND`: row `i` is the next candidate.  The last one ends the loop. -/
def takeCand (i : ℕ) (st : LoopState) : LoopState :=
  match c.cand with
  | none => st
  | some _ =>
    { st with cand := st.cand + 1, stop := if st.cand + 1 = c.ncand then i + 1 else st.stop }

/-- The place row `i` is read from and written to: `src[i]` and `dst[i]`, or `*src` and `*dst` if
the pointers are moving. -/
def rowPlace (moving : Bool) (i : ℕ) (st : LoopState) : ℕ := if moving then st.moved else i

/-- Convert a candidate, and advance the pointers if they are moving. -/
def convertRow (moving : Bool) (nil : ℤ) (conv : ℕ → Conv) (i : ℕ) (st : LoopState) : LoopState :=
  { (takeCand c i st).put nil (rowPlace moving i st) (conv (rowPlace moving i st)) with
    moved := if moving then st.moved + 1 else st.moved }

/-- The loop over the rows from `i` on.  In `CHECKCAND` it writes `dst[i]`, wherever `dst` is.  An
overflow is an error if `abort` holds. -/
def convertLoop (moving abort : Bool) (nil : ℤ) (conv : ℕ → Conv) :
    ℕ → ℕ → LoopState → Option LoopState
  | 0, _, st => some st
  | fuel + 1, i, st =>
    if i < st.stop then
      if isHole c candoff i st.cand then
        convertLoop moving abort nil conv fuel (i + 1) (st.put nil (st.moved + i) .nil)
      else if abort = true ∧ conv (rowPlace moving i st) = .overflow then none
      else convertLoop moving abort nil conv fuel (i + 1) (convertRow c moving nil conv i st)
    else some st

/-- The state before the first row. -/
def loopStart : LoopState := ⟨fun _ => none, 0, 0, 0, c.stop⟩

/-- A conversion function for a pair of types. -/
def convertImpl (moving abort : Bool) (nil : ℤ) (conv : ℕ → Conv) (cnt : ℕ) : Option LoopState :=
  (convertLoop c candoff moving abort nil conv c.stop c.start
    (CANDLOOP nil 0 c.start (loopStart c))).map fun st => CANDLOOP nil st.stop cnt st

end Loop

section Functions

variable (t : IntType) (src : ℕ → ℤ) (cnt : ℕ) (c : CandRange) (candoff : ℕ) (abort : Bool)

/-- `convert_int_int` and its like. -/
def convertimplCopy : Option LoopState :=
  convertImpl c candoff false false t.min (fun i => enlargeValue t (src i)) cnt

/-- `convert_int_lng` and its like. -/
def convertimplEnlarge (t' : IntType) : Option LoopState :=
  convertImpl c candoff true false t'.min (fun i => enlargeValue t (src i)) cnt

/-- `convert_int_bte` and its like. -/
def convertimplReduce (t' : IntType) : Option LoopState :=
  convertImpl c candoff true abort t'.min (fun i => reduceValue t t' (src i)) cnt

/-- `convert_int_oid` and its like. -/
def convertimplOidEnlarge : Option LoopState :=
  convertImpl c candoff true abort CalcType.oid.nil (fun i => oidValue t (src i)) cnt

/-- `convert_int_bit` and its like. -/
def convert2bitImpl : Option LoopState :=
  convertImpl c candoff true false CalcType.bit.nil (fun i => bitValue t (src i)) cnt

/-- Choose the function for a pair of types. -/
def convertTypeswitchloop : CalcType → Option LoopState
  | .bit => convert2bitImpl t src cnt c candoff
  | .oid => convertimplOidEnlarge t src cnt c candoff abort
  | .num t' =>
    if t = t' then convertimplCopy t src cnt c candoff
    else if t.bits < t'.bits then convertimplEnlarge t src cnt c candoff t'
    else convertimplReduce t src cnt c candoff abort t'

end Functions

/-! ## Dense sequences

A column of type `void` has no values to read.  Its numbers are counted up from the sequence base.
If they do not all fit the type, this is an error, or the rows from there on become nil. -/

/-- The first number of a sequence that a storage does not hold. -/
def IntType.limit (t : IntType) : ℕ := 2 ^ (t.bits - 1)

/-- A sequence of `cnt` numbers does not fit. -/
def tooWide (t : IntType) (seq cnt : ℕ) : Bool := t.bits < 64 ∧ t.limit ≤ seq + cnt

/-- The number of rows that are converted. -/
def voidCount (t : IntType) (seq cnt : ℕ) : ℕ :=
  if tooWide t seq cnt then sub64 t.limit seq else cnt

/-- The loop of `convert_void_any` from row `i` on.  It leaves `i` at `end`, or where it was if it
is behind; the other rows become nil. -/
def voidLoop (c : CandRange) (candoff : ℕ) (nil : ℤ) (conv : ℕ → Conv) (cnt i : ℕ)
    (st : LoopState) : Option LoopState :=
  (convertLoop c candoff false false nil conv st.stop i st).map fun st =>
    { CANDLOOP nil (max i st.stop) cnt st with nils := st.nils + (cnt - st.stop) }

/-- A number of a sequence, cut to the width of a type. -/
def sequenceNumber (tp : CalcType) (seq i : ℕ) : Conv :=
  .value (Int.bmod (seq + i : ℕ) (2 ^ tp.storage.bits))

/-- The state after the rows before the first candidate. -/
def voidStart (nil : ℤ) (start stop : ℕ) : LoopState :=
  CANDLOOP nil 0 start ⟨fun _ => none, 0, 0, 0, stop⟩

/-- Convert a dense sequence.  `seq` is incremented with the row in every loop. -/
def convertVoidAny (seq cnt : ℕ) (tp : CalcType) (c : CandRange) (candoff : ℕ) (abort : Bool) :
    Option LoopState :=
  if seq = oidNil then some (voidStart tp.nil cnt 0)
  else if tooWide tp.storage seq cnt ∧ abort = true then none
  else
    let stop := min c.stop (voidCount tp.storage seq cnt)
    let st := voidStart tp.nil c.start stop
    match tp with
    | .bit =>
      -- the test for a first value of 0 holds if the first row is not a candidate
      if c.start = 0 ∧ 0 < stop ∧ seq = 0 ∧ (∀ a, c.cand = some a → a 0 ≠ candoff) then
        voidLoop c candoff tp.nil (fun _ => .value 1) cnt 1 (st.set 0 0)
      else voidLoop c candoff tp.nil (fun _ => .value 1) cnt c.start st
    -- this loop starts again with the first row
    | .num .bte => voidLoop c candoff tp.nil (sequenceNumber tp seq) cnt 0 st
    | _ => voidLoop c candoff tp.nil (fun i => sequenceNumber tp seq (i - c.start)) cnt c.start st

/-! ## BATconvert -/

/-- A converted column.  `nils` is what the conversion has counted. -/
structure Converted where
  hseqbase : ℕ
  count : ℕ
  slot : ℕ → Option ℤ
  nils : Option ℕ
  tnonil : Bool
  tsorted : Bool
  trevsorted : Bool
  tkey : Bool

section Bat

variable {t : IntType} (b : IntColumn t) (s : Option Candidates) (tp : CalcType) (abort : Bool)

/-- `BATcopy`: the same heap under another type.  Nils are not counted. -/
def convertCopy : Converted where
  hseqbase := b.hseqbase
  count := b.count
  slot p := if p < b.count then some (b.value p).1 else none
  nils := none
  tnonil := b.tnonil
  tsorted := b.tsorted
  trevsorted := b.trevsorted
  tkey := b.tkey

/-- The result of a conversion function as a column. -/
def convertResult (st : LoopState) : Converted where
  hseqbase := b.hseqbase
  count := b.count
  slot := st.slot
  nils := some st.nils
  tnonil := st.nils = 0
  tsorted := st.nils = 0 ∧ b.tsorted = true
  trevsorted := st.nils = 0 ∧ b.trevsorted = true
  tkey := b.tkey = true ∧ st.nils ≤ 1

/-- **Convert a column**, or fail. -/
def BATconvert : Option Converted :=
  let c := CANDINIT b.toColumn s
  if s = none ∧ tp ≠ .bit ∧ b.ttype ≠ typeVoid ∧ t = tp.storage then some (convertCopy b)
  else
    (if b.ttype = typeVoid then convertVoidAny b.tseqbase b.count tp c b.hseqbase abort
      else convertTypeswitchloop t (fun i => (b.value i).1) b.count c b.hseqbase abort tp).map
      (convertResult b)

end Bat

/-! ## The specification

The specification speaks of numbers and candidates only; neither loops nor pointers occur in it. -/

/-- The conversion of a number to a type, whatever the type it comes from. -/
def convertNumber : CalcType → ℤ → Conv
  | .bit, x => .value (if x ≠ 0 then 1 else 0)
  | .oid, x => if 0 ≤ x then .value x else .overflow
  | .num t, x => if t.min < x ∧ x ≤ t.max then .value x else .overflow

/-- The conversion of a value. -/
def convertValue {t : IntType} (tp : CalcType) (v : IntVal t) : Conv :=
  if v.1 = t.min then .nil else convertNumber tp v.1

section Spec

variable {t : IntType} (b : IntColumn t) (s : Option Candidates) (tp : CalcType) (abort : Bool)

/-- Row `p` is a candidate. -/
def Wanted (p : ℕ) : Prop := IsCandidate b.toColumn s (b.hseqbase + p)

/-- Some candidate's value has no conversion. -/
def Overflows : Prop := ∃ p < b.count, Wanted b s p ∧ convertValue tp (b.value p) = .overflow

/-- The result is aligned with the column and has nothing behind it, has the converted values of
the candidates at their positions and nil at the others, and its nils are counted. -/
structure IsConversion (r : Converted) : Prop where
  hseqbase : r.hseqbase = b.hseqbase
  count : r.count = b.count
  wanted : ∀ p < b.count, Wanted b s p →
    r.slot p = some ((convertValue tp (b.value p)).store tp.nil)
  others : ∀ p < b.count, ¬ Wanted b s p → r.slot p = some tp.nil
  behind : ∀ p ≥ b.count, r.slot p = none
  nils : ∀ n, r.nils = some n →
    n = ((Finset.range b.count).filter fun p => r.slot p = some tp.nil).card

/-- **What a conversion is to return**: a result as above, or an error if a candidate overflows and
that is to be an error. -/
def Converts : Option Converted → Prop
  | none => abort = true ∧ Overflows b s tp
  | some r => ¬ (abort = true ∧ Overflows b s tp) ∧ IsConversion b s tp r

end Spec

/-! ## The candidate array

The cursor into the array moves with the rows.  What has to be kept is that the candidates before
the cursor are those before the current row; then the two tests of `CHECKCAND` decide whether the
row is a candidate. -/

namespace CandRange

variable (c : CandRange) (candoff : ℕ)

/-- The entries of the candidate array ascend. -/
structure Ascending : Prop where
  lt : ∀ a, c.cand = some a → ∀ i j, i < j → j < c.ncand → a i < a j
  small : ∀ a, c.cand = some a → ∀ i < c.ncand, a i < 2 ^ 63
  pos : ∀ a, c.cand = some a → 0 < c.ncand

/-- The candidate array starts before the column. -/
def Below : Prop := ∃ a, c.cand = some a ∧ a 0 < candoff

/-- Row `p` is in the candidate array, if there is one. -/
def Names (p : ℕ) : Prop := ∀ a, c.cand = some a → ∃ j < c.ncand, a j = candoff + p

/-- Row `p` is recognised as a candidate.  If the array starts before the column, the difference
in `CHECKCAND` wraps around and the cursor never moves. -/
def Seen (p : ℕ) : Prop := c.Names candoff p ∧ ¬ c.Below candoff

end CandRange

variable {c : CandRange} {candoff e : ℕ}

/-- The position `k` of the cursor before row `i`. -/
def Cursor (c : CandRange) (candoff i k stop : ℕ) : Prop :=
  ∀ a, c.cand = some a → (a 0 < candoff ∧ k = 0) ∨ (candoff ≤ a 0 ∧ (∀ j < k, a j < candoff + i) ∧
      (∀ j < c.ncand, k ≤ j → candoff + i ≤ a j) ∧ (i < stop → k < c.ncand))

section Cursor

variable {i k stop : ℕ} {a : ℕ → ℕ}

theorem seen_of_none (hcand : c.cand = none) (p : ℕ) : c.Seen candoff p := by
  refine ⟨fun a ha => ?_, ?_⟩
  · rw [hcand] at ha
    cases ha
  · rintro ⟨a, ha, -⟩
    rw [hcand] at ha
    cases ha

theorem not_seen_of_below (hcand : c.cand = some a) (hbelow : a 0 < candoff) (p : ℕ) :
    ¬ c.Seen candoff p := fun hseen => hseen.2 ⟨a, hcand, hbelow⟩

theorem seen_iff (hcand : c.cand = some a) (habove : candoff ≤ a 0) (p : ℕ) :
    c.Seen candoff p ↔ ∃ j < c.ncand, a j = candoff + p := by
  constructor
  · exact fun hseen => hseen.1 a hcand
  refine fun h => ⟨fun a' ha' => ?_, ?_⟩
  · rw [hcand] at ha'
    obtain rfl := Option.some.inj ha'
    exact h
  · rintro ⟨a', ha', hlt⟩
    rw [hcand] at ha'
    obtain rfl := Option.some.inj ha'
    omega

theorem Cursor.seen_iff_eq (hasc : c.Ascending) (hcand : c.cand = some a) (habove : candoff ≤ a 0)
    (hbehind : ∀ j < k, a j < candoff + i) (hahead : ∀ j < c.ncand, k ≤ j → candoff + i ≤ a j)
    (hk : k < c.ncand) : c.Seen candoff i ↔ a k = candoff + i := by
  rw [seen_iff hcand habove]
  constructor
  · rintro ⟨j, hj, heq⟩
    rcases lt_trichotomy j k with hlt | rfl | hgt
    · have := hbehind j hlt
      omega
    · exact heq
    · have h1 := hasc.lt a hcand k j hgt hj
      have h2 := hahead k hk le_rfl
      omega
  · exact fun heq => ⟨k, hk, heq⟩

/-- **`CHECKCAND` recognises the candidates.** -/
theorem isHole_iff (hasc : c.Ascending) (hsmall : candoff + i < 2 ^ 63)
    (hcur : Cursor c candoff i k stop) (hi : i < stop) :
    isHole c candoff i k = true ↔ ¬ c.Seen candoff i := by
  unfold isHole
  cases hcand : c.cand with
  | none => simp [seen_of_none hcand]
  | some a =>
    rw [decide_eq_true_iff]
    rcases hcur a hcand with ⟨hbelow, rfl⟩ | ⟨habove, hbehind, hahead, hk⟩
    · refine iff_of_true ?_ (not_seen_of_below hcand hbelow i)
      have hwrap : sub64 (a 0) candoff = a 0 + 2 ^ 64 - candoff := by
        unfold sub64
        omega
      omega
    · have hk := hk hi
      have hge := hahead k hk le_rfl
      have hlt := hasc.small a hcand k hk
      rw [Cursor.seen_iff_eq hasc hcand habove hbehind hahead hk, sub64_of_le (by omega) (by omega)]
      omega

theorem Cursor.hole (hcur : Cursor c candoff i k stop) (hi : i < stop)
    (hseen : ¬ c.Seen candoff i) : Cursor c candoff (i + 1) k stop := by
  intro a hcand
  rcases hcur a hcand with hbelow | ⟨habove, hbehind, hahead, hk⟩
  · exact .inl hbelow
  · refine .inr ⟨habove, fun j hj => ?_, fun j hj hkj => ?_, fun _ => hk hi⟩
    · have := hbehind j hj
      omega
    · have hne : a j ≠ candoff + i := fun heq =>
        hseen ((seen_iff hcand habove i).mpr ⟨j, hj, heq⟩)
      have := hahead j hj hkj
      omega

variable {st : LoopState}

theorem takeCand_stop (hi : i < st.stop) :
    i + 1 ≤ (takeCand c i st).stop ∧ (takeCand c i st).stop ≤ st.stop := by
  unfold takeCand
  cases c.cand with
  | none => exact ⟨hi, le_rfl⟩
  | some a =>
    dsimp only
    split_ifs <;> omega

@[simp] theorem rowPlace_false (i : ℕ) (st : LoopState) : rowPlace false i st = i := rfl

@[simp] theorem rowPlace_true (i : ℕ) (st : LoopState) : rowPlace true i st = st.moved := rfl

theorem convertRow_eq (moving : Bool) (nil : ℤ) (conv : ℕ → Conv) (i : ℕ) (st : LoopState) :
    (convertRow c moving nil conv i st).stop = (takeCand c i st).stop ∧
      (convertRow c moving nil conv i st).cand = (takeCand c i st).cand ∧
      (convertRow c moving nil conv i st).slot = update st.slot (rowPlace moving i st)
        (some ((conv (rowPlace moving i st)).store nil)) ∧
      (convertRow c moving nil conv i st).nils =
        st.nils + (conv (rowPlace moving i st)).nils := by
  refine ⟨rfl, rfl, ?_, ?_⟩ <;>
    · unfold convertRow takeCand
      cases c.cand <;> rfl

theorem Cursor.take (hasc : c.Ascending) (hcur : Cursor c candoff i st.cand st.stop)
    (hi : i < st.stop) (hseen : c.Seen candoff i) :
    Cursor c candoff (i + 1) (takeCand c i st).cand (takeCand c i st).stop ∧
      ∀ p, (takeCand c i st).stop ≤ p → p < st.stop → ¬ c.Seen candoff p := by
  unfold takeCand
  cases hcand : c.cand with
  | none =>
    refine ⟨fun a ha => ?_, fun p hp hp' => ?_⟩
    · rw [hcand] at ha
      cases ha
    · exact absurd hp' (not_lt.mpr hp)
  | some a =>
    dsimp only
    rcases hcur a hcand with ⟨hbelow, -⟩ | ⟨habove, hbehind, hahead, hk⟩
    · exact absurd hseen (not_seen_of_below hcand hbelow i)
    have hk := hk hi
    -- row `i` is the candidate at the cursor, so the next one lies behind it
    have heq := (Cursor.seen_iff_eq hasc hcand habove hbehind hahead hk).mp hseen
    refine ⟨fun a' ha' => .inr ?_, fun p hp hp' hp'' => ?_⟩
    · rw [hcand] at ha'
      obtain rfl := Option.some.inj ha'
      refine ⟨habove, fun j hj => ?_, fun j hj hkj => ?_, fun hlt => ?_⟩
      · rcases Nat.lt_succ_iff_lt_or_eq.mp hj with hlt | rfl
        · have := hbehind j hlt
          omega
        · omega
      · have := hasc.lt a hcand st.cand j (by omega) hj
        omega
      · split_ifs at hlt <;> omega
    · obtain ⟨j, hj, hjeq⟩ := (seen_iff hcand habove p).mp hp''
      split_ifs at hp with hlast
      · have hjk : st.cand < j := by
          by_contra hle
          rcases Nat.lt_or_eq_of_le (not_lt.mp hle) with hlt | rfl
          · have := hbehind j hlt
            omega
          · omega
        omega
      · omega

end Cursor

/-! ## Indexing loops

Every row is written once and in its own place, so the array after the loop is known row by row. -/

open Classical in
/-- What an indexing loop makes of row `p`. -/
noncomputable def cell (c : CandRange) (candoff : ℕ) (conv : ℕ → Conv) (p : ℕ) : Conv :=
  if c.Seen candoff p then conv p else .nil

section Index

variable {abort : Bool} {nil : ℤ} {conv : ℕ → Conv} {i : ℕ} {st st₁ st' : LoopState}

/-- An indexing loop leaves state `st'` if it starts at row `i` in state `st`. -/
structure Scanned (c : CandRange) (candoff : ℕ) (nil : ℤ) (conv : ℕ → Conv) (i : ℕ)
    (st st' : LoopState) : Prop where
  moved : st'.moved = 0
  stop_le : st'.stop ≤ st.stop
  le_stop : i ≤ st.stop → i ≤ st'.stop
  rest : ∀ p, st'.stop ≤ p → p < st.stop → ¬ c.Seen candoff p
  slot : ∀ p, st'.slot p =
    if i ≤ p ∧ p < st'.stop then some ((cell c candoff conv p).store nil) else st.slot p
  nils : st'.nils = st.nils + ∑ p ∈ Ico i st'.stop, (cell c candoff conv p).nils

theorem Scanned.cons (h : Scanned c candoff nil conv (i + 1) st₁ st') (hslot : st₁.slot =
      update st.slot i (some ((cell c candoff conv i).store nil)))
    (hnils : st₁.nils = st.nils + (cell c candoff conv i).nils) (hi : i + 1 ≤ st₁.stop)
    (hstop : st₁.stop ≤ st.stop) (hrest : ∀ p, st₁.stop ≤ p → p < st.stop → ¬ c.Seen candoff p) :
    Scanned c candoff nil conv i st st' := by
  have hle := h.le_stop hi
  refine ⟨h.moved, h.stop_le.trans hstop, fun _ => by omega, fun p hp hp' => ?_, fun p => ?_, ?_⟩
  · rcases Nat.lt_or_ge p st₁.stop with hlt | hge
    · exact h.rest p hp hlt
    · exact hrest p hge hp'
  · rw [h.slot p, hslot]
    rcases eq_or_ne p i with rfl | hne
    · rw [if_neg (by omega), if_pos ⟨le_rfl, hle⟩, update_self]
    · rw [update_of_ne hne]
      apply if_congr _ rfl rfl
      omega
  · have hsplit := sum_eq_sum_Ico_succ_bot (show i < st'.stop from hle)
      fun p => (cell c candoff conv p).nils
    rw [h.nils, hnils, hsplit, add_assoc]

/-- Some row from `i` on overflows. -/
def Fails (c : CandRange) (candoff : ℕ) (abort : Bool) (conv : ℕ → Conv) (i stop : ℕ) : Prop :=
  abort = true ∧ ∃ p, i ≤ p ∧ p < stop ∧ c.Seen candoff p ∧ conv p = .overflow

/-- **An indexing loop** fails at the first candidate that overflows, or writes every row in its
place. -/
theorem convertLoop_index (abort : Bool) (nil : ℤ) (conv : ℕ → Conv) (hasc : c.Ascending)
    (hsmall : candoff + e ≤ 2 ^ 63) :
    ∀ fuel i st, st.moved = 0 → st.stop ≤ i + fuel → st.stop ≤ e →
      Cursor c candoff i st.cand st.stop →
      (Fails c candoff abort conv i st.stop ∧
        convertLoop c candoff false abort nil conv fuel i st = none) ∨
      (¬ Fails c candoff abort conv i st.stop ∧
        ∃ st', convertLoop c candoff false abort nil conv fuel i st = some st' ∧
          Scanned c candoff nil conv i st st') := by
  have hdone : ∀ i (st : LoopState), st.moved = 0 → ¬ i < st.stop →
      ¬ Fails c candoff abort conv i st.stop ∧ Scanned c candoff nil conv i st st := by
    intro i st hmoved hi
    refine ⟨fun ⟨_, p, hp, hp', _⟩ => hi (by omega), hmoved, le_rfl, id, fun p hp hp' => ?_,
      fun p => ?_, ?_⟩
    · omega
    · rw [if_neg (by omega)]
    · rw [Ico_eq_empty (by omega), sum_empty, add_zero]
  intro fuel
  induction fuel with
  | zero =>
    intro i st hmoved hfuel _ _
    obtain ⟨hfails, hscanned⟩ := hdone i st hmoved (by omega)
    exact .inr ⟨hfails, st, rfl, hscanned⟩
  | succ fuel ih =>
    intro i st hmoved hfuel hstop hcur
    by_cases hi : i < st.stop
    swap
    · obtain ⟨hfails, hscanned⟩ := hdone i st hmoved hi
      rw [convertLoop, if_neg hi]
      exact .inr ⟨hfails, st, rfl, hscanned⟩
    have hhole := isHole_iff hasc (by omega) hcur hi
    rw [convertLoop, if_pos hi]
    by_cases hseen : c.Seen candoff i
    · -- a candidate
      rw [if_neg (by rw [hhole]; exact not_not.mpr hseen)]
      rw [rowPlace_false]
      split_ifs with hover
      · exact .inl ⟨⟨hover.1, i, le_rfl, hi, hseen, hover.2⟩, rfl⟩
      obtain ⟨hcur', hrest⟩ := hcur.take hasc hi hseen
      obtain ⟨hle, hge⟩ := takeCand_stop (c := c) hi
      have hcell : cell c candoff conv i = conv i := if_pos hseen
      obtain ⟨hs, hc, hslot, hnils⟩ := convertRow_eq (c := c) false nil conv i st
      rw [rowPlace_false] at hslot hnils
      have hm : (convertRow c false nil conv i st).moved = 0 := hmoved
      generalize convertRow c false nil conv i st = st₁ at hs hc hslot hnils hm ⊢
      rcases ih (i + 1) st₁ hm (by omega) (by omega) (by rw [hs, hc]; exact hcur') with
        ⟨⟨ha, p, hp, hp', hp''⟩, hnone⟩ | ⟨hfails, st', hrun, hscanned⟩
      · exact .inl ⟨⟨ha, p, by omega, by omega, hp''⟩, hnone⟩
      refine .inr ⟨?_, st', hrun, ?_⟩
      · rintro ⟨ha, p, hp, hp', hseen', hconv⟩
        rcases eq_or_ne p i with rfl | hne
        · exact hover ⟨ha, hconv⟩
        · rcases Nat.lt_or_ge p st₁.stop with hlt | hge'
          · exact hfails ⟨ha, p, by omega, hlt, hseen', hconv⟩
          · exact hrest p (by omega) hp' hseen'
      · refine hscanned.cons ?_ ?_ (by omega) (by omega) ?_
        · rw [hslot, hcell]
        · rw [hnils, hcell]
        · rw [hs]
          exact hrest
    · -- a hole
      rw [if_pos (hhole.mpr hseen)]
      have hcell : cell c candoff conv i = .nil := if_neg hseen
      rcases ih (i + 1) (st.put nil (st.moved + i) .nil) hmoved (by change st.stop ≤ _; omega) hstop
          (hcur.hole hi hseen) with
        ⟨⟨ha, p, hp, hp', hp''⟩, hnone⟩ | ⟨hfails, st', hrun, hscanned⟩
      · exact .inl ⟨⟨ha, p, by omega, hp', hp''⟩, hnone⟩
      refine .inr ⟨?_, st', hrun, ?_⟩
      · rintro ⟨ha, p, hp, hp', hseen', hconv⟩
        rcases eq_or_ne p i with rfl | hne
        · exact hseen hseen'
        · exact hfails ⟨ha, p, by omega, hp', hseen', hconv⟩
      · refine hscanned.cons ?_ ?_ hi (le_refl st.stop) ?_
        · rw [hcell]
          change update st.slot (st.moved + i) _ = _
          rw [hmoved, Nat.zero_add]
        · rw [hcell]
          rfl
        · exact fun p hp hp' => absurd hp' (not_lt.mpr hp)

end Index

/-! ## Loops with moving pointers

The pointers move with the candidates and not with the rows.  The loop agrees with the indexing one
if no row is a candidate, or if all are from the first row on. -/

section Moving

variable {abort : Bool} {nil : ℤ} {conv : ℕ → Conv}

theorem convertLoop_moving_of_none (hasc : c.Ascending) (hsmall : candoff + e ≤ 2 ^ 63) :
    ∀ fuel i (st : LoopState), st.stop ≤ e → Cursor c candoff i st.cand st.stop →
      (∀ p, i ≤ p → p < st.stop → ¬ c.Seen candoff p) →
      convertLoop c candoff true abort nil conv fuel i st =
        convertLoop c candoff false abort nil conv fuel i st := by
  intro fuel
  induction fuel with
  | zero => exact fun _ _ _ _ _ => rfl
  | succ fuel ih =>
    intro i st hstop hcur hnone
    rw [convertLoop, convertLoop]
    by_cases hi : i < st.stop
    · have hseen := hnone i le_rfl hi
      have hhole := (isHole_iff hasc (by omega) hcur hi).mpr hseen
      rw [if_pos hi, if_pos hi, if_pos hhole, if_pos hhole]
      exact ih (i + 1) _ hstop (hcur.hole hi hseen) fun p hp => hnone p (by omega)
    · rw [if_neg hi, if_neg hi]

theorem convertLoop_moving_of_all (hasc : c.Ascending) (hsmall : candoff + e ≤ 2 ^ 63) :
    ∀ fuel i (st : LoopState), st.stop ≤ e → i ≤ st.stop → st.stop ≤ i + fuel →
      Cursor c candoff i st.cand st.stop → (∀ p, i ≤ p → p < st.stop → c.Seen candoff p) →
      convertLoop c candoff true abort nil conv fuel i { st with moved := i } =
        (convertLoop c candoff false abort nil conv fuel i { st with moved := 0 }).map
          fun st' => { st' with moved := st'.stop } := by
  intro fuel
  induction fuel with
  | zero =>
    intro i st _ hle hfuel _ _
    obtain rfl : i = st.stop := by omega
    rfl
  | succ fuel ih =>
    intro i st hstop hle hfuel hcur hall
    rw [convertLoop, convertLoop]
    by_cases hi : i < st.stop
    swap
    · rw [if_neg hi, if_neg hi]
      obtain rfl : i = st.stop := by omega
      rfl
    have hseen := hall i le_rfl hi
    have hhole : ¬ isHole c candoff i st.cand = true := by
      rw [isHole_iff hasc (by omega) hcur hi]
      exact not_not.mpr hseen
    rw [if_pos hi, if_pos hi, if_neg hhole, if_neg hhole, rowPlace_true, rowPlace_false]
    by_cases hover : abort = true ∧ conv i = .overflow
    · rw [if_pos hover, if_pos hover]
      rfl
    rw [if_neg hover, if_neg hover]
    obtain ⟨hcur', hrest⟩ := hcur.take hasc hi hseen
    obtain ⟨hlo, hhi⟩ := takeCand_stop (c := c) hi
    -- both loops write row `i` at place `i`
    have hsame : convertRow c true nil conv i { st with moved := i } =
          { (takeCand c i st).put nil i (conv i) with moved := i + 1 } ∧
        convertRow c false nil conv i { st with moved := 0 } =
          { (takeCand c i st).put nil i (conv i) with moved := 0 } := by
      constructor <;>
        · unfold convertRow takeCand
          cases c.cand <;> rfl
    rw [hsame.1, hsame.2]
    refine ih (i + 1) ((takeCand c i st).put nil i (conv i)) (hhi.trans hstop) hlo ?_ hcur'
      fun p hp hp' => hall p (by omega) (lt_of_lt_of_le hp' hhi)
    change (takeCand c i st).stop ≤ _
    omega

/-- A loop with moving pointers fails at an overflow that comes before any row that is no
candidate. -/
theorem convertLoop_moving_early (hasc : c.Ascending) (hsmall : candoff + e ≤ 2 ^ 63) {p : ℕ}
    (hover : conv p = .overflow) :
    ∀ fuel i (st : LoopState), st.stop ≤ e → st.stop ≤ i + fuel → i ≤ p → p < st.stop →
      Cursor c candoff i st.cand st.stop → (∀ q, i ≤ q → q ≤ p → c.Seen candoff q) →
      convertLoop c candoff true true nil conv fuel i { st with moved := i } = none := by
  intro fuel
  induction fuel with
  | zero =>
    intro i st _ hfuel hip hp _ _
    omega
  | succ fuel ih =>
    intro i st hstop hfuel hip hp hcur hall
    have hi : i < st.stop := hip.trans_lt hp
    have hseen := hall i le_rfl hip
    have hhole : ¬ isHole c candoff i st.cand = true := by
      rw [isHole_iff hasc (by omega) hcur hi]
      exact not_not.mpr hseen
    rw [convertLoop, if_pos hi, if_neg hhole, rowPlace_true]
    by_cases hnow : conv i = .overflow
    · exact if_pos ⟨rfl, hnow⟩
    rw [if_neg fun h => hnow h.2]
    obtain ⟨hcur', hrest⟩ := hcur.take hasc hi hseen
    obtain ⟨hlo, hhi⟩ := takeCand_stop (c := c) hi
    have hne : i ≠ p := fun he => hnow (he ▸ hover)
    have hrow : convertRow c true nil conv i { st with moved := i } =
        { (takeCand c i st).put nil i (conv i) with moved := i + 1 } := by
      unfold convertRow takeCand
      cases c.cand <;> rfl
    rw [hrow]
    refine ih (i + 1) ((takeCand c i st).put nil i (conv i)) (hhi.trans hstop) ?_ (by omega) ?_
      hcur' fun q hq hqp => hall q (by omega) hqp
    · change (takeCand c i st).stop ≤ _
      omega
    · -- the row of the overflow is a candidate, so the loop does not end before it
      change p < (takeCand c i st).stop
      by_contra hle
      exact hrest p (not_lt.mp hle) hp (hall p hip le_rfl)

/-- A loop with moving pointers that started at row `start` has come to row `i`. -/
structure Shifted (c : CandRange) (candoff : ℕ) (nil : ℤ) (start i : ℕ) (st : LoopState) :
    Prop where
  moved_le : start + st.moved ≤ i
  /-- Nothing but nils has been written from the pointer on. -/
  ahead : ∀ p ≥ st.moved, st.slot p = none ∨ st.slot p = some nil
  full : (∀ p, start ≤ p → p < i → c.Seen candoff p) ∨ start + st.moved < i
  /-- The last row was written behind its place unless it was a candidate. -/
  last : start < i → ¬ c.Seen candoff (i - 1) → st.moved = 0 ∨ st.slot (st.moved + (i - 1)) ≠ none

/-- **A loop with moving pointers** has moved them once for every candidate. -/
theorem convertLoop_moving (abort : Bool) (nil : ℤ) (hasc : c.Ascending) {start : ℕ}
    (hsmall : candoff + e ≤ 2 ^ 63) (hconv : ∀ p < e, ∃ v, conv p = .value v) :
    ∀ fuel i (st : LoopState), st.stop ≤ e → i ≤ st.stop → st.stop ≤ i + fuel →
      Cursor c candoff i st.cand st.stop → Shifted c candoff nil start i st →
      ∃ st', convertLoop c candoff true abort nil conv fuel i st = some st' ∧
        st'.stop ≤ st.stop ∧ Shifted c candoff nil start st'.stop st' := by
  intro fuel
  induction fuel with
  | zero =>
    intro i st _ hle hfuel _ hshift
    obtain rfl : i = st.stop := by omega
    exact ⟨st, rfl, le_rfl, hshift⟩
  | succ fuel ih =>
    intro i st hstop hle hfuel hcur hshift
    rw [convertLoop]
    by_cases hi : i < st.stop
    swap
    · rw [if_neg hi]
      obtain rfl : i = st.stop := by omega
      exact ⟨st, rfl, le_rfl, hshift⟩
    have hhole := isHole_iff hasc (by omega) hcur hi
    have hmoved := hshift.moved_le
    rw [if_pos hi]
    by_cases hseen : c.Seen candoff i
    -- a candidate: the pointers move, and what has been written ahead of them stays nil
    · obtain ⟨v, hv⟩ := hconv st.moved (by omega)
      rw [if_neg (by rw [hhole]; exact not_not.mpr hseen), rowPlace_true,
        if_neg (by rw [hv]; exact fun h => nomatch h.2)]
      obtain ⟨hcur', -⟩ := hcur.take hasc hi hseen
      obtain ⟨hlo, hhi⟩ := takeCand_stop (c := c) hi
      obtain ⟨hs, hc, hslot, -⟩ := convertRow_eq (c := c) true nil conv i st
      have hm : (convertRow c true nil conv i st).moved = st.moved + 1 := rfl
      generalize convertRow c true nil conv i st = st₁ at hs hc hslot hm ⊢
      have hshift1 : Shifted c candoff nil start (i + 1) st₁ := by
        refine ⟨by omega, fun p hp => ?_, ?_, fun _ hlast => absurd hseen hlast⟩
        · rw [hslot, rowPlace_true, update_of_ne (by omega)]
          exact hshift.ahead p (by omega)
        · rcases hshift.full with hfull | hlt
          · refine .inl fun p hp hp' => ?_
            rcases Nat.lt_succ_iff_lt_or_eq.mp hp' with hlt | rfl
            · exact hfull p hp hlt
            · exact hseen
          · exact .inr (by omega)
      obtain ⟨st', hrun, hstop', hshift'⟩ := ih (i + 1) st₁ (by omega) (by omega) (by omega)
        (by rw [hs, hc]; exact hcur') hshift1
      exact ⟨st', hrun, by omega, hshift'⟩
    -- a hole: nil is written at the row, counted from where the pointer is
    · rw [if_pos (hhole.mpr hseen)]
      have hshift1 : Shifted c candoff nil start (i + 1) (st.put nil (st.moved + i) .nil) := by
        refine ⟨by change start + st.moved ≤ _; omega, fun p hp => ?_,
          .inr (by change start + st.moved < _; omega), fun _ _ => .inr ?_⟩
        · change update st.slot (st.moved + i) (some nil) p = none ∨
            update st.slot (st.moved + i) (some nil) p = some nil
          rcases eq_or_ne p (st.moved + i) with rfl | hne
          · rw [update_self]
            exact .inr rfl
          · rw [update_of_ne hne]
            exact hshift.ahead p hp
        · change update st.slot (st.moved + i) (some nil) (st.moved + i) ≠ none
          rw [update_self]
          exact nofun
      exact ih (i + 1) _ hstop hi (by change st.stop ≤ _; omega) (hcur.hole hi hseen) hshift1

end Moving

end MonetInR.Gdk
