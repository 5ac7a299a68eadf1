import Mathlib.Data.List.GetD
import MonetInR.Gdk.Hash

/-!
# Columns and candidate lists

The bulk operators read a BAT with a dense head: its tail values by position, the sequence base
of the head, and the property flags that other code has put on the tail.  A candidate list is a
BAT of oids that restricts an operator to some rows.  Every operator starts with `CANDINIT`,
which turns the two into the range of positions to visit and, unless the candidate list is
dense, the array of candidate oids.

The flags of a column are only believed because they are true, so `Column` and `Candidates` carry
the proofs of what their flags say.
-/

namespace MonetInR.Gdk

open IntType

variable {α : Type*} [Atom α]

/-- `TYPE_void`. -/
def typeVoid : ℕ := 0

/-- `oid_nil`. -/
def oidNil : ℕ := 2 ^ 63

/-- What an operator reads of a BAT with tail values of type `α`.  `val` is the tail heap by
physical position; behind the last value it holds whatever the memory holds.  Hashes are taken of
the bits of a value, and values that compare equal may differ in their bits: the numbers 0.0 and
-0.0 do.  A column that holds a nan, which has no place in the order of the values, is none of
these. -/
structure Column (α : Type*) [Atom α] where
  /-- `BAThdense`: the head is a dense sequence from `hseqbase`. -/
  hdense : Bool
  hseqbase : ℕ
  ttype : ℕ
  /-- `BUNfirst`: the position of the first value. -/
  first : ℕ
  count : ℕ
  capacity : ℕ
  val : ℕ → α
  /-- The hash of the bits at each position, before the mask. -/
  hashAt : ℕ → ℕ := fun p => Atom.atomHash (val p)
  tsorted : Bool
  trevsorted : Bool
  tkey : Bool
  /-- No tail value is nil. -/
  tnonil : Bool
  /-- `b->T->hash`: the index on the tail by these hashes, if there is one. -/
  hash : Option Hash
  fits : first + count ≤ capacity
  small : capacity < 2 ^ 63
  oids_small : hseqbase + count ≤ 2 ^ 63
  sorted_true : tsorted = true → ∀ i j, i ≤ j → j < count → val (first + i) ≤ val (first + j)
  revsorted_true : trevsorted = true → ∀ i j, i ≤ j → j < count → val (first + j) ≤ val (first + i)
  key_true : tkey = true → ∀ i j, i < j → j < count → val (first + i) ≠ val (first + j)
  nonil_true : tnonil = true → ∀ i < count, val (first + i) ≠ ⊥
  hash_shape : ∀ h, hash = some h → h.lim = capacity ∧
    h.Indexes (fun p => first ≤ p ∧ p < first + count) (bucketOf hashAt h.mask)

/-- What an operator reads of a candidate list. -/
structure Candidates where
  hdense : Bool
  /-- `ATOMtype(ttype) == TYPE_oid`. -/
  oidTail : Bool
  /-- `BATtordered`. -/
  tsorted : Bool
  /-- `BATtkey`. -/
  tkey : Bool
  count : ℕ
  /-- The sequence base of the tail if `BATtdense` holds. -/
  tseq : Option ℕ
  /-- The tail from its first value on; behind the last one it holds whatever the memory holds. -/
  tail : ℕ → ℕ
  sorted_true : tsorted = true → ∀ i j, i ≤ j → j < count → tail i ≤ tail j
  key_true : tkey = true → ∀ i j, i < j → j < count → tail i ≠ tail j
  dense_true : ∀ seq, tseq = some seq → ∀ i < count, tail i = seq + i
  small : ∀ i < count, tail i < 2 ^ 63

namespace Column

variable (b : Column α)

/-- `VALUE`: the value at a position counted from the first one. -/
def value (i : ℕ) : α := b.val (b.first + i)

/-- The row numbers of a column as oids. -/
def Contains (o : ℕ) : Prop := b.hseqbase ≤ o ∧ o < b.hseqbase + b.count
  deriving Decidable

/-- The value of the row with a given oid. -/
def atOid (o : ℕ) : α := b.value (o - b.hseqbase)

/-- The hash of the value of the row with a given oid. -/
def hashAtOid (o : ℕ) : ℕ := b.hashAt (b.first + (o - b.hseqbase))

/-- The direction in which a column is compared. -/
def direction (b : Column α) : ℤ := if b.tsorted then 1 else -1

theorem isDirection_direction (b : Column α) : IsDirection b.direction := by
  unfold direction
  split_ifs
  · exact .inl rfl
  · exact .inr rfl

end Column

/-- The oids a candidate list names. -/
def Candidates.Mem (s : Candidates) (o : ℕ) : Prop := ∃ i < s.count, s.tail i = o

/-- The rows an operator is asked about: those of the column that the candidate list names, if
there is one. -/
def IsCandidate (b : Column α) (s : Option Candidates) (o : ℕ) : Prop :=
  b.Contains o ∧ ∀ c, s = some c → c.Mem o

/-- An array of candidates starts before the column. -/
def CandsBelow (b : Column α) (s : Option Candidates) : Prop :=
  ∃ c, s = some c ∧ c.tseq = none ∧ 0 < c.count ∧ c.tail 0 < b.hseqbase

/-! ## CANDINIT -/

/-- The result of `CANDINIT`: a range of positions, and the candidate array (with its length)
unless the rows are consecutive. -/
structure CandRange where
  start : ℕ
  stop : ℕ
  cand : Option (ℕ → ℕ)
  ncand : ℕ

section Candinit

/-- The position of oid `o`, moved into the column. -/
def clip (b : Column α) (o : ℕ) : ℕ :=
  if o ≤ b.hseqbase then 0
  else if b.hseqbase + b.count ≤ o then b.count
  else o - b.hseqbase

/-- Find the range of positions of `b` that the candidate list `s` restricts an operator to. -/
def CANDINIT (b : Column α) : Option Candidates → CandRange
  | none => ⟨0, b.count, none, 0⟩
  | some s =>
    if s.count = 0 then ⟨0, 0, none, 0⟩
    else
      match s.tseq with
      | some seq => ⟨clip b seq, clip b (seq + s.count), none, 0⟩
      | none => ⟨clip b (s.tail 0), clip b (s.tail (s.count - 1) + 1), some s.tail, s.count⟩

end Candinit

/-- The rows to visit in terms of a cursor.  With a candidate array the cursor is an index into
it, otherwise a position of the column; `val` and `oid` are the value and the oid at a cursor. -/
structure Side (α : Type*) where
  lo : ℕ
  hi : ℕ
  /-- The cursor moves over a candidate array. -/
  isCand : Bool
  val : ℕ → α
  oid : ℕ → ℕ

/-- The cursors over a column after `CANDINIT`. -/
def Column.side (b : Column α) (c : CandRange) : Side α :=
  match c.cand with
  | some cand =>
    { lo := 0
      hi := c.ncand
      isCand := true
      val := fun i => b.value (sub64 (cand i) b.hseqbase)
      oid := cand }
  | none =>
    { lo := c.start
      hi := c.stop
      isCand := false
      val := b.value
      oid := fun i => i + b.hseqbase }

/-! ## The hash index of a column

A lookup takes the bucket from the hash of the value looked for and compares the values it finds
there, so a row with an equal value is found only if it is in that bucket. -/

section HashIndex

variable {b : Column α} {mem : ℕ → ℕ} {v : α} {x o : ℕ}

/-- What `BAThash` reads when it builds the index on the tail. -/
def Column.hashInput (b : Column α) : HashInput :=
  ⟨b.first, b.count, b.capacity, b.tkey, Atom.atomSize α, b.hashAt, b.fits, b.small⟩

/-- `BATprepareHash`: the index of the tail, built if there is none. -/
def BATprepareHash (b : Column α) (mem : ℕ → ℕ) : Hash := b.hash.getD (BAThash b.hashInput mem 0)

/-- The row with oid `o` is in the bucket that a value with the hash `x` selects. -/
def Column.InBucket (b : Column α) (mem : ℕ → ℕ) (o x : ℕ) : Prop :=
  b.hashAtOid o &&& (BATprepareHash b mem).mask = x &&& (BATprepareHash b mem).mask

/-- The oids of the positions that `HASHloop` visits for the value `v` with the hash `x`.  `off` is
`b->hseqbase - BUNfirst(b)`. -/
def hashOids (b : Column α) (mem : ℕ → ℕ) (v : α) (x : ℕ) : List ℕ :=
  (hashLoop (BATprepareHash b mem) (fun p => atomCmp v (b.val p) = 0) x).map fun p =>
    sub64 (p + b.hseqbase) b.first

theorem BATprepareHash_indexes (b : Column α) (mem : ℕ → ℕ) :
    (BATprepareHash b mem).lim = b.capacity ∧
      (BATprepareHash b mem).Indexes (fun p => b.first ≤ p ∧ p < b.first + b.count)
        (bucketOf b.hashAt (BATprepareHash b mem).mask) := by
  unfold BATprepareHash
  cases hh : b.hash with
  | some h => exact b.hash_shape h hh
  | none => exact (BAThash_indexes b.hashInput mem 0).2

theorem position_of_oid (ho : b.Contains o) :
    sub64 (o + b.first) b.hseqbase = b.first + (o - b.hseqbase) ∧
      sub64 (b.first + (o - b.hseqbase) + b.hseqbase) b.first = o := by
  obtain ⟨h1, h2⟩ := ho
  have h3 := b.fits
  have h4 := b.small
  have h5 := b.oids_small
  rw [sub64_of_le (by omega) (by omega), sub64_of_le (by omega) (by omega)]
  omega

/-- **A lookup finds the rows of the bucket that hold an equal value**, each once. -/
theorem mem_hashOids (b : Column α) (mem : ℕ → ℕ) (v : α) (x o : ℕ) :
    o ∈ hashOids b mem v x ↔ b.Contains o ∧ b.atOid o = v ∧ b.InBucket mem o x := by
  obtain ⟨hlim, hx⟩ := BATprepareHash_indexes b mem
  have hfits := b.fits
  obtain ⟨-, hmem⟩ := mem_hashLoop hx (fun i hi => by omega)
    (fun p => decide (atomCmp v (b.val p) = 0)) x
  rw [hashOids, List.mem_map]
  simp only [hmem, decide_eq_true_iff]
  constructor
  · rintro ⟨p, ⟨hp, hbucket, hval⟩, rfl⟩
    have hc : b.Contains (b.hseqbase + (p - b.first)) := ⟨by omega, by omega⟩
    have hpos : b.first + (b.hseqbase + (p - b.first) - b.hseqbase) = p := by omega
    have hoid := (position_of_oid hc).2
    rw [hpos] at hoid
    rw [hoid]
    refine ⟨hc, ?_, ?_⟩
    · rw [Column.atOid, Column.value, hpos, atomCmp_eq_zero.mp hval]
    · rw [Column.InBucket, Column.hashAtOid, hpos, hbucket]
  · rintro ⟨hc, hval, hbucket⟩
    refine ⟨b.first + (o - b.hseqbase), ⟨?_, hbucket, atomCmp_eq_zero.mpr hval.symm⟩,
      (position_of_oid hc).2⟩
    have := hc.1
    have := hc.2
    omega

theorem nodup_hashOids (b : Column α) (mem : ℕ → ℕ) (v : α) (x : ℕ) :
    (hashOids b mem v x).Nodup := by
  obtain ⟨hlim, hx⟩ := BATprepareHash_indexes b mem
  have hfits := b.fits
  obtain ⟨hnd, hmem⟩ := mem_hashLoop hx (fun i hi => by omega)
    (fun p => decide (atomCmp v (b.val p) = 0)) x
  refine (List.nodup_map_iff_inj_on hnd).mpr fun p hp q hq heq => ?_
  have hp' := ((hmem p).mp hp).1
  have hq' := ((hmem q).mp hq).1
  have hsmall := b.small
  have hoids := b.oids_small
  rw [sub64_of_le (by omega) (by omega), sub64_of_le (by omega) (by omega)] at heq
  omega

end HashIndex

/-! ## Small columns -/

theorem bte_one : bte.min ≤ 1 ∧ 1 ≤ bte.max := by decide

theorem bte_three : bte.min ≤ 3 ∧ 3 ≤ bte.max := by decide

theorem bte_five : bte.min ≤ 5 ∧ 5 ≤ bte.max := by decide

theorem zero_add_le (n : ℕ) : 0 + n ≤ n := (Nat.zero_add n).le

/-- A column of the type `bte` that starts at position 0 with oid 0. -/
def bteColumn (vals : List (IntVal .bte)) (tsorted trevsorted : Bool)
    (h₁ : tsorted = true → vals.Pairwise (· ≤ ·)) (h₂ : trevsorted = true → vals.Pairwise (· ≥ ·))
    (hlen : vals.length < 2 ^ 63) : Column (IntVal .bte) where
  hdense := true
  hseqbase := 0
  ttype := 2
  first := 0
  count := vals.length
  capacity := vals.length
  val := fun p => vals.getD p ⊥
  tsorted := tsorted
  trevsorted := trevsorted
  tkey := false
  tnonil := false
  hash := none
  fits := by omega
  small := hlen
  oids_small := by omega
  sorted_true ht i j hij hj := by
    rw [Nat.zero_add, Nat.zero_add, List.getD_eq_getElem _ _ hj,
      List.getD_eq_getElem _ _ (lt_of_le_of_lt hij hj)]
    rcases Nat.eq_or_lt_of_le hij with rfl | hlt
    · exact le_refl _
    · exact List.pairwise_iff_getElem.mp (h₁ ht) i j _ hj hlt
  revsorted_true ht i j hij hj := by
    rw [Nat.zero_add, Nat.zero_add, List.getD_eq_getElem _ _ hj,
      List.getD_eq_getElem _ _ (lt_of_le_of_lt hij hj)]
    rcases Nat.eq_or_lt_of_le hij with rfl | hlt
    · exact le_refl _
    · exact List.pairwise_iff_getElem.mp (h₂ ht) i j _ hj hlt
  key_true := fun h => absurd h (by simp)
  nonil_true := fun h => absurd h (by simp)
  hash_shape := fun h he => absurd he (by simp)

/-- A column of numbers of type dbl without any property, and without an index. -/
def dblColumn (bits : ℕ → ℕ) (count : ℕ) (hcount : count < 2 ^ 63)
    (_ : ∀ i < count, DblVal.IsNumber (bits i)) : Column DblVal where
  hdense := true
  hseqbase := 0
  ttype := 10
  first := 0
  count := count
  capacity := count
  val p := DblVal.ofBits (bits p)
  hashAt p := hashDbl (bits p)
  tsorted := false
  trevsorted := false
  tkey := false
  tnonil := false
  hash := none
  fits := by omega
  small := hcount
  oids_small := by omega
  sorted_true := nofun
  revsorted_true := nofun
  key_true := nofun
  nonil_true := nofun
  hash_shape := nofun

/-- The numbers 1.0, 0.0, -0.0, 1.0, and so on. -/
def zeroBits (i : ℕ) : ℕ := if i = 1 then 0 else if i = 2 then 2 ^ 63 else 0x3FF0000000000000

theorem isNumber_zeroBits (i : ℕ) : DblVal.IsNumber (zeroBits i) := by
  unfold zeroBits
  split_ifs <;> decide

/-- Two thousand of these numbers. -/
def dblZeros : Column DblVal := dblColumn zeroBits 2000 (by decide) fun i _ => isNumber_zeroBits i

end MonetInR.Gdk
