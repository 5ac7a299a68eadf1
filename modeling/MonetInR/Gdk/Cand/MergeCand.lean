import MonetInR.Gdk.Join.Kernel
import MonetInR.Lib.RowBlocks
import MonetInR.Lib.SortedMerge

/-!
# Union and intersection of candidate lists

A candidate list is a BAT with a dense head and a tail of increasing oids.  The tail is void, that
is a range of oids with no storage, or it is an array.  `BATmergecand` and `BATintersectcand` make
the union and the intersection, with a loop of their own for every combination of the two tails.

Both compute the right tails.  `BATintersectcand` gives the result of two ranges a tail sequence
base but no head sequence base: the head that `BATnew` made stays void with base nil, so every head
value is nil, while its flags say that none is.

## Main definitions

* `CandTail`, `CandList`: the candidate lists
* `BATmergecand`, `BATintersectcand`: the two operations
* `Props.TrueOf`: flags are true of a list of oids
* `CandResult.IsListOf`: a result is the candidate list of a set of oids

## Main results

* `isListOf_cand_iff`: when both results are right
-/

namespace MonetInR.Gdk

open SortedMerge List

/-! ## Candidate lists

A list carries what the operations assert of it, so that no other list can be given to them. -/

/-- The tail of a candidate list: a void tail by its sequence base and count, or an array. -/
inductive CandTail
  | void (tseqbase count : ℕ)
  | oid (vals : List ℕ)
  deriving DecidableEq, Repr

namespace CandTail

/-- The values of a void column: all are nil if its sequence base is. -/
def voidVals (seqbase count : ℕ) : List ℕ :=
  if seqbase = oidNil then replicate count oidNil else range' seqbase count

def vals : CandTail → List ℕ
  | void seq n => voidVals seq n
  | oid xs => xs

def count : CandTail → ℕ
  | void _ n => n
  | oid xs => xs.length

/-- `ttype == TYPE_void`. -/
def isVoid : CandTail → Bool
  | void _ _ => true
  | oid _ => false

/-- The entries of the tail that a loop has written. -/
def written : CandTail → ℕ
  | void _ _ => 0
  | oid xs => xs.length

end CandTail

/-- What the operations assert of their arguments: the tail ascends, is a key and has no nil.  Only
an empty void tail may have nil as its sequence base. -/
structure CandList where
  tail : CandTail
  inRange : ∀ s n, tail = .void s n → s + n ≤ oidNil
  ascending : ∀ xs, tail = .oid xs → xs.Pairwise (· < ·)
  nonil : ∀ xs, tail = .oid xs → ∀ o ∈ xs, o < oidNil

/-- A BAT that one of the operations returns. -/
structure CandResult where
  /-- The number of entries that `BATnew` was asked for, or that `BATsetcount` has set. -/
  capacity : ℕ
  hseqbase : ℕ
  head : Props
  tail : CandTail
  props : Props
  deriving DecidableEq, Repr

/-- The flags that `BATcreatedesc` gives to a column that has an order. -/
def createdProps : Props where
  tkey := false
  tsorted := true
  trevsorted := true
  nil := false
  nonil := true

/-- The flags of a void column of `count` values after `BATseqbase` with `o`. -/
def BATseqbase (count o : ℕ) : Props :=
  if o = oidNil then
    { tkey := decide (count ≤ 1), nonil := count == 0, nil := decide (0 < count),
      tsorted := true, trevsorted := true }
  else
    { tkey := true, nonil := true, nil := false, tsorted := true,
      trevsorted := decide (count ≤ 1) }

/-- The flags that both operations put on an array of oids. -/
def candProps : Props where
  tkey := true
  tsorted := true
  trevsorted := false
  nil := false
  nonil := true

/-- `bn` with `p` behind the entries `vals`, after the common end of both operations. -/
def finishCand (capacity : ℕ) (vals : List ℕ) : CandResult where
  capacity := capacity
  hseqbase := 0
  head := BATseqbase vals.length 0
  tail := .oid vals
  props := candProps

/-! ## The operations -/

/-- Both lists are void, and `a->tseqbase <= b->tseqbase`. -/
def mergeVoid (sa na sb nb : ℕ) : List ℕ :=
  let i := max sb (sa + na)
  range' sa na ++ range' i (sb + nb - i)

/-- `a` is void, `b` is an array. -/
def mergeVoidOid (sa na : ℕ) (b : List ℕ) : List ℕ :=
  let rest := b.dropWhile (· < sa)
  b.takeWhile (· < sa) ++ range' sa na ++ rest.dropWhile (· < sa + na)

/-- The entries that `BATmergecand` writes. -/
def mergeTails : CandTail → CandTail → List ℕ
  | .void sa na, .void sb nb => if sb < sa then mergeVoid sb nb sa na else mergeVoid sa na sb nb
  | .void sa na, .oid b => mergeVoidOid sa na b
  | .oid a, .void sb nb => mergeVoidOid sb nb a
  | .oid a, .oid b => union a b

/-- Merge two candidate lists and produce a new one. -/
def BATmergecand (a b : CandList) : CandResult :=
  finishCand (a.tail.count + b.tail.count) (mergeTails a.tail b.tail)

/-- `a` is void, `b` is an array. -/
def intersectVoidOid (sa na : ℕ) (b : List ℕ) : List ℕ :=
  (b.dropWhile (· < sa)).takeWhile (· < sa + na)

/-- The count that `BATintersectcand` sets for two void lists. -/
def overlap (sa na sb nb : ℕ) : ℕ :=
  if sa + na ≤ sb ∨ sb + nb ≤ sa then 0
  else min (sa + na - max sa sb) (sb + nb - max sa sb)

/-- Both lists are void.  `BATseqbase` is called for the tail only, so the head keeps the sequence
base and the flags of `BATcreatedesc`. -/
def intersectVoid (sa na sb nb : ℕ) : CandResult where
  capacity := overlap sa na sb nb
  hseqbase := oidNil
  head := createdProps
  tail := .void (max sa sb) (overlap sa na sb nb)
  props := BATseqbase (overlap sa na sb nb) (max sa sb)

/-- The result if one of the lists is empty. -/
def emptyCand : CandResult where
  capacity := 0
  hseqbase := 0
  head := BATseqbase 0 0
  tail := .void 0 0
  props := BATseqbase 0 0

/-- Intersect two candidate lists and produce a new one. -/
def BATintersectcand (a b : CandList) : CandResult :=
  if a.tail.count = 0 ∨ b.tail.count = 0 then emptyCand
  else
    let capacity := min a.tail.count b.tail.count
    match a.tail, b.tail with
    | .void sa na, .void sb nb => intersectVoid sa na sb nb
    | .void sa na, .oid ys => finishCand capacity (intersectVoidOid sa na ys)
    | .oid xs, .void sb nb => finishCand capacity (intersectVoidOid sb nb xs)
    | .oid xs, .oid ys => finishCand capacity (inter xs ys)

/-! ## What a result should be -/

/-- An oid as it is compared: `lngCmp` takes its 64 bits as a signed number, so nil is the least
oid. -/
def oidInt (o : ℕ) : ℤ := if o % 2 ^ 64 < 2 ^ 63 then o % 2 ^ 64 else o % 2 ^ 64 - 2 ^ 64

/-- The order of oids. -/
def OidLe (a b : ℕ) : Prop := oidInt a ≤ oidInt b
  deriving Decidable

theorem oidInt_of_lt {o : ℕ} (h : o < 2 ^ 63) : oidInt o = o := by
  unfold oidInt
  split_ifs <;> omega

theorem oidLe_iff {a b : ℕ} (ha : a < 2 ^ 63) (hb : b < 2 ^ 63) : OidLe a b ↔ a ≤ b := by
  rw [OidLe, oidInt_of_lt ha, oidInt_of_lt hb, Nat.cast_le]

/-- The flags are true of a list of oids. -/
structure Props.TrueOf (p : Props) (os : List ℕ) : Prop where
  tsorted : p.tsorted = true → os.Pairwise OidLe
  trevsorted : p.trevsorted = true → os.Pairwise fun a b => OidLe b a
  tkey : p.tkey = true → os.Nodup
  nil : p.nil = true → oidNil ∈ os
  nonil : p.nonil = true → oidNil ∉ os

theorem Props.trueOf_of_length_le {p : Props} {os : List ℕ} (h : os.length ≤ 1)
    (hnil : p.nil = true → oidNil ∈ os) (hnonil : p.nonil = true → oidNil ∉ os) : p.TrueOf os :=
  have hpairwise (R : ℕ → ℕ → Prop) : os.Pairwise R := RowBlocks.pairwise_of_length_le h R
  ⟨fun _ => hpairwise _, fun _ => hpairwise _, fun _ => hpairwise _, hnil, hnonil⟩

/-- The result is a candidate list of the oids in `S`: its head is dense, its tail ascends, its
flags are true and no entry was written behind the allocated ones. -/
structure CandResult.IsListOf (res : CandResult) (S : Set ℕ) : Prop where
  mem_iff : ∀ o, o ∈ res.tail.vals ↔ o ∈ S
  ascending : res.tail.vals.Pairwise (· < ·)
  dense : res.hseqbase ≠ oidNil
  head_true : res.head.TrueOf (CandTail.voidVals res.hseqbase res.tail.count)
  tail_true : res.props.TrueOf res.tail.vals
  written_le : res.tail.written ≤ res.capacity

/-- The oids of a candidate list. -/
def CandList.oids (a : CandList) : Set ℕ := {o | o ∈ a.tail.vals}

namespace CandTail

theorem voidVals_eq_range {s n : ℕ} (h : s + n ≤ oidNil) : voidVals s n = range' s n := by
  unfold voidVals
  split_ifs with hs
  · -- a sequence base of nil leaves room for no value
    obtain rfl : n = 0 := by omega
    rfl
  · rfl

theorem mem_vals_void {s n o : ℕ} (h : s + n ≤ oidNil) :
    o ∈ (void s n).vals ↔ s ≤ o ∧ o < s + n := by
  rw [vals, voidVals_eq_range h, mem_range'_1]

end CandTail

namespace CandList

variable (a : CandList) {o : ℕ}

variable {a} in
theorem mem_oids_void {s n : ℕ} (h : a.tail = .void s n) : o ∈ a.oids ↔ s ≤ o ∧ o < s + n := by
  rw [← CandTail.mem_vals_void (a.inRange s n h), ← h]
  rfl

variable {a} in
theorem mem_oids_oid {xs : List ℕ} (h : a.tail = .oid xs) : o ∈ a.oids ↔ o ∈ xs := by
  change o ∈ a.tail.vals ↔ _
  rw [h]
  rfl

theorem lt_oidNil (ho : o ∈ a.oids) : o < oidNil := by
  cases h : a.tail with
  | void s n => exact ((mem_oids_void h).mp ho).2.trans_le (a.inRange s n h)
  | oid xs => exact a.nonil xs h o ((mem_oids_oid h).mp ho)

theorem length_vals : a.tail.vals.length = a.tail.count := by
  cases h : a.tail with
  | void s n =>
    rw [CandTail.vals, CandTail.voidVals_eq_range (a.inRange s n h), length_range']
    rfl
  | oid xs => rfl

end CandList

/-! ## The tails

All loops write increasing oids, and so it is enough to know which ones they write. -/

theorem mem_mergeVoid {sa na sb nb o : ℕ} :
    o ∈ mergeVoid sa na sb nb ↔ (sa ≤ o ∧ o < sa + na) ∨ (sb ≤ o ∧ o < sb + nb ∧ sa + na ≤ o) := by
  unfold mergeVoid
  rw [mem_append, mem_range'_1, mem_range'_1]
  omega

theorem pairwise_mergeVoid (sa na sb nb : ℕ) : (mergeVoid sa na sb nb).Pairwise (· < ·) := by
  refine pairwise_append.mpr ⟨pairwise_lt_range', pairwise_lt_range', ?_⟩
  intro x hx y hy
  have hx := (mem_range'_1.mp hx).2
  have hy := (mem_range'_1.mp hy).1
  exact hx.trans_le ((le_max_right _ _).trans hy)

section VoidOid

variable {b : List ℕ} (hb : b.Pairwise (· < ·)) {sa na o : ℕ}

include hb

/-- The loops of `mergeVoidOid` take what lies below the range, the range, and what lies above. -/
theorem mergeVoidOid_eq : mergeVoidOid sa na b =
    b.filter (· < sa) ++ range' sa na ++ b.filter (sa + na ≤ ·) := by
  unfold mergeVoidOid
  dsimp only
  rw [takeWhile_lt hb, dropWhile_lt hb, dropWhile_lt (hb.filter _), filter_filter]
  congr 1
  refine filter_congr fun o _ => ?_
  rw [← Bool.decide_and]
  exact decide_eq_decide.mpr ⟨And.left, fun h => ⟨h, (Nat.le_add_right _ _).trans h⟩⟩

theorem mem_mergeVoidOid : o ∈ mergeVoidOid sa na b ↔ (sa ≤ o ∧ o < sa + na) ∨ o ∈ b := by
  rw [mergeVoidOid_eq hb, mem_append, mem_append, mem_range'_1, mem_filter,
    mem_filter, decide_eq_true_iff, decide_eq_true_iff]
  by_cases ho : o ∈ b
  · simp only [ho, true_and, or_true, iff_true]
    omega
  · simp only [ho, false_and, false_or]

theorem pairwise_mergeVoidOid : (mergeVoidOid sa na b).Pairwise (· < ·) := by
  rw [mergeVoidOid_eq hb, append_assoc]
  refine pairwise_append.mpr ⟨hb.filter _, ?_, ?_⟩
  · refine pairwise_append.mpr ⟨pairwise_lt_range', hb.filter _, ?_⟩
    intro x hx y hy
    exact (mem_range'_1.mp hx).2.trans_le (of_decide_eq_true (mem_filter.mp hy).2)
  · intro x hx y hy
    have hx : x < sa := of_decide_eq_true (mem_filter.mp hx).2
    rcases mem_append.mp hy with hy | hy
    · exact hx.trans_le (mem_range'_1.mp hy).1
    · have hy : sa + na ≤ y := of_decide_eq_true (mem_filter.mp hy).2
      omega

theorem mem_intersectVoidOid : o ∈ intersectVoidOid sa na b ↔ (sa ≤ o ∧ o < sa + na) ∧ o ∈ b := by
  unfold intersectVoidOid
  rw [dropWhile_lt hb, takeWhile_lt (hb.filter _), mem_filter, mem_filter,
    decide_eq_true_iff, decide_eq_true_iff, and_assoc, and_comm]

theorem pairwise_intersectVoidOid : (intersectVoidOid sa na b).Pairwise (· < ·) :=
  hb.sublist ((takeWhile_sublist _).trans (dropWhile_sublist _))

end VoidOid

/-- **`BATmergecand` writes the union.** -/
theorem mem_mergeTails (a b : CandList) (o : ℕ) :
    o ∈ mergeTails a.tail b.tail ↔ o ∈ a.oids ∪ b.oids := by
  rw [Set.mem_union]
  cases ha : a.tail with
  | void sa na =>
    rw [CandList.mem_oids_void ha]
    cases hb : b.tail with
    | void sb nb =>
      rw [CandList.mem_oids_void hb, mergeTails]
      split_ifs <;> rw [mem_mergeVoid] <;> omega
    | oid ys =>
      rw [CandList.mem_oids_oid hb]
      exact mem_mergeVoidOid (b.ascending ys hb)
  | oid xs =>
    rw [CandList.mem_oids_oid ha]
    cases hb : b.tail with
    | void sb nb =>
      rw [CandList.mem_oids_void hb, or_comm]
      exact mem_mergeVoidOid (a.ascending xs ha)
    | oid ys =>
      rw [CandList.mem_oids_oid hb]
      exact mem_union

theorem pairwise_mergeTails (a b : CandList) : (mergeTails a.tail b.tail).Pairwise (· < ·) := by
  cases ha : a.tail with
  | void sa na =>
    cases hb : b.tail with
    | void sb nb =>
      rw [mergeTails]
      split_ifs
      · exact pairwise_mergeVoid _ _ _ _
      · exact pairwise_mergeVoid _ _ _ _
    | oid ys => exact pairwise_mergeVoidOid (b.ascending ys hb)
  | oid xs =>
    cases hb : b.tail with
    | void sb nb => exact pairwise_mergeVoidOid (a.ascending xs ha)
    | oid ys => exact pairwise_union (a.ascending xs ha) (b.ascending ys hb)

/-! ## The flags

The flags of an array are set to constants; they are true because the entries increase. -/

theorem trueOf_BATseqbase {count o : ℕ} (h : o + count ≤ oidNil) :
    (BATseqbase count o).TrueOf (CandTail.voidVals o count) := by
  rw [CandTail.voidVals_eq_range h]
  have hlt : ∀ x ∈ range' o count, x < oidNil := fun x hx =>
    (mem_range'_1.mp hx).2.trans_le h
  have hnil : oidNil ∉ range' o count := fun hx => (hlt _ hx).false
  have hsorted : (range' o count).Pairwise OidLe := by
    refine (pairwise_lt_range' (s := o) (n := count)).imp_of_mem ?_
    exact fun hx hy hxy => (oidLe_iff (hlt _ hx) (hlt _ hy)).mpr hxy.le
  have hnodup : (range' o count).Nodup := nodup_range'
  unfold BATseqbase
  split_ifs with ho
  · obtain rfl : count = 0 := by omega
    exact Props.trueOf_of_length_le (Nat.zero_le 1) (fun hn => by simp at hn) fun _ => hnil
  · refine ⟨fun _ => hsorted, fun hr => ?_, fun _ => hnodup, fun hn => by simp at hn, fun _ => hnil⟩
    refine RowBlocks.pairwise_of_length_le ?_ _
    rw [length_range']
    exact of_decide_eq_true hr

theorem trueOf_candProps {vals : List ℕ} (hasc : vals.Pairwise (· < ·))
    (hlt : ∀ o ∈ vals, o < oidNil) : candProps.TrueOf vals := by
  refine ⟨fun _ => ?_, nofun, fun _ => hasc.imp ne_of_lt, nofun, fun _ hn => (hlt _ hn).false⟩
  exact hasc.imp_of_mem fun hx hy hxy => (oidLe_iff (hlt _ hx) (hlt _ hy)).mpr hxy.le

theorem length_le_oidNil {vals : List ℕ} (hasc : vals.Pairwise (· < ·))
    (hlt : ∀ o ∈ vals, o < oidNil) : vals.length ≤ oidNil := by
  have hnodup : vals.Nodup := hasc.imp ne_of_lt
  have hsub : vals ⊆ range oidNil := fun o ho => mem_range.mpr (hlt o ho)
  simpa using (hnodup.subperm hsub).length_le

/-- A list that a loop has written becomes a right result if it is right and fits. -/
theorem isListOf_finishCand {capacity : ℕ} {vals : List ℕ} {S : Set ℕ}
    (hmem : ∀ o, o ∈ vals ↔ o ∈ S) (hasc : vals.Pairwise (· < ·)) (hlt : ∀ o ∈ S, o < oidNil)
    (hfits : vals.length ≤ capacity) : (finishCand capacity vals).IsListOf S := by
  have hlt : ∀ o ∈ vals, o < oidNil := fun o ho => hlt o ((hmem o).mp ho)
  refine ⟨hmem, hasc, ?_, ?_, trueOf_candProps hasc hlt, hfits⟩
  · exact Nat.pos_iff_ne_zero.mp (Nat.two_pow_pos 63) ∘ Eq.symm
  · exact trueOf_BATseqbase ((Nat.zero_add _).trans_le (length_le_oidNil hasc hlt))

/-! ## The results -/

/-- An increasing list of members of both lists has at most as many entries as either. -/
theorem CandList.length_le {vals : List ℕ} (a : CandList) (hasc : vals.Pairwise (· < ·))
    (hsub : ∀ o ∈ vals, o ∈ a.oids) : vals.length ≤ a.tail.count := by
  have hnodup : vals.Nodup := hasc.imp ne_of_lt
  exact (hnodup.subperm hsub).length_le.trans_eq a.length_vals

/-- **`BATmergecand` returns the union** of any two candidate lists. -/
theorem isListOf_mergecand (a b : CandList) : (BATmergecand a b).IsListOf (a.oids ∪ b.oids) := by
  have hasc := pairwise_mergeTails a b
  refine isListOf_finishCand (mem_mergeTails a b) hasc ?_ ?_
  · rintro o (ho | ho)
    · exact a.lt_oidNil ho
    · exact b.lt_oidNil ho
  · have hnodup : (mergeTails a.tail b.tail).Nodup := hasc.imp ne_of_lt
    have hsub : mergeTails a.tail b.tail ⊆ a.tail.vals ++ b.tail.vals := fun o ho =>
      mem_append.mpr ((mem_mergeTails a b o).mp ho)
    have hlen := (hnodup.subperm hsub).length_le
    rwa [length_append, a.length_vals, b.length_vals] at hlen

theorem isListOf_intersect (a b : CandList) {vals : List ℕ} (hasc : vals.Pairwise (· < ·))
    (hmem : ∀ o, o ∈ vals ↔ o ∈ a.oids ∩ b.oids) :
    (finishCand (min a.tail.count b.tail.count) vals).IsListOf (a.oids ∩ b.oids) := by
  refine isListOf_finishCand hmem hasc (fun o ho => a.lt_oidNil ho.1) (le_min ?_ ?_)
  · exact a.length_le hasc fun o ho => ((hmem o).mp ho).1
  · exact b.length_le hasc fun o ho => ((hmem o).mp ho).2

theorem CandList.oids_eq_empty {a : CandList} (h : a.tail.count = 0) : a.oids = ∅ := by
  rw [← a.length_vals, length_eq_zero_iff] at h
  unfold oids
  rw [h]
  simp

theorem isListOf_emptyCand : emptyCand.IsListOf ∅ := by
  have hpos : 0 + 0 ≤ oidNil := Nat.zero_le _
  refine ⟨fun o => ?_, ?_, ?_, trueOf_BATseqbase hpos, trueOf_BATseqbase hpos, le_rfl⟩
  · rw [emptyCand, CandTail.mem_vals_void hpos]
    simp
  · exact List.Pairwise.nil
  · exact Nat.pos_iff_ne_zero.mp (Nat.two_pow_pos 63) ∘ Eq.symm

/-- Both lists are ranges, and none is empty. -/
def BothVoid (a b : CandList) : Prop :=
  a.tail.isVoid = true ∧ b.tail.isVoid = true ∧ 0 < a.tail.count ∧ 0 < b.tail.count
  deriving Decidable

theorem not_isListOf_intersectVoid (sa na sb nb : ℕ) (S : Set ℕ) :
    ¬ (intersectVoid sa na sb nb).IsListOf S := fun h => h.dense rfl

/-- `BATintersectcand` returns the intersection unless it is asked for that of two ranges. -/
theorem isListOf_intersectcand_iff (a b : CandList) :
    (BATintersectcand a b).IsListOf (a.oids ∩ b.oids) ↔ ¬ BothVoid a b := by
  unfold BATintersectcand BothVoid
  split_ifs with hempty
  · refine iff_of_true ?_ (by omega)
    have hinter : a.oids ∩ b.oids = ∅ := by
      rcases hempty with h | h
      · rw [CandList.oids_eq_empty h, Set.empty_inter]
      · rw [CandList.oids_eq_empty h, Set.inter_empty]
    rw [hinter]
    exact isListOf_emptyCand
  · cases ha : a.tail with
    | void sa na =>
      cases hb : b.tail with
      | void sb nb =>
        -- two ranges: the head of the result is void with nil as its base
        rw [ha, hb] at hempty
        refine iff_of_false (not_isListOf_intersectVoid _ _ _ _ _) (not_not.mpr ⟨rfl, rfl, ?_⟩)
        change ¬ (na = 0 ∨ nb = 0) at hempty
        exact ⟨by change 0 < na; omega, by change 0 < nb; omega⟩
      | oid ys =>
        have hys := b.ascending ys hb
        refine iff_of_true ?_ (by simp [CandTail.isVoid])
        have hres := isListOf_intersect a b (pairwise_intersectVoidOid hys) fun o => by
          rw [mem_intersectVoidOid hys, Set.mem_inter_iff, CandList.mem_oids_void ha,
            CandList.mem_oids_oid hb]
        rwa [ha, hb] at hres
    | oid xs =>
      have hxs := a.ascending xs ha
      cases hb : b.tail with
      | void sb nb =>
        refine iff_of_true ?_ (by simp [CandTail.isVoid])
        have hres := isListOf_intersect a b (pairwise_intersectVoidOid hxs) fun o => by
          rw [mem_intersectVoidOid hxs, Set.mem_inter_iff, CandList.mem_oids_oid ha,
            CandList.mem_oids_void hb, and_comm]
        rwa [ha, hb] at hres
      | oid ys =>
        have hys := b.ascending ys hb
        refine iff_of_true ?_ (by simp [CandTail.isVoid])
        have hres := isListOf_intersect a b (pairwise_inter hxs hys) fun o => by
          rw [mem_inter hxs hys, Set.mem_inter_iff, CandList.mem_oids_oid ha,
            CandList.mem_oids_oid hb]
        rwa [ha, hb] at hres

/-- **When both operations return right candidate lists**: unless they are given two ranges that
are not empty. -/
theorem isListOf_cand_iff (a b : CandList) : ((BATmergecand a b).IsListOf (a.oids ∪ b.oids) ∧
      (BATintersectcand a b).IsListOf (a.oids ∩ b.oids)) ↔ ¬ BothVoid a b := by
  rw [← isListOf_intersectcand_iff]
  exact and_iff_right (isListOf_mergecand a b)

/-- The candidate list of a range. -/
def rangeCand (s n : ℕ) (h : s + n ≤ oidNil) : CandList where
  tail := .void s n
  inRange := by
    rintro s n ⟨⟩
    exact h
  ascending := nofun
  nonil := nofun

/-- Of the ranges of oids 0 to 2 and 1 to 3 the intersection has the tail 1 to 2, which is right,
but two nils in its head, which is said to have none. -/
theorem intersectcand_ranges_head :
    let a := rangeCand 0 3 (by decide)
    let b := rangeCand 1 3 (by decide)
    (BATintersectcand a b).tail.vals = [1, 2] ∧ (BATintersectcand a b).hseqbase = oidNil ∧
      (BATintersectcand a b).head.nonil = true ∧
      ¬ (BATintersectcand a b).IsListOf (a.oids ∩ b.oids) :=
  ⟨by decide, rfl, rfl, not_isListOf_intersectVoid 0 3 1 3 _⟩

end MonetInR.Gdk
