import MonetInR.Lib.GroupFold
import Mathlib.Data.List.TakeWhile
import MonetInR.Gdk.Calc.ConvertNumbers
import MonetInR.Lib.SortedMerge

/-!
# Grouped aggregates

`BATgroupsum`, `BATgroupcount`, `BATgroupmin` and `BATgroupmax` aggregate the candidate rows of a
column by groups.  The group id of a row is in a second column that is aligned with the first; the
result has one value for each group id in a range, which is that of a column of extents if there is
one, and otherwise that of the ids that occur.

All of them read the group ids through a pointer, which is null if the ids are dense.  Summing has
paths of its own for groups of one row and for a single group.  The functions read the id of another
row if the first row is no candidate: the pointer to the ids has been advanced to the first
candidate, but is indexed with the row.

Whatever rows a function accounts to a group, its count is that of these rows, and its minimum or
maximum the oid of the first one with the least or the greatest value.

## Main definitions

* `BATgroupaggrinit`, `groupSetup`: what the functions do first
* `aggrRows`, `groupSlot`: the rows that the loops visit, and where they account them
* `BATgroupcount`, `BATgroupmin`, `BATgroupmax`, `BATgroupsum`
* `wantedRows`, `groupOf`, `owed`: the rows to account, their groups, and both
* `Aggregate`, `accounted`: what a function accounts
* `Accounts`: the inputs that a function handles
* `Summarizes`: a result has for every group id of its head what the rows of the group make
* `IsBest`: the row to choose among those of a group

## Main results

* `accounted_eq_iff`
* `BATgroupcount_spec`, `groupCmp_spec`
-/

namespace MonetInR.Gdk

open GroupFold List Option

variable {α : Type*} [Atom α]

/-- What is read of a column of group ids.  `tail` has them from the first row on; behind the last
one it holds whatever the memory holds. -/
structure GroupColumn where
  hdense : Bool
  hseqbase : ℕ
  count : ℕ
  /-- The sequence base of the tail if `BATtdense` holds. -/
  tseq : Option ℕ
  tail : ℕ → ℕ
  tsorted : Bool
  tkey : Bool
  tnonil : Bool
  small : ∀ i < count, tail i ≤ oidNil
  dense_true : ∀ seq, tseq = some seq → ∀ i < count, tail i = seq + i
  dense_small : ∀ seq, tseq = some seq → seq + count ≤ oidNil
  /-- Nils come first. -/
  sorted_true : tsorted = true → ∀ i j, i ≤ j → j < count →
    tail i = oidNil ∨ tail j ≠ oidNil ∧ tail i ≤ tail j
  key_true : tkey = true → ∀ i j, i < j → j < count → tail i ≠ tail j
  nonil_true : tnonil = true → ∀ i < count, tail i ≠ oidNil

/-- What is read of a column of extents: the group ids are its head. -/
structure Extents where
  hdense : Bool
  hseqbase : ℕ
  count : ℕ
  oids_small : hseqbase + count ≤ oidNil

/-- The outputs of `BATgroupaggrinit`. -/
structure AggrInit where
  min : ℕ
  max : ℕ
  ngrp : ℕ
  cands : CandRange

/-- Why there is no result: the text of an error, or the failure of `BATconvert`. -/
inductive AggrError
  | message (text : String)
  | convert
  deriving DecidableEq

/-- A result column: its head is a dense sequence of group ids. -/
structure GroupResult (σ : Type*) where
  hseqbase : ℕ
  count : ℕ
  slot : ℕ → σ

/-! ## Initialisation

Without extents the range of the groups is found by a scan of the ids, which leaves out nil. -/

/-- Extend the range by the id of row `i`. -/
def rangeStep (g : GroupColumn) (r : ℕ × ℕ) (i : ℕ) : ℕ × ℕ :=
  if g.tail i ≠ oidNil then
    (if g.tail i < r.1 then g.tail i else r.1, if g.tail i > r.2 then g.tail i else r.2)
  else r

/-- The least and the greatest group id. -/
def groupRange (g : GroupColumn) : ℕ × ℕ :=
  match g.tseq with
  | some seq => (seq, seq + g.count - 1)
  | none =>
    if g.tsorted then
      match (List.range g.count).find? fun i => g.tail i ≠ oidNil with
      | some i => (g.tail i, g.tail (g.count - 1))
      | none => (oidNil, 0)
    else (List.range g.count).foldl (rangeStep g) (oidNil, 0)

section Init

variable (b : Column α) (g : Option GroupColumn) (e : Option Extents)
  (s : Option Candidates)

/-- `b` and `g` are aligned. -/
def groupsAligned (g : GroupColumn) : Bool :=
  g.hdense ∧ b.count = g.count ∧ (b.count ≠ 0 → b.hseqbase = g.hseqbase)

/-- The range of the group ids. -/
def aggrRange : ℕ × ℕ × ℕ :=
  match g, e with
  | none, _ => (0, 0, 1)
  | some g, none =>
    let r := groupRange g
    (r.1, r.2, if r.2 < r.1 then 0 else r.2 - r.1 + 1)
  | some _, some e => (e.hseqbase, e.hseqbase + e.count - 1, e.count)

/-- Find the range of the group ids and of the rows, or say what is wrong with the arguments. -/
def BATgroupaggrinit : Except String AggrInit :=
  if b.hdense = false then .error "b must be dense-headed"
  else if g.any (fun g => !groupsAligned b g) then .error "b and g must be aligned"
  else if e.any (fun e => !e.hdense) then .error "e must be dense-headed"
  else
    let r := aggrRange g e
    .ok ⟨r.1, r.2.1, r.2.2, CANDINIT b s⟩

/-- What every function does first. -/
def groupSetup (func : String) : Except AggrError (GroupColumn × AggrInit) :=
  match BATgroupaggrinit b g e s, g with
  | .error err, _ => .error (.message (func ++ ": " ++ err ++ "\n"))
  | .ok _, none => .error (.message (func ++ ": b and g must be aligned\n"))
  | .ok a, some g => .ok (g, a)

end Init

/-- The result if there are no rows or no groups. -/
def groupTrivial {σ : Type*} (a : AggrInit) (x : σ) : GroupResult σ :=
  ⟨if a.ngrp = 0 then 0 else a.min, a.ngrp, fun _ => x⟩

/-! ## Rows and slots

The two places where the functions go wrong are here: which rows the loop visits, and which id it
reads for a row. -/

/-- The rows a loop visits.  It stops at the first candidate that is not before `end`. -/
def aggrRows (c : CandRange) (seqb : ℕ) : List ℕ :=
  match c.cand with
  | none => List.range' c.start (c.stop - c.start)
  | some cand => ((List.range c.ncand).map fun k => sub64 (cand k) seqb).takeWhile (· < c.stop)

/-- `gids`: the pointer is set to the first row to visit, or it is null. -/
def gidsAt (g : GroupColumn) (start : ℕ) : Option (ℕ → ℕ) :=
  match g.tseq with
  | some _ => none
  | none => some fun i => g.tail (start + i)

/-- Where row `i` is accounted: `gids[i]`, if that is in the range, or the row itself. -/
def groupSlot (gids : Option (ℕ → ℕ)) (min max i : ℕ) : Option ℕ :=
  match gids with
  | none => some i
  | some gids => if min ≤ gids i ∧ gids i ≤ max then some (gids i - min) else none

/-- The slot of row `i` in all functions. -/
def rowSlot (g : GroupColumn) (a : AggrInit) (i : ℕ) : Option ℕ :=
  groupSlot (gidsAt g a.cands.start) a.min a.max i

/-! ## Count, minimum and maximum -/

section Positions

variable (b : Column α) (g : Option GroupColumn) (e : Option Extents)
  (s : Option Candidates) (skipNils : Bool)

/-- Row `i` is not skipped. -/
def Kept (i : ℕ) : Prop := skipNils = false ∨ b.value i ≠ ⊥
  deriving Decidable

/-- Count the rows of every group.  The body of `AGGR_COUNT` is the one of `accumulate`. -/
def BATgroupcount : Except AggrError (GroupResult ℕ) := do
  let (g, a) ← groupSetup b g e s "BATgroupcount"
  if b.count = 0 ∨ a.ngrp = 0 then .ok (groupTrivial a 0)
  else .ok ⟨a.min, a.ngrp, accumulate (rowSlot g a)
    (fun n i => if Kept b skipNils i then n + 1 else n) (aggrRows a.cands b.hseqbase) fun _ => 0⟩

/-- Row `i` is to replace row `j`: nothing replaces a nil, and a nil replaces everything. -/
def Replaces (reverse : ℤ) (i j : ℕ) : Prop :=
  b.value j ≠ ⊥ ∧ (b.value i = ⊥ ∨ Before reverse (b.value i) (b.value j))
  deriving Decidable

/-- The body of `AGGR_CMP`: `o` is the oid of the best row so far, or nil. -/
def cmpStep (reverse : ℤ) (o i : ℕ) : ℕ :=
  if Kept b skipNils i then
    if o = oidNil then i + b.hseqbase
    else if Replaces b reverse i (o - b.hseqbase) then i + b.hseqbase
    else o
  else o

/-- The common body of `BATgroupmin` and `BATgroupmax`: the oids of the rows with the least or the
greatest values. -/
def groupCmp (func : String) (reverse : ℤ) : Except AggrError (GroupResult ℕ) := do
  let (g, a) ← groupSetup b g e s func
  if b.count = 0 ∨ a.ngrp = 0 then .ok (groupTrivial a oidNil)
  else .ok ⟨a.min, a.ngrp, accumulate (rowSlot g a) (cmpStep b skipNils reverse)
    (aggrRows a.cands b.hseqbase) fun _ => oidNil⟩

def BATgroupmin : Except AggrError (GroupResult ℕ) := groupCmp b g e s skipNils "BATgroupmin" 1

def BATgroupmax : Except AggrError (GroupResult ℕ) := groupCmp b g e s skipNils "BATgroupmax" (-1)

end Positions

/-! ## Sum -/

/-- `ATOMname`. -/
def IntType.name : IntType → String
  | .bte => "bte"
  | .sht => "sht"
  | .int => "int"
  | .lng => "lng"

section Sum

variable (t t' : IntType) (skipNils abort : Bool)

/-- The test of `ADD_WITH_CHECK`. -/
def addOverflows (lft rgt : ℤ) : Prop :=
  if rgt < 1 then t'.min - rgt ≥ lft else t'.max - rgt < lft
  deriving Decidable

/-- Add, and say whether there is one more nil.  An overflow is an error if `abort` holds. -/
def ADD_WITH_CHECK (lft rgt : ℤ) : Option (ℤ × Bool) :=
  if addOverflows t' lft rgt then
    if abort then none else some (t'.min, true)
  else some (lft + rgt, false)

/-- The variables of a loop for a single group. -/
structure SumState where
  sum : ℤ
  /-- `nils != 0`. -/
  nils : Bool
  seenval : Bool

/-- Add one value to the sum of a single group.  With `nonil` there is no test for nil. -/
def singleStep (nonil : Bool) (st : SumState) (x : ℤ) : Option SumState :=
  if nonil = false ∧ x = t.min then
    if skipNils then some st else some ⟨t'.min, true, st.seenval⟩
  else (ADD_WITH_CHECK t' abort x st.sum).map fun r => ⟨r.1, st.nils || r.2, true⟩

/-- The loop for a single group without candidates ends with the first nil. -/
def singleLoop (nonil : Bool) : List ℤ → SumState → Option SumState
  | [], st => some st
  | x :: xs, st =>
    if st.nils then some st
    else (singleStep t t' skipNils abort nonil st x).bind (singleLoop nonil xs)

/-- Add one value to the sum of its group, whose bit in `seen` says whether it had one before. -/
def groupStep (nilIfEmpty : Bool) (st : ℤ × Bool) (x : ℤ) : Option (ℤ × Bool) :=
  let st := if nilIfEmpty ∧ st.2 = false then (0, true) else st
  if x = t.min then
    if skipNils then some st else some (t'.min, st.2)
  else if st.1 ≠ t'.min then (ADD_WITH_CHECK t' abort x st.1).map fun r => (r.1, st.2)
  else some st

/-- `AGGR_SUM`: the sums, or a failure by overflow. -/
def AGGR_SUM (vals : ℕ → ℤ) (nonil : Bool) (g : GroupColumn) (a : AggrInit) (seqb : ℕ)
    (nilIfEmpty : Bool) (sums : ℕ → ℤ) : Option (ℕ → ℤ) :=
  let rows := aggrRows a.cands seqb
  if a.ngrp = 1 then
    (match a.cands.cand with
      | none => singleLoop t t' skipNils abort nonil (rows.map vals)
          ⟨0, false, nonil && decide (a.cands.start < a.cands.stop)⟩
      | some _ => (rows.map vals).foldlM (singleStep t t' skipNils abort false)
          ⟨0, false, false⟩).map
      fun st : SumState => if st.seenval then Function.update sums 0 st.sum else sums
  else
    (accumulateM (rowSlot g a) (fun st i => groupStep t t' skipNils abort nilIfEmpty st (vals i))
      rows fun k => (sums k, false)).map fun f k => (f k).1

/-- Sum by groups, if there is code for the two types. -/
def dosum (vals : ℕ → ℤ) (nonil : Bool) (g : GroupColumn) (a : AggrInit) (seqb : ℕ)
    (nilIfEmpty : Bool) (func : String) (sums : ℕ → ℤ) : Except AggrError (ℕ → ℤ) :=
  if t'.bits < t.bits then
    .error (.message (func ++ ": type combination (sum(" ++ t.name ++ ")->" ++ t'.name ++
      ") not supported.\n"))
  else
    match AGGR_SUM t t' skipNils abort vals nonil g a seqb nilIfEmpty sums with
    | none => .error (.message "22003!overflow in calculation.\n")
    | some sums => .ok sums

end Sum

/-- The test for groups of one row each. -/
def singletons (b : Column α) (g : GroupColumn) (e : Option Extents) : Bool :=
  e.all (fun e => e.count = b.count ∧ e.hseqbase = b.hseqbase) &&
    (g.tseq.isSome || g.tkey && g.tnonil)

/-- **Sum by groups.**  The result of the conversion has the head of `b`. -/
def BATgroupsum {t : IntType} (b : IntColumn t) (g : Option GroupColumn) (e : Option Extents)
    (s : Option Candidates) (t' : IntType) (skipNils abort : Bool) :
    Except AggrError (GroupResult (Option ℤ)) := do
  let (g, a) ← groupSetup b.toColumn g e s "BATgroupsum"
  if b.count = 0 ∨ a.ngrp = 0 then .ok (groupTrivial a (some t'.min))
  else if singletons b.toColumn g e then
    match BATconvert b s (.num t') abort with
    | none => .error .convert
    | some r => .ok ⟨r.hseqbase, r.count, r.slot⟩
  else
    let sums ← dosum t t' skipNils abort (fun i => (b.value i).1) b.tnonil g a b.hseqbase true
      "BATgroupsum" fun _ => t'.min
    .ok ⟨a.min, a.ngrp, fun k => some (sums k)⟩

/-! ## The candidate rows

For all candidate lists that are sorted the loops visit the rows that are wanted, except that an
array that starts before the column makes the row number wrap around. -/

section Rows

variable (b : Column α) (s : Option Candidates) {c : Candidates} {l : List ℕ}

instance (c : Candidates) (o : ℕ) : Decidable (c.Mem o) :=
  inferInstanceAs (Decidable (∃ i < c.count, c.tail i = o))

instance (o : ℕ) : Decidable (IsCandidate b s o) :=
  match s with
  | none => decidable_of_iff (b.Contains o) ⟨fun h => ⟨h, nofun⟩, fun h => h.1⟩
  | some c => decidable_of_iff (b.Contains o ∧ c.Mem o)
      ⟨fun h => ⟨h.1, fun _ hc => some.inj hc ▸ h.2⟩, fun h => ⟨h.1, h.2 c rfl⟩⟩

/-- The candidate rows, in their order. -/
def wantedRows : List ℕ := (range b.count).filter fun p => IsCandidate b s (b.hseqbase + p)

variable {b s}

theorem not_candsBelow_none : ¬ CandsBelow b none := by
  rintro ⟨c, hc, -⟩
  cases hc

theorem mem_wantedRows {p : ℕ} :
    p ∈ wantedRows b s ↔ p < b.count ∧ ∀ c, s = some c → c.Mem (b.hseqbase + p) := by
  rw [wantedRows, mem_filter, mem_range, decide_eq_true_iff]
  constructor
  · rintro ⟨hp, -, hmem⟩
    exact ⟨hp, hmem⟩
  · rintro ⟨hp, hmem⟩
    exact ⟨hp, ⟨Nat.le_add_right _ _, Nat.add_lt_add_left hp _⟩, hmem⟩

theorem pairwise_wantedRows : (wantedRows b s).Pairwise (· < ·) :=
  List.Pairwise.filter _ pairwise_lt_range

/-- An ascending list has the members that the candidate rows have only if it is their list. -/
theorem eq_wantedRows (hl : l.Pairwise (· < ·))
    (h : ∀ p, p ∈ l ↔ p < b.count ∧ ∀ c, s = some c → c.Mem (b.hseqbase + p)) :
    l = wantedRows b s :=
  hl.eq_of_mem_iff pairwise_wantedRows fun p => (h p).trans mem_wantedRows.symm

/-- An array that starts before the column ends the loop at once. -/
theorem aggrRows_below (hpos : 0 < c.count) (hbelow : c.tail 0 < b.hseqbase) {start stop : ℕ}
    (hstop : stop ≤ b.count) : aggrRows ⟨start, stop, some c.tail, c.count⟩ b.hseqbase = [] := by
  obtain ⟨n, hn⟩ : ∃ n, c.count = n + 1 := ⟨c.count - 1, by omega⟩
  have hwrap : ¬ sub64 (c.tail 0) b.hseqbase < stop := by
    have := b.oids_small
    unfold sub64
    omega
  simp only [aggrRows, hn, range_succ_eq_map, map_cons, takeWhile_cons]
  exact if_neg (by simpa using hwrap)

theorem aggrRows_array (hsorted : c.tsorted = true) (hkey : c.tkey = true) (hpos : 0 < c.count)
    (hge : b.hseqbase ≤ c.tail 0) (start : ℕ) :
    aggrRows ⟨start, clip b (c.tail (c.count - 1) + 1), some c.tail, c.count⟩ b.hseqbase =
      wantedRows b (some c) := by
  have hle := c.sorted_true hsorted
  have hge : ∀ i < c.count, b.hseqbase ≤ c.tail i := fun i hi =>
    hge.trans (hle 0 i (Nat.zero_le i) hi)
  have hstop := clip_eq (b := b) (c.tail (c.count - 1) + 1)
  -- no difference wraps around, since the first candidate is not before the column
  have hsub : ∀ i < c.count, sub64 (c.tail i) b.hseqbase = c.tail i - b.hseqbase :=
    fun i hi => sub64_of_le (hge i hi) (by have := c.small i hi; omega)
  have hasc : ((range c.count).map fun k => sub64 (c.tail k) b.hseqbase).Pairwise (· < ·) := by
    refine pairwise_map.mpr (pairwise_lt_range.imp_of_mem ?_)
    intro i j hi hj hij
    rw [mem_range] at hi hj
    have hlt := lt_of_le_of_ne (hle i j hij.le hj) (c.key_true hkey i j hij hj)
    have := hge i hi
    rw [hsub i hi, hsub j hj]
    omega
  refine eq_wantedRows (hasc.sublist (takeWhile_sublist _)) fun p => ?_
  change p ∈ takeWhile _ _ ↔ _
  rw [SortedMerge.takeWhile_lt hasc, mem_filter, decide_eq_true_iff, List.mem_map]
  dsimp only
  constructor
  · rintro ⟨⟨i, hi, rfl⟩, hlt⟩
    rw [mem_range] at hi
    rw [hsub i hi] at hlt ⊢
    refine ⟨by omega, fun c' hc' => ?_⟩
    obtain rfl := some.inj hc'
    exact ⟨i, hi, by have := hge i hi; omega⟩
  · rintro ⟨hp, hmem⟩
    obtain ⟨i, hi, heq⟩ := hmem c rfl
    have := hle i (c.count - 1) (by omega) (by omega)
    exact ⟨⟨i, mem_range.mpr hi, by rw [hsub i hi]; omega⟩, by omega⟩

/-- **The loops visit the candidate rows**, and none if an array of candidates starts before the
column. -/
theorem aggrRows_candinit (hs : Proper s) :
    (CandsBelow b s → aggrRows (CANDINIT b s) b.hseqbase = []) ∧
    (¬ CandsBelow b s → aggrRows (CANDINIT b s) b.hseqbase = wantedRows b s) := by
  rcases candinit_cases b s with
    ⟨lo, hi, hinit, -, hhi, harray, hmem⟩ | ⟨c, rfl, hseq, hpos, hinit⟩
  · rw [hinit]
    refine ⟨?_, fun _ => eq_wantedRows pairwise_lt_range' fun p => ?_⟩
    · rintro ⟨c, hc, hseq, hpos, -⟩
      exact absurd (harray c hc hseq) hpos.ne'
    change p ∈ range' lo (hi - lo) ↔ _
    rw [mem_range'_1]
    constructor
    · intro hp
      exact ⟨by omega, ((hmem (b.hseqbase + p)).mpr (by omega)).2⟩
    · rintro ⟨hp, hcand⟩
      have := (hmem (b.hseqbase + p)).mp ⟨⟨by omega, by omega⟩, hcand⟩
      omega
  · rw [hinit]
    refine ⟨?_, fun hbelow => ?_⟩
    · rintro ⟨c', hc', -, -, hbelow⟩
      obtain rfl := some.inj hc'
      have hstop := clip_eq (b := b) (c.tail (c.count - 1) + 1)
      exact aggrRows_below hpos hbelow (by omega)
    · refine aggrRows_array (hs c rfl).1 (hs c rfl).2 hpos ?_ _
      by_contra hcon
      exact hbelow ⟨c, rfl, hseq, hpos, not_le.mp hcon⟩

end Rows

/-! ## The range of the ids -/

section Range

variable (g : GroupColumn)

/-- Scanning rows widens the range so that it has their ids, and only ids are its maximum. -/
theorem foldl_rangeStep (l : List ℕ) (r : ℕ × ℕ) (hl : ∀ i ∈ l, g.tail i ≤ oidNil)
    (hr : r.2 < oidNil) :
    let r' := l.foldl (rangeStep g) r
    r'.1 ≤ r.1 ∧ r.2 ≤ r'.2 ∧ r'.2 < oidNil ∧
      ∀ i ∈ l, g.tail i ≠ oidNil → r'.1 ≤ g.tail i ∧ g.tail i ≤ r'.2 := by
  induction l generalizing r with
  | nil => exact ⟨le_rfl, le_rfl, hr, by simp⟩
  | cons i l ih =>
    have hi := hl i mem_cons_self
    have hstep : (rangeStep g r i).1 ≤ r.1 ∧ r.2 ≤ (rangeStep g r i).2 ∧
        (rangeStep g r i).2 < oidNil ∧ (g.tail i ≠ oidNil →
          (rangeStep g r i).1 ≤ g.tail i ∧ g.tail i ≤ (rangeStep g r i).2) := by
      unfold rangeStep
      split_ifs <;> omega
    obtain ⟨h1, h2, h3, h4⟩ := ih (rangeStep g r i) (fun j hj => hl j (mem_cons_of_mem i hj))
      hstep.2.2.1
    refine ⟨h1.trans hstep.1, hstep.2.1.trans h2, h3, fun j hj hne => ?_⟩
    rcases mem_cons.mp hj with rfl | hj
    · exact ⟨h1.trans (hstep.2.2.2 hne).1, (hstep.2.2.2 hne).2.trans h2⟩
    · exact h4 j hj hne

theorem groupRange_spec : (groupRange g).2 < oidNil ∧ ∀ i < g.count, g.tail i ≠ oidNil →
    (groupRange g).1 ≤ g.tail i ∧ g.tail i ≤ (groupRange g).2 := by
  unfold groupRange
  cases hseq : g.tseq with
  | some seq =>
    have hsmall := g.dense_small seq hseq
    have hpos : 0 < oidNil := by decide
    refine ⟨by dsimp only; omega, fun i hi _ => ?_⟩
    have := g.dense_true seq hseq i hi
    dsimp only
    omega
  | none =>
    split_ifs with hsorted
    · cases hfind : (range g.count).find? fun i => g.tail i ≠ oidNil with
      | none =>
        refine ⟨Nat.two_pow_pos 63, fun i hi hne => ?_⟩
        have := find?_eq_none.mp hfind i (mem_range.mpr hi)
        exact absurd hne (by simpa using this)
      | some i =>
        obtain ⟨hi, l₁, l₂, hl, hbefore⟩ := find?_eq_some_iff_append.mp hfind
        have hi : g.tail i ≠ oidNil := by simpa using hi
        have hmem : i < g.count := mem_range.mp (hl ▸ by simp)
        have hlast := (g.sorted_true hsorted i (g.count - 1) (by omega) (by omega)).resolve_left hi
        refine ⟨lt_of_le_of_ne (g.small _ (by omega)) hlast.1, fun j hj hne => ⟨?_, ?_⟩⟩
        · -- the rows before `i` are nil
          rcases Nat.lt_or_ge j i with hlt | hge
          · have hj1 : j ∈ l₁ := by
              have hord : (l₁ ++ i :: l₂).Pairwise (· < ·) := hl ▸ pairwise_lt_range
              have hj' : j ∈ l₁ ++ i :: l₂ := hl ▸ mem_range.mpr hj
              rcases mem_append.mp hj' with h | h
              · exact h
              · rcases mem_cons.mp h with rfl | h
                · omega
                · have := (pairwise_cons.mp (pairwise_append.mp hord).2.1).1 j h
                  omega
            exact absurd hne (by simpa using hbefore j hj1)
          · exact ((g.sorted_true hsorted i j hge hj).resolve_left hi).2
        · exact ((g.sorted_true hsorted j (g.count - 1) (by omega) (by omega)).resolve_left hne).2
    · have h := foldl_rangeStep g (range g.count) (oidNil, 0)
        (fun i hi => g.small i (mem_range.mp hi)) (by decide)
      exact ⟨h.2.2.1, fun i hi hne => h.2.2.2 i (mem_range.mpr hi) hne⟩

end Range

/-! ## Groups

What is owed to a group is said in terms of the ids of the rows themselves.  The functions differ in
what they account, and the conditions under which it is what they owe are compared here, row by row.
-/

section Groups

variable (b : Column α) (g : GroupColumn) (e : Option Extents)
  (s : Option Candidates) (a : AggrInit) {i : ℕ} {f : Aggregate}

/-- The group of row `i`, if its id is in the range. -/
def groupOf (i : ℕ) : Option ℕ :=
  if a.min ≤ g.tail i ∧ g.tail i < a.min + a.ngrp then some (g.tail i) else none

/-- What is to be accounted: the candidate rows that have a group. -/
def owed : List (ℕ × ℕ) := assigned (groupOf g a) (wantedRows b s)

/-- The aggregates. -/
inductive Aggregate
  | sum
  | count
  | min
  | max
  deriving DecidableEq

/-- The sum is taken to be the conversion of the column. -/
def Aggregate.converts (f : Aggregate) : Prop := f = .sum ∧ singletons b g e = true
  deriving Decidable

/-- The rows are all taken for rows of the only group. -/
def Aggregate.single (f : Aggregate) : Prop := f = .sum ∧ a.ngrp = 1
  deriving Decidable

/-- The group that a visited row is accounted to. -/
def accountedTo (f : Aggregate) (i : ℕ) : Option ℕ :=
  if f.converts b g e then some (b.hseqbase + i)
  else if f.single a then some a.min
  else (rowSlot g a i).map (a.min + ·)

/-- What a function accounts. -/
def accounted (f : Aggregate) : List (ℕ × ℕ) :=
  if b.count = 0 ∨ a.ngrp = 0 then []
  else assigned (accountedTo b g e a f) (aggrRows a.cands b.hseqbase)

/-- The base and the length of the head of the result. -/
def resultHead (f : Aggregate) : ℕ × ℕ :=
  if b.count = 0 ∨ a.ngrp = 0 then (if a.ngrp = 0 then 0 else a.min, a.ngrp)
  else if f.converts b g e then (b.hseqbase, b.count)
  else (a.min, a.ngrp)

/-- **Row by row, a function accounts what is owed**, under the ids of the range. -/
structure IsAccount (f : Aggregate) : Prop where
  count : (resultHead b g e a f).2 = a.ngrp
  base : a.ngrp ≠ 0 → (resultHead b g e a f).1 = a.min
  rows : accounted b g e a f = owed b g s a

/-- The id that is read for row `i` is as good as its own.  Dense ids are not read at all; others
are read as many rows further as there are before the first candidate. -/
def IdRead (i : ℕ) : Prop :=
  match g.tseq with
  | some seq => seq = a.min ∧ i < a.ngrp
  | none => groupOf g a (a.cands.start + i) = groupOf g a i

/-- Row `i` is accounted to its group. -/
def RowRight (f : Aggregate) (i : ℕ) : Prop :=
  if f.converts b g e then groupOf g a i = some (b.hseqbase + i)
  else if f.single a then groupOf g a i = some a.min
  else IdRead g a i

/-- **The inputs that a function handles.**  Unless there is nothing to do, an array of candidates
does not start before the column, or none of its rows has a group, and every candidate row is
accounted to its group.  A conversion is only right if the group ids are those of the rows. -/
def Accounts (f : Aggregate) : Prop := b.count = 0 ∨ a.ngrp = 0 ∨
    (f.converts b g e → a.min = b.hseqbase ∧ a.ngrp = b.count) ∧
    ∀ i ∈ wantedRows b s,
      CandsBelow b s ∧ groupOf g a i = none ∨ ¬ CandsBelow b s ∧ RowRight b g e a f i

variable {b g e s a}

theorem aggrinit_ok (h : BATgroupaggrinit b (some g) e s = .ok a) :
    b.count = g.count ∧ a.cands = CANDINIT b s ∧ (a.ngrp ≠ 0 → a.max + 1 = a.min + a.ngrp) := by
  unfold BATgroupaggrinit at h
  split_ifs at h with h1 h2 h3
  obtain rfl := Except.ok.inj h
  have halign : groupsAligned b g = true := by simpa using h2
  simp only [groupsAligned, decide_eq_true_iff] at halign
  refine ⟨halign.2.1, rfl, ?_⟩
  cases e with
  | none =>
    simp only [aggrRange]
    split_ifs with hlt
    · exact fun h => absurd rfl h
    · omega
  | some e =>
    simp only [aggrRange]
    omega

/-- A row whose id is nil has no group, and without extents every other row has one. -/
theorem groupOf_spec (h : BATgroupaggrinit b (some g) e s = .ok a) (hi : i < g.count) :
    (g.tail i = oidNil → groupOf g a i = none) ∧
      (e = none → g.tail i ≠ oidNil → groupOf g a i = some (g.tail i)) := by
  unfold BATgroupaggrinit at h
  split_ifs at h
  obtain rfl := Except.ok.inj h
  obtain ⟨hmax, hin⟩ := groupRange_spec g
  cases e with
  | none =>
    refine ⟨fun hnil => if_neg ?_, fun _ hne => if_pos ?_⟩
    · simp only [aggrRange]
      split_ifs <;> omega
    · have := hin i hi hne
      simp only [aggrRange]
      split_ifs <;> omega
  | some e =>
    refine ⟨fun hnil => if_neg ?_, nofun⟩
    have := e.oids_small
    simp only [aggrRange]
    omega

theorem rowSlot_dense {seq : ℕ} (hseq : g.tseq = some seq) (i : ℕ) : rowSlot g a i = some i := by
  simp [rowSlot, gidsAt, hseq, groupSlot]

theorem rowSlot_ids (hseq : g.tseq = none) (hmax : a.max + 1 = a.min + a.ngrp) (i : ℕ) :
    (rowSlot g a i).map (a.min + ·) = groupOf g a (a.cands.start + i) := by
  simp only [rowSlot, gidsAt, hseq, groupSlot, groupOf]
  by_cases hin : a.min ≤ g.tail (a.cands.start + i) ∧ g.tail (a.cands.start + i) ≤ a.max
  · rw [if_pos hin, if_pos (by omega), map_some, Nat.add_sub_cancel' hin.1]
  · rw [if_neg hin, if_neg (by omega), map_none]

/-- The id that is read for a row is its own exactly if it is as good as its own. -/
theorem idRead_iff (hi : i < g.count) (hmax : a.max + 1 = a.min + a.ngrp) :
    (rowSlot g a i).map (a.min + ·) = groupOf g a i ↔ IdRead g a i := by
  cases hseq : g.tseq with
  | none => rw [rowSlot_ids hseq hmax, IdRead, hseq]
  | some seq =>
    rw [rowSlot_dense hseq, IdRead, hseq, groupOf, g.dense_true seq hseq i hi, map_some]
    split_ifs with hin
    · rw [some_inj]
      omega
    · exact iff_of_false nofun (by omega)

theorem accountedTo_iff (hi : i < g.count) (hmax : a.max + 1 = a.min + a.ngrp) :
    accountedTo b g e a f i = groupOf g a i ↔ RowRight b g e a f i := by
  unfold accountedTo RowRight
  split_ifs
  · exact eq_comm
  · exact eq_comm
  · exact idRead_iff hi hmax

theorem owed_trivial (h : b.count = 0 ∨ a.ngrp = 0) : owed b g s a = [] := by
  refine assigned_eq_nil.mpr fun i hi => ?_
  have hi := (mem_wantedRows.mp hi).1
  exact if_neg (by omega)

theorem accounted_eq_iff (hs : Proper s) (h : BATgroupaggrinit b (some g) e s = .ok a)
    (hb : b.count ≠ 0) (hn : a.ngrp ≠ 0) :
    accounted b g e a f = owed b g s a ↔ ∀ i ∈ wantedRows b s,
      CandsBelow b s ∧ groupOf g a i = none ∨ ¬ CandsBelow b s ∧ RowRight b g e a f i := by
  obtain ⟨hcount, hcands, hmax⟩ := aggrinit_ok h
  rw [accounted, if_neg (by omega), hcands, owed]
  by_cases hbelow : CandsBelow b s
  · rw [(aggrRows_candinit hs).1 hbelow, assigned_nil, eq_comm, assigned_eq_nil]
    simp only [hbelow, true_and, not_true, false_and, or_false]
  · rw [(aggrRows_candinit hs).2 hbelow, assigned_eq_iff]
    simp only [hbelow, false_and, not_false_eq_true, true_and, false_or]
    refine forall₂_congr fun i hi => ?_
    exact accountedTo_iff (hcount ▸ (mem_wantedRows.mp hi).1) (hmax hn)

/-- **A function accounts what is owed for the inputs it handles, and for no others.** -/
theorem isAccount_iff (hs : Proper s) (h : BATgroupaggrinit b (some g) e s = .ok a)
    (f : Aggregate) : IsAccount b g e s a f ↔ Accounts b g e s a f := by
  by_cases htriv : b.count = 0 ∨ a.ngrp = 0
  · refine iff_of_true ⟨?_, fun hn => ?_, ?_⟩ (by tauto)
    · rw [resultHead, if_pos htriv]
    · rw [resultHead, if_pos htriv, if_neg hn]
    · rw [accounted, if_pos htriv, owed_trivial htriv]
  have hb : b.count ≠ 0 := by tauto
  have hn : a.ngrp ≠ 0 := by tauto
  have hrows := accounted_eq_iff hs h (f := f) hb hn
  -- a conversion makes a group of each row, numbered by its oid
  have hhead : (resultHead b g e a f).2 = a.ngrp ∧ (resultHead b g e a f).1 = a.min ↔
      (f.converts b g e → a.min = b.hseqbase ∧ a.ngrp = b.count) := by
    rw [resultHead, if_neg htriv]
    by_cases hc : f.converts b g e
    · rw [if_pos hc]
      simp only [hc, true_imp_iff]
      omega
    · simp [hc]
  constructor
  · intro hacc
    exact .inr (.inr ⟨hhead.mp ⟨hacc.count, hacc.base hn⟩, hrows.mp hacc.rows⟩)
  · rintro (h0 | h0 | ⟨hh, hr⟩)
    · exact absurd h0 hb
    · exact absurd h0 hn
    · exact ⟨(hhead.mpr hh).1, fun _ => (hhead.mpr hh).2, hrows.mpr hr⟩

end Groups

/-! ## Counts, minima and maxima

These functions are right about the rows that they account, without any condition.  `Summarizes`
says so of a result. -/

/-- A result with a given head has for every group what `agg` says of the rows accounted to it. -/
structure Summarizes {σ : Type*} (agg : List ℕ → σ → Prop) (acct : List (ℕ × ℕ)) (head : ℕ × ℕ)
    (r : GroupResult σ) : Prop where
  hseqbase : r.hseqbase = head.1
  count : r.count = head.2
  slot : ∀ k < r.count, agg (rowsOf acct (r.hseqbase + k)) (r.slot k)

section Setup

variable {α σ : Type*} [Atom α] {b : Column α} {g : GroupColumn} {e : Option Extents}
  {s : Option Candidates} {a : AggrInit} {f : Aggregate} {agg : List ℕ → σ → Prop} {x : σ}

theorem groupSetup_eq (h : BATgroupaggrinit b (some g) e s = .ok a) (func : String) :
    groupSetup b (some g) e s func = .ok (g, a) := by
  simp only [groupSetup, h]

theorem summarizes_trivial (h : b.count = 0 ∨ a.ngrp = 0) (hx : agg [] x) :
    Summarizes agg (accounted b g e a f) (resultHead b g e a f) (groupTrivial a x) := by
  rw [resultHead, if_pos h, accounted, if_pos h]
  exact ⟨rfl, rfl, fun k _ => hx⟩

section

variable (h : ¬ (b.count = 0 ∨ a.ngrp = 0))

include h

/-- Functions without paths of their own account every row by its slot. -/
theorem accounted_slots (hc : ¬ f.converts b g e) (hone : ¬ f.single a) (k : ℕ) :
    rowsOf (accounted b g e a f) (a.min + k) =
      rowsOf (assigned (rowSlot g a) (aggrRows a.cands b.hseqbase)) k := by
  have hto : accountedTo b g e a f = fun i => (rowSlot g a i).map (a.min + ·) := by
    funext i
    rw [accountedTo, if_neg hc, if_neg hone]
  rw [accounted, if_neg h, hto]
  exact rowsOf_assigned_map (fun x y hxy => Nat.add_left_cancel hxy) k

theorem resultHead_slots (hc : ¬ f.converts b g e) : resultHead b g e a f = (a.min, a.ngrp) := by
  rw [resultHead, if_neg h, if_neg hc]

theorem summarizes_accumulate {add : σ → ℕ → σ} (hsum : f ≠ .sum)
    (hagg : ∀ k, agg (rowsOf (assigned (rowSlot g a) (aggrRows a.cands b.hseqbase)) k)
      ((rowsOf (assigned (rowSlot g a) (aggrRows a.cands b.hseqbase)) k).foldl add x)) :
    Summarizes agg (accounted b g e a f) (resultHead b g e a f)
      ⟨a.min, a.ngrp, accumulate (rowSlot g a) add (aggrRows a.cands b.hseqbase) fun _ => x⟩ := by
  have hc : ¬ f.converts b g e := fun h => hsum h.1
  have hone : ¬ f.single a := fun h => hsum h.1
  rw [resultHead_slots h hc]
  refine ⟨rfl, rfl, fun k _ => ?_⟩
  rw [accounted_slots h hc hone k]
  change agg _ (accumulate (rowSlot g a) add (aggrRows a.cands b.hseqbase) (fun _ => x) k)
  rw [accumulate_apply]
  exact hagg k

end

end Setup

/-! ## Count -/

section Count

variable {b : Column α} {g : GroupColumn} {e : Option Extents}
  {s : Option Candidates} {a : AggrInit} {skipNils : Bool}

/-- `n` is the number of rows that are kept. -/
def IsCount (b : Column α) (skipNils : Bool) (rows : List ℕ) (n : ℕ) : Prop :=
  n = rows.countP fun i => Kept b skipNils i

theorem foldl_count (rows : List ℕ) (n : ℕ) :
    rows.foldl (fun n i => if Kept b skipNils i then n + 1 else n) n =
      n + rows.countP fun i => Kept b skipNils i := by
  induction rows generalizing n with
  | nil => rfl
  | cons i rows ih =>
    rw [foldl_cons, ih, countP_cons]
    by_cases hi : Kept b skipNils i
    · simp only [hi, if_true, decide_true]
      omega
    · simp [hi]

theorem BATgroupcount_spec (h : BATgroupaggrinit b (some g) e s = .ok a) (skipNils : Bool) :
    ∃ r, BATgroupcount b (some g) e s skipNils = .ok r ∧
      Summarizes (IsCount b skipNils) (accounted b g e a .count) (resultHead b g e a .count) r := by
  unfold BATgroupcount
  rw [groupSetup_eq h]
  change ∃ r, ite _ _ _ = _ ∧ _
  split_ifs with htriv
  · exact ⟨_, rfl, summarizes_trivial htriv rfl⟩
  · refine ⟨_, rfl, summarizes_accumulate htriv (nofun) fun k => ?_⟩
    rw [foldl_count, Nat.zero_add]
    rfl

end Count

/-! ## Minimum and maximum

The result is a row and not a value: among equal values it is the first one, and a nil that is not
skipped wins. -/

section Best

variable {b : Column α} {reverse : ℤ} {i j p q : ℕ} {skipNils : Bool}
  {rows : List ℕ}

/-- The oid of the row to choose: no row replaces it, and it replaces all rows before it.  It is nil
if no row is kept. -/
def IsBest (b : Column α) (skipNils : Bool) (reverse : ℤ) (rows : List ℕ) (o : ℕ) : Prop :=
  (∀ q ∈ rows, ¬ Kept b skipNils q) ∧ o = oidNil ∨
    ∃ p ∈ rows, Kept b skipNils p ∧ o = p + b.hseqbase ∧
      (∀ q ∈ rows, Kept b skipNils q → ¬ Replaces b reverse q p) ∧
      ∀ q ∈ rows, Kept b skipNils q → q < p → Replaces b reverse p q

theorem isBest_nil : IsBest b skipNils reverse [] oidNil :=
  .inl ⟨fun _ hq => absurd hq not_mem_nil, rfl⟩

section

variable (h : IsDirection reverse)

include h

theorem Replaces.trans (hqi : Replaces b reverse q i) (hip : Replaces b reverse i p) :
    Replaces b reverse q p := by
  refine ⟨hip.1, hqi.2.imp_right fun hbefore => ?_⟩
  exact hbefore.trans h (hip.2.resolve_left hqi.1)

/-- A row that replaces another one replaces every row that does not. -/
theorem Replaces.of_not (hip : Replaces b reverse i p) (hqp : ¬ Replaces b reverse q p) :
    Replaces b reverse i q := by
  have hq : b.value q ≠ ⊥ := fun hnil => hqp ⟨hip.1, .inl hnil⟩
  have hnot : ¬ Before reverse (b.value q) (b.value p) := fun hb => hqp ⟨hip.1, .inr hb⟩
  exact ⟨hq, hip.2.imp_right fun hb => hb.trans_not h hnot⟩

theorem IsBest.step {o : ℕ} (hbest : IsBest b skipNils reverse rows o)
    (hrows : ∀ q ∈ rows, q < b.count) (hi : ∀ q ∈ rows, q < i) :
    IsBest b skipNils reverse (rows ++ [i]) (cmpStep b skipNils reverse o i) := by
  have hmem : ∀ q, q ∈ rows ++ [i] ↔ q ∈ rows ∨ q = i := by simp
  have hirr : ∀ q, ¬ Replaces b reverse q q := fun q hq =>
    hq.2.elim hq.1 (before_irrefl h)
  unfold cmpStep
  by_cases hkept : Kept b skipNils i
  · rw [if_pos hkept]
    rcases hbest with ⟨hnone, rfl⟩ | ⟨p, hp, hpk, rfl, hworse, hfirst⟩
    · -- the first row that is kept
      refine .inr ⟨i, (hmem i).mpr (.inr rfl), hkept, rfl, fun q hq hqk => ?_,
        fun q hq hqk hlt => ?_⟩
      · rcases (hmem q).mp hq with hq | rfl
        · exact absurd hqk (hnone q hq)
        · exact hirr q
      · rcases (hmem q).mp hq with hq | rfl
        · exact absurd hqk (hnone q hq)
        · exact absurd hlt (lt_irrefl q)
    · have hoid : p + b.hseqbase ≠ oidNil := by
        have := hrows p hp
        have := b.oids_small
        unfold oidNil
        omega
      rw [if_neg hoid, Nat.add_sub_cancel]
      by_cases hrep : Replaces b reverse i p
      · rw [if_pos hrep]
        refine .inr ⟨i, (hmem i).mpr (.inr rfl), hkept, rfl, fun q hq hqk hqi => ?_,
          fun q hq hqk hlt => ?_⟩
        · rcases (hmem q).mp hq with hq | rfl
          · exact hworse q hq hqk (hqi.trans h hrep)
          · exact hirr q hqi
        · rcases (hmem q).mp hq with hq | rfl
          · exact hrep.of_not h (hworse q hq hqk)
          · exact absurd hlt (lt_irrefl q)
      · rw [if_neg hrep]
        refine .inr ⟨p, (hmem p).mpr (.inl hp), hpk, rfl, fun q hq hqk => ?_,
          fun q hq hqk hlt => ?_⟩
        · rcases (hmem q).mp hq with hq | rfl
          · exact hworse q hq hqk
          · exact hrep
        · rcases (hmem q).mp hq with hq | rfl
          · exact hfirst q hq hqk hlt
          · exact absurd hlt (hi p hp).not_gt
  · rw [if_neg hkept]
    rcases hbest with ⟨hnone, rfl⟩ | ⟨p, hp, hpk, rfl, hworse, hfirst⟩
    · refine .inl ⟨fun q hq => ?_, rfl⟩
      rcases (hmem q).mp hq with hq | rfl
      · exact hnone q hq
      · exact hkept
    · refine .inr ⟨p, (hmem p).mpr (.inl hp), hpk, rfl, fun q hq hqk => ?_, fun q hq hqk => ?_⟩
      · rcases (hmem q).mp hq with hq | rfl
        · exact hworse q hq hqk
        · exact absurd hqk hkept
      · rcases (hmem q).mp hq with hq | rfl
        · exact hfirst q hq hqk
        · exact absurd hqk hkept

theorem foldl_cmpStep (hasc : rows.Pairwise (· < ·)) (hrows : ∀ q ∈ rows, q < b.count) :
    IsBest b skipNils reverse rows (rows.foldl (cmpStep b skipNils reverse) oidNil) := by
  induction rows using reverseRecOn with
  | nil =>
    rw [foldl_nil]
    exact isBest_nil
  | append_singleton rows i ih =>
    obtain ⟨hasc, -, hi⟩ := pairwise_append.mp hasc
    have hrows' : ∀ q ∈ rows, q < b.count := fun q hq => hrows q (mem_append_left _ hq)
    rw [foldl_append]
    exact (ih hasc hrows').step h hrows' fun q hq => hi q hq i (mem_singleton_self i)

end

variable {g : GroupColumn} {e : Option Extents} {s : Option Candidates} {a : AggrInit}

/-- The rows that are visited are in order, and in the column. -/
theorem aggrRows_ordered (hs : Proper s) (h : BATgroupaggrinit b (some g) e s = .ok a) :
    (aggrRows a.cands b.hseqbase).Pairwise (· < ·) ∧
      ∀ q ∈ aggrRows a.cands b.hseqbase, q < b.count := by
  rw [(aggrinit_ok h).2.1]
  by_cases hbelow : CandsBelow b s
  · rw [(aggrRows_candinit hs).1 hbelow]
    exact ⟨List.Pairwise.nil, fun q hq => absurd hq not_mem_nil⟩
  · rw [(aggrRows_candinit hs).2 hbelow]
    exact ⟨pairwise_wantedRows, fun q hq => (mem_wantedRows.mp hq).1⟩

theorem groupCmp_spec (hs : Proper s) (h : BATgroupaggrinit b (some g) e s = .ok a)
    (hdir : IsDirection reverse) (skipNils : Bool) (func : String) {f : Aggregate}
    (hsum : f ≠ .sum) :
    ∃ r, groupCmp b (some g) e s skipNils func reverse = .ok r ∧
      Summarizes (IsBest b skipNils reverse) (accounted b g e a f) (resultHead b g e a f) r := by
  unfold groupCmp
  rw [groupSetup_eq h]
  change ∃ r, ite _ _ _ = _ ∧ _
  split_ifs with htriv
  · exact ⟨_, rfl, summarizes_trivial htriv isBest_nil⟩
  · obtain ⟨hasc, hrows⟩ := aggrRows_ordered hs h
    refine ⟨_, rfl, summarizes_accumulate htriv hsum fun k => foldl_cmpStep hdir ?_ fun q hq => ?_⟩
    · rw [rowsOf_assigned]
      exact hasc.filter _
    · exact hrows q (mem_of_mem_rowsOf hq)

end Best

end MonetInR.Gdk
