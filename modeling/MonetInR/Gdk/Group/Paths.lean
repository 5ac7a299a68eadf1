import MonetInR.Gdk.Aggr.Accounting
import MonetInR.Lib.Numbering

/-!
# Grouping

`BATgroup_internal` numbers the rows of a column by their values, or refines a previous grouping of
the rows by their values.  It returns the group id of every row and, if they are asked for, the
first row (extents) and the size (histo) of every group.  There are separate loops for a column that
is sorted along with the previous grouping, for one that is sorted alone, for one that has a hash
index, and for one that has none.

A loop looks, for each row, for an earlier row with the same value and the same old group.  The
loops over sorted columns find one if there is one.  Those that use a hash index only search a
bucket, so they number the rows by value, old group and bucket.

Rows are counted from 0 here, whereas the hash indexes hold positions, which start with that of the
first value.

## Main definitions

* `GrpState`: the variables that all loops share
* `consecutiveStep`, `subscanStep`, `existingStep`, `partialStep`: the bodies of the loops
* `BATgroup_internal`
* `rowKey`: what makes a group
* `Grouped`: the rows visited so far are grouped by some keys

## Main results

* `grouped_consecutive`, `grouped_subscan`, `grouped_existing`, `grouped_partial`
-/

namespace MonetInR.Gdk

open LinkArray Function Numbering List Nat

variable {α : Type*} [Atom α]

/-- A previous grouping: a column of group ids, with its other flags. -/
structure PrevGroups extends GroupColumn where
  trevsorted : Bool
  tnil : Bool
  /-- Nils come last. -/
  revsorted_true : trevsorted = true → ∀ i j, i ≤ j → j < count →
    tail j = oidNil ∨ tail i ≠ oidNil ∧ tail j ≤ tail i
  nil_true : tnil = true → ∃ i < count, tail i = oidNil

/-- A result column, or one that is copied to a result: a dense head, and a tail of oids or
sizes. -/
structure OidBat where
  hseqbase : ℕ
  count : ℕ
  tail : ℕ → ℕ
  tsorted : Bool
  trevsorted : Bool
  tkey : Bool
  tnonil : Bool
  tnil : Bool

/-- The results.  `capacity` is that of extents and histo. -/
structure Grouping where
  groups : OidBat
  extents : Option OidBat
  histo : Option OidBat
  capacity : ℕ

/-! ## The variables of the loops

All loops share these variables and the three ways to put a row in a group. -/

structure GrpState where
  ngrps : ℕ → ℕ
  exts : ℕ → ℕ
  cnts : ℕ → ℕ
  /-- The next group to be assigned. -/
  ngrp : ℕ
  maxgrps : ℕ
  /-- `gn->tsorted`. -/
  tsorted : Bool

namespace GrpState

/-- `GRPnotfound`: start a new group. -/
def notfound (hseqbase count i : ℕ) (st : GrpState) : GrpState := { st with
    maxgrps := if st.ngrp = st.maxgrps then count else st.maxgrps
    exts := update st.exts st.ngrp (hseqbase + i)
    cnts := update st.cnts st.ngrp 1
    ngrps := update st.ngrps i st.ngrp
    ngrp := st.ngrp + 1 }

/-- Put row `i` in the group of row `j`. -/
def found (i j : ℕ) (st : GrpState) : GrpState := { st with
    ngrps := update st.ngrps i (st.ngrps j)
    cnts := update st.cnts (st.ngrps j) (st.cnts (st.ngrps j) + 1)
    tsorted := st.tsorted && st.ngrps j = st.ngrp - 1 }

/-- Put row `i` in the last group. -/
def last (i : ℕ) (st : GrpState) : GrpState := { st with
    ngrps := update st.ngrps i (st.ngrp - 1)
    cnts := update st.cnts (st.ngrp - 1) (st.cnts (st.ngrp - 1) + 1) }

/-- The first row, where it is put in a group of its own before the loop. -/
def firstRow (hseqbase : ℕ) (st : GrpState) : GrpState := { st with
    ngrps := update st.ngrps 0 st.ngrp
    exts := update st.exts 0 hseqbase
    cnts := update st.cnts 0 1
    ngrp := st.ngrp + 1 }

end GrpState

/-! ## The loops

A step looks for an earlier row in the same group; the steps differ in where they look. -/

section Loops

variable (b : Column α) (grps : Option (ℕ → ℕ))

/-- The rows are in the same old group. -/
def sameGroup (i j : ℕ) : Bool :=
  match grps with
  | none => true
  | some grps => grps i = grps j

/-- Compare row `i` with the one before. -/
def consecutiveStep (st : GrpState) (i : ℕ) : GrpState :=
  if sameGroup grps i (i - 1) = false ∨ atomCmp (b.value (i - 1)) (b.value i) ≠ 0 then
    st.notfound b.hseqbase b.count i
  else st.last i

/-- Look for the old group of row `i` among the rows from `j` on, which have the value of row
`j`. -/
def subscanStep (st : GrpState × ℕ) (i : ℕ) : GrpState × ℕ :=
  if atomCmp (b.value i) (b.value st.2) = 0 then
    match (List.range' st.2 (i - st.2)).find? fun k => sameGroup grps k i with
    | some k => (st.1.found i k, st.2)
    | none => (st.1.notfound b.hseqbase b.count i, st.2)
  else (st.1.notfound b.hseqbase b.count i, i)

/-- The bucket of the value of row `i`. -/
def rowProbe (hs : Hash) (i : ℕ) : ℕ := b.hashAt (b.first + i) &&& hs.mask

/-- Look for row `i` in the existing hash index, considering only the rows before it. -/
def existingStep (hs : Hash) (st : GrpState) (i : ℕ) : GrpState :=
  match (walk hs.link hs.nil hs.lim (hs.hash (rowProbe b hs i))).find? fun hb =>
      hb < b.first + i ∧ sameGroup grps (hb - b.first) i ∧ atomCmp (b.value i) (b.val hb) = 0 with
  | some hb => st.found i (hb - b.first)
  | none => st.notfound b.hseqbase b.count i

/-- By how much a hash value is shifted when it is combined with a group id. -/
def grpBits (count : ℕ) : ℕ := (3 + Nat.log2 (HASHmask count >>> 3)) / 2

/-- The bucket of row `i`, which may depend on its old group.  `gc` says that the old groups are
clustered. -/
def grpProbe (gc : Bool) (hs : Hash) (i : ℕ) : ℕ :=
  match grps with
  | none => rowProbe b hs i
  | some grps =>
    if gc then rowProbe b hs i
    else ((rowProbe b hs i <<< grpBits b.count) % 2 ^ 64 ^^^ grps i) &&& hs.mask

/-- Look for row `i` in a chain.  If the old groups are clustered, the search ends at the first
entry of another one. -/
def grpFind (gc : Bool) (chain : List ℕ) (i : ℕ) : Option ℕ :=
  if gc then
    (chain.takeWhile fun hb => sameGroup grps (hb - b.first) i).find? fun hb =>
      atomCmp (b.value i) (b.val hb) = 0
  else
    chain.find? fun hb => sameGroup grps (hb - b.first) i ∧ atomCmp (b.value i) (b.val hb) = 0

/-- `GRPhashloop`: look for row `i` in the partial hash index, and enter it if it is not found. -/
def partialStep (gc : Bool) (st : GrpState × Hash) (i : ℕ) : GrpState × Hash :=
  let prb := grpProbe b grps gc st.2 i
  match grpFind b grps gc (walk st.2.link st.2.nil st.2.lim (st.2.hash prb)) i with
  | some hb => (st.1.found i (hb - b.first), st.2)
  | none => (st.1.notfound b.hseqbase b.count i, HASHinsAny st.2 (b.first + i) prb)

end Loops

/-! ## BATgroup_internal -/

section Group

variable (b : Column α) (g : Option PrevGroups) (e h : Option OidBat)
  (extents histo subsorted : Bool)

/-- `GROUPBATINCR`. -/
def GROUPBATINCR : ℕ := 8192

/-- The initial capacity of extents and histo.  `width` is that of the tail of the column. -/
def startGrps (width : ℕ) : ℕ :=
  let m := b.count / 10
  let m := match e with
    | some e => if m < e.count then m + e.count else m
    | none => m
  let m := match h with
    | some h => if m < h.count then m + h.count else m
    | none => m
  let m := if m < GROUPBATINCR then GROUPBATINCR else m
  let most := 1 <<< (8 <<< if width = 2 then 1 else 0)
  if width ≤ 2 ∧ most < m then most else m

/-- One group for each row. -/
def groupTrivially : Grouping :=
  let base := if b.count = 0 then 0 else b.hseqbase
  { groups := ⟨base, b.count, fun i => i, true, b.count ≤ 1, true, true, false⟩
    extents := if extents then
        some ⟨0, b.count, fun i => base + i, true, b.count ≤ 1, true, true, false⟩
      else none
    histo := if histo then
        some ⟨0, b.count, fun _ => 1, true, true, b.count ≤ 1, true, false⟩
      else none
    capacity := b.count }

/-- A single group. -/
def groupConstant : Grouping where
  groups := ⟨b.hseqbase, b.count, fun _ => 0, true, true, b.count ≤ 1, true, false⟩
  extents := if extents then
      some ⟨0, 1, fun _ => b.hseqbase, true, true, true, true, false⟩
    else none
  histo := if histo then some ⟨0, 1, fun _ => b.count, true, true, true, true, false⟩ else none
  capacity := 1

/-- `BATcopy`. -/
def PrevGroups.copy (g : PrevGroups) : OidBat where
  hseqbase := g.hseqbase
  count := g.count
  tail := g.tail
  tsorted := g.tsorted
  trevsorted := g.trevsorted
  tkey := g.tkey
  tnonil := g.tnonil
  tnil := g.tnil

/-- The given grouping. -/
def groupCopy (g : PrevGroups) : Grouping where
  groups := g.copy
  extents := if extents then e else none
  histo := if histo then h else none
  capacity := g.count

/-- The results of a loop. -/
def groupResult (st : GrpState) : Grouping where
  groups := ⟨b.hseqbase, b.count, st.ngrps, st.tsorted, b.count ≤ 1, st.ngrp = b.count, true, false⟩
  extents := if extents then
      some ⟨0, st.ngrp, st.exts, true, st.ngrp ≤ 1, true, true, false⟩
    else none
  histo := if histo then some ⟨0, st.ngrp, st.cnts, false, false, false, true, false⟩ else none
  capacity := st.maxgrps

/-- The variables before a loop.  The arrays are what the memory `mem` holds. -/
def grpStart (width : ℕ) (mem : ℕ → ℕ) : GrpState := ⟨mem, mem, mem, 0, startGrps b e h width, true⟩

/-- The old groups are clustered. -/
def grpClustered : Bool := g.any fun g => g.tsorted || g.trevsorted

/-- A partial hash index before the first row. -/
def grpHash (mem : ℕ → ℕ) : Hash := HASHnew mem (b.first + b.count) (HASHmask b.count)

/-- The grouping that one of the loops computes. -/
def groupLoops (width : ℕ) (mem : ℕ → ℕ) : GrpState :=
  let grps := g.map fun g => g.tail
  let st := grpStart b e h width mem
  let gc := grpClustered g
  if ((b.tsorted ∨ b.trevsorted) ∧ (g = none ∨ gc)) ∨ subsorted then
    (List.range' 1 (b.count - 1)).foldl (consecutiveStep b grps) (st.firstRow b.hseqbase)
  else if b.tsorted ∨ b.trevsorted then
    ((List.range' 1 (b.count - 1)).foldl (subscanStep b grps) (st.firstRow b.hseqbase, 0)).1
  else
    match b.hash with
    | some hs => (List.range b.count).foldl (existingStep b grps hs) st
    | none => ((List.range b.count).foldl (partialStep b grps gc) (st, grpHash b mem)).1

/-- **Group a column**, or fail if its head is not dense. -/
def BATgroup_internal (width : ℕ) (mem : ℕ → ℕ) : Except String Grouping :=
  if b.hdense = false then .error "BATgroup: b must be dense-headed\n"
  else if b.tkey ∨ b.count ≤ 1 ∨ g.any (fun g => g.tkey || g.tseq.isSome) then
    .ok (groupTrivially b extents histo)
  else if b.tsorted ∧ b.trevsorted ∧ g = none then .ok (groupConstant b extents histo)
  else
    match g with
    | some g' =>
      if b.tsorted ∧ b.trevsorted ∧ (extents = e.isSome) ∧ (histo = h.isSome) then
        .ok (groupCopy e h extents histo g')
      else .ok (groupResult b extents histo (groupLoops b g e h subsorted width mem))
    | none => .ok (groupResult b extents histo (groupLoops b g e h subsorted width mem))

end Group

section Keys

variable (b : Column α) (grps : Option (ℕ → ℕ))

/-- The old group and the value of row `i`. -/
def rowKey (i : ℕ) : Option ℕ × α := (grps.map (· i), b.value i)

variable {b grps} {i j : ℕ}

theorem sameGroup_iff : sameGroup grps i j = true ↔ grps.map (· i) = grps.map (· j) := by
  cases grps with
  | none => simp [sameGroup]
  | some grps => simp [sameGroup]

theorem rowKey_eq_iff :
    rowKey b grps i = rowKey b grps j ↔ sameGroup grps i j = true ∧ b.value i = b.value j := by
  rw [sameGroup_iff, rowKey, rowKey, Prod.mk.injEq]

end Keys

/-- The rows visited so far are grouped by their keys, and there is room for the groups. -/
structure Grouped {α κ : Type*} [Atom α] (b : Column α) (key : ℕ → κ) (n : ℕ)
    (st : GrpState) : Prop where
  numbered : ∃ first, (∀ k < st.ngrp, st.exts k = b.hseqbase + first k) ∧
    Numbered key n st.ngrps st.ngrp first st.cnts
  sorted : st.tsorted = true → ∀ i j, i ≤ j → j < n → st.ngrps i ≤ st.ngrps j
  room : st.ngrp ≤ st.maxgrps

/-- Another row with a group that is not less than those before. -/
theorem sorted_update {f : ℕ → ℕ} {n x : ℕ} (hf : ∀ i j, i ≤ j → j < n → f i ≤ f j)
    (hx : ∀ i < n, f i ≤ x) : ∀ i j, i ≤ j → j < n + 1 → update f n x i ≤ update f n x j := by
  intro i j hij hj
  rcases Nat.lt_succ_iff_lt_or_eq.mp hj with hj | rfl
  · rw [update_of_ne hj.ne, update_of_ne (hij.trans_lt hj).ne]
    exact hf i j hij hj
  · rw [update_self]
    rcases hij.lt_or_eq with hlt | rfl
    · rw [update_of_ne hlt.ne]
      exact hx i hlt
    · rw [update_self]

namespace Grouped

variable {α κ : Type*} [Atom α] {b : Column α} {key : ℕ → κ} {n j : ℕ} {st : GrpState}

section

variable (h : Grouped b key n st)

include h

theorem notfound (hn : n < b.count) (hnew : ∀ j < n, key j ≠ key n) :
    Grouped b key (n + 1) (st.notfound b.hseqbase b.count n) := by
  obtain ⟨first, hexts, hnum⟩ := h.numbered
  refine ⟨⟨update first st.ngrp n, fun k hk => ?_, hnum.new hnew⟩, fun hsorted => ?_, ?_⟩
  · change update st.exts st.ngrp (b.hseqbase + n) k = _
    rcases Nat.lt_succ_iff_lt_or_eq.mp hk with hk | rfl
    · rw [update_of_ne hk.ne, update_of_ne hk.ne]
      exact hexts k hk
    · rw [update_self, update_self]
  · exact sorted_update (h.sorted hsorted) fun i hi => (hnum.id_lt i hi).le
  · have hle := hnum.le
    have hroom := h.room
    change st.ngrp + 1 ≤ if st.ngrp = st.maxgrps then b.count else st.maxgrps
    split_ifs <;> omega

/-- A row that is put in the group of an earlier row with the same key. -/
theorem assign (hj : j < n) (hkey : key j = key n) (st' : GrpState)
    (hngrps : st'.ngrps = update st.ngrps n (st.ngrps j))
    (hcnts : st'.cnts = update st.cnts (st.ngrps j) (st.cnts (st.ngrps j) + 1))
    (hexts : st'.exts = st.exts) (hngrp : st'.ngrp = st.ngrp) (hmax : st'.maxgrps = st.maxgrps)
    (hsorted : st'.tsorted = true → st.tsorted = true ∧ st.ngrps j = st.ngrp - 1) :
    Grouped b key (n + 1) st' := by
  obtain ⟨first, hfirst, hnum⟩ := h.numbered
  refine ⟨⟨first, fun k hk => ?_, ?_⟩, fun htrue => ?_, ?_⟩
  · rw [hexts]
    exact hfirst k (hngrp ▸ hk)
  · rw [hngrps, hngrp, hcnts]
    exact hnum.old hj hkey
  · obtain ⟨htrue, hlast⟩ := hsorted htrue
    rw [hngrps]
    -- the group is the last one
    exact sorted_update (h.sorted htrue) fun i hi =>
      hlast ▸ le_sub_one_of_lt (hnum.id_lt i hi)
  · rw [hngrp, hmax]
    exact h.room

theorem found (hj : j < n) (hkey : key j = key n) : Grouped b key (n + 1) (st.found n j) :=
  h.assign hj hkey _ rfl rfl rfl rfl rfl fun hs => by simpa [GrpState.found] using hs

theorem last (hn : 0 < n) (hlast : st.ngrps (n - 1) = st.ngrp - 1) (hkey : key (n - 1) = key n) :
    Grouped b key (n + 1) (st.last n) :=
  h.assign (sub_one_lt hn.ne') hkey _ (by rw [hlast]; rfl) (by rw [hlast]; rfl) rfl rfl rfl
    fun hs => ⟨hs, hlast⟩

end

variable (key) (e h : Option OidBat) (width : ℕ) (mem : ℕ → ℕ)

theorem start : Grouped b key 0 (grpStart b e h width mem) :=
  ⟨⟨mem, fun _ hk => absurd hk (not_lt_zero _), numbered_zero _ _ _ _⟩,
    fun _ _ _ _ hj => absurd hj (not_lt_zero _), zero_le _⟩

theorem startGrps_pos : 0 < startGrps b e h width := by
  unfold startGrps GROUPBATINCR
  dsimp only
  split_ifs <;> first | omega | simp [shiftLeft_eq]

theorem firstRow (hpos : 0 < b.count) :
    Grouped b key 1 ((grpStart b e h width mem).firstRow b.hseqbase) := by
  obtain ⟨hnum, hsorted, -⟩ := (start key e h width mem).notfound hpos
    fun j hj => absurd hj (not_lt_zero j)
  exact ⟨hnum, hsorted, startGrps_pos e h width⟩

end Grouped

/-- What one step of a loop over rows preserves, the whole loop preserves. -/
theorem foldl_rows {σ : Type*} {P : ℕ → σ → Prop} (step : σ → ℕ → σ) (lo len : ℕ) (st : σ)
    (hstart : P lo st) (hstep : ∀ n st, lo ≤ n → n < lo + len → P n st → P (n + 1) (step st n)) :
    P (lo + len) ((range' lo len).foldl step st) := by
  induction len with
  | zero => exact hstart
  | succ len ih =>
    have hprev := ih fun n st hlo hn => hstep n st hlo (by omega)
    rw [range'_concat, foldl_append, one_mul]
    exact hstep (lo + len) _ (by omega) (by omega) hprev

/-- Equal keys are on consecutive rows. -/
def Clustered {κ : Type*} (key : ℕ → κ) (n : ℕ) : Prop :=
  ∀ j k i, j < k → k < i → i < n → key j = key i → key k = key i

section Loops

variable {b : Column α} {grps : Option (ℕ → ℕ)} (mem : ℕ → ℕ)

/-- **Comparing consecutive rows** groups rows that are clustered. -/
theorem grouped_consecutive {st : GrpState} (hpos : 0 < b.count)
    (hst : Grouped b (rowKey b grps) 1 st) (hfirst : st.ngrps 0 = st.ngrp - 1)
    (hclust : Clustered (rowKey b grps) b.count) :
    Grouped b (rowKey b grps) b.count
      ((range' 1 (b.count - 1)).foldl (consecutiveStep b grps) st) := by
  have hrun := foldl_rows
    (P := fun n st => Grouped b (rowKey b grps) n st ∧ st.ngrps (n - 1) = st.ngrp - 1)
    (consecutiveStep b grps) 1 (b.count - 1) st ⟨hst, hfirst⟩ ?_
  · rw [show 1 + (b.count - 1) = b.count by omega] at hrun
    exact hrun.1
  rintro n st hlo hn ⟨hgrp, hlast⟩
  have hsub : n - 1 < n := by omega
  unfold consecutiveStep
  have hcond : sameGroup grps n (n - 1) = false ∨ atomCmp (b.value (n - 1)) (b.value n) ≠ 0 ↔
      rowKey b grps (n - 1) ≠ rowKey b grps n := by
    rw [ne_eq, ne_eq, atomCmp_eq_zero, eq_comm (a := rowKey b grps (n - 1)), rowKey_eq_iff,
      not_and_or, Bool.not_eq_true]
    exact or_congr_right (not_congr eq_comm)
  split_ifs with hne
  · have hne := hcond.mp hne
    refine ⟨hgrp.notfound (by omega) fun j hj heq => ?_, ?_⟩
    · rcases lt_or_ge j (n - 1) with hlt | hge
      · exact hne (hclust j (n - 1) n hlt hsub (by omega) heq)
      · rw [show j = n - 1 by omega] at heq
        exact hne heq
    · simp [GrpState.notfound]
  · have heq := not_not.mp (mt hcond.mpr hne)
    refine ⟨hgrp.last (by omega) hlast heq, ?_⟩
    simp [GrpState.last]

/-- **Scanning the rows with the same value** groups the rows of a column whose values are
clustered. -/
theorem grouped_subscan {st : GrpState} (hpos : 0 < b.count) (hst : Grouped b (rowKey b grps) 1 st)
    (hclust : Clustered b.value b.count) :
    Grouped b (rowKey b grps) b.count
      ((range' 1 (b.count - 1)).foldl (subscanStep b grps) (st, 0)).1 := by
  -- the rows from `j` on have the same value, which no earlier row has
  have hrun := foldl_rows (P := fun n (st : GrpState × ℕ) =>
      Grouped b (rowKey b grps) n st.1 ∧ st.2 < n ∧
      (∀ k, st.2 ≤ k → k < n → b.value k = b.value st.2) ∧
      ∀ k < st.2, b.value k ≠ b.value st.2)
    (subscanStep b grps) 1 (b.count - 1) (st, 0) ?_ ?_
  · rw [show 1 + (b.count - 1) = b.count by omega] at hrun
    exact hrun.1
  · refine ⟨hst, one_pos, fun k _ hk => ?_, fun k hk => absurd hk (not_lt_zero k)⟩
    rw [lt_one_iff.mp hk]
  rintro n ⟨st, j⟩ hlo hn ⟨hgrp, hj, hsame, hbefore⟩
  unfold subscanStep
  by_cases hval : b.value n = b.value j
  · rw [if_pos (atomCmp_eq_zero.mpr hval)]
    have hsame' : ∀ k, j ≤ k → k < n + 1 → b.value k = b.value j := by
      intro k hjk hk
      rcases Nat.lt_succ_iff_lt_or_eq.mp hk with hk | rfl
      · exact hsame k hjk hk
      · exact hval
    cases hfind : (range' j (n - j)).find? fun k => sameGroup grps k n with
    | some k =>
      have hk := mem_range'_1.mp (mem_of_find?_eq_some hfind)
      have hgroup := find?_some hfind
      refine ⟨hgrp.found (by omega) (rowKey_eq_iff.mpr ⟨hgroup, ?_⟩), hj.trans n.lt_succ_self,
        hsame', hbefore⟩
      rw [hval]
      exact hsame k hk.1 (by omega)
    | none =>
      refine ⟨hgrp.notfound (by omega) fun k hk heq => ?_, hj.trans n.lt_succ_self, hsame',
        hbefore⟩
      obtain ⟨hgroup, hvalue⟩ := rowKey_eq_iff.mp heq
      rcases lt_or_ge k j with hlt | hge
      · exact hbefore k hlt (hvalue.trans hval)
      · have := find?_eq_none.mp hfind k (mem_range'_1.mpr ⟨hge, by omega⟩)
        exact this hgroup
  · rw [if_neg (mt atomCmp_eq_zero.mp hval)]
    have hnew : ∀ k < n, b.value k ≠ b.value n := by
      intro k hk heq
      rcases lt_or_ge k j with hlt | hge
      · exact hval (hclust k j n hlt hj (by omega) heq).symm
      · exact hval (heq.symm.trans (hsame k hge hk))
    refine ⟨hgrp.notfound (by omega) fun k hk heq => hnew k hk (rowKey_eq_iff.mp heq).2,
      lt_succ_self n, fun k hnk hk => ?_, hnew⟩
    rw [show k = n by omega]

/-- The key of a row together with its bucket. -/
def bucketKey (b : Column α) (grps : Option (ℕ → ℕ)) (bucket : ℕ → ℕ) (i : ℕ) :
    (Option ℕ × α) × ℕ := (rowKey b grps i, bucket i)

theorem bucketKey_eq_iff {bucket : ℕ → ℕ} {i j : ℕ} :
    bucketKey b grps bucket i = bucketKey b grps bucket j ↔
      rowKey b grps i = rowKey b grps j ∧ bucket i = bucket j := by
  rw [bucketKey, bucketKey, Prod.mk.injEq]

theorem rowProbe_le (b : Column α) (hs : Hash) (i : ℕ) : rowProbe b hs i ≤ hs.mask :=
  and_le_right

/-- **An existing hash index** groups the rows of each bucket. -/
theorem grouped_existing {hs : Hash} {st : GrpState} (hhash : b.hash = some hs)
    (hst : Grouped b (bucketKey b grps (rowProbe b hs)) 0 st) :
    Grouped b (bucketKey b grps (rowProbe b hs)) b.count
      ((range b.count).foldl (existingStep b grps hs) st) := by
  obtain ⟨hlim, hindex⟩ := b.hash_shape hs hhash
  have hfits := b.fits
  have hrun := foldl_rows (P := Grouped b (bucketKey b grps (rowProbe b hs)))
    (existingStep b grps hs) 0 b.count st hst ?_
  · rw [zero_add, ← range_eq_range'] at hrun
    exact hrun
  intro n st _ hn hgrp
  rw [zero_add] at hn
  -- the chain has the rows of the bucket, later ones among them
  obtain ⟨-, hmem⟩ := hindex.walk_spec (fun i hi => by omega) (rowProbe_le b hs n)
  unfold existingStep
  set l := walk hs.link hs.nil hs.lim (hs.hash (rowProbe b hs n))
  cases hfind : l.find? fun hb => hb < b.first + n ∧ sameGroup grps (hb - b.first) n ∧
      atomCmp (b.value n) (b.val hb) = 0 with
  | some hb =>
    obtain ⟨hin, hbucket⟩ := (hmem hb).mp (mem_of_find?_eq_some hfind)
    have hpred := find?_some hfind
    simp only [decide_eq_true_iff] at hpred
    have hpos : b.first + (hb - b.first) = hb := Nat.add_sub_cancel' hin.1
    refine hgrp.found (by omega) (bucketKey_eq_iff.mpr ⟨rowKey_eq_iff.mpr ⟨hpred.2.1, ?_⟩, ?_⟩)
    · rw [Column.value, hpos]
      exact (atomCmp_eq_zero.mp hpred.2.2).symm
    · rw [rowProbe, hpos]
      exact hbucket
  | none =>
    refine hgrp.notfound hn fun j hj heq => ?_
    obtain ⟨hkey, hbucket⟩ := bucketKey_eq_iff.mp heq
    obtain ⟨hgroup, hvalue⟩ := rowKey_eq_iff.mp hkey
    have hin : b.first + j ∈ l := (hmem _).mpr ⟨by omega, hbucket⟩
    refine find?_eq_none.mp hfind _ hin (decide_eq_true ⟨by omega, ?_, ?_⟩)
    · rw [Nat.add_sub_cancel_left]
      exact hgroup
    · exact atomCmp_eq_zero.mpr hvalue.symm

/-! ### The partial hash index

Only the first row of each group is entered, and the chains go back from row to row.  If old groups
are clustered, the search may stop at the first entry of another group. -/

theorem grpProbe_congr {gc : Bool} {hs hs' : Hash} (h : hs.mask = hs'.mask) (i : ℕ) :
    grpProbe b grps gc hs i = grpProbe b grps gc hs' i := by
  simp only [grpProbe, rowProbe, h]

theorem grpProbe_le (b : Column α) (grps : Option (ℕ → ℕ)) (gc : Bool) (hs : Hash) (i : ℕ) :
    grpProbe b grps gc hs i ≤ hs.mask := by
  unfold grpProbe
  cases grps with
  | none => exact rowProbe_le b hs i
  | some grps =>
    split_ifs
    · exact rowProbe_le b hs i
    · exact and_le_right

/-- The key that the partial index groups by. -/
def partialKey (b : Column α) (grps : Option (ℕ → ℕ)) (gc : Bool) (hs : Hash) :
    ℕ → (Option ℕ × α) × ℕ := bucketKey b grps (grpProbe b grps gc hs)

/-- The index has the first row of each group, in chains that go back from row to row.  Its mask is
that of the empty index `hs₀`. -/
structure PartialIndex (b : Column α) (grps : Option (ℕ → ℕ)) (gc : Bool) (n : ℕ)
    (hs₀ hs : Hash) : Prop where
  shape : hs.Shape
  lim_eq : hs.lim = b.first + b.count
  mask_eq : hs.mask = hs₀.mask
  chains : ∀ c ≤ hs₀.mask, ∃ l, Chain hs.link hs.nil (hs.hash c) l ∧ l.Pairwise (· > ·) ∧
    ∀ p, p ∈ l ↔ ∃ i < n, p = b.first + i ∧ grpProbe b grps gc hs₀ i = c ∧
      ∀ j < i, partialKey b grps gc hs₀ j ≠ partialKey b grps gc hs₀ i

/-- An entry that is followed, in a descending list, by entries that pass a test is reached by
it. -/
theorem mem_takeWhile_of_descending {l : List ℕ} (hl : l.Pairwise (· > ·)) {P : ℕ → Bool} {x : ℕ}
    (hx : x ∈ l) (hP : ∀ y ∈ l, x ≤ y → P y = true) : x ∈ l.takeWhile P := by
  induction l with
  | nil => exact absurd hx not_mem_nil
  | cons y l ih =>
    obtain ⟨hy, hl⟩ := pairwise_cons.mp hl
    rcases mem_cons.mp hx with rfl | hx
    · rw [takeWhile_cons, if_pos (hP x mem_cons_self le_rfl)]
      exact mem_cons_self
    · rw [takeWhile_cons, if_pos (hP y mem_cons_self (hy x hx).le)]
      exact mem_cons_of_mem y (ih hl hx fun z hz => hP z (mem_cons_of_mem y hz))

namespace PartialIndex

variable {gc : Bool} {n : ℕ} {hs₀ hs : Hash} {st : GrpState}

theorem new (size : ℕ) : PartialIndex b grps gc 0
    (HASHnew mem (b.first + b.count) size) (HASHnew mem (b.first + b.count) size) := by
  have hsmall : b.first + b.count < 2 ^ 63 := lt_of_le_of_lt b.fits b.small
  refine ⟨shape_HASHnew mem hsmall size, rfl, rfl, fun c _ => ⟨[], .nil, .nil, fun p => ?_⟩⟩
  refine iff_of_false not_mem_nil ?_
  rintro ⟨i, hi, -⟩
  exact absurd hi (not_lt_zero i)

section

variable (h : PartialIndex b grps gc n hs0 hs)

include h

/-- A row that is not the first with its key is not entered. -/
theorem skip {j : ℕ} (hj : j < n) (hkey : partialKey b grps gc hs0 j = partialKey b grps gc hs0 n) :
    PartialIndex b grps gc (n + 1) hs0 hs := by
  refine ⟨h.shape, h.lim_eq, h.mask_eq, fun c hc => ?_⟩
  obtain ⟨l, hl, hdesc, hmem⟩ := h.chains c hc
  refine ⟨l, hl, hdesc, fun p => (hmem p).trans ⟨?_, ?_⟩⟩
  · rintro ⟨i, hi, hrest⟩
    exact ⟨i, hi.trans n.lt_succ_self, hrest⟩
  · rintro ⟨i, hi, hp, hc, hfirst⟩
    rcases Nat.lt_succ_iff_lt_or_eq.mp hi with hi | rfl
    · exact ⟨i, hi, hp, hc, hfirst⟩
    · exact absurd hkey (hfirst j hj)

theorem insert (hn : n < b.count)
    (hnew : ∀ j < n, partialKey b grps gc hs0 j ≠ partialKey b grps gc hs0 n) :
    PartialIndex b grps gc (n + 1) hs0
      (HASHinsAny hs (b.first + n) (grpProbe b grps gc hs0 n)) := by
  have hlim : b.first + n < hs.lim := by
    have := h.lim_eq
    omega
  refine ⟨h.shape.insAny hlim _, h.lim_eq, h.mask_eq, fun c hc => ?_⟩
  obtain ⟨l, hl, hdesc, hmem⟩ := h.chains c hc
  have hbelow : ∀ p ∈ l, p < b.first + n := fun p hp => by
    obtain ⟨i, hi, rfl, -⟩ := (hmem p).mp hp
    omega
  refine ⟨_, chain_insAny h.shape hlim _ hl fun hp => (hbelow _ hp).false, ?_, fun p => ?_⟩
  · split_ifs
    · exact pairwise_cons.mpr ⟨hbelow, hdesc⟩
    · exact hdesc
  constructor
  · intro hp
    have hcases : p = b.first + n ∧ c = grpProbe b grps gc hs0 n ∨ p ∈ l := by
      split_ifs at hp with hc'
      · exact (mem_cons.mp hp).imp_left fun heq => ⟨heq, hc'⟩
      · exact .inr hp
    rcases hcases with ⟨rfl, rfl⟩ | hp
    · exact ⟨n, n.lt_succ_self, rfl, rfl, hnew⟩
    · obtain ⟨i, hi, hrest⟩ := (hmem p).mp hp
      exact ⟨i, hi.trans n.lt_succ_self, hrest⟩
  · rintro ⟨i, hi, rfl, hbucket, hfirst⟩
    rcases Nat.lt_succ_iff_lt_or_eq.mp hi with hi | rfl
    · have hin := (hmem _).mpr ⟨i, hi, rfl, hbucket, hfirst⟩
      split_ifs
      · exact mem_cons_of_mem _ hin
      · exact hin
    · rw [if_pos hbucket.symm]
      exact mem_cons_self

/-- The search in a bucket finds a row with the same key if there is one. -/
theorem grpFind_spec (hn : n < b.count)
    (hgc : gc = true → Clustered (fun i => grps.map (· i)) b.count) :
    (∀ hb, grpFind b grps gc (walk hs.link hs.nil hs.lim (hs.hash (grpProbe b grps gc hs0 n))) n =
      some hb → hb - b.first < n ∧
        partialKey b grps gc hs0 (hb - b.first) = partialKey b grps gc hs0 n) ∧
    (grpFind b grps gc (walk hs.link hs.nil hs.lim (hs.hash (grpProbe b grps gc hs0 n))) n = none →
      ∀ j < n, partialKey b grps gc hs0 j ≠ partialKey b grps gc hs0 n) := by
  obtain ⟨l, hl, hdesc, hmem⟩ := h.chains _ (grpProbe_le b grps gc hs0 n)
  have hlen : l.length ≤ hs.lim := by
    have hsub : l ⊆ range hs.lim := fun p hp => by
      obtain ⟨i, hi, rfl, -⟩ := (hmem p).mp hp
      rw [h.lim_eq]
      exact mem_range.mpr (by omega)
    simpa using (hl.nodup.subperm hsub).length_le
  rw [hl.walk_eq hlen]
  -- the two conditions of a match
  have hmatch : ∀ hb ∈ l, sameGroup grps (hb - b.first) n = true →
      atomCmp (b.value n) (b.val hb) = 0 → hb - b.first < n ∧
        partialKey b grps gc hs0 (hb - b.first) = partialKey b grps gc hs0 n := by
    intro hb hin hgroup hcmp
    obtain ⟨i, hi, rfl, hbucket, -⟩ := (hmem hb).mp hin
    rw [Nat.add_sub_cancel_left] at hgroup ⊢
    refine ⟨hi, bucketKey_eq_iff.mpr ⟨rowKey_eq_iff.mpr ⟨hgroup, ?_⟩, hbucket⟩⟩
    exact (atomCmp_eq_zero.mp hcmp).symm
  have hentry : ∀ j < n, (∀ i < j, partialKey b grps gc hs0 i ≠ partialKey b grps gc hs0 j) →
      partialKey b grps gc hs0 j = partialKey b grps gc hs0 n → b.first + j ∈ l ∧
        sameGroup grps (b.first + j - b.first) n = true ∧
        atomCmp (b.value n) (b.val (b.first + j)) = 0 := by
    intro j hj hfirst heq
    obtain ⟨hkey, hbucket⟩ := bucketKey_eq_iff.mp heq
    obtain ⟨hgroup, hvalue⟩ := rowKey_eq_iff.mp hkey
    refine ⟨(hmem _).mpr ⟨j, hj, rfl, hbucket, hfirst⟩, ?_, atomCmp_eq_zero.mpr hvalue.symm⟩
    rw [Nat.add_sub_cancel_left]
    exact hgroup
  cases gc with
  | false =>
    refine ⟨fun hb hfind => ?_, fun hfind => ne_of_first_ne fun j hj hfirst heq => ?_⟩
    · have hpred := find?_some hfind
      simp only [decide_eq_true_iff] at hpred
      exact hmatch hb (mem_of_find?_eq_some hfind) hpred.1 hpred.2
    · obtain ⟨hin, hgroup, hcmp⟩ := hentry j hj hfirst heq
      exact find?_eq_none.mp hfind _ hin (decide_eq_true ⟨hgroup, hcmp⟩)
  | true =>
    refine ⟨fun hb hfind => ?_, fun hfind => ne_of_first_ne fun j hj hfirst heq => ?_⟩
    · have hin := mem_of_find?_eq_some hfind
      have hgroup := mem_takeWhile_imp hin
      refine hmatch hb (takeWhile_subset _ hin) hgroup ?_
      simpa using find?_some hfind
    obtain ⟨hin, hgroup, hcmp⟩ := hentry j hj hfirst heq
    refine find?_eq_none.mp hfind _ (mem_takeWhile_of_descending hdesc hin ?_)
      (decide_eq_true hcmp)
    -- the entries in front of it are of later rows, so of the same old group
    intro y hy hle
    obtain ⟨i, hi, rfl, -⟩ := (hmem y).mp hy
    rw [Nat.add_sub_cancel_left] at hgroup ⊢
    rcases lt_or_ge j i with hji | hji
    · exact sameGroup_iff.mpr (hgc rfl j i n hji hi hn (sameGroup_iff.mp hgroup))
    · rw [show i = j by omega]
      exact hgroup

end

end PartialIndex

/-- **A partial hash index** that is built on the way groups the rows of each bucket. -/
theorem grouped_partial {gc : Bool} {st : GrpState}
    (hgc : gc = true → Clustered (fun i => grps.map (· i)) b.count)
    (hst : Grouped b (partialKey b grps gc (grpHash b mem)) 0 st) :
    Grouped b (partialKey b grps gc (grpHash b mem)) b.count
      ((range b.count).foldl (partialStep b grps gc) (st, grpHash b mem)).1 := by
  -- the groups and the index are built together
  have hrun := foldl_rows (P := fun n (st : GrpState × Hash) =>
      Grouped b (partialKey b grps gc (grpHash b mem)) n st.1 ∧
        PartialIndex b grps gc n (grpHash b mem) st.2) (partialStep b grps gc) 0 b.count
    (st, grpHash b mem) ⟨hst, .new mem (HASHmask b.count)⟩ ?_
  · rw [zero_add, ← range_eq_range'] at hrun
    exact hrun.1
  rintro n ⟨st, hs⟩ _ hn ⟨hgrp, hindex⟩
  rw [zero_add] at hn
  obtain ⟨hsome, hnone⟩ := hindex.grpFind_spec hn hgc
  unfold partialStep
  dsimp only
  rw [grpProbe_congr hindex.mask_eq]
  cases hfind : grpFind b grps gc
      (walk hs.link hs.nil hs.lim (hs.hash (grpProbe b grps gc (grpHash b mem) n))) n with
  | some hb =>
    obtain ⟨hj, hkey⟩ := hsome hb hfind
    exact ⟨hgrp.found hj hkey, hindex.skip hj hkey⟩
  | none => exact ⟨hgrp.notfound hn (hnone hfind), hindex.insert hn (hnone hfind)⟩

end Loops

end MonetInR.Gdk
