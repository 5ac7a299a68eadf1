import MonetInR.Gdk.Group.Paths

/-!
# Grouping is the canonical refinement

Two rows are to be in the same group if they have the same value and the same old group, and in this
case only.  The groups are numbered in the order in which they occur, extents and histo are the
first rows and the sizes of the groups, and the flags are true.  `BATgroup_internal` does so on
every path, but for one case: equal values are looked for in one bucket of a hash index, and need
not be in the same one.  The numbers 0.0 and -0.0 are equal, and are in different buckets of a large
index.

## Main definitions

* `OidBat.FlagsTrue`, `IsGroupingBy`, `IsGrouping`: what is to be returned
* `IsPrevious`: a previous grouping that may be copied
* `HashesAgree`: equal rows are in the same bucket

## Main results

* `BATgroup_internal_spec`
-/

namespace MonetInR.Gdk

open Numbering Option

variable {α κ : Type*} [Atom α] {c : OidBat} {key : ℕ → κ}

/-- What the flags of a column say is true. -/
structure OidBat.FlagsTrue (c : OidBat) : Prop where
  sorted : c.tsorted = true → ∀ i j, i ≤ j → j < c.count → c.tail i ≤ c.tail j
  revsorted : c.trevsorted = true → ∀ i j, i ≤ j → j < c.count → c.tail j ≤ c.tail i
  key : c.tkey = true → ∀ i j, i < j → j < c.count → c.tail i ≠ c.tail j
  nonil : c.tnonil = true → ∀ i < c.count, c.tail i ≠ oidNil
  nil : c.tnil = true → ∃ i < c.count, c.tail i = oidNil

theorem OidBat.flagsTrue_of_constant {v : ℕ} (hc : ∀ i < c.count, c.tail i = v) (hv : v ≠ oidNil)
    (hkey : c.tkey = true → c.count ≤ 1) (hnil : c.tnil = false) : c.FlagsTrue := by
  have hsame : ∀ i j, i ≤ j → j < c.count → c.tail i = c.tail j := fun i j hij hj =>
    (hc i (hij.trans_lt hj)).trans (hc j hj).symm
  refine ⟨fun _ i j hij hj => (hsame i j hij hj).le, fun _ i j hij hj => (hsame i j hij hj).ge,
    fun h i j hij hj => ?_, fun _ i hi => hc i hi ▸ hv, fun h => absurd h (by simp [hnil])⟩
  have := hkey h
  omega

theorem OidBat.flagsTrue_of_increasing (hlt : ∀ i j, i < j → j < c.count → c.tail i < c.tail j)
    (hrev : c.trevsorted = true → c.count ≤ 1) (hval : ∀ i < c.count, c.tail i < oidNil)
    (hnil : c.tnil = false) : c.FlagsTrue := by
  refine ⟨fun _ i j hij hj => ?_, fun h i j hij hj => ?_, fun _ i j hij hj => (hlt i j hij hj).ne,
    fun _ i hi => (hval i hi).ne, fun h => absurd h (by simp [hnil])⟩
  · rcases hij.lt_or_eq with h | rfl
    · exact (hlt i j h hj).le
    · exact le_rfl
  · have := hrev h
    rw [show i = j by omega]

/-- A column of `n` values for the groups `0, …, n - 1`, with true flags. -/
structure OidBat.Lists (c : OidBat) (n : ℕ) (f : ℕ → ℕ) : Prop where
  hseqbase : c.hseqbase = 0
  count : c.count = n
  tail : ∀ k < n, c.tail k = f k
  flags : c.FlagsTrue

section Spec

/-- A canonical grouping of the rows by some keys: group ids aligned with the column, and extents
and histo if they are asked for. -/
structure IsGroupingBy {κ : Type*} (b : Column α) (key : ℕ → κ) (extents histo : Bool)
    (r : Grouping) : Prop where
  count : r.groups.count = b.count
  hseqbase : b.count ≠ 0 → r.groups.hseqbase = b.hseqbase
  flags : r.groups.FlagsTrue
  groups : ∃ n first size, Numbered key b.count r.groups.tail n first size ∧
    (if extents then ∃ en, r.extents = some en ∧ en.Lists n fun k => b.hseqbase + first k
      else r.extents = none) ∧
    (if histo then ∃ hn, r.histo = some hn ∧ hn.Lists n size else r.histo = none) ∧
    n ≤ r.capacity

/-- The ids of the old groups. -/
def prevIds (g : Option PrevGroups) : Option (ℕ → ℕ) := g.map fun g => g.tail

/-- **The canonical grouping** of the rows by value and old group. -/
def IsGrouping (b : Column α) (g : Option PrevGroups) (extents histo : Bool) (r : Grouping) :
    Prop := IsGroupingBy b (rowKey b (prevIds g)) extents histo r

/-- The given columns are a canonical grouping of some rows. -/
def IsPrevious (g : PrevGroups) (e h : Option OidBat) : Prop :=
  ∃ n first size, Numbered g.tail g.count g.tail n first size ∧
    (∀ en, e = some en → en.Lists n fun k => g.hseqbase + first k) ∧
    ∀ hn, h = some hn → hn.Lists n size

/-- The previous grouping is aligned with the column. -/
def PrevAligned (b : Column α) (g : Option PrevGroups) : Prop :=
  ∀ g', g = some g' → g'.count = b.count ∧ (b.count ≠ 0 → g'.hseqbase = b.hseqbase)

/-- The given grouping is copied: all values of the column are equal. -/
def Copies (b : Column α) (e h : Option OidBat) (extents histo : Bool) : Prop :=
  b.tsorted = true ∧ b.trevsorted = true ∧ extents = e.isSome ∧ histo = h.isSome

/-- The grouping is trivial: one element per group. -/
def IsTrivial (b : Column α) (g : Option PrevGroups) : Prop :=
  b.tkey = true ∨ b.count ≤ 1 ∨ (g.any fun g => g.tkey || g.tseq.isSome) = true

/-- A hash index is used. -/
def UsesHash (b : Column α) (g : Option PrevGroups) (subsorted : Bool) : Prop :=
  ¬ IsTrivial b g ∧ b.tsorted = false ∧ b.trevsorted = false ∧ subsorted = false

/-- The bucket of row `i`, in the existing index or in the partial one. -/
def groupBucket (b : Column α) (g : Option PrevGroups) (mem : ℕ → ℕ) (i : ℕ) : ℕ :=
  match b.hash with
  | some hs => rowProbe b hs i
  | none => grpProbe b (prevIds g) (grpClustered g) (grpHash b mem) i

/-- **Equal rows are in the same bucket** of a hash index that is used. -/
def HashesAgree (b : Column α) (g : Option PrevGroups) (subsorted : Bool) (mem : ℕ → ℕ) : Prop :=
  UsesHash b g subsorted → ∀ i < b.count, ∀ j < b.count,
    rowKey b (prevIds g) i = rowKey b (prevIds g) j → groupBucket b g mem i = groupBucket b g mem j

/-- Two canonical groupings are the same only if their keys agree. -/
theorem IsGroupingBy.iff_of {κ' : Type*} {b : Column α} {key' : ℕ → κ'} {extents histo : Bool}
    {r : Grouping} (h : IsGroupingBy b key' extents histo r) :
    IsGroupingBy b key extents histo r ↔
      ∀ i < b.count, ∀ j < b.count, key' i = key' j ↔ key i = key j := by
  constructor
  · rintro ⟨-, -, -, n, first, size, hnum, -⟩ i hi j hj
    obtain ⟨n', first', size', hnum', -⟩ := h.groups
    exact (hnum'.same i hi j hj).symm.trans (hnum.same i hi j hj)
  · intro hkeys
    obtain ⟨hcount, hbase, hflags, n, first, size, hnum, hrest⟩ := h
    exact ⟨hcount, hbase, hflags, n, first, size, hnum.congr hkeys, hrest⟩

end Spec

section Clusters

variable {b : Column α} {g : PrevGroups}

theorem clustered_value (h : b.tsorted = true ∨ b.trevsorted = true) :
    Clustered b.value b.count := by
  intro j k i hjk hki hi heq
  rcases h with hs | hs
  · have h1 := b.sorted_true hs j k hjk.le (hki.trans hi)
    have h2 := b.sorted_true hs k i hki.le hi
    exact le_antisymm h2 (heq ▸ h1)
  · have h1 := b.revsorted_true hs j k hjk.le (hki.trans hi)
    have h2 := b.revsorted_true hs k i hki.le hi
    exact le_antisymm (heq ▸ h1) h2

theorem clustered_tail (h : g.tsorted = true ∨ g.trevsorted = true) :
    Clustered g.tail g.count := by
  intro j k i hjk hki hi heq
  rcases h with hs | hs
  · have h1 := g.sorted_true hs j k hjk.le (hki.trans hi)
    have h2 := g.sorted_true hs k i hki.le hi
    omega
  · have h1 := g.revsorted_true hs j k hjk.le (hki.trans hi)
    have h2 := g.revsorted_true hs k i hki.le hi
    omega

theorem clustered_rowKey {grps : Option (ℕ → ℕ)} (hb : Clustered b.value b.count)
    (hg : Clustered (fun i => grps.map (· i)) b.count) : Clustered (rowKey b grps) b.count := by
  intro j k i hjk hki hi heq
  obtain ⟨hgroup, hvalue⟩ := Prod.mk.injEq .. ▸ heq
  exact Prod.ext (hg j k i hjk hki hi hgroup) (hb j k i hjk hki hi hvalue)

theorem clustered_grps {g : Option PrevGroups} (hal : PrevAligned b g)
    (h : g = none ∨ grpClustered g = true) :
    Clustered (fun i => (prevIds g).map (· i)) b.count := by
  intro j k i hjk hki hi heq
  cases g with
  | none => rfl
  | some g =>
    have hsorted : g.tsorted = true ∨ g.trevsorted = true := by simpa [grpClustered] using h
    have hcount := (hal g rfl).1
    have hids := clustered_tail hsorted j k i hjk hki (hcount ▸ hi) (some.inj heq)
    exact congrArg some hids

end Clusters

/-! ## The paths -/

section Paths

variable {b : Column α} {g : Option PrevGroups} {e h : Option OidBat}
  {extents histo subsorted : Bool} (width : ℕ) (mem : ℕ → ℕ)

theorem isGrouping_trivial (hkey : ∀ i < b.count, ∀ j < b.count,
    rowKey b (prevIds g) i = rowKey b (prevIds g) j → i = j) :
    IsGrouping b g extents histo (groupTrivially b extents histo) := by
  have hsmall := b.oids_small
  have hoid : oidNil = 2 ^ 63 := rfl
  refine ⟨rfl, fun hpos => if_neg hpos, ?_, b.count, fun k => k, fun _ => 1,
    numbered_of_injective hkey, ?_, ?_, le_rfl⟩
  · refine OidBat.flagsTrue_of_increasing (fun i j hij _ => hij) of_decide_eq_true (fun i hi => ?_)
      rfl
    change i < b.count at hi
    change i < oidNil
    omega
  · cases extents
    · rfl
    refine ⟨_, rfl, rfl, rfl, fun k hk => ?_, OidBat.flagsTrue_of_increasing
      (fun i j hij _ => Nat.add_lt_add_left hij _) of_decide_eq_true (fun i hi => ?_) rfl⟩
    · rw [if_neg (by omega)]
    · change i < b.count at hi
      change (if b.count = 0 then 0 else b.hseqbase) + i < oidNil
      rw [if_neg (by omega)]
      omega
  · cases histo
    · rfl
    exact ⟨_, rfl, rfl, rfl, fun _ _ => rfl,
      OidBat.flagsTrue_of_constant (fun _ _ => rfl) (by decide) of_decide_eq_true rfl⟩

theorem isGrouping_constant (hpos : 1 < b.count) (hkey : ∀ i < b.count, ∀ j < b.count,
    rowKey b (prevIds g) i = rowKey b (prevIds g) j) :
    IsGrouping b g extents histo (groupConstant b extents histo) := by
  have hsmall := b.oids_small
  have hoid : oidNil = 2 ^ 63 := rfl
  refine ⟨rfl, fun _ => rfl, ?_, 1, fun _ => 0, fun _ => b.count,
    numbered_of_constant (by omega) hkey, ?_, ?_, le_rfl⟩
  · exact OidBat.flagsTrue_of_constant (fun _ _ => rfl) (by decide) of_decide_eq_true rfl
  · cases extents
    · rfl
    refine ⟨_, rfl, rfl, rfl, fun _ _ => rfl,
      OidBat.flagsTrue_of_constant (fun _ _ => rfl) ?_ (fun _ => le_rfl) rfl⟩
    change b.hseqbase ≠ oidNil
    omega
  · cases histo
    · rfl
    refine ⟨_, rfl, rfl, rfl, fun _ _ => rfl,
      OidBat.flagsTrue_of_constant (fun _ _ => rfl) ?_ (fun _ => le_rfl) rfl⟩
    have := b.fits
    have := b.small
    change b.count ≠ oidNil
    omega

/-- A canonical grouping of rows with the same value is copied. -/
theorem isGrouping_copy {g : PrevGroups} (hal : PrevAligned b (some g)) (hpos : b.count ≠ 0)
    (hprev : IsPrevious g e h) (he : extents = e.isSome) (hh : histo = h.isSome)
    (hvalue : ∀ i < b.count, ∀ j < b.count, b.value i = b.value j) :
    IsGrouping b (some g) extents histo (groupCopy e h extents histo g) := by
  obtain ⟨hcount, hbase⟩ := hal g rfl
  obtain ⟨n, first, size, hnum, hexts, hsizes⟩ := hprev
  have hsmall := b.oids_small
  have hoid : oidNil = 2 ^ 63 := rfl
  have hid : ∀ i < g.count, g.tail i < oidNil := fun i hi => by
    have := hnum.id_lt i hi
    have := hnum.le
    omega
  refine ⟨hcount, hbase, ⟨fun hs i j hij hj => ?_, fun hs i j hij hj => ?_, g.key_true,
    g.nonil_true, g.nil_true⟩, n, first, size, ?_, ?_, ?_, hnum.le⟩
  · have := hid i (hij.trans_lt hj)
    exact ((g.sorted_true hs i j hij hj).resolve_left this.ne).2
  · have := hid j hj
    exact ((g.revsorted_true hs i j hij hj).resolve_left this.ne).2
  · rw [← hcount]
    refine hnum.congr fun i hi j hj => ?_
    rw [rowKey_eq_iff, sameGroup_iff]
    simp only [prevIds, map_some, some_inj]
    exact (and_iff_left (hvalue i (hcount ▸ hi) j (hcount ▸ hj))).symm
  · subst he
    cases e with
    | none => rfl
    | some en => exact ⟨en, rfl, hbase hpos ▸ hexts en rfl⟩
  · subst hh
    cases h with
    | none => rfl
    | some hn => exact ⟨hn, rfl, hsizes hn rfl⟩

theorem isGroupingBy_result {st : GrpState} (hpos : 1 < b.count) (hst : Grouped b key b.count st) :
    IsGroupingBy b key extents histo (groupResult b extents histo st) := by
  obtain ⟨⟨first, hexts, hnum⟩, hsorted, hroom⟩ := hst
  have hsmall := b.oids_small
  have hoid : oidNil = 2 ^ 63 := rfl
  have hle := hnum.le
  have hnotone : decide (b.count ≤ 1) = false := decide_eq_false (not_le.mpr hpos)
  refine ⟨rfl, fun _ => rfl, ⟨hsorted, fun hrev => ?_, fun hkey i j hij hj heq => ?_,
    fun _ i hi => ?_, nofun⟩, st.ngrp, first, st.cnts, hnum, ?_, ?_, hroom⟩
  · change decide (b.count ≤ 1) = true at hrev
    rw [hnotone] at hrev
    cases hrev
  -- as many groups as rows: the numbers are those of the rows
  · have hall : st.ngrp = b.count := of_decide_eq_true hkey
    rw [hall] at hnum
    change st.ngrps i = st.ngrps j at heq
    rw [hnum.id_eq i (hij.trans hj), hnum.id_eq j hj] at heq
    exact hij.ne heq
  · have := hnum.id_lt i hi
    change st.ngrps i ≠ oidNil
    omega
  -- the first rows of the groups increase with the numbers
  · cases extents
    · rfl
    refine ⟨_, rfl, rfl, rfl, hexts, OidBat.flagsTrue_of_increasing (fun i j hij hj => ?_)
      of_decide_eq_true (fun i hi => ?_) rfl⟩
    · change st.exts i < st.exts j
      rw [hexts i (hij.trans hj), hexts j hj]
      exact Nat.add_lt_add_left (hnum.ordered i j hij hj) _
    · change st.exts i < oidNil
      have := hnum.first_lt i hi
      rw [hexts i hi]
      omega
  -- no size is as large as the oid that stands for nil
  · cases histo
    · rfl
    refine ⟨_, rfl, rfl, rfl, fun _ _ => rfl, nofun, nofun, nofun, fun _ i hi => ?_, nofun⟩
    change st.cnts i ≠ oidNil
    have : Nat.count (fun k => st.ngrps k = i) b.count ≤ b.count := Nat.count_le _
    have := b.fits
    have := b.small
    rw [hnum.size_eq i hi]
    omega

/-- The loops group the rows, those that use a hash index only within a bucket. -/
theorem grouped_loops (hpos : 1 < b.count) (hal : PrevAligned b g)
    (hsub : subsorted = true → Clustered (rowKey b (prevIds g)) b.count)
    (e h : Option OidBat) (width : ℕ) (mem : ℕ → ℕ) :
    ((b.tsorted = true ∨ b.trevsorted = true ∨ subsorted = true) →
      Grouped b (rowKey b (prevIds g)) b.count (groupLoops b g e h subsorted width mem)) ∧
    (¬ (b.tsorted = true ∨ b.trevsorted = true ∨ subsorted = true) →
      Grouped b (bucketKey b (prevIds g) (groupBucket b g mem)) b.count
        (groupLoops b g e h subsorted width mem)) := by
  have hfirst := Grouped.firstRow (b := b) (rowKey b (prevIds g)) e h width mem (by omega)
  unfold groupLoops
  dsimp only
  split_ifs with hcons hsorted
  · refine ⟨fun _ => grouped_consecutive (by omega) hfirst rfl ?_, fun hnot => absurd ?_ hnot⟩
    · rcases hcons with ⟨hb, hg⟩ | hs
      · exact clustered_rowKey (clustered_value hb) (clustered_grps hal hg)
      · exact hsub hs
    · exact hcons.elim (fun hc => hc.1.imp_right .inl) fun hs => .inr (.inr hs)
  · refine ⟨fun _ => grouped_subscan (by omega) hfirst (clustered_value hsorted), fun hnot => ?_⟩
    exact absurd (hsorted.imp_right .inl) hnot
  -- neither order can be used: the rows are looked up by their hash
  · refine ⟨fun hs => ?_, fun _ => ?_⟩
    · rcases hs with hs | hs | hs
      · exact absurd (.inl hs) hsorted
      · exact absurd (.inr hs) hsorted
      · exact absurd (.inr hs) hcons
    cases hindex : b.hash with
    | some hs =>
      have hbucket : groupBucket b g mem = rowProbe b hs := by
        funext i
        rw [groupBucket, hindex]
      rw [hbucket]
      exact grouped_existing hindex (Grouped.start _ e h width mem)
    | none =>
      have hbucket : groupBucket b g mem =
          grpProbe b (prevIds g) (grpClustered g) (grpHash b mem) := by
        funext i
        rw [groupBucket, hindex]
      rw [hbucket]
      exact grouped_partial mem (fun hgc => clustered_grps hal (.inr hgc))
        (Grouped.start _ e h width mem)

theorem value_eq_of_sorted (hs : b.tsorted = true) (hr : b.trevsorted = true) :
    ∀ i < b.count, ∀ j < b.count, b.value i = b.value j := by
  have hle : ∀ i j, i ≤ j → j < b.count → b.value i = b.value j := fun i j hij hj =>
    le_antisymm (b.sorted_true hs i j hij hj) (b.revsorted_true hr i j hij hj)
  intro i hi j hj
  rcases le_total i j with hij | hji
  · exact hle i j hij hj
  · exact (hle j i hji hi).symm

theorem rowKey_injective (hal : PrevAligned b g) (htriv : IsTrivial b g) :
    ∀ i < b.count, ∀ j < b.count,
      rowKey b (prevIds g) i = rowKey b (prevIds g) j → i = j := by
  intro i hi j hj heq
  obtain ⟨hgroup, hvalue⟩ := Prod.mk.injEq .. ▸ heq
  -- a function that separates the rows in order separates them
  have hsep : ∀ f : ℕ → Prop, (∀ i j, i < j → j < b.count → ¬ (f i ∧ f j)) → f i → f j → i = j := by
    intro f hf hfi hfj
    rcases Nat.lt_trichotomy i j with hlt | heq | hlt
    · exact absurd ⟨hfi, hfj⟩ (hf i j hlt hj)
    · exact heq
    · exact absurd ⟨hfj, hfi⟩ (hf j i hlt hi)
  rcases htriv with hkey | hone | hg
  · refine hsep (fun k => b.value k = b.value i) (fun k l hkl hl hv => ?_) rfl hvalue.symm
    exact b.key_true hkey k l hkl hl (hv.1.trans hv.2.symm)
  · omega
  cases g with
  | none => cases hg
  | some g =>
    have hcount := (hal g rfl).1
    have hgroup : g.tail i = g.tail j := some.inj hgroup
    have hg : g.tkey = true ∨ g.tseq.isSome = true := by simpa using hg
    rcases hg with hkey | hdense
    · refine hsep (fun k => g.tail k = g.tail i) (fun k l hkl hl hv => ?_) rfl hgroup.symm
      exact g.key_true hkey k l hkl (hcount ▸ hl) (hv.1.trans hv.2.symm)
    · obtain ⟨seq, hseq⟩ := isSome_iff_exists.mp hdense
      rw [g.dense_true seq hseq i (hcount ▸ hi), g.dense_true seq hseq j (hcount ▸ hj)] at hgroup
      omega

variable (b g e h extents histo subsorted) in
/-- On every path without a hash index the grouping is the canonical one. -/
theorem isGrouping_of_not_usesHash (hdense : b.hdense = true) (hal : PrevAligned b g)
    (hprev : ∀ g', g = some g' → Copies b e h extents histo → IsPrevious g' e h)
    (hsub : subsorted = true → Clustered (rowKey b (prevIds g)) b.count)
    (huse : ¬ UsesHash b g subsorted) :
    ∃ r, BATgroup_internal b g e h extents histo subsorted width mem = .ok r ∧
      IsGrouping b g extents histo r := by
  unfold BATgroup_internal
  rw [if_neg (by simp [hdense])]
  by_cases htriv : IsTrivial b g
  · exact ⟨_, if_pos htriv, isGrouping_trivial (rowKey_injective hal htriv)⟩
  have hpos : 1 < b.count := by
    by_contra hle
    exact htriv (.inr (.inl (not_lt.mp hle)))
  have hsorted : b.tsorted = true ∨ b.trevsorted = true ∨ subsorted = true := by
    by_contra hs
    refine huse ⟨htriv, ?_, ?_, ?_⟩ <;> rw [← Bool.not_eq_true] <;> tauto
  have hresult : IsGrouping b g extents histo (groupResult b extents histo
      (groupLoops b g e h subsorted width mem)) :=
    isGroupingBy_result hpos ((grouped_loops hpos hal hsub e h width mem).1 hsorted)
  by_cases hconst : b.tsorted = true ∧ b.trevsorted = true ∧ g = none
  · refine ⟨_, (if_neg htriv).trans (if_pos hconst), ?_⟩
    obtain ⟨hs, hr, rfl⟩ := hconst
    refine isGrouping_constant hpos fun i hi j hj => ?_
    exact Prod.ext rfl (value_eq_of_sorted hs hr i hi j hj)
  cases g with
  | none => exact ⟨_, (if_neg htriv).trans (if_neg hconst), hresult⟩
  | some g' =>
    by_cases hcopy : Copies b e h extents histo
    · refine ⟨_, (if_neg htriv).trans ((if_neg hconst).trans (if_pos hcopy)), ?_⟩
      exact isGrouping_copy hal (by omega) (hprev g' rfl hcopy) hcopy.2.2.1 hcopy.2.2.2
        (value_eq_of_sorted hcopy.1 hcopy.2.1)
    · exact ⟨_, (if_neg htriv).trans ((if_neg hconst).trans (if_neg hcopy)), hresult⟩

variable (b g e h extents histo subsorted) in
/-- **With a hash index** the grouping is canonical for the keys within each bucket. -/
theorem isGroupingBy_of_usesHash (hdense : b.hdense = true) (hal : PrevAligned b g)
    (huse : UsesHash b g subsorted) :
    ∃ r, BATgroup_internal b g e h extents histo subsorted width mem = .ok r ∧
      IsGroupingBy b (bucketKey b (prevIds g) (groupBucket b g mem)) extents histo r := by
  obtain ⟨htriv, hs, hr, hsub⟩ := huse
  have hpos : 1 < b.count := by
    by_contra hle
    exact htriv (.inr (.inl (not_lt.mp hle)))
  have hresult : IsGroupingBy b (bucketKey b (prevIds g) (groupBucket b g mem)) extents histo
      (groupResult b extents histo (groupLoops b g e h subsorted width mem)) := by
    have hsub' : subsorted = true → Clustered (rowKey b (prevIds g)) b.count := by simp [hsub]
    have hloops := grouped_loops hpos hal hsub' e h width mem
    exact isGroupingBy_result hpos (hloops.2 (by simp [hs, hr, hsub]))
  unfold BATgroup_internal
  rw [if_neg (by simp [hdense])]
  have hconst : ¬ (b.tsorted = true ∧ b.trevsorted = true ∧ g = none) := by simp [hs]
  cases g with
  | none => exact ⟨_, (if_neg htriv).trans (if_neg hconst), hresult⟩
  | some g' =>
    have hcopy : ¬ Copies b e h extents histo := by simp [Copies, hs]
    exact ⟨_, (if_neg htriv).trans ((if_neg hconst).trans (if_neg hcopy)), hresult⟩

/-- **Grouping.**  For every column with a dense head, and every aligned previous grouping, the
result is the canonical grouping by value and old group, whichever path is taken, exactly if equal
rows are in the same bucket of a hash index that is used.  A previous grouping has to be canonical
itself only if it is copied, and `subsorted` has to be true. -/
theorem BATgroup_internal_spec (b : Column α) (g : Option PrevGroups) (e h : Option OidBat)
    (extents histo subsorted : Bool) (width : ℕ) (mem : ℕ → ℕ) (hdense : b.hdense = true)
    (hal : PrevAligned b g)
    (hprev : ∀ g', g = some g' → Copies b e h extents histo → IsPrevious g' e h)
    (hsub : subsorted = true → Clustered (rowKey b (prevIds g)) b.count) :
    ∃ r, BATgroup_internal b g e h extents histo subsorted width mem = .ok r ∧
      (IsGrouping b g extents histo r ↔ HashesAgree b g subsorted mem) := by
  by_cases huse : UsesHash b g subsorted
  · obtain ⟨r, hr, hgroup⟩ :=
      isGroupingBy_of_usesHash b g e h extents histo subsorted width mem hdense hal huse
    refine ⟨r, hr, hgroup.iff_of.trans
      ⟨fun hkeys _ i hi j hj heq => ?_, fun hagree i hi j hj => ?_⟩⟩
    · exact (bucketKey_eq_iff.mp ((hkeys i hi j hj).mpr heq)).2
    · exact bucketKey_eq_iff.trans (and_iff_left_of_imp (hagree huse i hi j hj))
  · obtain ⟨r, hr, hgroup⟩ := isGrouping_of_not_usesHash b g e h extents histo subsorted width mem
      hdense hal hprev hsub huse
    exact ⟨r, hr, iff_of_true hgroup fun h => absurd h huse⟩

end Paths

/-! ## Examples -/

section Zeros

/-- Of two thousand numbers 0.0 and -0.0 are put in two groups, although they are equal. -/
theorem BATgroup_internal_zeros :
    ∃ r, BATgroup_internal dblZeros none none none true true false 8 (fun _ => 0) = .ok r ∧
      dblZeros.value 1 = dblZeros.value 2 ∧ r.groups.tail 1 ≠ r.groups.tail 2 := by
  have huse : UsesHash dblZeros none false :=
    ⟨by simp [IsTrivial, dblZeros, dblColumn], rfl, rfl, rfl⟩
  obtain ⟨r, hr, -, -, -, n, first, size, hnum, -⟩ := isGroupingBy_of_usesHash _ none none none
    true true false 8 (fun _ => 0) rfl (fun _ h => nomatch h) huse
  have hzero : DblVal.ofBits 0 = DblVal.ofBits (2 ^ 63) := by decide
  refine ⟨r, hr, hzero, fun heq => ?_⟩
  have hkey := (hnum.same 1 (by decide : 1 < 2000) 2 (by decide : 2 < 2000)).mp heq
  exact absurd (bucketKey_eq_iff.mp hkey).2 (by decide)

/-- The values 7.0, 9.0, 7.0. -/
def threeBits (i : ℕ) : ℕ := if i = 1 then 0x4022000000000000 else 0x401C000000000000

theorem isNumber_threeBits : ∀ i < 3, DblVal.IsNumber (threeBits i) := by
  decide

def sevenNine : Column DblVal :=
  dblColumn threeBits 3 (Nat.le_of_ble_eq_true rfl) isNumber_threeBits

/-- A few numbers are grouped rightly. -/
theorem BATgroup_internal_three :
    ∃ r, BATgroup_internal sevenNine none none none true true false 8 (fun _ => 0) = .ok r ∧
      IsGrouping sevenNine none true true r := by
  obtain ⟨r, hr, hiff⟩ := BATgroup_internal_spec sevenNine none none none
    true true false 8 (fun _ => 0) rfl (fun _ h => nomatch h) (fun _ h => nomatch h) nofun
  refine ⟨r, hr, hiff.mpr fun _ i hi j hj hkey => ?_⟩
  have hbits : ∀ i < 3, ∀ j < 3, DblVal.ofBits (threeBits i) = DblVal.ofBits (threeBits j) →
      hashDbl (threeBits i) = hashDbl (threeBits j) := by decide
  have hvalue := (rowKey_eq_iff.mp hkey).2
  change DblVal.ofBits (threeBits (0 + i)) = DblVal.ofBits (threeBits (0 + j)) at hvalue
  rw [Nat.zero_add, Nat.zero_add] at hvalue
  change hashDbl (threeBits (0 + i)) &&& _ = hashDbl (threeBits (0 + j)) &&& _
  rw [Nat.zero_add, Nat.zero_add, hbits i hi j hj hvalue]

end Zeros

end MonetInR.Gdk
