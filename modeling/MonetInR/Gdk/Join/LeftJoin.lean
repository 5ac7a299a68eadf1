import MonetInR.Gdk.Join.MergeCases

/-!
# The left join

`BATsubleftjoin` is to return the pairs of candidates with equal values.  The merge join does so
for an unsorted left column, and otherwise unless a gallop on the left skips rows that match, or
runs behind the last row.  The hash join does so unless the right oids and the right positions
are confused, or the left column does not start at position 0.

## Main definitions

* `MergeExact`, `HashExact`, `LeftJoinExact`: when the result is right, in terms of the rows

## Main results

* `isLeftJoin_mergejoin_iff`, `isLeftJoin_hashjoin_iff`: the two kernels
* `isLeftJoin_BATsubleftjoin_iff`: the operator
-/

namespace MonetInR.Gdk

open IntervalSearch List MergeJoin Column

variable {α : Type*} [Atom α] {l r : Column α} {sl sr : Option Candidates} {reverse : ℤ}
  {V : List (ℕ × α)} {v : α}

/-! ## The rows of a column -/

/-- The candidate rows of a column. -/
def candRows (b : Column α) (s : Option Candidates) : List (ℕ × α) :=
  let S := b.side (CANDINIT b s)
  S.rows S.lo S.hi

/-- The row that a cursor behind the last candidate stands for. -/
def rowBehind (b : Column α) (s : Option Candidates) : ℕ × α :=
  let S := b.side (CANDINIT b s)
  S.row S.hi

section CandRows

variable {b : Column α} {s : Option Candidates} (h : b.Takes s)

include h

theorem mem_candRows {x : ℕ × α} : x ∈ candRows b s ↔ IsCandidate b s x.1 ∧ x.2 = b.atOid x.1 := by
  have he := candinit_enumerates h
  constructor
  · intro hx
    obtain ⟨c, h1, h2, rfl⟩ := mem_slice.mp hx
    exact he.mem c h1 h2
  · rintro ⟨hc, hv⟩
    obtain ⟨c, h1, h2, ho⟩ := he.surj x.1 hc
    refine mem_slice.mpr ⟨c, h1, h2, Prod.ext ho ?_⟩
    change (b.among s).val c = x.2
    rw [hv, (he.mem c h1 h2).2, ho]

theorem ordered_candRows : Ordered (candRows b s) :=
  pairwise_slice fun i j h1 h2 h3 => (candinit_enumerates h).mono i j h1 h2 h3

theorem candRows_eq_nil : candRows b s = [] ↔ (CANDINIT b s).start = (CANDINIT b s).stop := by
  rw [candinit_start_eq_stop h, candRows, Side.rows, slice_eq_nil_iff]
  exact ⟨(candinit_enumerates h).le.antisymm, fun h => h.ge⟩

/-- The row behind the last one, should its oid be that of a candidate, has its value. -/
theorem rowBehind_val (hv : ((rowBehind b s).1, v) ∈ candRows b s) : v = (rowBehind b s).2 := by
  obtain ⟨c, h1, h2, hc⟩ := mem_slice.mp hv
  rw [Prod.mk.injEq] at hc
  rw [← hc.2]
  exact (candinit_enumerates h).val_congr c _ hc.1

theorem sortedOn_side
    (hflag : (reverse = 1 ∧ b.tsorted = true) ∨ (reverse = -1 ∧ b.trevsorted = true)) :
    SortedOn reverse (b.among s).val (b.among s).lo (b.among s).hi := by
  have he := candinit_enumerates h
  intro i j h1 h2 h3
  obtain ⟨hi, hvi⟩ := he.mem i h1 (lt_of_le_of_lt h2 h3)
  obtain ⟨hj, hvj⟩ := he.mem j (le_trans h1 h2) h3
  have hoid : (b.among s).oid i ≤ (b.among s).oid j := by
    rcases Nat.eq_or_lt_of_le h2 with rfl | hlt
    · exact le_refl _
    · exact (he.mono i j h1 hlt h3).le
  have hlt := hj.1
  have hge := hi.1
  unfold Column.Contains at hlt hge
  rw [hvi, hvj]
  rcases hflag with ⟨rfl, hs⟩ | ⟨rfl, hs⟩
  · rw [before_one, not_lt]
    exact b.sorted_true hs _ _ (by omega) (by omega)
  · rw [before_neg_one, not_lt]
    exact b.revsorted_true hs _ _ (by omega) (by omega)

end CandRows

/-! ## Which results are right

A loop that visits other left rows than it should is right only if it makes no difference to the
oids of the rows with a partner. -/

section Spec

variable (hl : l.Takes sl) (hr : r.Takes sr)

include hl hr

/-- **The nested-loop join of the candidate rows meets the specification.** -/
theorem isLeftJoin_joinRows : IsLeftJoin l r sl sr (joinRows (candRows l sl) (candRows r sr)) where
  mem lo ro := by
    simp only [mem_joinRows, mem_candRows hl, mem_candRows hr]
    constructor
    · rintro ⟨v, hv, ⟨h1, rfl⟩, h2, h3⟩
      exact ⟨h1, h2, hv, h3⟩
    · rintro ⟨h1, h2, h3, h4⟩
      exact ⟨_, h3, ⟨h1, rfl⟩, h2, h4⟩
  nodup := nodup_joinRows (ordered_candRows hl) (ordered_candRows hr)
  sorted := sorted_joinRows (ordered_candRows hl) (ordered_candRows hr)

theorem IsLeftJoin.mem_joinRows_iff {pairs : List (ℕ × ℕ)} (h : IsLeftJoin l r sl sr pairs)
    (p : ℕ × ℕ) : p ∈ pairs ↔ p ∈ joinRows (candRows l sl) (candRows r sr) :=
  (h.mem p.1 p.2).trans ((isLeftJoin_joinRows hl hr).mem p.1 p.2).symm

/-- The join of other left rows is right exactly if they have the same oids with a partner. -/
theorem isLeftJoin_joinRows_iff (hV : Ordered V)
    (hval : ∀ o v v', (o, v) ∈ V → (o, v') ∈ candRows l sl → v = v') :
    IsLeftJoin l r sl sr (joinRows V (candRows r sr)) ↔
      partnered (candRows r sr) V = partnered (candRows r sr) (candRows l sl) := by
  rw [partnered_eq_iff hV (ordered_candRows hl) hval]
  constructor
  · exact fun h p => h.mem_joinRows_iff hl hr p
  · intro h
    exact ⟨fun lo ro => (h (lo, ro)).trans ((isLeftJoin_joinRows hl hr).mem lo ro),
      nodup_joinRows hV (ordered_candRows hr), sorted_joinRows hV (ordered_candRows hr)⟩

end Spec

/-! ## The merge join -/

/-- When the merge join is right.  `w` is the scan window of the left side.

* An unsorted left column is always joined correctly.
* Both columns are compared in the same direction: the row behind the last left row must not
  match when the loop runs that far.
* A descending left column and a right column flagged as sorted both ways: the left rows
  visited must have the partners of all left rows.
* Other opposite directions: likewise. -/
def MergeExact (l r : Column α) (sl sr : Option Candidates) : Prop :=
  let L := candRows l sl
  let R := candRows r sr
  let b := rowBehind l sl
  let w := scanWindow L.length
  if !(l.tsorted || l.trevsorted) then True
  else if l.tsorted = r.tsorted then
    Overrun l.direction w L R → Beyond l.direction L b.2 → ¬ HasPartner R b
  else if !l.tsorted && r.trevsorted then
    ∀ y, R.head? = some y → partnered R (visitedAbove w b L y.2) = partnered R L
  else
    ∀ y, R.head? = some y → partnered R (visited l.direction w b L y.2) = partnered R L

/-- The merge join that two columns are joined with. -/
def mergeOf (l r : Column α) (sl sr : Option Candidates) (nilMatches nilOnMiss semi : Bool) :
    MergeJoin α :=
  let ls := l.side (CANDINIT l sl)
  let rs := r.side (CANDINIT r sr)
  let lsorted := l.tsorted || l.trevsorted
  { l := ls
    r := rs
    lscan := if lsorted then scanWindow (ls.hi - ls.lo) else 0
    rscan := scanWindow (rs.hi - rs.lo)
    equalOrder := if lsorted then l.tsorted == r.tsorted || l.trevsorted == r.trevsorted else true
    lreverse := if lsorted then (if l.tsorted then 1 else -1) else 1
    rreverse := if r.tsorted then 1 else -1
    nilMatches := nilMatches
    nilOnMiss := nilOnMiss
    semi := semi }

/-- The state in which the loop starts, up to the flags of the results. -/
def innerStart (l r : Column α) (sl sr : Option Candidates) (res : JoinResult) : MergeState α :=
  ⟨(l.side (CANDINIT l sl)).lo, (r.side (CANDINIT r sr)).lo, (r.side (CANDINIT r sr)).hi, none, res⟩

/-- The flags with which the loop starts: if `l` is not sorted, the results are unique only if the
opposite input is. -/
def startProps (l r : Column α) (res : JoinResult) : JoinResult :=
  if l.tsorted || l.trevsorted then res
  else { res with r1 := { res.r1 with tkey := r.tkey }, r2 := { res.r2 with tkey := l.tkey } }

@[simp] theorem pairs_startProps (l r : Column α) (res : JoinResult) :
    (startProps l r res).pairs = res.pairs := by
  unfold startProps
  split_ifs <;> rfl

theorem pos_scanWindow (n : ℕ) : 0 < scanWindow n := by
  have hloop : ∀ fuel nl scan, scan ≤ scanWindow.loop fuel nl scan := by
    intro fuel
    induction fuel with
    | zero => exact fun _ scan => le_refl scan
    | succ fuel ih =>
      intro nl scan
      rw [scanWindow.loop]
      split_ifs
      · exact le_trans (Nat.le_succ scan) (ih _ _)
      · exact le_refl scan
  exact lt_of_lt_of_le (by decide) (hloop 64 n 4)

theorem forall_head_iff {β : Type*} {xs : List β} {y : β} (hy : xs.head? = some y) {P : β → Prop} :
    (∀ z, xs.head? = some z → P z) ↔ P y := by
  simp [hy]

/-! ### The directions of the two columns

`mergejoin` derives its switches from the flags of both columns.  Each combination leads to one of
the loops that were treated before. -/

section Directions

variable {nilMatches nilOnMiss semi : Bool} {J : MergeJoin α}
  (hJ : J = mergeOf l r sl sr nilMatches nilOnMiss semi)

include hJ

theorem mergeOf_unsorted (hls : (l.tsorted || l.trevsorted) = false) :
    J.lscan = 0 ∧ J.equalOrder = true := by
  simp [hJ, mergeOf, hls]

theorem mergeOf_same (hsame : l.tsorted = r.tsorted) :
    J.equalOrder = true ∧ J.rreverse = l.direction := by
  simp [hJ, mergeOf, direction, hsame]

variable (hls : l.InOrder)

include hls

theorem mergeOf_sorted :
    J.lscan = scanWindow (candRows l sl).length ∧ 0 < J.lscan ∧ J.lreverse = l.direction := by
  rw [candRows, Side.rows, length_slice]
  simp [hJ, mergeOf, hls, direction, pos_scanWindow]

variable (hsame : l.tsorted ≠ r.tsorted)

include hsame

/-- A descending left column and a right column flagged as sorted both ways. -/
theorem mergeOf_constant (hconst : l.tsorted = false ∧ r.trevsorted = true) :
    l.trevsorted = true ∧ r.tsorted = true ∧
      J.equalOrder = true ∧ J.lreverse = -1 ∧ J.rreverse = 1 := by
  simp_all [mergeOf]

theorem mergeOf_opposite (hrs : r.InOrder)
    (hconst : ¬ (l.tsorted = false ∧ r.trevsorted = true)) : J.rreverse = -l.direction ∧
      (¬ (l.tsorted = true ∧ l.trevsorted = true) → J.equalOrder = false) := by
  simp only [hJ, mergeOf, direction]
  cases hlt : l.tsorted <;> cases hrt : r.tsorted <;> simp_all

end Directions

section Merge

variable (hl : l.Takes sl) (hr : r.Takes sr) {s : Option Candidates} {b : Column α} {y : ℕ × α}

include hl hr

/-- Unless there is nothing to do, the merge join is its loop. -/
theorem mergejoin_eq (nilMatches nilOnMiss semi : Bool) (res : JoinResult) :
    mergejoin l r sl sr nilMatches nilOnMiss semi res =
      if candRows l sl = [] ∨ nilOnMiss = false ∧ candRows r sr = [] then res
      else ((mergeOf l r sl sr nilMatches nilOnMiss semi).loop ((l.among sl).hi - (l.among sl).lo)
        (innerStart l r sl sr (startProps l r res))).res := by
  refine if_congr ?_ rfl rfl
  rw [candRows_eq_nil hl, candRows_eq_nil hr, Bool.not_eq_true']

theorem mergejoin_eq_loop (hL : candRows l sl ≠ []) (hR : candRows r sr ≠ []) (semi : Bool)
    (res : JoinResult) : mergejoin l r sl sr false false semi res =
      ((mergeOf l r sl sr false false semi).loop ((l.among sl).hi - (l.among sl).lo)
        (innerStart l r sl sr (startProps l r res))).res := by
  rw [mergejoin_eq hl hr, if_neg (by simp [hL, hR])]

theorem searchable_mergeOf (hsorted : r.InOrder) (nilMatches nilOnMiss semi : Bool) :
    (mergeOf l r sl sr nilMatches nilOnMiss semi).Searchable where
  ldir := by
    simp only [mergeOf, IsDirection]
    split_ifs <;> simp
  rdir := by
    simp only [mergeOf, IsDirection]
    split_ifs <;> simp
  lsmall := (candinit_enumerates hl).small
  rsmall := (candinit_enumerates hr).small
  rsorted := by
    refine sortedOn_side hr ?_
    simp only [mergeOf]
    split_ifs with h
    · exact .inl ⟨rfl, h⟩
    · exact .inr ⟨rfl, by simpa [h] using hsorted⟩

omit hl in
theorem lo_lt_hi_of_ne_nil (h2 : candRows r sr ≠ []) : (r.among sr).lo < (r.among sr).hi := by
  refine lt_of_le_of_ne (candinit_enumerates hr).le fun he => h2 ?_
  exact slice_eq_nil _ he.symm.le

theorem sound_mergeOf (hsorted : r.InOrder) (h2 : candRows r sr ≠ []) :
    (mergeOf l r sl sr false false false).Sound :=
  have h := searchable_mergeOf hl hr hsorted false false false
  ⟨⟨rfl, rfl, rfl⟩, h.ldir, h.rdir, h.lsmall, h.rsmall, h.rsorted, lo_lt_hi_of_ne_nil hr h2⟩

omit hl in
theorem inRange_innerStart (nilMatches nilOnMiss semi : Bool) (res : JoinResult) :
    (mergeOf l r sl sr nilMatches nilOnMiss semi).InRange (innerStart l r sl sr res) :=
  ⟨le_rfl, (candinit_enumerates hr).le, le_rfl⟩

omit hr in
/-- A sorted left column, in the direction in which it is compared. -/
theorem lsorted_side (hsorted : l.InOrder) : SortedOn l.direction (l.among sl).val (l.among sl).lo
      (l.among sl).hi := by
  refine sortedOn_side hl ?_
  unfold direction
  split_ifs with h
  · exact .inl ⟨rfl, h⟩
  · exact .inr ⟨rfl, by simpa [h] using hsorted⟩

omit hl hr in
theorem head_candRows (h : (candRows b s).head? = some y) :
    (b.among s).val (b.among s).lo = y.2 := by
  have hne : candRows b s ≠ [] := fun hnil => by simp [hnil] at h
  have hlt : (b.among s).lo < (b.among s).hi := not_le.mp fun hle => hne (slice_eq_nil _ hle)
  rw [candRows, Side.rows, slice_cons _ hlt, head?_cons, Option.some.injEq] at h
  rw [← h]
  rfl

omit hl hr in
theorem val_eq_of_both (h : b.Takes s) (h1 : b.tsorted = true) (h2 : b.trevsorted = true) {c : ℕ}
    (hlo : (b.among s).lo ≤ c) (hhi : c < (b.among s).hi) :
    (b.among s).val c = (b.among s).val (b.among s).lo := by
  have hup := sortedOn_side h (.inl ⟨rfl, h1⟩) _ c le_rfl hlo hhi
  have hdown := sortedOn_side h (.inr ⟨rfl, h2⟩) _ c le_rfl hlo hhi
  rw [before_one, not_lt] at hup
  rw [before_neg_one, not_lt] at hdown
  exact le_antisymm hdown hup

/-- What a loop over some left rows `V` returns is right exactly if `V` has the right partners.
`V` consists of candidates, or of the row behind the last one. -/
theorem isLeftJoin_visited_iff (hV : V.Sublist (candRows l sl) ∨ V = [rowBehind l sl]) :
    IsLeftJoin l r sl sr (joinRows V (candRows r sr)) ↔
      partnered (candRows r sr) V = partnered (candRows r sr) (candRows l sl) := by
  rcases hV with hV | rfl
  · refine isLeftJoin_joinRows_iff hl hr ((ordered_candRows hl).sublist hV) fun o v v' h1 h2 => ?_
    have hv := ((mem_candRows hl).mp (hV.subset h1)).2
    have hv' := ((mem_candRows hl).mp h2).2
    exact hv.trans hv'.symm
  · refine isLeftJoin_joinRows_iff hl hr (pairwise_singleton _ _) fun o v v' h1 h2 => ?_
    rw [mem_singleton] at h1
    have ho : o = (rowBehind l sl).1 := congrArg Prod.fst h1
    have hv : v = (rowBehind l sl).2 := congrArg Prod.snd h1
    rw [ho] at h2
    rw [hv, rowBehind_val hl h2]

omit hl hr in
theorem sublist_visited (reverse : ℤ) (w : ℕ) (b : ℕ × α) (L : List (ℕ × α)) (y : α) :
    (visited reverse w b L y).Sublist L ∨ visited reverse w b L y = [b] := by
  unfold visited
  split_ifs
  · exact .inr rfl
  · exact .inl filter_sublist
  · exact .inl (List.Sublist.refl L)

omit hl hr in
theorem sublist_visitedAbove (w : ℕ) (b : ℕ × α) (L : List (ℕ × α)) (d : α) :
    (visitedAbove w b L d).Sublist L ∨ visitedAbove w b L d = [b] := by
  unfold visitedAbove
  split_ifs
  · exact .inr rfl
  · exact .inl filter_sublist
  · exact .inl (nil_sublist L)
  · exact .inl (List.Sublist.refl L)

omit hr in
/-- If the row behind the last one is beyond all candidates, its oid is not that of one of them. -/
theorem rowBehind_notMem (hd : IsDirection reverse)
    (hbeyond : Beyond reverse (candRows l sl) (rowBehind l sl).2) :
    ((rowBehind l sl).1, v) ∉ candRows l sl := by
  intro hv
  have hbefore := hbeyond _ hv
  rw [rowBehind_val hl hv] at hbefore
  exact before_irrefl hd hbefore

/-- The join followed by the pairs of an overrun is right exactly if there are none: such a pair
belongs to a value beyond all candidates. -/
theorem isLeftJoin_overrun_iff (hd : IsDirection reverse) (w : ℕ) :
    IsLeftJoin l r sl sr (joinRows (candRows l sl) (candRows r sr) ++
        overrunPairs reverse w (rowBehind l sl) (candRows l sl) (candRows r sr)) ↔
      overrunPairs reverse w (rowBehind l sl) (candRows l sl) (candRows r sr) = [] := by
  constructor
  · intro h
    refine eq_nil_iff_forall_not_mem.mpr fun p hp => ?_
    obtain ⟨-, hbeyond, -, hpb⟩ := mem_fst_overrunPairs.mp (mem_map_of_mem hp)
    have hcand := ((h.mem _ _).mp (mem_append_right _ hp)).1
    exact rowBehind_notMem (v := l.atOid _) hl hd hbeyond ((mem_candRows hl).mpr ⟨hpb ▸ hcand, rfl⟩)
  · intro hnone
    rw [hnone, append_nil]
    exact isLeftJoin_joinRows hl hr

/-- The pairs the merge join returns, for each combination of directions. -/
theorem pairs_mergejoin_cases (hsorted : r.InOrder) (h1 : candRows l sl ≠ [])
    (h2 : candRows r sr ≠ []) (hy : (candRows r sr).head? = some y) :
    (mergejoin l r sl sr false false false joininitresults).pairs =
      if !(l.tsorted || l.trevsorted) then joinRows (candRows l sl) (candRows r sr)
      else if l.tsorted = r.tsorted then
        joinRows (candRows l sl) (candRows r sr) ++
          overrunPairs l.direction (scanWindow (candRows l sl).length) (rowBehind l sl)
            (candRows l sl) (candRows r sr)
      else if !l.tsorted && r.trevsorted then
        joinRows (visitedAbove (scanWindow (candRows l sl).length) (rowBehind l sl)
          (candRows l sl) y.2) (candRows r sr)
      else
        joinRows (visited l.direction (scanWindow (candRows l sl).length)
          (rowBehind l sl) (candRows l sl) y.2) (candRows r sr) := by
  rw [mergejoin_eq_loop hl hr h1 h2]
  set J := mergeOf l r sl sr false false false with hJdef
  set res := startProps l r joininitresults with hres
  have hJ : J.Sound := sound_mergeOf hl hr hsorted h2
  have hR : J.InRange (innerStart l r sl sr res) := inRange_innerStart hr _ _ _ res
  have hnil : (innerStart l r sl sr res).res.pairs = [] := pairs_startProps l r _
  have hfirst : J.r.val (innerStart l r sl sr res).rlo = y.2 := head_candRows hy
  by_cases hls : l.InOrder
  swap
  · -- the left column is not sorted
    rw [if_pos (by simpa using hls)]
    obtain ⟨hscan, he⟩ := mergeOf_unsorted hJdef (by simpa using hls)
    have hloop := hJ.loop_unsorted hscan he (innerStart l r sl sr res) _ le_rfl rfl
    rw [hnil] at hloop
    exact hloop
  rw [if_neg (by simp [hls])]
  obtain ⟨hw, hscan, hdir⟩ := mergeOf_sorted hJdef hls
  have hs : SortedOn J.lreverse J.l.val (innerStart l r sl sr res).li J.l.hi := by
    rw [hdir]
    exact lsorted_side hl hls
  split_ifs with hsame hconst
  · obtain ⟨he, hrev⟩ := mergeOf_same hJdef hsame
    have hloop := hJ.loop_same hscan he (hrev.trans hdir.symm) _ le_rfl hs hR
    rw [hnil, hdir, hw] at hloop
    exact hloop
  · rw [Bool.and_eq_true, Bool.not_eq_true'] at hconst
    obtain ⟨-, hrs, he, hlrev, hrev⟩ := mergeOf_constant hJdef hls hsame hconst
    have hloop := hJ.loop_constant_right (d := y.2) hscan he hlrev hrev
      (fun c h3 h4 => (val_eq_of_both hr hrs hconst.2 h3 h4).trans hfirst) _ le_rfl hs hR
      hJ.rne
    rw [hnil, hw] at hloop
    exact hloop
  · -- the left column is compared in the other direction than the right one
    rw [Bool.and_eq_true, Bool.not_eq_true'] at hconst
    obtain ⟨hopp, he⟩ := mergeOf_opposite hJdef hls hsame hsorted hconst
    by_cases hboth : l.tsorted = true ∧ l.trevsorted = true
    · have hloop := hJ.loop_constant_left hscan hR _ le_rfl
        fun c h3 h4 => val_eq_of_both hl hboth.1 hboth.2 h3 h4
      rw [hnil, hfirst, hdir, hw] at hloop
      exact hloop
    · rw [← hdir] at hopp
      have hloop := hJ.loop_opposite hscan (he hboth) hopp _ le_rfl hs hR
      rw [hnil, hfirst, hdir, hw] at hloop
      exact hloop

omit hl hr in
theorem mergeExact_of_nil (hnil : candRows l sl = [] ∨ candRows r sr = []) :
    MergeExact l r sl sr := by
  have hnone : ∀ V, V.Sublist (candRows l sl) → ∀ y, (candRows r sr).head? = some y →
      partnered (candRows r sr) V = partnered (candRows r sr) (candRows l sl) := by
    intro V hV y hy
    rcases hnil with h | h
    · rw [h, sublist_nil] at hV
      rw [h, hV]
    · simp [h] at hy
  dsimp only [MergeExact]
  split_ifs
  · rintro hover - ⟨-, y, hy, -⟩
    rcases hnil with h | h
    · rw [h] at hover
      exact not_overrunBy_of_length_le (Nat.zero_le _) (overrun_iff.mp hover)
    · rw [h] at hy
      exact not_mem_nil hy
  · intro y hy
    refine hnone _ ?_ y hy
    rcases hnil with h | h
    · rw [h, visitedAbove, if_neg (by simp), if_neg (by simp)]
    · simp [h] at hy
  · intro y hy
    refine hnone _ ?_ y hy
    rcases hnil with h | h
    · rw [h, visited, if_neg (by simp)]
    · simp [h] at hy

/-- **The merge join is right exactly under `MergeExact`.** -/
theorem isLeftJoin_mergejoin_iff (hsorted : r.InOrder) :
    IsLeftJoin l r sl sr (mergejoin l r sl sr false false false joininitresults).pairs ↔
      MergeExact l r sl sr := by
  by_cases hnil : candRows l sl = [] ∨ candRows r sr = []
  · -- nothing to join
    have hempty : joinRows (candRows l sl) (candRows r sr) = [] := by
      rcases hnil with h | h <;> simp [h]
    have hright : IsLeftJoin l r sl sr
        (mergejoin l r sl sr false false false joininitresults).pairs := by
      rw [mergejoin_eq hl hr, if_pos (by simpa using hnil)]
      change IsLeftJoin l r sl sr []
      rw [← hempty]
      exact isLeftJoin_joinRows hl hr
    exact iff_of_true hright (mergeExact_of_nil hnil)
  · rw [not_or] at hnil
    have hy := head?_eq_some_head hnil.2
    rw [pairs_mergejoin_cases hl hr hsorted hnil.1 hnil.2 hy, MergeExact]
    split_ifs
    · exact iff_of_true (isLeftJoin_joinRows hl hr) trivial
    · exact (isLeftJoin_overrun_iff hl hr l.isDirection_direction _).trans overrunPairs_eq_nil
    · rw [forall_head_iff hy, isLeftJoin_visited_iff hl hr (sublist_visitedAbove _ _ _ _)]
    · rw [forall_head_iff hy, isLeftJoin_visited_iff hl hr (sublist_visited _ _ _ _ _)]

end Merge

end MonetInR.Gdk
