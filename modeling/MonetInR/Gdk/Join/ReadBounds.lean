import MonetInR.Gdk.Join.Reads

/-!
# When the merge join reads out of bounds

A merge join reads behind the end of a side in three situations.  A gallop that finds every left
row before the next right value ends behind the last one.  A match with the last right rows leaves
no right row, and the next gallop still looks at the next one.  An outer join with an unsorted left
column searches the right side even if it is empty.

Which inputs lead there depends on how the directions of the two columns compare, as for the
result itself.

## Main definitions

* `EndsInReach`: the right rows are not used up by a left value that is beyond them
* `ReadsBehind`: the inputs for which a merge join reads out of bounds

## Main results

* `inBounds_mergejoinReads_iff`: all reads are in bounds exactly if `ReadsBehind` does not hold
-/

namespace MonetInR.Gdk

open IntervalSearch List Nat

variable {α : Type*} [Atom α]

/-! ## The last right value

When the right rows are used up depends on the last right value only.  These lemmas say how the
answer changes with the rows a round gives up. -/

/-- Leading rows that do not have a property may be left out. -/
theorem exists_append_iff {β : Type*} {run L : List β} {p : β → Prop} (h : ∀ x ∈ run, ¬ p x) :
    (∃ x ∈ run ++ L, p x) ↔ ∃ x ∈ L, p x := by
  simp only [mem_append, or_and_right, exists_or]
  exact or_iff_right fun ⟨x, hx, hp⟩ => h x hx hp

section Rows

variable {P : α → Prop} {reverse : ℤ} {w : ℕ} {v : α}
  {run L L' R : List (ℕ × α)}

/-- The last right value comes after all left rows, or belongs to a left row that looks for
partners.  Otherwise the first left row after it finds nothing, and ends the loop. -/
def EndsInReach (P : α → Prop) (reverse : ℤ) (L R : List (ℕ × α)) : Prop :=
  ∃ m ∈ R, (∀ y ∈ R, ¬ Before reverse m.2 y.2) ∧ (Beyond reverse L m.2 ∨ ∃ x ∈ L, P x.2 ∧ x.2 = m.2)

instance [DecidablePred P] : Decidable (EndsInReach P reverse L R) :=
  inferInstanceAs (Decidable (∃ m ∈ R, _))

/-- Whether a left row has a value is not changed by dropping rows with other values. -/
theorem endsInReach_congr {R' : List (ℕ × α)}
    (hmax : ∀ m, (m ∈ R ∧ ∀ y ∈ R, ¬ Before reverse m.2 y.2) ↔
      m ∈ R' ∧ ∀ y ∈ R', ¬ Before reverse m.2 y.2)
    (hL : ∀ m ∈ R', (∀ y ∈ R', ¬ Before reverse m.2 y.2) →
      ((Beyond reverse L m.2 ∨ ∃ x ∈ L, P x.2 ∧ x.2 = m.2) ↔
        (Beyond reverse L' m.2 ∨ ∃ x ∈ L', P x.2 ∧ x.2 = m.2))) :
    EndsInReach P reverse L R ↔ EndsInReach P reverse L' R' := by
  constructor
  · rintro ⟨m, h1, h2, h3⟩
    obtain ⟨h1', h2'⟩ := (hmax m).mp ⟨h1, h2⟩
    exact ⟨m, h1', h2', (hL m h1' h2').mp h3⟩
  · rintro ⟨m, h1, h2, h3⟩
    obtain ⟨h1', h2'⟩ := (hmax m).mpr ⟨h1, h2⟩
    exact ⟨m, h1', h2', (hL m h1 h2).mpr h3⟩

/-- A run that gives up all right rows: they are in reach if it has their last value. -/
theorem endsInReach_last (h : StartsWith reverse v run L') (hv : P v)
    (hlast : ∀ y ∈ R, ¬ Before reverse v y.2) :
    EndsInReach P reverse (run ++ L') R ↔ ∃ y ∈ R, y.2 = v := by
  constructor
  · rintro ⟨m, hm, -, hb | ⟨x, hx, -, hxm⟩⟩
    · exact absurd (hb.before h) (hlast m hm)
    · rcases mem_append.mp hx with hx | hx
      · exact ⟨m, hm, hxm.symm.trans (h.run_eq x hx)⟩
      · exact absurd (hxm ▸ h.after x hx) (hlast m hm)
  · rintro ⟨y, hy, rfl⟩
    obtain ⟨x, hx⟩ := exists_mem_of_ne_nil run h.run_ne
    have hxv := h.run_eq x hx
    exact ⟨y, hy, hlast, .inr ⟨x, mem_append_left L' hx, hxv ▸ hv, hxv⟩⟩

section

variable (hd : IsDirection reverse)

include hd

/-- Skipping the left rows before the first right value keeps the answer. -/
theorem endsInReach_skip {y₀ : α} (hmin : ∀ y ∈ R, ¬ Before reverse y.2 y₀) :
    EndsInReach P reverse L R ↔
      EndsInReach P reverse (L.filter fun x => ¬ Before reverse x.2 y₀) R := by
  refine endsInReach_congr (fun m => Iff.rfl) fun m hm _ => ?_
  refine or_congr (beyond_skip hd (hmin m hm)) ⟨?_, ?_⟩
  · rintro ⟨x, hx, hP, hxm⟩
    refine ⟨x, mem_filter.mpr ⟨hx, ?_⟩, hP, hxm⟩
    rw [decide_eq_true_iff, hxm]
    exact hmin m hm
  · rintro ⟨x, hx, hP, hxm⟩
    exact ⟨x, (mem_filter.mp hx).1, hP, hxm⟩

section

variable (h : StartsWith reverse v run L')

include h

/-- A run whose value looks for a partner gives up the right rows before or at it. -/
theorem endsInReach_visit (hL : L' ≠ []) {y₀ : ℕ × α} (hy0 : y₀ ∈ R)
    (hlater : Before reverse v y₀.2) :
    EndsInReach P reverse (run ++ L') R ↔
      EndsInReach P reverse L' (R.filter fun y => Before reverse v y.2) := by
  have hmem : ∀ y, y ∈ R.filter (fun y => Before reverse v y.2) ↔ y ∈ R ∧ Before reverse v y.2 :=
    fun y => by rw [mem_filter, decide_eq_true_iff]
  refine endsInReach_congr (fun m => ?_) fun m hm _ => ?_
  · constructor
    · rintro ⟨h1, h2⟩
      have hvm : Before reverse v m.2 := hlater.trans_not hd (h2 y₀ hy0)
      exact ⟨(hmem m).mpr ⟨h1, hvm⟩, fun y hy => h2 y ((hmem y).mp hy).1⟩
    · rintro ⟨h1, h2⟩
      obtain ⟨hm, hvm⟩ := (hmem m).mp h1
      refine ⟨hm, fun y hy hb => ?_⟩
      exact h2 y ((hmem y).mpr ⟨hy, hvm.trans hd hb⟩) hb
  · have hvm := ((hmem m).mp hm).2
    refine or_congr (beyond_append hd h hL _) (exists_append_iff fun x hx hxm => ?_)
    rw [h.run_eq x hx] at hxm
    exact hvm.ne hd hxm.2

theorem endsInReach_visit_skip (hL : L' ≠ []) (hv : ¬ P v) :
    EndsInReach P reverse (run ++ L') R ↔ EndsInReach P reverse L' R := by
  refine endsInReach_congr (fun m => Iff.rfl) fun m _ _ => ?_
  refine or_congr (beyond_append hd h hL _) (exists_append_iff fun x hx hP => hv ?_)
  exact h.run_eq x hx ▸ hP.1

theorem overrunBy_last [DecidablePred P] (hv : P v) (hR : R ≠ [])
    (hlast : ∀ y ∈ R, ¬ Before reverse v y.2) :
    OverrunBy P reverse w (run ++ L') R ↔ w < L'.length := by
  obtain ⟨y, hy⟩ := exists_mem_of_ne_nil R hR
  have hall : ¬ ∀ y ∈ R, Beyond reverse (run ++ L') y.2 := fun hb => hlast y hy ((hb y hy).before h)
  obtain ⟨x, hx⟩ := exists_mem_of_ne_nil run h.run_ne
  have hxv := h.run_eq x hx
  have hcount : L'.countP (fun x => SpentBy P reverse (run ++ L') R x) = L'.length :=
    countP_eq_length.mpr fun x' hx' => by
      rw [decide_eq_true_iff]
      refine .inr ⟨x, mem_append_left L' hx, hxv ▸ hv, hxv ▸ h.after x' hx', fun y hy _ => ?_⟩
      rw [hxv]
      exact hlast y hy
  rw [OverrunBy, countP_spentBy_append h hd hall, hcount]

end

end

end Rows

namespace MergeJoin

variable {J : MergeJoin α} {st : MergeState α} {li n : ℕ}

/-- A round with a right row left is safe if the gallop ends at a left row. -/
theorem roundSafe_iff (hscan : 0 < J.lscan) (hlt : st.rlo < J.r.hi) :
    J.RoundSafe st li st.rlo ↔ li < J.l.hi :=
  ⟨fun h => h.lands, fun h => ⟨fun _ _ _ => hlt, h, fun h0 => absurd h0 hscan.ne'⟩⟩

/-- When a descending left column is joined with the one value `d`: either every left row is above
`d` and the first gallop ends behind them, or `d` is found, the loop having skipped the rows above
it, and enough rows remain. -/
def ReadsBehindAbove (P : α → Prop) (w : ℕ) (L : List (ℕ × α)) (d : α) : Prop :=
  (w < L.length ∧ Beyond (-1) L d) ∨ ((∃ x ∈ L, P x.2 ∧ x.2 = d) ∧ (w < L.countP fun x => x.2 < d) ∧
      ((∃ x, L[0]? = some x ∧ x.2 ≤ d) ∨ ∃ x, L[w]? = some x ∧ d < x.2))

/-- The left rows use up the right ones, enough of them remain, and the loop goes on. -/
def UsesUp (J : MergeJoin α) (L R : List (ℕ × α)) : Prop :=
  OverrunBy J.Takes J.lreverse J.lscan L R ∧ EndsInReach J.Takes J.lreverse L R

/-- The same for left rows that descend from the one value on the right. -/
def UsesUpOne (J : MergeJoin α) (L : List (ℕ × α)) (d : α) : Prop :=
  (∃ x ∈ L, J.Takes x.2 ∧ x.2 = d) ∧ J.lscan < L.countP fun x => x.2 < d

/-- A state of the loop over a left side that is sorted from the cursor on. -/
structure Ahead (J : MergeJoin α) (st : MergeState α) : Prop where
  sorted : SortedOn J.lreverse J.l.val st.li J.l.hi
  lo_le : J.l.lo ≤ st.li
  inRange : J.InRange st

theorem inBounds_done (h : J.l.hi ≤ st.li) {bad : Prop} (hbad : ¬ bad) :
    J.InBounds (J.loopReads n st) ↔ ¬ bad := by
  rw [loopReads_of_le h]
  exact iff_of_true inBounds_nil hbad

section Gallop

variable (hJ : J.Searchable) (hmiss : J.nilOnMiss = false) (hscan : 0 < J.lscan)

include hJ hmiss hscan

theorem Searchable.gallop_bounds (hs : SortedOn J.lreverse J.l.val li J.l.hi) (hli : li < J.l.hi)
    (rlo : ℕ) : li ≤ J.gallop li rlo ∧ J.gallop li rlo ≤ J.l.hi := by
  rcases hJ.gallop_cases hmiss hscan hs rlo with ⟨-, hg⟩ | ⟨-, hge, hle, -⟩
  · rw [hg]
    exact ⟨le_rfl, hli.le⟩
  · exact ⟨hge, hle⟩

/-- What the loop does after a round, for a left column that is sorted. -/
theorem Searchable.inBounds_succ (hA : J.Ahead st) (hli : st.li < J.l.hi) :
    J.InBounds (J.loopReads (n + 1) st) ↔ J.RoundSafe st (J.gallop st.li st.rlo) st.rlo ∧
        ((J.iter st).2 = true ∨ J.InBounds (J.loopReads n (J.iter st).1)) := by
  have hR := hA.inRange
  rw [inBounds_loopReads_succ hli, inBounds_iterReads_iff hJ (fun h => absurd h hscan.ne')
    (if_neg hscan.ne').symm rfl hA.lo_le (hJ.gallop_bounds hmiss hscan hA.sorted hli st.rlo).1
    ⟨hR.lo_le, hR.le, hR.le_hi⟩ fun h => absurd h hscan.ne']

/-- The round that visits the left rows from `li` on, if a right row is left. -/
theorem Searchable.inBounds_visit (hA : J.Ahead st) (hli : st.li < J.l.hi) (hne : st.rlo < J.r.hi)
    (hg : J.gallop st.li st.rlo = li) (hlt : li < J.l.hi) :
    J.Round st li st.rlo (J.iter st) ∧ st.li < (J.iter st).1.li ∧
      SortedOn J.lreverse J.l.val li J.l.hi ∧ J.Ahead (J.iter st).1 ∧
        (J.InBounds (J.loopReads (n + 1) st) ↔
          (J.iter st).2 = true ∨ J.InBounds (J.loopReads n (J.iter st).1)) := by
  have hge := (hJ.gallop_bounds hmiss hscan hA.sorted hli st.rlo).1
  have hround := hJ.round hscan hA.inRange
  have hsucc := hJ.inBounds_succ hmiss hscan hA hli (n := n)
  rw [roundSafe_iff hscan hne, hg, and_iff_right hlt] at hsucc
  rw [hg] at hge hround
  have hend := J.lt_runEnd li
  have hlo := hA.lo_le
  have hnext : st.li < (J.iter st).1.li := by rw [hround.li_eq]; omega
  exact ⟨hround, hnext, hA.sorted.mono hge le_rfl,
    ⟨hA.sorted.mono hnext.le le_rfl, by omega, hround.inRange hA.inRange⟩, hsucc⟩

/-! ## No right row left

The loop does not stop when the right side is used up, and the gallop of the next round looks at the
next right row. -/

/-- Once the right rows are used up, the next gallop looks behind them, unless too few left rows
remain for a gallop. -/
theorem Searchable.inBounds_exhausted (hA : J.Ahead st) (hn : J.l.hi - st.li ≤ n)
    (hempty : st.rlo = st.rhi) (hfull : st.rhi = J.r.hi) :
    J.InBounds (J.loopReads n st) ↔ ¬ J.lscan < (J.left st.li).length := by
  induction n, st, hn using rounds_induction with
  | done n st hn hli => exact inBounds_done hli (by rw [length_left]; omega)
  | round n st hn hli ih =>
    rw [hJ.inBounds_succ hmiss hscan hA hli, length_left]
    constructor
    · rintro ⟨hsafe, -⟩ hroom
      have := hsafe.looks hmiss hscan hroom
      omega
    intro hroom
    have hg : J.gallop st.li st.rlo = st.li := J.gallop_of_not fun h => hroom h.1
    have hround := hJ.round hscan hA.inRange
    rw [hg] at hround ⊢
    have hlt := J.lt_runEnd st.li
    have hlo := hA.lo_le
    refine ⟨⟨fun _ _ h => absurd h hroom, hli, fun h => absurd h hscan.ne'⟩, ?_⟩
    by_cases hv : J.Takes (J.l.val st.li)
    · -- nothing is found among no right rows
      have h1 := hround.lo_le
      have h2 := hround.le
      have h3 := hround.le_hi
      refine .inl (hround.stop.mpr ⟨hv, ?_, hmiss, hscan, by omega⟩)
      rw [Side.rows, slice_eq_nil _ hempty.symm.le]
      rfl
    · obtain ⟨h1, h2⟩ := hround.skip hv
      have hnext : st.li < (J.iter st).1.li := hround.li_eq ▸ hlt
      refine .inr ((ih _ (by omega) ⟨hA.sorted.mono hnext.le le_rfl, by omega,
        hround.inRange hA.inRange⟩ (by rw [h1, h2, hempty]) (h2.trans hfull)).mpr ?_)
      rw [length_left]
      omega

/-! ## Same direction

The induction is on the left rows that remain.  A round gives up a run of them, and the right rows
before it. -/

section

variable (he : J.equalOrder = true) (hdir : J.rreverse = J.lreverse)

include he hdir

/-- The round after the gallop, in terms of the remaining rounds. -/
theorem Searchable.inBounds_same_visit (hA : J.Ahead st) (hli : st.li < J.l.hi)
    (hfull : st.rhi = J.r.hi) (hne : st.rlo < st.rhi) (hn : J.l.hi - st.li ≤ n + 1)
    (hg : J.gallop st.li st.rlo = li) (hlt : li < J.l.hi)
    (hw : (∀ y ∈ J.right st, Beyond J.lreverse (J.left li) y.2) → (J.left li).length ≤ J.lscan)
    (ih : ∀ st', J.l.hi - st'.li ≤ n → J.Ahead st' → st'.rhi = J.r.hi → st'.rlo < st'.rhi →
      (J.InBounds (J.loopReads n st') ↔ ¬ J.UsesUp (J.left st'.li) (J.right st'))) :
    J.InBounds (J.loopReads (n + 1) st) ↔ ¬ J.UsesUp (J.left li) (J.right st) := by
  obtain ⟨hround, hnext, hsli, hA', hsucc⟩ :=
    hJ.inBounds_visit hmiss hscan hA hli (hfull ▸ hne) hg hlt (n := n)
  rw [hsucc]
  have hsw := startsWith_run hJ.ldir hlt hsli
  have hfull' : (J.iter st).1.rhi = J.r.hi := (hround.hi_eq he).trans hfull
  have hrec := ih _ (by omega) hA' hfull'
  rw [hround.li_eq] at hrec
  have hright : J.right st ≠ [] := mt slice_eq_nil_iff.mp (not_le.mpr hne)
  rw [left_eq_append hlt] at hw ⊢
  -- without left rows behind the run there is nothing to overrun
  have hnil : J.left (J.runEnd li) = [] → ∀ R,
      ¬ OverrunBy J.Takes J.lreverse J.lscan (J.left (J.runEnd li)) R :=
    fun h R => by
      rw [h]
      exact not_overrunBy_of_length_le (zero_le _)
  by_cases hv : J.Takes (J.l.val li)
  · have hrest : J.right (J.iter st).1 =
        (J.right st).filter fun y => Before J.lreverse (J.l.val li) y.2 := by
      have h := hround.rest hv
      simp only [Later, he, hdir] at h
      exact h
    rcases eq_or_lt_of_le hA'.inRange.le with hempty | hne'
    · -- the run uses up the right rows
      have hlast : ∀ y ∈ J.right st, ¬ Before J.lreverse (J.l.val li) y.2 := by
        have h : J.right (J.iter st).1 = [] := slice_eq_nil _ hempty.symm.le
        rw [hrest] at h
        simpa using h
      rw [UsesUp, overrunBy_last hJ.ldir hsw hv hright hlast, endsInReach_last hsw hv hlast,
        hJ.inBounds_exhausted hmiss hscan hA' (by omega) hempty hfull', hround.stop, hround.li_eq]
      by_cases hm : matching (J.l.val li) (J.right st) = []
      · have hnone : ¬ ∃ y ∈ J.right st, y.2 = J.l.val li := by
          rintro ⟨y, hy, h⟩
          exact matching_eq_nil.mp hm y hy h
        exact iff_of_true (.inl ⟨hv, hm, hmiss, hscan, hempty⟩) fun h => hnone h.2
      · have hsome : ∃ y ∈ J.right st, y.2 = J.l.val li := by
          by_contra hnone
          exact hm (matching_eq_nil.mpr fun y hy h => hnone ⟨y, hy, h⟩)
        simp only [hsome, and_true]
        exact ⟨fun h => h.resolve_left fun hst => hm hst.2.1, Or.inr⟩
    · have hstop : ¬ (J.iter st).2 = true := fun h => by
        have := (hround.stop.mp h).2.2.2.2
        omega
      obtain ⟨y₀, hy0⟩ := exists_mem_of_ne_nil _
        (mt slice_eq_nil_iff.mp (not_le.mpr hne') : J.right (J.iter st).1 ≠ [])
      rw [hrest, mem_filter, decide_eq_true_iff] at hy0
      rw [or_iff_right hstop, hrec hne', hrest, UsesUp, UsesUp, overrunBy_visit hJ.ldir hsw hv hw]
      refine not_congr (and_congr_right fun ho => ?_)
      exact (endsInReach_visit hJ.ldir hsw (fun hL => hnil hL _ ho) hy0.1 hy0.2).symm
  · have hstop : ¬ (J.iter st).2 = true := fun h => hv (hround.stop.mp h).1
    obtain ⟨h1, h2⟩ := hround.skip hv
    have hsame : J.right (J.iter st).1 = J.right st := by rw [right, right, h1, h2]
    rw [or_iff_right hstop, hrec (by omega), hsame, UsesUp, UsesUp,
      overrunBy_visit_skip hJ.ldir hsw hv hw]
    refine not_congr (and_congr_right fun ho => ?_)
    exact (endsInReach_visit_skip hJ.ldir hsw (fun hL => hnil hL _ ho) hv).symm

/-- **Both columns in the same direction**: the loop reads out of bounds if enough left rows remain
when the right values in their range are used up, and the loop goes on from there. -/
theorem Searchable.inBounds_same (hA : J.Ahead st) (hn : J.l.hi - st.li ≤ n)
    (hfull : st.rhi = J.r.hi) (hne : st.rlo < st.rhi) :
    J.InBounds (J.loopReads n st) ↔ ¬ J.UsesUp (J.left st.li) (J.right st) := by
  induction n, st, hn using rounds_induction with
  | done n st hn hli =>
    rw [left_eq_nil hli]
    exact inBounds_done hli fun h => not_overrunBy_of_length_le (zero_le _) h.1
  | round n st hn hli ih =>
    have hR := hA.inRange
    obtain ⟨hmem, hmin⟩ := hJ.first_right hR hne
    rw [hdir] at hmin
    rcases hJ.gallop_cases hmiss hscan hA.sorted st.rlo with ⟨hng, hg⟩ | ⟨hgal, hge, hle, hleft⟩
    · exact hJ.inBounds_same_visit hmiss hscan he hdir hA hli hfull hne hn hg hli
        (fun hall => length_le_of_not_gallops hng (hall _ hmem)) ih
    rcases eq_or_lt_of_le hle with hend | hlt
    · -- every left row is before the next right value
      have hbeyond : ∀ y ∈ J.right st, Beyond J.lreverse (J.left st.li) y.2 :=
        fun y hy x hx => (beyond_of_skip hleft hend x hx).trans_not hJ.ldir (hmin y hy)
      rw [hJ.inBounds_succ hmiss hscan hA hli, roundSafe_iff hscan (hfull ▸ hne)]
      refine iff_of_false (fun h => absurd h.1 (by omega)) (not_not.mpr ⟨?_, ?_⟩)
      · exact overrunBy_of_beyond hbeyond (by rw [length_left]; exact hgal.1)
      · -- the last right row
        refine ⟨J.r.row (st.rhi - 1), mem_slice.mpr ⟨_, by omega, by omega, rfl⟩, fun y hy => ?_,
          .inl (hbeyond _ (mem_slice.mpr ⟨_, by omega, by omega, rfl⟩))⟩
        obtain ⟨c, h1, h2, rfl⟩ := mem_slice.mp hy
        have hlo' := hR.lo_le
        rw [← hdir]
        exact hJ.rsorted c (st.rhi - 1) (by omega) (by omega) (by omega)
    · rw [UsesUp, overrunBy_skip hJ.ldir hmem (show _ = J.r.val st.rlo from rfl) hmin
        (hleft ▸ ne_nil_of_mem (mem_left_of_lt hlt)),
        endsInReach_skip hJ.ldir hmin, ← hleft]
      exact hJ.inBounds_same_visit hmiss hscan he hdir hA hli hfull hne hn rfl hlt
        (fun hall => absurd (hall _ hmem _ (mem_left_of_lt hlt)) (not_before_of_skip hleft hlt)) ih

end

/-! ## Other directions

Between opposite directions the first right row never changes, and with a left column of one value
the first round is the last.  A right column of one value also counts as descending, and is used up
by the left rows at its value or behind it. -/

/-- The gallop ends behind the last left row exactly if there are enough left rows and all come
before the next right value. -/
theorem Searchable.gallop_lands_iff (hs : SortedOn J.lreverse J.l.val li J.l.hi) (hli : li < J.l.hi)
    (rlo : ℕ) :
    J.gallop li rlo < J.l.hi ↔
      ¬ (J.lscan < (J.left li).length ∧ Beyond J.lreverse (J.left li) (J.r.val rlo)) := by
  rcases hJ.gallop_cases hmiss hscan hs rlo with ⟨hng, hg⟩ | ⟨hgal, hge, hle, hleft⟩
  · exact iff_of_true (hg.symm ▸ hli)
      fun ⟨hroom, hb⟩ => absurd hroom (not_lt.mpr (length_le_of_not_gallops hng hb))
  · constructor
    · rintro hlt ⟨-, hb⟩
      exact not_before_of_skip hleft hlt (hb (J.l.row _) (mem_slice.mpr ⟨_, hge, hlt, rfl⟩))
    · intro h
      refine lt_of_le_of_ne hle fun hend => h ⟨?_, beyond_of_skip hleft hend⟩
      rw [length_left]
      exact hgal.1

/-- If the left rows behind the one a gallop led to were all before the next right value, that row
would be as well. -/
theorem Searchable.not_beyond_rest (hs : SortedOn J.lreverse J.l.val li J.l.hi) {rlo : ℕ}
    (hlt : J.gallop li rlo < J.l.hi) :
    ¬ (J.lscan < (J.left (J.runEnd (J.gallop li rlo))).length ∧
      Beyond J.lreverse (J.left (J.runEnd (J.gallop li rlo))) (J.r.val rlo)) := by
  rintro ⟨hroom, hb⟩
  rw [length_left] at hroom
  have hend := J.lt_runEnd (J.gallop li rlo)
  -- the last left row comes before the next right value
  have hlast : Before J.lreverse (J.l.val (J.l.hi - 1)) (J.r.val rlo) :=
    hb (J.l.row (J.l.hi - 1)) (mem_slice.mpr ⟨_, by omega, by omega, rfl⟩)
  rcases hJ.gallop_cases hmiss hscan hs rlo with ⟨hng, hg⟩ | ⟨hgal, hge, hle, hleft⟩
  · refine hng ⟨by omega, ?_⟩
    exact Before.not_trans hJ.ldir (hs _ _ (le_add_right _ _) (by omega) (by omega)) hlast
  · exact not_before_of_skip hleft hlt
      (Before.not_trans hJ.ldir (hs _ _ hge (by omega) (by omega)) hlast)

/-- **Opposite directions**: only the first gallop can end behind the last left row. -/
theorem Searchable.inBounds_opposite (he : J.equalOrder = false) (hA : J.Ahead st)
    (hn : J.l.hi - st.li ≤ n) (hne : st.rlo < J.r.hi) :
    J.InBounds (J.loopReads n st) ↔ ¬ (J.lscan < (J.left st.li).length ∧
        Beyond J.lreverse (J.left st.li) (J.r.val st.rlo)) := by
  induction n, st, hn using rounds_induction with
  | done n st hn hli =>
    rw [left_eq_nil hli]
    exact inBounds_done hli fun h => absurd h.1 (not_lt_zero _)
  | round n st hn hli ih =>
    rw [hJ.inBounds_succ hmiss hscan hA hli, roundSafe_iff hscan hne,
      ← hJ.gallop_lands_iff hmiss hscan hA.sorted hli]
    refine and_iff_left_of_imp fun hlt => .inr ?_
    obtain ⟨hround, hnext, -, hA', -⟩ := hJ.inBounds_visit hmiss hscan hA hli hne rfl hlt (n := n)
    have hrlo := hround.lo_eq he
    refine (ih _ (by omega) hA' (hrlo ▸ hne)).mpr ?_
    rw [hround.li_eq, hrlo]
    exact hJ.not_beyond_rest hmiss hscan hA.sorted hlt

/-- **A left column of one value**: the first round visits all of it. -/
theorem Searchable.inBounds_constant_left (hlo : J.l.lo ≤ st.li) (hn : J.l.hi - st.li ≤ n)
    (hR : J.InRange st)
    (hne : st.rlo < J.r.hi) (hconst : ∀ c, st.li ≤ c → c < J.l.hi → J.l.val c = J.l.val st.li) :
    J.InBounds (J.loopReads n st) ↔ ¬ (J.lscan < (J.left st.li).length ∧
        Beyond J.lreverse (J.left st.li) (J.r.val st.rlo)) := by
  rcases lt_or_ge st.li J.l.hi with hli | hli
  swap
  · rw [left_eq_nil hli]
    exact inBounds_done hli fun h => absurd h.1 (not_lt_zero _)
  obtain _ | n := n
  · omega
  have hA : J.Ahead st := ⟨sortedOn_of_const hconst hJ.ldir, hlo, hR⟩
  rw [hJ.inBounds_succ hmiss hscan hA hli, roundSafe_iff hscan hne,
    ← hJ.gallop_lands_iff hmiss hscan hA.sorted hli]
  refine and_iff_left_of_imp fun hlt => .inr ?_
  have hround := hJ.round hscan hR
  have hge := (hJ.gallop_bounds hmiss hscan hA.sorted hli st.rlo).1
  rw [loopReads_of_le (by rw [hround.li_eq, runEnd_of_const hconst hge hlt])]
  exact inBounds_nil

section

variable (he : J.equalOrder = true) (hl : J.lreverse = -1) (hr : J.rreverse = 1) {d : α}
  (hconst : ∀ c, J.r.lo ≤ c → c < J.r.hi → J.r.val c = d)

include he hl hr hconst

/-- The round after the gallop, over a descending left column that has nothing above the one value
on the right. -/
theorem Searchable.inBounds_constant_right_visit (hA : J.Ahead st) (hli : st.li < J.l.hi)
    (hfull : st.rhi = J.r.hi) (hne : st.rlo < st.rhi) (hn : J.l.hi - st.li ≤ n + 1)
    (hg : J.gallop st.li st.rlo = li) (hlt : li < J.l.hi) (hle : ∀ x ∈ J.left li, x.2 ≤ d)
    (ih : ∀ st', J.l.hi - st'.li ≤ n → J.Ahead st' → st'.rhi = J.r.hi → st'.rlo < st'.rhi →
      (∀ x ∈ J.left st'.li, x.2 ≤ d) →
      (J.InBounds (J.loopReads n st') ↔ ¬ J.UsesUpOne (J.left st'.li) d)) :
    J.InBounds (J.loopReads (n + 1) st) ↔ ¬ J.UsesUpOne (J.left li) d := by
  obtain ⟨hround, hnext, hsli, hA', hsucc⟩ :=
    hJ.inBounds_visit hmiss hscan hA hli (hfull ▸ hne) hg hlt (n := n)
  rw [hsucc]
  have hfull' : (J.iter st).1.rhi = J.r.hi := (hround.hi_eq he).trans hfull
  have hval := fun y => right_of_const (y := y) hconst hA.inRange
  -- the rows after the run are below its value
  have hbelow : ∀ x ∈ J.left (J.runEnd li), x.2 < J.l.val li := fun x hx => by
    have h := (startsWith_run hJ.ldir hlt hsli).after x hx
    rwa [hl, before_neg_one] at h
  have hlid : J.l.val li ≤ d := hle (J.l.row li) (mem_left_of_lt hlt)
  -- so the rounds after this one do not find it, if there is a right row for them
  have hrec : (J.iter st).1.rlo < (J.iter st).1.rhi →
      J.InBounds (J.loopReads n (J.iter st).1) := by
    intro hne'
    rw [ih _ (by omega) hA' hfull' hne' fun x hx => hle x (mem_left_of_runEnd hlt
      (hround.li_eq ▸ hx)), hround.li_eq]
    rintro ⟨⟨x, hx, -, hxd⟩, -⟩
    exact absurd (hbelow x hx) (not_lt.mpr (hxd ▸ hlid))
  by_cases hv : J.Takes (J.l.val li)
  · have hrest : J.right (J.iter st).1 = (J.right st).filter fun y => J.l.val li < y.2 := by
      have h := hround.rest hv
      simp only [Later, he, hr, before_one] at h
      exact h
    rcases hlid.lt_or_eq with hlow | heq
    · -- below the one value nothing is found, and no right row is given up
      have hkeep : J.right (J.iter st).1 = J.right st := by
        rw [hrest]
        refine filter_eq_self.mpr fun y hy => ?_
        rw [decide_eq_true_iff, hval y hy]
        exact hlow
      have hne' : (J.iter st).1.rlo < (J.iter st).1.rhi := by
        refine not_le.mp fun h => ?_
        have hnil : J.right st = [] := hkeep ▸ slice_eq_nil _ h
        exact absurd (slice_eq_nil_iff.mp hnil) (not_le.mpr hne)
      refine iff_of_true (.inr (hrec hne')) ?_
      rw [UsesUpOne, left_eq_append hlt, exists_append_iff fun x hx h => hlow.ne ?_]
      · rintro ⟨⟨x, hx, -, hxd⟩, -⟩
        exact absurd (hbelow x hx) (not_lt.mpr (hxd ▸ hlid))
      · exact J.val_of_mem_run hx ▸ h.2
    · -- the one value is found and uses up the right rows
      have hempty : (J.iter st).1.rlo = (J.iter st).1.rhi := by
        refine le_antisymm hA'.inRange.le ?_
        rw [← slice_eq_nil_iff (f := J.r.row)]
        change J.right (J.iter st).1 = []
        rw [hrest]
        refine filter_eq_nil_iff.mpr fun y hy => ?_
        rw [decide_eq_true_iff, hval y hy, heq]
        exact lt_irrefl d
      have hm : matching (J.l.val li) (J.right st) ≠ [] := by
        intro hm
        have hmem : J.r.row st.rlo ∈ J.right st := mem_slice.mpr ⟨_, le_rfl, hne, rfl⟩
        exact matching_eq_nil.mp hm _ hmem ((hval _ hmem).trans heq.symm)
      have hstop : ¬ (J.iter st).2 = true := fun h => hm (hround.stop.mp h).2.1
      have hcount : ((J.left li).countP fun x => x.2 < d) = (J.left (J.runEnd li)).length := by
        rw [left_eq_append hlt, countP_append, countP_eq_zero.mpr fun x hx => by
            rw [decide_eq_true_iff, J.val_of_mem_run hx, heq]
            exact lt_irrefl d,
          countP_eq_length.mpr fun x hx => by
            rw [decide_eq_true_iff, ← heq]
            exact hbelow x hx, zero_add]
      have hhas : ∃ x ∈ J.left li, J.Takes x.2 ∧ x.2 = d := ⟨_, mem_left_of_lt hlt, hv, heq⟩
      rw [or_iff_right hstop, UsesUpOne, hcount, and_iff_right hhas, ← hround.li_eq]
      exact hJ.inBounds_exhausted hmiss hscan hA' (by omega) hempty hfull'
  · -- a run of nils is the last one
    obtain ⟨h1, h2⟩ := hround.skip hv
    have hbot : J.l.val li = ⊥ := by
      rw [Takes, not_or, not_not] at hv
      exact hv.2
    have hnil : J.left (J.runEnd li) = [] := by
      refine eq_nil_iff_forall_not_mem.mpr fun x hx => ?_
      have h := hbelow x hx
      rw [hbot] at h
      exact absurd h not_lt_bot
    refine iff_of_true (.inr (hrec (by omega))) ?_
    rintro ⟨⟨x, hx, hP, -⟩, -⟩
    rw [left_eq_append hlt, hnil, append_nil] at hx
    exact hv (J.val_of_mem_run hx ▸ hP)

section

variable (hA : J.Ahead st) (hn : J.l.hi - st.li ≤ n) (hfull : st.rhi = J.r.hi)
  (hne : st.rlo < st.rhi)

include hA hn hfull hne

/-- A descending left column that has nothing above the one value on the right. -/
theorem Searchable.inBounds_constant_right_of_le (hle : ∀ x ∈ J.left st.li, x.2 ≤ d) :
    J.InBounds (J.loopReads n st) ↔ ¬ J.UsesUpOne (J.left st.li) d := by
  induction n, st, hn using rounds_induction with
  | done n st hn hli =>
    rw [left_eq_nil hli]
    exact inBounds_done hli fun h => absurd h.2 (not_lt_zero _)
  | round n st hn hli ih =>
    have hfirst : J.r.val st.rlo = d := hconst _ hA.inRange.lo_le (hfull ▸ hne)
    exact hJ.inBounds_constant_right_visit hmiss hscan he hl hr hconst hA hli hfull hne hn
      (J.gallop_of_not (not_gallops_of_le hl hfirst hle)) hli hle ih

/-- **A right column of one value** and a descending left column. -/
theorem Searchable.inBounds_constant_right :
    J.InBounds (J.loopReads n st) ↔ ¬ ReadsBehindAbove J.Takes J.lscan (J.left st.li) d := by
  rcases lt_or_ge st.li J.l.hi with hli | hli
  swap
  · refine inBounds_done hli ?_
    rw [left_eq_nil hli]
    rintro (⟨h, -⟩ | ⟨-, h, -⟩)
    · exact absurd h (not_lt_zero _)
    · exact absurd h (not_lt_zero _)
  have hR := hA.inRange
  have hfirst : J.r.val st.rlo = d := hconst _ hR.lo_le (hfull ▸ hne)
  have hgiff : J.Gallops st.li st.rlo ↔ _ := gallops_iff_above hl hfirst
  have hlands := hJ.gallop_lands_iff hmiss hscan hA.sorted hli st.rlo
  rw [hl, hfirst] at hlands
  have hhead := left_head (J := J) hli
  rcases hJ.gallop_cases hmiss hscan hA.sorted st.rlo with ⟨hng, hg⟩ | ⟨hgal, hge, hle, hleft⟩
  · have hfew := hlands.mp (hg.symm ▸ hli)
    rcases le_or_gt (J.l.val st.li) d with hle | habove
    · rw [hJ.inBounds_constant_right_of_le hmiss hscan he hl hr hconst hA hn hfull hne
        fun x => le_of_mem_left hl hA.sorted hle]
      refine not_congr ⟨fun h => .inr ⟨h.1, h.2, .inl ⟨_, hhead, hle⟩⟩, ?_⟩
      rintro (h | ⟨h1, h2, -⟩)
      · exact absurd h hfew
      · exact ⟨h1, h2⟩
    · -- the first value is not found, and the right rows are all before it
      obtain _ | n := n
      · omega
      obtain ⟨hround, -, -, -, hsucc⟩ :=
        hJ.inBounds_visit hmiss hscan hA hli (hfull ▸ hne) hg hli (n := n)
      have hstop := hround.stop_above hmiss hscan he hr (fun y => right_of_const hconst hR) habove
      refine iff_of_true (hsucc.mpr (.inl hstop)) ?_
      rintro (h | ⟨-, -, ⟨x, hx, hxd⟩ | h⟩)
      · exact hfew h
      · rw [hhead, Option.some.injEq] at hx
        subst hx
        exact absurd habove (not_lt.mpr hxd)
      · exact hng (hgiff.mpr h)
  · obtain _ | n := n
    · omega
    rcases eq_or_lt_of_le hle with hend | hlt
    · rw [hJ.inBounds_succ hmiss hscan hA hli, roundSafe_iff hscan (hfull ▸ hne)]
      refine iff_of_false (fun h => absurd h.1 (by omega)) (not_not.mpr (.inl ?_))
      by_contra h
      exact absurd (hlands.mpr h) (by omega)
    have hleft' := left_skip_eq hl hfirst hleft
    have hbelow : ∀ x ∈ J.left (J.gallop st.li st.rlo), x.2 ≤ d := by
      intro x hx
      rw [hleft', mem_filter, decide_eq_true_iff] at hx
      exact hx.2
    rw [hJ.inBounds_constant_right_visit hmiss hscan he hl hr hconst hA hli hfull hne hn
      rfl hlt hbelow fun st' hn' hA' =>
        hJ.inBounds_constant_right_of_le hmiss hscan he hl hr hconst hA' hn']
    -- the rows skipped are above the one value
    have hhas : (∃ x ∈ J.left (J.gallop st.li st.rlo), J.Takes x.2 ∧ x.2 = d) ↔
        ∃ x ∈ J.left st.li, J.Takes x.2 ∧ x.2 = d := by
      simp only [hleft', mem_filter, decide_eq_true_iff]
      constructor
      · rintro ⟨x, ⟨hx, -⟩, h⟩
        exact ⟨x, hx, h⟩
      · rintro ⟨x, hx, h⟩
        exact ⟨x, ⟨hx, h.2.le⟩, h⟩
    have hcount : ((J.left (J.gallop st.li st.rlo)).countP fun x => x.2 < d) =
        (J.left st.li).countP fun x => x.2 < d := by
      rw [hleft', countP_filter]
      refine countP_congr fun x _ => ?_
      rw [Bool.and_eq_true, decide_eq_true_iff, decide_eq_true_iff]
      exact ⟨And.left, fun h => ⟨h, h.le⟩⟩
    rw [UsesUpOne, hhas, hcount]
    refine not_congr ⟨fun h => .inr ⟨h.1, h.2, .inr (hgiff.mp hgal)⟩, ?_⟩
    rintro (h | ⟨h1, h2, -⟩)
    · exact absurd h (hlands.mp hlt)
    · exact ⟨h1, h2⟩

end

end

end Gallop

/-! ## No gallop

A loop that visits every left row stays within the left side.  What is left to show is that it looks
at the right side only where there are rows. -/

/-- **An unsorted left column**: the right side is searched for every run, so it must not be empty
unless no left row looks for partners. -/
theorem Searchable.inBounds_unsorted (hJ : J.Searchable) (hscan : J.lscan = 0)
    (he : J.equalOrder = true) (hr : J.r.lo ≤ J.r.hi) (hlo : J.l.lo ≤ st.li)
    (hn : J.l.hi - st.li ≤ n) (hfull : st.rhi = J.r.hi) :
    J.InBounds (J.loopReads n st) ↔
      ¬ (J.r.rows J.r.lo J.r.hi = [] ∧ ∃ x ∈ J.left st.li, J.Takes x.2) := by
  induction n, st, hn using rounds_induction with
  | done n st hn hli =>
    rw [left_eq_nil hli]
    exact inBounds_done hli (by simp)
  | round n st hn hli ih =>
    have hg : J.gallop st.li J.r.lo = st.li := by simp [gallop, hscan]
    have hlt := J.lt_runEnd st.li
    rw [inBounds_loopReads_succ hli, inBounds_iterReads_iff hJ (fun _ => he) (if_pos hscan).symm
      hg.symm hlo le_rfl ⟨le_rfl, hfull ▸ hr, hfull.le⟩ fun _ => hfull]
    have hsafe : J.RoundSafe st st.li J.r.lo ↔ (J.Takes (J.l.val st.li) → J.r.lo < J.r.hi) := by
      constructor
      · exact fun h hv => hfull ▸ h.searches hscan hv
      · exact fun h => ⟨fun _ h0 => absurd hscan h0.ne', hli, fun _ hv => hfull.symm ▸ h hv⟩
    rw [hsafe]
    rcases eq_or_lt_of_le hr with hempty | hne
    · -- only runs that are skipped are harmless
      have hrows : J.r.rows J.r.lo J.r.hi = [] := slice_eq_nil _ hempty.symm.le
      rw [and_iff_right hrows]
      by_cases hv : J.Takes (J.l.val st.li)
      · refine iff_of_false (fun h => absurd (h.1 hv) (by omega)) (not_not.mpr ?_)
        exact ⟨_, mem_left_of_lt hli, hv⟩
      · have hskip := iter_skip (if_pos hscan).symm hg.symm hv
        rw [and_iff_right (fun h => absurd h hv), hskip]
        simp only [Bool.false_eq_true, false_or]
        rw [ih { st with li := J.runEnd st.li, rlo := J.r.lo }
          (show J.l.hi - J.runEnd st.li ≤ n by omega) (le_trans hlo hlt.le) hfull,
          and_iff_right hrows, left_eq_append hli, exists_append_iff fun x hx h => hv ?_]
        exact J.val_of_mem_run hx ▸ h
    · have hrows : J.r.rows J.r.lo J.r.hi ≠ [] := mt slice_eq_nil_iff.mp (not_le.mpr hne)
      have hround := hJ.round_unsorted hscan hne hfull
      have hnext : st.li < (J.iter st).1.li := hround.li_eq ▸ hlt
      exact iff_of_true ⟨fun _ => hne, .inr ((ih _ (by omega) (by omega)
        ((hround.hi_eq he).trans hfull)).mpr fun h => hrows h.1)⟩ fun h => hrows h.1

/-- An outer join with a sorted left column does not gallop, and stays in bounds. -/
theorem Searchable.inBounds_outer (hJ : J.Searchable) (hmiss : J.nilOnMiss = true)
    (hscan : 0 < J.lscan) (hlo : J.l.lo ≤ st.li) (hR : J.InRange st) :
    J.InBounds (J.loopReads n st) := by
  induction n generalizing st with
  | zero => exact inBounds_nil
  | succ n ih =>
    rcases lt_or_ge st.li J.l.hi with hli | hli
    swap
    · rw [loopReads_of_le hli]
      exact inBounds_nil
    have hg : J.gallop st.li st.rlo = st.li := by simp [gallop, hmiss]
    have hround := hJ.round hscan hR
    rw [hg] at hround
    have hlt := J.lt_runEnd st.li
    rw [inBounds_loopReads_succ hli, inBounds_iterReads_iff hJ (fun h => absurd h hscan.ne')
      (if_neg hscan.ne').symm hg.symm hlo le_rfl ⟨hR.lo_le, hR.le, hR.le_hi⟩
      fun h => absurd h hscan.ne']
    refine ⟨⟨fun h => ?_, hli, fun h => absurd h hscan.ne'⟩, .inr (ih ?_ (hround.inRange hR))⟩
    · simp [hmiss] at h
    · rw [hround.li_eq]
      omega

end MergeJoin

/-! ## The merge join -/

variable {l r : Column α} {sl sr : Option Candidates}

/-- The left values that look for partners. -/
def Takes (nilMatches : Bool) (v : α) : Prop := nilMatches = true ∨ v ≠ ⊥
  deriving Decidable

/-- When a merge join reads behind the end of a side.  `w` is the scan window of the left side.

* An outer join searches an empty right side if the left column is not sorted.
* An unsorted left column does no harm otherwise.
* Both columns are compared in the same direction: more than `w` left rows remain when the right
  values in their range are used up, and the loop is not left at that point.
* A descending left column and a right column flagged as sorted both ways: see `ReadsBehindAbove`.
* Other opposite directions: more than `w` left rows all come before the first right value. -/
def ReadsBehind (l r : Column α) (sl sr : Option Candidates) (nilMatches nilOnMiss : Bool) : Prop :=
  let L := candRows l sl
  let R := candRows r sr
  let w := scanWindow L.length
  if nilOnMiss then
    (l.tsorted || l.trevsorted) = false ∧ R = [] ∧ ∃ x ∈ L, Takes nilMatches x.2
  else if !(l.tsorted || l.trevsorted) then False
  else if l.tsorted = r.tsorted then
    OverrunBy (Takes nilMatches) l.direction w L R ∧ EndsInReach (Takes nilMatches) l.direction L R
  else if !l.tsorted && r.trevsorted then
    ∃ y, R.head? = some y ∧ MergeJoin.ReadsBehindAbove (Takes nilMatches) w L y.2
  else ∃ y, R.head? = some y ∧ w < L.length ∧ Beyond l.direction L y.2

section Merge

variable (hl : ∀ c, sl = some c → c.Usable l) (hr : ∀ c, sr = some c → c.Usable r)

include hl hr

omit hl hr in
theorem not_readsBehind_of_nil {nilMatches nilOnMiss : Bool}
    (h : candRows l sl = [] ∨ nilOnMiss = false ∧ candRows r sr = []) :
    ¬ ReadsBehind l r sl sr nilMatches nilOnMiss := by
  unfold ReadsBehind
  rcases h with h | ⟨hmiss, h⟩
  · rw [h]
    dsimp only
    split_ifs
    · rintro ⟨-, -, x, hx, -⟩
      exact absurd hx not_mem_nil
    · exact not_false
    · exact fun h => not_overrunBy_of_length_le (zero_le _) h.1
    · rintro ⟨y, -, ⟨h, -⟩ | ⟨⟨x, hx, -⟩, -⟩⟩
      · exact absurd h (not_lt_zero _)
      · exact absurd hx not_mem_nil
    · rintro ⟨y, -, h, -⟩
      exact absurd h (not_lt_zero _)
  · rw [h, if_neg (by simp [hmiss])]
    split_ifs
    · exact not_false
    · rintro ⟨-, m, hm, -⟩
      exact absurd hm not_mem_nil
    · rintro ⟨y, hy, -⟩
      simp at hy
    · rintro ⟨y, hy, -⟩
      simp at hy

theorem inBounds_gallop_iff (hsorted : r.InOrder)
    (hls : l.InOrder) (nilMatches semi : Bool) (hR : candRows r sr ≠ []) :
    (mergeOf l r sl sr nilMatches false semi).InBounds
      ((mergeOf l r sl sr nilMatches false semi).loopReads ((l.among sl).hi - (l.among sl).lo)
        (innerStart l r sl sr joininitresults)) ↔
      ¬ ReadsBehind l r sl sr nilMatches false := by
  set J := mergeOf l r sl sr nilMatches false semi with hJdef
  have hJ : J.Searchable := searchable_mergeOf hl hr hsorted nilMatches false semi
  obtain ⟨hw, hscan, hdir⟩ := mergeOf_sorted hJdef hls
  have hs : SortedOn J.lreverse J.l.val (innerStart l r sl sr joininitresults).li J.l.hi := by
    rw [hdir]
    exact lsorted_side hl hls
  have hne := lo_lt_hi_of_ne_nil hr hR
  have hrange : J.InRange (innerStart l r sl sr joininitresults) := inRange_innerStart hr _ _ _ _
  have hA : J.Ahead (innerStart l r sl sr joininitresults) := ⟨hs, le_rfl, hrange⟩
  have hy := head?_eq_some_head hR
  have hfirst : J.r.val (innerStart l r sl sr joininitresults).rlo = _ := head_candRows hy
  unfold ReadsBehind
  simp only [hy, Option.some.injEq, exists_eq_left']
  rw [if_neg (by simp), if_neg (by simp [hls])]
  split_ifs with hsame hconst
  -- both sides in one order: the right side may be used up before the left one
  · obtain ⟨he, hrev⟩ := mergeOf_same hJdef hsame
    have h := hJ.inBounds_same rfl hscan he (hrev.trans hdir.symm) hA le_rfl rfl hne
    rw [MergeJoin.UsesUp, hdir, hw] at h
    exact h
  -- all values on the right side are equal
  · rw [Bool.and_eq_true, Bool.not_eq_true'] at hconst
    obtain ⟨-, hrs, he, hlrev, hrev⟩ := mergeOf_constant hJdef hls hsame hconst
    have h := hJ.inBounds_constant_right rfl hscan he hlrev hrev
      (fun c h3 h4 => (val_eq_of_both hr hrs hconst.2 h3 h4).trans hfirst) hA le_rfl rfl hne
    rw [hw] at h
    exact h
  · rw [Bool.and_eq_true, Bool.not_eq_true'] at hconst
    -- opposite orders, where the left side may still be constant
    by_cases hboth : l.tsorted = true ∧ l.trevsorted = true
    · have h := hJ.inBounds_constant_left rfl hscan le_rfl le_rfl hrange hne
        fun c h3 h4 => val_eq_of_both hl hboth.1 hboth.2 h3 h4
      rw [hfirst, hdir, hw] at h
      exact h
    · have he := (mergeOf_opposite hJdef hls hsame hsorted hconst).2 hboth
      have h := hJ.inBounds_opposite rfl hscan he hA le_rfl hne
      rw [hfirst, hdir, hw] at h
      exact h

/-- **A merge join reads no value and no candidate outside the two sides if and only if
`ReadsBehind` does not hold**, for all switches. -/
theorem inBounds_mergejoinReads_iff (hsorted : (r.tsorted || r.trevsorted) = true)
    (nilMatches nilOnMiss semi : Bool) :
    (mergeOf l r sl sr nilMatches nilOnMiss semi).InBounds
        (mergejoinReads l r sl sr nilMatches nilOnMiss semi) ↔
      ¬ ReadsBehind l r sl sr nilMatches nilOnMiss := by
  unfold mergejoinReads
  dsimp only
  split_ifs with hnil <;> rw [← candRows_eq_nil hl, ← candRows_eq_nil hr, Bool.not_eq_true'] at hnil
  · exact iff_of_true MergeJoin.inBounds_nil (not_readsBehind_of_nil hnil)
  rw [not_or, not_and] at hnil
  have hJ := searchable_mergeOf hl hr hsorted nilMatches nilOnMiss semi
  have hle := (candinit_enumerates hr).le
  by_cases hls : (l.tsorted || l.trevsorted) = true
  · cases nilOnMiss with
    | false => exact inBounds_gallop_iff hl hr hsorted hls nilMatches semi (hnil.2 rfl)
    | true =>
      exact iff_of_true (hJ.inBounds_outer rfl (mergeOf_sorted rfl hls).2.1 le_rfl
        ⟨le_rfl, hle, le_rfl⟩) fun h => absurd hls (by simp [h.1])
  · have hls' : (l.tsorted || l.trevsorted) = false := by simpa using hls
    obtain ⟨hscan, he⟩ := mergeOf_unsorted rfl hls'
    refine Iff.trans (hJ.inBounds_unsorted hscan he hle le_rfl le_rfl rfl) ?_
    unfold ReadsBehind
    cases nilOnMiss with
    | false =>
      rw [if_neg (by simp), if_pos (by simp [hls'])]
      exact iff_of_true (fun h => hnil.2 rfl h.1) not_false
    | true =>
      rw [if_pos rfl, and_iff_right hls']
      rfl

end Merge

/-! ## A failing input -/

/-- Nine ones, flagged as sorted. -/
def nineOnes : Column (IntVal .bte) :=
  bteColumn (replicate 9 ⟨1, bte_one⟩) true false (by decide) (by decide) (by decide)

/-- The value 5, flagged as sorted. -/
def justFive : Column (IntVal .bte) :=
  bteColumn [⟨5, bte_five⟩] true false (by decide) (by decide) (by decide)

/-- All nine left rows come before the 5 on the right.  The scan window is 8, so the gallop skips
them at once, and the loop fetches the value of the tenth. -/
theorem mergejoinReads_nineOnes : ¬ (mergeOf nineOnes justFive none none false false false).InBounds
      (mergejoinReads nineOnes justFive none none false false false) :=
  fun h => absurd (h (.left 9) (by decide)) (by decide)

/-- With a right column of the same values, all reads are in bounds. -/
theorem inBounds_nineOnes : (mergeOf nineOnes nineOnes none none false false false).InBounds
      (mergejoinReads nineOnes nineOnes none none false false false) := by
  refine (inBounds_mergejoinReads_iff (by simp) (by simp) (by decide) false false false).mpr ?_
  exact fun h => absurd h.1 (by decide)

end MonetInR.Gdk
