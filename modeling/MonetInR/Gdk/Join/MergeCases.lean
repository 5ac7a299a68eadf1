import MonetInR.Gdk.Join.MergeLoop

/-!
# The merge join of two sorted columns

With a sorted left column the loop gallops: it skips left rows that come before the next right
value, in the direction of the left column.  What the whole loop returns depends on how the
directions of the two columns compare.

* Same direction: the join, plus the pairs of the row behind the last one after an overrun.
* Opposite directions: the first right value is the last one in the direction of the left
  column, so a gallop skips every left row before it.
* A left column of one value, or a right column of one value, can be scanned in the other
  direction than its partner although the code takes the two orders to be equal.
-/

namespace MonetInR.Gdk

open IntervalSearch List Nat

namespace MergeJoin

variable {α : Type*} [Atom α] {J : MergeJoin α} {st : MergeState α} {li rlo n : ℕ} {x : ℕ × α}

omit [Atom α] in
theorem mem_left_of_lt (h : li < J.l.hi) : J.l.row li ∈ J.left li :=
  mem_slice.mpr ⟨li, le_rfl, h, rfl⟩

omit [Atom α] in
theorem length_left (li : ℕ) : (J.left li).length = J.l.hi - li := length_slice _ _ _

theorem mem_left_of_runEnd (hli : li < J.l.hi) (hx : x ∈ J.left (J.runEnd li)) : x ∈ J.left li := by
  rw [left_eq_append hli]
  exact mem_append_right _ hx

/-- The gallop either stays, or moves to the first left row that is not before the next right
value. -/
theorem Searchable.gallop_cases (hJ : J.Searchable) (hmiss : J.nilOnMiss = false)
    (hscan : 0 < J.lscan) (hs : SortedOn J.lreverse J.l.val li J.l.hi) (rlo : ℕ) :
    (¬ J.Gallops li rlo ∧ J.gallop li rlo = li) ∨
      (J.Gallops li rlo ∧ li ≤ J.gallop li rlo ∧ J.gallop li rlo ≤ J.l.hi ∧
        J.left (J.gallop li rlo) =
          (J.left li).filter fun x => ¬ Before J.lreverse x.2 (J.r.val rlo)) := by
  by_cases hg : J.Gallops li rlo
  · have hb := J.boundary_gallop hs hJ.ldir hJ.lsmall hmiss hscan hg
    have hdown := hs.downward hJ.ldir (J.r.val rlo) false
    refine .inr ⟨hg, hb.lo_le, hb.le_hi, (filter_slice _ hb.lo_le hb.le_hi le_rfl ?_).symm⟩
    intro i h1 h2
    have hiff := hb.iff_lt hdown h1 h2
    rw [decide_eq_true_iff]
    change ¬ Before J.lreverse (J.l.val i) (J.r.val rlo) ↔ _
    rw [hiff]
    omega
  · exact .inl ⟨hg, J.gallop_of_not hg⟩

/-- Without a gallop, at most a window of left rows can all be before the next right value. -/
theorem length_le_of_not_gallops (hng : ¬ J.Gallops li rlo)
    (hb : Beyond J.lreverse (J.left li) (J.r.val rlo)) : (J.left li).length ≤ J.lscan := by
  by_contra hlen
  rw [length_left] at hlen
  refine hng ⟨by omega, ?_⟩
  exact hb (J.l.row (li + J.lscan)) (mem_slice.mpr ⟨_, le_add_right _ _, by omega, rfl⟩)

section Skip

variable {g : ℕ}
  (hleft : J.left g = (J.left li).filter fun x => ¬ Before J.lreverse x.2 (J.r.val rlo))

include hleft

/-- A gallop behind the last left row: all come before the next right value. -/
theorem beyond_of_skip (hend : g = J.l.hi) : Beyond J.lreverse (J.left li) (J.r.val rlo) := by
  intro x hx
  rw [hend, left_eq_nil le_rfl] at hleft
  simpa using filter_eq_nil_iff.mp hleft.symm x hx

/-- The row a gallop stopped at is not before the next right value. -/
theorem not_before_of_skip (hlt : g < J.l.hi) : ¬ Before J.lreverse (J.l.val g) (J.r.val rlo) := by
  have hmem := mem_left_of_lt (J := J) hlt
  rw [hleft, mem_filter, decide_eq_true_iff] at hmem
  exact hmem.2

end Skip

/-- The first right row of a state, in the direction of the right column. -/
theorem Searchable.first_right (hJ : J.Searchable) (h : J.InRange st) (hlt : st.rlo < st.rhi) :
    J.r.row st.rlo ∈ J.right st ∧ ∀ y ∈ J.right st, ¬ Before J.rreverse y.2 (J.r.val st.rlo) := by
  refine ⟨mem_slice.mpr ⟨st.rlo, le_rfl, hlt, rfl⟩, fun y hy => ?_⟩
  obtain ⟨c, h1, h2, rfl⟩ := mem_slice.mp hy
  exact hJ.rsorted _ c h.lo_le h1 (lt_of_lt_of_le h2 h.le_hi)

section

variable (hJ : J.Sound) (hscan : 0 < J.lscan)

include hJ hscan

/-- A gallop behind the last left row: the loop visits the row it finds there, and ends. -/
theorem Sound.loop_overrun (h : J.InRange st)
    (hli : st.li < J.l.hi) (hg : J.gallop st.li st.rlo = J.l.hi) (n : ℕ) :
    (J.loop (n + 1) st).res.pairs = st.res.pairs ++ joinRows [J.behind] (J.right st) := by
  have hv := hJ.visit hscan h
  rw [hg] at hv
  have hend : J.l.hi ≤ (J.iter st).1.li := by
    rw [hv.li_eq]
    exact (J.lt_runEnd _).le
  rw [loop_succ hli, loop_of_le hend, ite_self, hv.pairs_eq, run_behind]
  rfl

/-- The round after the gallop, when the remaining rounds add `rest`, and nothing without right
rows. -/
theorem Sound.loop_visit (hR : J.InRange st) (hli : st.li < J.l.hi)
    (hg : J.gallop st.li st.rlo = li) {rest : List (ℕ × ℕ)}
    (hrest : (J.loop n (J.iter st).1).res.pairs = (J.iter st).1.res.pairs ++ rest)
    (hnil : J.l.val li ≠ ⊥ → J.right (J.iter st).1 = [] → rest = []) :
    (J.loop (n + 1) st).res.pairs =
      st.res.pairs ++ (joinRows (J.run li) (J.right st) ++ rest) := by
  have hv := hJ.visit hscan hR
  rw [hg] at hv
  rw [← append_assoc, show _ ++ joinRows _ (J.right st) = _ from hv.pairs_eq.symm, loop_succ hli]
  split_ifs with hstop
  · obtain ⟨hv0, -, -, hempty⟩ := hv.stop.mp hstop
    rw [hnil hv0 (slice_eq_nil _ hempty.symm.le), append_nil]
  · exact hrest

/-! ## Same direction -/

/-- The round after the gallop, in terms of what the remaining rounds return. -/
theorem Sound.loop_same_visit (he : J.equalOrder = true) (hdir : J.rreverse = J.lreverse)
    (hR : J.InRange st) (hli : st.li < J.l.hi) {li : ℕ} (hg : J.gallop st.li st.rlo = li)
    (hlt : li < J.l.hi) (hs : SortedOn J.lreverse J.l.val li J.l.hi)
    (hw : (∀ y ∈ J.right st, Beyond J.lreverse (J.left li) y.2) → (J.left li).length ≤ J.lscan)
    (ih : ∀ st' : MergeState α, st'.li = J.runEnd li → J.InRange st' →
      (J.loop n st').res.pairs = st'.res.pairs ++ (joinRows (J.left st'.li) (J.right st') ++
        overrunPairs J.lreverse J.lscan J.behind (J.left st'.li) (J.right st'))) :
    (J.loop (n + 1) st).res.pairs = st.res.pairs ++ (joinRows (J.left li) (J.right st) ++
      overrunPairs J.lreverse J.lscan J.behind (J.left li) (J.right st)) := by
  have hv := hJ.visit hscan hR
  rw [hg] at hv
  have hsw := startsWith_run hJ.ldir hlt hs
  have hsplit := left_eq_append (J := J) hlt
  rw [hsplit] at hw
  have hrec := ih (J.iter st).1 hv.li_eq (hv.inRange hR)
  rw [hv.li_eq] at hrec
  rw [hJ.loop_visit hscan hR hli hg hrec fun _ h => by
      rw [h, joinRows_nil_right, overrunPairs_nil_right, append_nil],
    hsplit, joinRows_append, append_assoc (joinRows _ _)]
  by_cases hnil : J.l.val li = ⊥
  · -- a run of nils: nothing is found and no right row is given up
    have hright : J.right (J.iter st).1 = J.right st := by
      rw [right, right, (hv.rest_nil hnil).1, (hv.rest_nil hnil).2]
    rw [hnil] at hsw
    rw [hright, overrunPairs_visit_nil hJ.ldir hsw hw]
  · have hright : J.right (J.iter st).1 =
        (J.right st).filter fun y => Before J.lreverse (J.l.val li) y.2 := by
      have hrest := hv.rest hnil
      simp only [Later, he, hdir] at hrest
      exact hrest
    -- the right rows up to the value cannot match the rows after the run
    have hjoin : joinRows (J.left (J.runEnd li)) (J.right (J.iter st).1) =
        joinRows (J.left (J.runEnd li)) (J.right st) := by
      rw [hright]
      refine joinRows_filter_right _ fun x hx _ y _ hyx => ?_
      rw [decide_eq_true_iff, hyx]
      exact hsw.after x hx
    rw [overrunPairs_visit hJ.ldir hsw hnil hw, ← hright, ← hjoin]

/-- **Both columns in the same direction**: the join of the rows, followed by the pairs of the
row behind the last one if the loop overruns. -/
theorem Sound.loop_same (he : J.equalOrder = true)
    (hdir : J.rreverse = J.lreverse) (n : ℕ) (hn : J.l.hi - st.li ≤ n)
    (hs : SortedOn J.lreverse J.l.val st.li J.l.hi) (hR : J.InRange st) :
    (J.loop n st).res.pairs = st.res.pairs ++ (joinRows (J.left st.li) (J.right st) ++
      overrunPairs J.lreverse J.lscan J.behind (J.left st.li) (J.right st)) := by
  induction n, st, hn using rounds_induction with
  | done n st hn hli =>
    rw [loop_of_le hli, left_eq_nil hli, joinRows_nil_left, overrunPairs_nil_left, append_nil,
      append_nil]
  | round n st hn hli ih =>
    rcases eq_or_lt_of_le hR.le with hempty | hne
    · have hnone : J.right st = [] := slice_eq_nil _ hempty.symm.le
      rw [hJ.loop_exhausted hscan _ hR hempty, hnone, joinRows_nil_right, overrunPairs_nil_right,
        append_nil, append_nil]
    obtain ⟨hmem, hmin⟩ := hJ.searchable.first_right hR hne
    rw [hdir] at hmin
    -- the remaining rounds start behind the run that this one visits
    have hnext : ∀ li, st.li ≤ li → ∀ st' : MergeState α, st'.li = J.runEnd li → J.InRange st' →
        (J.loop n st').res.pairs = st'.res.pairs ++ (joinRows (J.left st'.li) (J.right st') ++
          overrunPairs J.lreverse J.lscan J.behind (J.left st'.li) (J.right st')) := by
      intro li hle st' hst' hR'
      have hlt := J.lt_runEnd li
      exact ih st' (by omega) (hs.mono (by omega) le_rfl) hR'
    rcases hJ.searchable.gallop_cases hJ.inner.nilOnMiss hscan hs st.rlo with
      ⟨hng, hg⟩ | ⟨hgal, hge, hle, hleft⟩
    · exact hJ.loop_same_visit hscan he hdir hR hli hg hli hs
        (fun hall => length_le_of_not_gallops hng (hall _ hmem)) (hnext st.li le_rfl)
    rcases eq_or_lt_of_le hle with hend | hlt
    · -- every left row is before the next right value
      have hbeyond : ∀ y ∈ J.right st, Beyond J.lreverse (J.left st.li) y.2 :=
        fun y hy x hx => (beyond_of_skip hleft hend x hx).trans_not hJ.ldir (hmin y hy)
      have hnone : joinRows (J.left st.li) (J.right st) = [] := by
        refine joinRows_eq_nil.mpr ?_
        rintro x hx ⟨-, y, hy, hyx⟩
        exact (hbeyond y hy x hx).ne hJ.ldir hyx.symm
      rw [hJ.loop_overrun hscan hR hli hend, hnone, nil_append,
        overrunPairs_of_beyond hbeyond (by rw [length_left]; exact hgal.1)]
    · have hjoin : joinRows (J.left (J.gallop st.li st.rlo)) (J.right st) =
          joinRows (J.left st.li) (J.right st) := by
        rw [hleft]
        refine joinRows_filter_left _ ?_
        rintro x - ⟨-, y, hy, hyx⟩
        rw [decide_eq_true_iff, ← hyx]
        exact hmin y hy
      rw [← hjoin, overrunPairs_skip hJ.ldir hmem (show _ = J.r.val st.rlo from rfl) hmin
        (hleft ▸ ne_nil_of_mem (mem_left_of_lt hlt)), ← hleft]
      exact hJ.loop_same_visit hscan he hdir hR hli rfl hlt (hs.mono hge le_rfl)
        (fun hall => absurd (hall _ hmem _ (mem_left_of_lt hlt)) (not_before_of_skip hleft hlt))
        (hnext _ hge)

/-! ## Opposite directions -/

/-- The round after the gallop, when the right rows are used from their end. -/
theorem Sound.loop_opposite_visit (he : J.equalOrder = false) (hdir : J.rreverse = -J.lreverse)
    (hR : J.InRange st) (hli : st.li < J.l.hi) {li : ℕ} (hg : J.gallop st.li st.rlo = li)
    (hlt : li < J.l.hi) (hs : SortedOn J.lreverse J.l.val li J.l.hi)
    (ih : ∀ st' : MergeState α, st'.li = J.runEnd li → st'.rlo = st.rlo → J.InRange st' →
      (J.loop n st').res.pairs = st'.res.pairs ++ joinRows (J.left st'.li) (J.right st')) :
    (J.loop (n + 1) st).res.pairs = st.res.pairs ++ joinRows (J.left li) (J.right st) := by
  have hv := hJ.visit hscan hR
  rw [hg] at hv
  have hsw := startsWith_run hJ.ldir hlt hs
  have hrec := ih (J.iter st).1 hv.li_eq (hv.lo_eq he) (hv.inRange hR)
  rw [hv.li_eq] at hrec
  -- the right rows that are given up are before the rest of the left ones
  have hjoin : joinRows (J.left (J.runEnd li)) (J.right (J.iter st).1) =
      joinRows (J.left (J.runEnd li)) (J.right st) := by
    by_cases hnil : J.l.val li = ⊥
    · rw [right, (hv.rest_nil hnil).1, (hv.rest_nil hnil).2]
      rfl
    · have hrest : J.right (J.iter st).1 =
          (J.right st).filter fun y => J.Later (J.l.val li) y.2 := hv.rest hnil
      rw [hrest]
      refine joinRows_filter_right _ fun x hx _ y _ hyx => ?_
      rw [decide_eq_true_iff, Later, if_neg (by simp [he]), hdir, before_neg hJ.ldir, hyx]
      exact hsw.after x hx
  rw [left_eq_append hlt, joinRows_append, ← hjoin]
  exact hJ.loop_visit hscan hR hli hg hrec fun _ h => by rw [h, joinRows_nil_right]

/-- As long as no gallop happens, the loop returns the join: the later rounds do not gallop
either, because the first right value stays the same. -/
theorem Sound.loop_opposite_of_not_gallops (he : J.equalOrder = false)
    (hdir : J.rreverse = -J.lreverse) (n : ℕ)
    (hn : J.l.hi - st.li ≤ n) (hs : SortedOn J.lreverse J.l.val st.li J.l.hi) (hR : J.InRange st)
    (hng : ¬ J.Gallops st.li st.rlo) :
    (J.loop n st).res.pairs = st.res.pairs ++ joinRows (J.left st.li) (J.right st) := by
  induction n, st, hn using rounds_induction with
  | done n st hn hli => rw [loop_of_le hli, left_eq_nil hli, joinRows_nil_left, append_nil]
  | round n st hn hli ih =>
    refine hJ.loop_opposite_visit hscan he hdir hR hli (J.gallop_of_not hng) hli hs ?_
    intro st' hli' hrlo' hR'
    have hlt := J.lt_runEnd st.li
    refine ih st' (by omega) (hs.mono (by omega) le_rfl) hR' ?_
    rintro ⟨hw, hb⟩
    rw [hrlo'] at hb
    refine hng ⟨by omega, ?_⟩
    exact Before.not_trans hJ.ldir
      (hs (st.li + J.lscan) (st'.li + J.lscan) (by omega) (by omega) (by omega)) hb

end

/-- The left rows that a loop with at most one gallop visits: all of them, or those that are not
before the first right value `y`, or the row `b` behind the last one if there are none. -/
def visited (reverse : ℤ) (w : ℕ) (b : ℕ × α) (L : List (ℕ × α)) (y : α) : List (ℕ × α) :=
  if ∃ x, L[w]? = some x ∧ Before reverse x.2 y then
    if L.filter (fun x => ¬ Before reverse x.2 y) = [] then [b]
    else L.filter fun x => ¬ Before reverse x.2 y
  else L

theorem gallops_iff : J.Gallops li rlo ↔
    ∃ x, (J.left li)[J.lscan]? = some x ∧ Before J.lreverse x.2 (J.r.val rlo) := by
  have hget : ∀ h : J.lscan < J.l.hi - li,
      (J.left li)[J.lscan]? = some (J.l.row (li + J.lscan)) := by
    intro h
    rw [getElem?_eq_getElem (by rw [length_left]; exact h)]
    simp [left, Side.rows, slice]
  constructor
  · rintro ⟨hw, hb⟩
    exact ⟨_, hget hw, hb⟩
  · rintro ⟨x, hx, hb⟩
    have hw : J.lscan < J.l.hi - li := by
      rw [← length_left]
      exact (List.getElem?_eq_some_iff.mp hx).1
    rw [hget hw, Option.some.injEq] at hx
    subst hx
    exact ⟨hw, hb⟩

/-- **Opposite directions**: the first right value is the last one in the direction of the left
column, and one gallop skips all left rows before it. -/
theorem Sound.loop_opposite (hJ : J.Sound) (hscan : 0 < J.lscan) (he : J.equalOrder = false)
    (hdir : J.rreverse = -J.lreverse) (n : ℕ) (hn : J.l.hi - st.li ≤ n)
    (hs : SortedOn J.lreverse J.l.val st.li J.l.hi) (hR : J.InRange st) :
    (J.loop n st).res.pairs = st.res.pairs ++
      joinRows (visited J.lreverse J.lscan J.behind (J.left st.li) (J.r.val st.rlo))
        (J.right st) := by
  rcases hJ.searchable.gallop_cases hJ.inner.nilOnMiss hscan hs st.rlo with
    ⟨hng, hg⟩ | ⟨hgal, hge, hle, hleft⟩
  · rw [visited, if_neg (mt gallops_iff.mpr hng)]
    exact hJ.loop_opposite_of_not_gallops hscan he hdir n hn hs hR hng
  have hli : st.li < J.l.hi := by have := hgal.1; omega
  obtain _ | n := n
  · omega
  rw [visited, if_pos (gallops_iff.mp hgal), ← hleft]
  rcases eq_or_lt_of_le hle with hend | hlt
  · rw [if_pos (left_eq_nil hend.symm.le)]
    exact hJ.loop_overrun hscan hR hli hend n
  rw [if_neg (ne_nil_of_mem (mem_left_of_lt hlt))]
  refine hJ.loop_opposite_visit hscan he hdir hR hli rfl hlt (hs.mono hge le_rfl) ?_
  intro st' hli' hrlo' hR'
  have hlt' := J.lt_runEnd (J.gallop st.li st.rlo)
  refine hJ.loop_opposite_of_not_gallops hscan he hdir n (by omega)
    (hs.mono (by omega) le_rfl) hR' ?_
  -- the rows from the gallop on are not before the first right value
  rw [gallops_iff, hrlo']
  rintro ⟨x, hx, hb⟩
  have hmem := mem_left_of_runEnd hlt (hli' ▸ mem_of_getElem? hx)
  rw [hleft, mem_filter, decide_eq_true_iff] at hmem
  exact hmem.2 hb

/-! ## A column of one value -/

section OneLeft

variable (hconst : ∀ c, li ≤ c → c < J.l.hi → J.l.val c = J.l.val li)

include hconst

theorem sortedOn_of_const (hd : IsDirection J.lreverse) :
    SortedOn J.lreverse J.l.val li J.l.hi := by
  intro i j h1 h2 h3
  rw [hconst i h1 (by omega), hconst j (by omega) h3]
  exact before_irrefl hd

theorem runEnd_of_const {g : ℕ} (hge : li ≤ g) (hlt : g < J.l.hi) : J.runEnd g = J.l.hi := by
  have hb := J.boundary_runEnd hlt
  by_contra hne
  have hlt' := lt_of_le_of_ne hb.le_hi hne
  refine hb.stop hlt' ?_
  rw [hconst _ hge hlt, hconst _ (le_trans hge hb.lo_le) hlt']

end OneLeft

/-- **A left column of one value** whose partner runs in the other direction. -/
theorem Sound.loop_constant_left (hJ : J.Sound) (hscan : 0 < J.lscan) (hR : J.InRange st) (n : ℕ)
    (hn : J.l.hi - st.li ≤ n) (hconst : ∀ c, st.li ≤ c → c < J.l.hi → J.l.val c = J.l.val st.li) :
    (J.loop n st).res.pairs = st.res.pairs ++
      joinRows (visited J.lreverse J.lscan J.behind (J.left st.li) (J.r.val st.rlo))
        (J.right st) := by
  rcases lt_or_ge st.li J.l.hi with hli | hli
  swap
  · rw [loop_of_le hli, left_eq_nil hli, visited, if_neg (by simp), joinRows_nil_left, append_nil]
  obtain _ | n := n
  · omega
  have hs := sortedOn_of_const hconst hJ.ldir
  rcases hJ.searchable.gallop_cases hJ.inner.nilOnMiss hscan hs st.rlo with
    ⟨hng, hg⟩ | ⟨hgal, hge, hle, hleft⟩
  · -- one run is the whole column
    have hv := hJ.visit hscan hR
    rw [hg] at hv
    have hend := runEnd_of_const hconst le_rfl hli
    have hrun : J.run st.li = J.left st.li := by rw [run, hend]; rfl
    rw [visited, if_neg (mt gallops_iff.mpr hng), loop_succ hli,
      loop_of_le (by rw [hv.li_eq, hend]), ite_self, hv.pairs_eq, hrun]
    rfl
  · have hend : J.gallop st.li st.rlo = J.l.hi := by
      by_contra hne
      have hlt : J.gallop st.li st.rlo < J.l.hi := lt_of_le_of_ne hle hne
      refine not_before_of_skip hleft hlt ?_
      have hw := hgal.1
      rw [hconst _ hge hlt, ← hconst (st.li + J.lscan) (le_add_right _ _) (by omega)]
      exact hgal.2
    rw [visited, if_pos (gallops_iff.mp hgal), ← hleft, if_pos (left_eq_nil hend.symm.le)]
    exact hJ.loop_overrun hscan hR hli hend n

omit [Atom α] in
theorem left_head (hli : li < J.l.hi) : (J.left li)[0]? = some (J.l.row li) := by
  rw [left, Side.rows, slice_cons _ hli]
  rfl

section OneRight

variable {d : α}

omit [Atom α] in
theorem right_of_const (hconst : ∀ c, J.r.lo ≤ c → c < J.r.hi → J.r.val c = d)
    (hR : J.InRange st) {y : ℕ × α} (hy : y ∈ J.right st) : y.2 = d := by
  obtain ⟨c, h1, h2, rfl⟩ := mem_slice.mp hy
  exact hconst c (le_trans hR.lo_le h1) (lt_of_lt_of_le h2 hR.le_hi)

/-- A first value above the one on the right is not found, and uses up the right rows. -/
theorem Round.stop_above {out : MergeState α × Bool} (h : J.Round st li st.rlo out)
    (hmiss : J.nilOnMiss = false) (hscan : 0 < J.lscan) (he : J.equalOrder = true)
    (hr : J.rreverse = 1) (hval : ∀ y ∈ J.right st, y.2 = d) (habove : d < J.l.val li) :
    out.2 = true := by
  have hv : J.Takes (J.l.val li) := .inr (lt_of_le_of_lt bot_le habove).ne'
  have hrest : J.right out.1 = [] := by
    have hfilter : J.right out.1 = (J.right st).filter fun y => J.Later (J.l.val li) y.2 :=
      h.rest hv
    rw [hfilter]
    refine filter_eq_nil_iff.mpr fun y hy => ?_
    rw [decide_eq_true_iff, Later, if_pos he, hr, before_one, hval y hy, not_lt]
    exact habove.le
  refine h.stop.mpr ⟨hv, matching_eq_nil.mpr fun y hy => ?_, hmiss, hscan,
    le_antisymm h.le (slice_eq_nil_iff.mp hrest)⟩
  rw [hval y hy]
  exact habove.ne

variable (hl : J.lreverse = -1)

include hl

theorem gallops_iff_above (hfirst : J.r.val rlo = d) :
    J.Gallops li rlo ↔ ∃ x, (J.left li)[J.lscan]? = some x ∧ d < x.2 := by
  simp only [gallops_iff, hl, before_neg_one, hfirst]

theorem not_gallops_of_le (hfirst : J.r.val rlo = d) (hle : ∀ x ∈ J.left li, x.2 ≤ d) :
    ¬ J.Gallops li rlo := by
  rw [gallops_iff_above hl hfirst]
  rintro ⟨x, hx, hb⟩
  exact absurd hb (not_lt.mpr (hle x (mem_of_getElem? hx)))

theorem le_of_mem_left (hs : SortedOn J.lreverse J.l.val li J.l.hi) (hle : J.l.val li ≤ d)
    (hx : x ∈ J.left li) : x.2 ≤ d := by
  obtain ⟨c, h1, h2, rfl⟩ := mem_slice.mp hx
  have hxc := hs li c le_rfl h1 h2
  rw [hl, before_neg_one, not_lt] at hxc
  exact le_trans hxc hle

theorem left_skip_eq (hfirst : J.r.val rlo = d) {g : ℕ}
    (hleft : J.left g = (J.left li).filter fun x => ¬ Before J.lreverse x.2 (J.r.val rlo)) :
    J.left g = (J.left li).filter fun x => x.2 ≤ d := by
  rw [hleft]
  simp only [hl, before_neg_one, hfirst, not_lt]

end OneRight

section

variable (hJ : J.Sound) (hscan : 0 < J.lscan) (hl : J.lreverse = -1) {d : α}
  (hconst : ∀ c, J.r.lo ≤ c → c < J.r.hi → J.r.val c = d)

include hJ hscan hl hconst

/-- The round after the gallop, over a descending left column that has nothing above the one
value on the right. -/
theorem Sound.loop_constant_right_visit (hR : J.InRange st) (hli : st.li < J.l.hi) {li : ℕ}
    (hg : J.gallop st.li st.rlo = li) (hlt : li < J.l.hi)
    (hs : SortedOn J.lreverse J.l.val li J.l.hi) (hle : ∀ x ∈ J.left li, x.2 ≤ d)
    (ih : ∀ st' : MergeState α, st'.li = J.runEnd li → J.InRange st' →
      (J.loop n st').res.pairs = st'.res.pairs ++ joinRows (J.left st'.li) (J.right st')) :
    (J.loop (n + 1) st).res.pairs = st.res.pairs ++ joinRows (J.left li) (J.right st) := by
  have hv := hJ.visit hscan hR
  rw [hg] at hv
  have hsw := startsWith_run hJ.ldir hlt hs
  -- the rows after the run are below the one value
  have hbelow : ∀ st' : MergeState α, J.InRange st' →
      joinRows (J.left (J.runEnd li)) (J.right st') = [] := by
    intro st' hR'
    refine joinRows_eq_nil.mpr ?_
    rintro x hx ⟨-, y, hy, hyx⟩
    have hafter := hsw.after x hx
    rw [hl, before_neg_one, ← hyx, right_of_const hconst hR' hy] at hafter
    exact absurd hafter (not_lt.mpr (hle (J.l.row li) (mem_left_of_lt hlt)))
  have hrec := ih (J.iter st).1 hv.li_eq (hv.inRange hR)
  rw [hv.li_eq, hbelow _ (hv.inRange hR)] at hrec
  rw [left_eq_append hlt, joinRows_append, hbelow st hR]
  exact hJ.loop_visit hscan hR hli hg hrec fun _ _ => rfl

/-- A descending left column that has nothing above the one value on the right. -/
theorem Sound.loop_constant_right_of_le (n : ℕ)
    (hn : J.l.hi - st.li ≤ n) (hs : SortedOn J.lreverse J.l.val st.li J.l.hi) (hR : J.InRange st)
    (hle : ∀ x ∈ J.left st.li, x.2 ≤ d) :
    (J.loop n st).res.pairs = st.res.pairs ++ joinRows (J.left st.li) (J.right st) := by
  induction n, st, hn using rounds_induction with
  | done n st hn hli => rw [loop_of_le hli, left_eq_nil hli, joinRows_nil_left, append_nil]
  | round n st hn hli ih =>
    rcases eq_or_lt_of_le hR.le with hempty | hne
    · have hnone : J.right st = [] := slice_eq_nil _ hempty.symm.le
      rw [hJ.loop_exhausted hscan _ hR hempty, hnone, joinRows_nil_right, append_nil]
    have hfirst : J.r.val st.rlo = d := hconst _ hR.lo_le (lt_of_lt_of_le hne hR.le_hi)
    have hng := not_gallops_of_le hl hfirst hle
    refine hJ.loop_constant_right_visit hscan hl hconst hR hli (J.gallop_of_not hng) hli hs hle ?_
    intro st' hli' hR'
    have hlt := J.lt_runEnd st.li
    exact ih st' (by omega) (hs.mono (by omega) le_rfl) hR' fun x hx =>
      hle x (mem_left_of_runEnd hli (hli' ▸ hx))

end

/-- The left rows that the loop visits when the right column holds the one value `d` and the left
one descends: if the first left value is above `d` and no gallop happens, none, because the code
takes the right rows to be used up. -/
def visitedAbove (w : ℕ) (b : ℕ × α) (L : List (ℕ × α)) (d : α) : List (ℕ × α) :=
  if ∃ x, L[w]? = some x ∧ d < x.2 then
    if L.filter (fun x => x.2 ≤ d) = [] then [b] else L.filter fun x => x.2 ≤ d
  else if ∃ x, L[0]? = some x ∧ d < x.2 then [] else L

/-- **A right column of one value** and a descending left column. -/
theorem Sound.loop_constant_right (hJ : J.Sound) (hscan : 0 < J.lscan) (he : J.equalOrder = true)
    (hl : J.lreverse = -1) (hr : J.rreverse = 1) {d : α}
    (hconst : ∀ c, J.r.lo ≤ c → c < J.r.hi → J.r.val c = d) (n : ℕ)
    (hn : J.l.hi - st.li ≤ n) (hs : SortedOn J.lreverse J.l.val st.li J.l.hi) (hR : J.InRange st)
    (hne : st.rlo < st.rhi) :
    (J.loop n st).res.pairs = st.res.pairs ++
      joinRows (visitedAbove J.lscan J.behind (J.left st.li) d) (J.right st) := by
  rcases lt_or_ge st.li J.l.hi with hli | hli
  swap
  · rw [loop_of_le hli, left_eq_nil hli, visitedAbove, if_neg (by simp), if_neg (by simp),
      joinRows_nil_left, append_nil]
  obtain _ | n := n
  · omega
  have hfirst : J.r.val st.rlo = d := hconst _ hR.lo_le (lt_of_lt_of_le hne hR.le_hi)
  have hgiff : J.Gallops st.li st.rlo ↔ _ := gallops_iff_above hl hfirst
  rcases hJ.searchable.gallop_cases hJ.inner.nilOnMiss hscan hs st.rlo with
    ⟨hng, hg⟩ | ⟨hgal, hge, hle, hleft⟩
  · rw [visitedAbove, if_neg (mt hgiff.mpr hng)]
    split_ifs with habove
    · -- the first value is not found, and the right rows are all before it
      obtain ⟨x, hx, hdx⟩ := habove
      rw [left_head hli, Option.some.injEq] at hx
      subst hx
      have hround := hJ.searchable.round hscan hR
      have hval := fun y => right_of_const (y := y) hconst hR
      rw [hg] at hround
      have hstop := hround.stop_above hJ.inner.nilOnMiss hscan he hr hval hdx
      have hnone : joinRows (J.run st.li) (J.right st) = [] := by
        refine joinRows_eq_nil.mpr ?_
        rintro x hx ⟨-, y, hy, hyx⟩
        rw [hval y hy, J.val_of_mem_run hx] at hyx
        exact hdx.ne hyx
      rw [loop_succ hli, if_pos hstop, (hround.visit hJ.inner).pairs_eq]
      exact congrArg _ hnone
    · exact hJ.loop_constant_right_of_le hscan hl hconst (n + 1) hn hs hR fun x =>
        le_of_mem_left hl hs (not_lt.mp fun hd => habove ⟨_, left_head hli, hd⟩)
  · have hleft' := left_skip_eq hl hfirst hleft
    rw [visitedAbove, if_pos (hgiff.mp hgal), ← hleft']
    rcases eq_or_lt_of_le hle with hend | hlt
    · rw [if_pos (left_eq_nil hend.symm.le)]
      exact hJ.loop_overrun hscan hR hli hend n
    rw [if_neg (ne_nil_of_mem (mem_left_of_lt hlt))]
    have hbelow : ∀ x ∈ J.left (J.gallop st.li st.rlo), x.2 ≤ d := by
      intro x hx
      rw [hleft', mem_filter, decide_eq_true_iff] at hx
      exact hx.2
    refine hJ.loop_constant_right_visit hscan hl hconst hR hli rfl hlt
      (hs.mono hge le_rfl) hbelow ?_
    intro st' hli' hR'
    have hlt' := J.lt_runEnd (J.gallop st.li st.rlo)
    exact hJ.loop_constant_right_of_le hscan hl hconst n (by omega)
      (hs.mono (by omega) le_rfl) hR' fun x hx =>
        hbelow x (mem_left_of_runEnd hlt (hli' ▸ hx))

end MergeJoin

end MonetInR.Gdk
