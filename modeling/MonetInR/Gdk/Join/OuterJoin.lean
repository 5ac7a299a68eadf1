import MonetInR.Gdk.Join.ReadBounds
import MonetInR.Gdk.Join.HashPath

/-!
# The outer join

An outer join returns every left row: with its partners, or with nil if it has none.  Both kernels
build its result the same way, from a list of right oids for every left value, but leave out the
left rows whose own value is nil.

`BATsubouterjoin` runs the two kernels with `nilOnMiss`.  The merge join then does not gallop, so
it visits every left row and loses no partner to a skip.  It gives up the one value of a right
column flagged as sorted both ways when a descending left column starts above it, and it searches
an empty right side if the left column is not sorted.  The hash join confuses oids and positions as
it does for the inner join.

## Main definitions

* `IsOuterJoin`: the pairs that an outer join of two columns is to return
* `outerBy f L`: the pairs that the kernels build from the right oids `f x` of each left row `x`
* `BATsubouterjoin`: the operator
* `OuterJoinExact`: when its result is right, in terms of the rows

## Main results

* `isOuterJoin_outerBy_iff`: which lists of right oids give an outer join
* `MergeJoin.Searchable.loop_outer`: the pairs of the merge loop
* `isOuterJoin_BATsubouterjoin_iff`: the result is right exactly under `OuterJoinExact`
-/

namespace MonetInR.Gdk

open IntervalSearch List

variable {α : Type*} [Atom α]

variable {l r : Column α} {sl sr : Option Candidates} {o : ℕ}

/-- The right row `ro` is a candidate with the same value, other than nil, as the left row `lo`. -/
def IsPartner (l r : Column α) (sr : Option Candidates) (lo ro : ℕ) : Prop :=
  IsCandidate r sr ro ∧ l.atOid lo ≠ ⊥ ∧ l.atOid lo = r.atOid ro

/-- The pairs an outer join is to return, each once: those of the inner join, and every left
candidate without partner with nil. -/
structure IsOuterJoin (l r : Column α) (sl sr : Option Candidates) (pairs : List (ℕ × ℕ)) :
    Prop where
  inner : ∀ lo ro, ro ≠ oidNil → ((lo, ro) ∈ pairs ↔ IsCandidate l sl lo ∧ IsPartner l r sr lo ro)
  miss : ∀ lo, (lo, oidNil) ∈ pairs ↔ IsCandidate l sl lo ∧ ∀ ro, ¬ IsPartner l r sr lo ro
  nodup : pairs.Nodup

theorem IsCandidate.ne_oidNil {b : Column α} {s : Option Candidates} (h : IsCandidate b s o) :
    o ≠ oidNil := by
  have h1 := h.1.2
  have h2 := b.oids_small
  unfold oidNil
  omega

/-- An outer join has all left candidates, and no others. -/
theorem IsOuterJoin.exists_iff {pairs : List (ℕ × ℕ)} (h : IsOuterJoin l r sl sr pairs) (lo : ℕ) :
    (∃ ro, (lo, ro) ∈ pairs) ↔ IsCandidate l sl lo := by
  constructor
  · rintro ⟨ro, hp⟩
    by_cases hro : ro = oidNil
    · exact ((h.miss lo).mp (hro ▸ hp)).1
    · exact ((h.inner lo ro hro).mp hp).1
  · intro hlo
    by_cases hpart : ∃ ro, IsPartner l r sr lo ro
    · obtain ⟨ro, hp⟩ := hpart
      exact ⟨ro, (h.inner lo ro hp.1.ne_oidNil).mpr ⟨hlo, hp⟩⟩
    · exact ⟨oidNil, (h.miss lo).mpr ⟨hlo, not_exists.mp hpart⟩⟩

/-- The right oids of an outer join for a list of partners. -/
def orNil (m : List ℕ) : List ℕ := if m = [] then [oidNil] else m

/-- The pairs of one left row, which has none if its value is nil. -/
def outerRowBy (f : ℕ × α → List ℕ) (x : ℕ × α) : List (ℕ × ℕ) :=
  if x.2 = ⊥ then [] else (orNil (f x)).map fun o => (x.1, o)

/-- The pairs of all left rows. -/
def outerBy (f : ℕ × α → List ℕ) (L : List (ℕ × α)) : List (ℕ × ℕ) := L.flatMap (outerRowBy f)

variable {f g : ℕ × α → List ℕ} {L L' : List (ℕ × α)} {m : List ℕ}

theorem outerBy_append : outerBy f (L ++ L') = outerBy f L ++ outerBy f L' := by
  simp [outerBy]

theorem outerBy_congr (h : ∀ x ∈ L, x.2 ≠ ⊥ → f x = g x) : outerBy f L = outerBy g L := by
  refine flatMap_congr fun x hx => ?_
  unfold outerRowBy
  split_ifs with hv
  · rfl
  · rw [h x hx hv]

theorem mem_outerBy {p : ℕ × ℕ} :
    p ∈ outerBy f L ↔ ∃ v, v ≠ ⊥ ∧ (p.1, v) ∈ L ∧ p.2 ∈ orNil (f (p.1, v)) := by
  refine RowBlocks.mem_flatMap_ite.trans ⟨?_, ?_⟩
  · rintro ⟨⟨o, v⟩, hx, hv, rfl, hp⟩
    exact ⟨v, hv, hx, hp⟩
  · rintro ⟨v, hv, hx, hp⟩
    exact ⟨(p.1, v), hx, hv, rfl, hp⟩

theorem mem_orNil : o ∈ orNil m ↔ o ∈ m ∨ m = [] ∧ o = oidNil := by
  unfold orNil
  split_ifs with h
  · simp [h]
  · simp [h]

theorem nodup_orNil (h : m.Nodup) : (orNil m).Nodup := by
  unfold orNil
  split_ifs
  · exact nodup_singleton _
  · exact h

theorem nodup_outerBy (hL : Ordered L) (hf : ∀ x ∈ L, x.2 ≠ ⊥ → (f x).Nodup) :
    (outerBy f L).Nodup := by
  refine (RowBlocks.pairwise_flatMap_ite hL fun x hx hv => nodup_orNil (hf x hx hv)).imp ?_
  rintro p q h rfl
  simp at h

section Spec

variable (hl : l.Takes sl) (hr : r.Takes sr)

include hl hr

omit hl in
theorem isPartner_iff {lo ro : ℕ} (hv : l.atOid lo ≠ ⊥) :
    IsPartner l r sr lo ro ↔ (ro, l.atOid lo) ∈ candRows r sr := by
  rw [mem_candRows hr]
  exact ⟨fun h => ⟨h.1, h.2.2⟩, fun h => ⟨h.1, hv, h.2⟩⟩

/-- **The pairs built from right oids are those of the outer join exactly if no left row is nil and
the right oids are those of the right rows with the same value.** -/
theorem isOuterJoin_outerBy_iff
    (hf : ∀ x ∈ candRows l sl, x.2 ≠ ⊥ → (f x).Nodup ∧ oidNil ∉ f x) :
    IsOuterJoin l r sl sr (outerBy f (candRows l sl)) ↔ (∀ x ∈ candRows l sl, x.2 ≠ ⊥) ∧
        ∀ x ∈ candRows l sl, ∀ ro, ro ∈ f x ↔ (ro, x.2) ∈ candRows r sr := by
  -- the left rows are told apart by their oids
  have hval : ∀ {lo v}, (lo, v) ∈ candRows l sl ↔ IsCandidate l sl lo ∧ v = l.atOid lo :=
    fun {lo v} => mem_candRows hl
  have hmem : ∀ {lo ro}, (lo, ro) ∈ outerBy f (candRows l sl) ↔
      IsCandidate l sl lo ∧ l.atOid lo ≠ ⊥ ∧ ro ∈ orNil (f (lo, l.atOid lo)) := by
    intro lo ro
    rw [mem_outerBy]
    constructor
    · rintro ⟨v, hv, hx, hp⟩
      obtain ⟨hc, rfl⟩ := hval.mp hx
      exact ⟨hc, hv, hp⟩
    · rintro ⟨hc, hv, hp⟩
      exact ⟨_, hv, hval.mpr ⟨hc, rfl⟩, hp⟩
  constructor
  · intro h
    have hnil : ∀ x ∈ candRows l sl, x.2 ≠ ⊥ := by
      rintro ⟨lo, v⟩ hx hbot
      obtain ⟨hc, rfl⟩ := hval.mp hx
      obtain ⟨ro, hp⟩ := (h.exists_iff lo).mpr hc
      exact (hmem.mp hp).2.1 hbot
    refine ⟨hnil, ?_⟩
    rintro ⟨lo, v⟩ hx ro
    have hv := hnil _ hx
    obtain ⟨-, hno⟩ := hf _ hx hv
    obtain ⟨hc, rfl⟩ := hval.mp hx
    constructor
    · intro hro
      have hne : ro ≠ oidNil := fun he => hno (he ▸ hro)
      have hp := (h.inner lo ro hne).mp (hmem.mpr ⟨hc, hv, mem_orNil.mpr (.inl hro)⟩)
      exact (isPartner_iff hr hv).mp hp.2
    · intro hro
      have hp := (isPartner_iff hr hv).mpr hro
      have hpair := (h.inner lo ro hp.1.ne_oidNil).mpr ⟨hc, hp⟩
      refine (mem_orNil.mp (hmem.mp hpair).2.2).resolve_right ?_
      exact fun he => hp.1.ne_oidNil he.2
  · rintro ⟨hnil, hfound⟩
    have hrow : ∀ {lo}, IsCandidate l sl lo → l.atOid lo ≠ ⊥ ∧ oidNil ∉ f (lo, l.atOid lo) ∧
        ∀ ro, ro ∈ f (lo, l.atOid lo) ↔ IsPartner l r sr lo ro := by
      intro lo hc
      have hx := hval.mpr ⟨hc, rfl⟩
      have hv := hnil _ hx
      exact ⟨hv, (hf _ hx hv).2, fun ro => (hfound _ hx ro).trans (isPartner_iff hr hv).symm⟩
    refine ⟨fun lo ro hne => ?_, fun lo => ?_, nodup_outerBy (ordered_candRows hl)
      fun x hx hv => (hf x hx hv).1⟩
    · rw [hmem]
      refine and_congr_right fun hc => ?_
      obtain ⟨hv, hno, hiff⟩ := hrow hc
      rw [mem_orNil, hiff]
      exact ⟨fun h => h.2.resolve_right fun he => hne he.2, fun h => ⟨hv, .inl h⟩⟩
    · rw [hmem]
      refine and_congr_right fun hc => ?_
      obtain ⟨hv, hno, hiff⟩ := hrow hc
      rw [mem_orNil, or_iff_right hno, and_iff_left rfl, and_iff_right hv,
        eq_nil_iff_forall_not_mem]
      exact forall_congr' fun ro => not_congr (hiff ro)

end Spec

/-! ## The merge loop

Every left row is visited, so that the only question is which right rows are left when its turn
comes. -/

namespace MergeJoin

variable {J : MergeJoin α} {st : MergeState α} {n : ℕ}

/-- The switches of an outer join. -/
structure Outer (J : MergeJoin α) : Prop where
  nilMatches : J.nilMatches = false
  nilOnMiss : J.nilOnMiss = true
  semi : J.semi = false

theorem Outer.takes_iff (h : J.Outer) {v : α} : J.Takes v ↔ v ≠ ⊥ := by
  simp [Takes, h.nilMatches]

theorem Outer.gallop_eq (h : J.Outer) (li rlo : ℕ) : J.gallop li rlo = li := by
  simp [gallop, h.nilOnMiss]

theorem Outer.not_stop (h : J.Outer) {li rlo : ℕ} {out : MergeState α × Bool}
    (hround : J.Round st li rlo out) : ¬ out.2 = true := fun hs => by
  have hmiss := (hround.stop.mp hs).2.2.1
  simp [h.nilOnMiss] at hmiss

theorem outerBy_run (f : α → List ℕ) (li : ℕ) :
    outerBy (fun x => f x.2) (J.run li) = if J.l.val li = ⊥ then [] else
      J.emit (J.runEnd li) (J.runEnd li - li) (orNil (f (J.l.val li))) := by
  have hlt := J.lt_runEnd li
  have hval : ∀ c ∈ range' li (J.runEnd li - li), (J.l.row c).2 = J.l.val li := by
    intro c hc
    rw [mem_range'_1] at hc
    exact J.val_of_lt_runEnd hc.1 (by omega)
  rw [emit, Nat.sub_sub_self hlt.le, outerBy, run, Side.rows, slice, flatMap_map]
  split_ifs with hv
  · refine flatMap_eq_nil_iff.mpr fun c hc => ?_
    rw [outerRowBy, hval c hc, if_pos hv]
  · refine flatMap_congr fun c hc => ?_
    rw [outerRowBy, hval c hc, if_neg hv]
    rfl

/-- A round appends the pairs of its run, with nil for a value without partners. -/
theorem Outer.pairs_eq (h : J.Outer) {li rlo : ℕ} {out : MergeState α × Bool}
    (hround : J.Round st li rlo out) :
    out.1.res.pairs = st.res.pairs ++
      outerBy (fun x => matching x.2 (J.r.rows rlo st.rhi)) (J.run li) := by
  rw [outerBy_run fun v => matching v (J.r.rows rlo st.rhi)]
  by_cases hv : J.l.val li = ⊥
  · have hskip : ¬ J.Takes (J.l.val li) := mt h.takes_iff.mp (not_not.mpr hv)
    rw [if_pos hv, (hround.same (.inl hskip)).1, append_nil]
  · rw [(hround.found (h.takes_iff.mpr hv) (.inr h.nilOnMiss)).1]
    simp only [extend, picked, h.semi, Bool.false_eq_true, if_false, orNil]
    split_ifs <;> rfl

section

variable {out : MergeState α × Bool} (hround : J.Round st st.li st.rlo out)

include hround

theorem Round.right_takes (hv : J.Takes (J.l.val st.li)) :
    J.right out.1 = (J.right st).filter fun y => J.Later (J.l.val st.li) y.2 :=
  hround.rest hv

theorem Round.right_skip (hv : ¬ J.Takes (J.l.val st.li)) : J.right out.1 = J.right st := by
  rw [right, (hround.skip hv).1, (hround.skip hv).2]
  rfl

end

/-- **The pairs of the outer loop**: those of the remaining rows, as long as no round gives up right
rows that a later run needs. -/
theorem Searchable.loop_outer (hJ : J.Searchable) (hout : J.Outer) (hscan : 0 < J.lscan)
    (hn : J.l.hi - st.li ≤ n) (hR : J.InRange st)
    (hkeep : ∀ i j, st.li ≤ i → J.runEnd i ≤ j → j < J.l.hi → J.l.val i ≠ ⊥ →
      ∀ y ∈ J.right st, y.2 = J.l.val j → J.Later (J.l.val i) y.2) :
    (J.loop n st).res.pairs =
      st.res.pairs ++ outerBy (fun x => matching x.2 (J.right st)) (J.left st.li) := by
  induction n, st, hn using rounds_induction with
  | done n st hn hli =>
    rw [loop_of_le hli, left_eq_nil hli]
    exact (append_nil _).symm
  | round n st hn hli ih =>
    have hround := hJ.round hscan hR
    rw [hout.gallop_eq] at hround
    have hlt := J.lt_runEnd st.li
    -- what the round keeps, in terms of the values of later rows
    have hsub : ∀ y ∈ J.right (J.iter st).1, y ∈ J.right st := by
      by_cases hv : J.Takes (J.l.val st.li)
      · rw [hround.right_takes hv]
        exact fun y hy => (mem_filter.mp hy).1
      · rw [hround.right_skip hv]
        exact fun y hy => hy
    have hsame : ∀ x ∈ J.left (J.runEnd st.li), x.2 ≠ ⊥ →
        matching x.2 (J.right (J.iter st).1) = matching x.2 (J.right st) := by
      intro x hx _
      by_cases hv : J.Takes (J.l.val st.li)
      · obtain ⟨c, h1, h2, rfl⟩ := mem_slice.mp hx
        rw [hround.right_takes hv]
        refine matching_filter fun y hy hyc => ?_
        rw [decide_eq_true_iff]
        exact hkeep st.li c le_rfl h1 h2 (hout.takes_iff.mp hv) y hy hyc
      · rw [hround.right_skip hv]
    have hrec := ih _ (by rw [hround.li_eq]; omega) (hround.inRange hR) fun i j h1 h2 h3 h4 y hy =>
        hkeep i j (by rw [hround.li_eq] at h1; omega) h2 h3 h4 y (hsub y hy)
    rw [loop_succ hli, if_neg (hout.not_stop hround), hrec, hround.li_eq,
      outerBy_congr (g := fun x => matching x.2 (J.right st)) hsame,
      hout.pairs_eq hround, left_eq_append hli, outerBy_append, append_assoc]
    rfl

/-- An unsorted left column: the right rows are searched completely for every run. -/
theorem Searchable.loop_outer_unsorted (hJ : J.Searchable) (hout : J.Outer) (hscan : J.lscan = 0)
    (he : J.equalOrder = true) (hne : J.r.lo < J.r.hi) (hn : J.l.hi - st.li ≤ n)
    (hfull : st.rhi = J.r.hi) :
    (J.loop n st).res.pairs =
      st.res.pairs ++ outerBy (fun x => matching x.2 (J.r.rows J.r.lo J.r.hi)) (J.left st.li) := by
  induction n, st, hn using rounds_induction with
  | done n st hn hli =>
    rw [loop_of_le hli, left_eq_nil hli]
    exact (append_nil _).symm
  | round n st hn hli ih =>
    have hround := hJ.round_unsorted hscan hne hfull
    have hlt := J.lt_runEnd st.li
    have hrec := ih _ (by rw [hround.li_eq]; omega) ((hround.hi_eq he).trans hfull)
    rw [loop_succ hli, if_neg (hout.not_stop hround), hrec, hround.li_eq, hout.pairs_eq hround,
      hfull, left_eq_append hli, outerBy_append, append_assoc]

/-- A descending left column that starts above the one value on the right: the first round gives
up all right rows. -/
theorem Searchable.loop_outer_above (hJ : J.Searchable) (hout : J.Outer) (hscan : 0 < J.lscan)
    (he : J.equalOrder = true) (hr : J.rreverse = 1) (hli : st.li < J.l.hi)
    (hn : J.l.hi - st.li ≤ n) (hR : J.InRange st) (habove : ∀ y ∈ J.right st, y.2 < J.l.val st.li) :
    (J.loop n st).res.pairs =
      st.res.pairs ++ outerBy (fun x => matching x.2 ([] : List (ℕ × α))) (J.left st.li) := by
  obtain _ | n := n
  · omega
  have hround := hJ.round hscan hR
  rw [hout.gallop_eq] at hround
  have hlt := J.lt_runEnd st.li
  -- all right rows come before the first left value, and are given up
  have hnone : J.right (J.iter st).1 = [] := by
    by_cases hv : J.Takes (J.l.val st.li)
    · rw [hround.right_takes hv]
      refine filter_eq_nil_iff.mpr fun y hy => ?_
      rw [decide_eq_true_iff, Later, if_pos he, hr, before_one]
      exact (habove y hy).asymm
    · rw [hround.right_skip hv]
      refine eq_nil_iff_forall_not_mem.mpr fun y hy => hv (.inr ?_)
      exact (lt_of_le_of_lt bot_le (habove y hy)).ne'
  have hrec : (J.loop n (J.iter st).1).res.pairs = _ :=
    hJ.loop_outer hout hscan (by rw [hround.li_eq]; omega) (hround.inRange hR)
      fun i j _ _ _ _ y hy => by
        rw [hnone] at hy
        exact absurd hy not_mem_nil
  have hrun : ∀ x ∈ J.run st.li, x.2 ≠ ⊥ →
      matching x.2 (J.r.rows st.rlo st.rhi) = matching x.2 [] := by
    intro x hx _
    rw [J.val_of_mem_run hx]
    exact matching_eq_nil.mpr fun y hy => (habove y hy).ne
  rw [loop_succ hli, if_neg (hout.not_stop hround), hrec, hnone, hround.li_eq,
    hout.pairs_eq hround, outerBy_congr (g := fun x => matching x.2 []) hrun, left_eq_append hli,
    outerBy_append, append_assoc]

/-- An unsorted left column of nils: nothing is searched and nothing returned. -/
theorem loop_nils (hscan : J.lscan = 0) (h : ∀ x ∈ J.left st.li, ¬ J.Takes x.2) :
    (J.loop n st).res = st.res := by
  induction n generalizing st with
  | zero => rfl
  | succ n ih =>
    rcases Nat.lt_or_ge st.li J.l.hi with hli | hli
    swap
    · rw [loop_of_le hli]
    have hg : J.gallop st.li J.r.lo = st.li := by simp [gallop, hscan]
    have hskip := iter_skip (if_pos hscan).symm hg.symm (h _ (mem_left_of_lt hli))
    rw [loop_succ hli, hskip]
    refine ih fun x hx => h x ?_
    rw [left_eq_append hli]
    exact mem_append_right _ hx

end MergeJoin

variable {l r : Column α} {sl sr : Option Candidates}

/-! ## The operator -/

/-- The result of a merge join that reads only what is there.  `none` is a run that fails the
assertion on the range of a binary search, or reads behind the end of a side where there is none. -/
def mergejoinChecked (l r : Column α) (sl sr : Option Candidates)
    (nilMatches nilOnMiss semi : Bool) (res : JoinResult) : Option JoinResult :=
  if (mergeOf l r sl sr nilMatches nilOnMiss semi).InBounds
      (mergejoinReads l r sl sr nilMatches nilOnMiss semi) then
    some (mergejoin l r sl sr nilMatches nilOnMiss semi res)
  else none

/-- Left outer join: a left row without partner is paired with nil. -/
def BATsubouterjoin (l r : Column α) (sl sr : Option Candidates) (mem : ℕ → ℕ) :
    Except String (Option JoinResult) := do
  joinparamcheck l r sl sr "BATsubouterjoin"
  if r.tsorted || r.trevsorted then
    return mergejoinChecked l r sl sr false true false joininitresults
  else
    return some (hashjoin l r sl sr mem false true false joininitresults)

/-- When the outer merge join is right: no left row is nil, an empty right side is not searched,
and a descending left column does not start above the one value of the right column if it has that
value as well. -/
def OuterMergeExact (l r : Column α) (sl sr : Option Candidates) : Prop :=
  (∀ x ∈ candRows l sl, x.2 ≠ ⊥) ∧
  ((l.tsorted || l.trevsorted) = false → candRows r sr = [] → candRows l sl = []) ∧
  (l.tsorted = false → l.trevsorted = true → r.tsorted = true → r.trevsorted = true →
    ∀ x ∈ candRows l sl, ∀ y ∈ candRows r sr, y.2 < x.2 → ∀ z ∈ candRows l sl, z.2 ≠ y.2)

/-- When the outer hash join is right: no left row is nil, equal values are in the same bucket, the
right oids are compared with the right positions, and the left oids are not shifted. -/
def OuterHashExact (l r : Column α) (sl sr : Option Candidates) (mem : ℕ → ℕ) : Prop :=
  (∀ x ∈ candRows l sl, x.2 ≠ ⊥) ∧
  (BucketsMatch l r sl sr mem ∧ PositionsMatch l r sl sr mem) ∧
  ((CANDINIT l sl).cand = none → l.first = 0 ∨ candRows l sl = [])

/-- When the outer join is right. -/
def OuterJoinExact (l r : Column α) (sl sr : Option Candidates) (mem : ℕ → ℕ) : Prop :=
  if r.tsorted || r.trevsorted then OuterMergeExact l r sl sr else OuterHashExact l r sl sr mem

/-- A left column that is flagged as descending starts above the one value of a right column that is
flagged as sorted both ways: the code gives up the right rows at once. -/
def GivesUp (l r : Column α) (sl sr : Option Candidates) : Prop :=
  l.tsorted = false ∧ l.trevsorted = true ∧ r.tsorted = true ∧ r.trevsorted = true ∧
    ∃ x ∈ candRows l sl, ∃ y ∈ candRows r sr, y.2 < x.2

section Exact

variable (hl : l.Takes sl) (hr : r.Takes sr) (mem : ℕ → ℕ)

include hr in
theorem matching_candRows (v : α) :
    (matching v (candRows r sr)).Nodup ∧ oidNil ∉ matching v (candRows r sr) := by
  constructor
  · rw [matching, List.Nodup, pairwise_map]
    exact ((ordered_candRows hr).filter _).imp fun h => h.ne
  · intro h
    exact ((mem_candRows hr).mp (mem_matching.mp h)).1.ne_oidNil rfl

include hl hr

/-- The pairs built from the right rows are right exactly if no left row is nil. -/
theorem isOuterJoin_matching_iff :
    IsOuterJoin l r sl sr (outerBy (fun x => matching x.2 (candRows r sr)) (candRows l sl)) ↔
      ∀ x ∈ candRows l sl, x.2 ≠ ⊥ := by
  rw [isOuterJoin_outerBy_iff hl hr fun x _ _ => matching_candRows hr x.2]
  exact and_iff_left fun x _ ro => mem_matching

/-- The pairs built without any right row are right exactly if moreover no left row has a
partner. -/
theorem isOuterJoin_nil_iff : IsOuterJoin l r sl sr
        (outerBy (fun x => matching x.2 ([] : List (ℕ × α))) (candRows l sl)) ↔
      (∀ x ∈ candRows l sl, x.2 ≠ ⊥) ∧ ∀ x ∈ candRows l sl, ∀ y ∈ candRows r sr, x.2 ≠ y.2 := by
  rw [isOuterJoin_outerBy_iff (f := fun x => matching x.2 []) hl hr
    fun x _ _ => ⟨nodup_nil, not_mem_nil⟩]
  refine and_congr_right fun _ => forall₂_congr fun x _ => ⟨fun h y hy he => ?_, fun h ro => ?_⟩
  · exact absurd ((h y.1).mpr (he ▸ hy)) not_mem_nil
  · exact iff_of_false not_mem_nil fun hro => h _ hro rfl

omit hr in
/-- No round over a sorted left column gives up right rows that a later one needs, unless the code
takes a descending and a constant column to have the same order. -/
theorem later_of_sorted (hrsorted : r.InOrder) (hsorted : l.InOrder) (hup : ¬ GivesUp l r sl sr)
    {i j : ℕ} (hi : (l.among sl).lo ≤ i)
    (hij : (mergeOf l r sl sr false true false).runEnd i ≤ j)
    (hj : j < (l.among sl).hi) {y : ℕ × α} (hy : y ∈ candRows r sr)
    (hyj : y.2 = (l.among sl).val j) :
    (mergeOf l r sl sr false true false).Later ((l.among sl).val i) y.2 := by
  set J := mergeOf l r sl sr false true false with hJ
  have hs := (lsorted_side hl hsorted).mono hi le_rfl
  have hihi : i < (l.among sl).hi := lt_of_lt_of_le (J.lt_runEnd i) (hij.trans hj.le)
  have hd := l.isDirection_direction
  -- the value of a later run comes after this one, in the direction of the left column
  have hafter : Before l.direction (J.l.val i) y.2 := by
    rw [hyj]
    have hsw := MergeJoin.startsWith_run (J := J) hd hihi hs
    exact hsw.after (J.l.row j) (mem_slice.mpr ⟨j, hij, hj, rfl⟩)
  change J.Later (J.l.val i) y.2
  by_cases hsame : l.tsorted = r.tsorted
  · obtain ⟨he, hrev⟩ := mergeOf_same hJ hsame
    rw [MergeJoin.Later, if_pos he, hrev]
    exact hafter
  by_cases hone : l.tsorted = false ∧ r.trevsorted = true
  · obtain ⟨hlr, hrs, -⟩ := mergeOf_constant hJ hsorted hsame hone
    rw [Column.direction, hone.1, if_neg (by simp), before_neg_one] at hafter
    exact absurd ⟨hone.1, hlr, hrs, hone.2, J.l.row i, mem_slice.mpr ⟨i, hi, hihi, rfl⟩, y, hy,
      hafter⟩ hup
  by_cases hboth : l.tsorted = true ∧ l.trevsorted = true
  · -- a left column of one value has no later run
    have hvi := val_eq_of_both hl hboth.1 hboth.2 hi hihi
    have hvj := val_eq_of_both hl hboth.1 hboth.2 (hi.trans ((J.lt_runEnd i).le.trans hij)) hj
    rw [hyj, hvj, ← hvi] at hafter
    exact absurd hafter (before_irrefl hd)
  · obtain ⟨hrev, he⟩ := mergeOf_opposite hJ hsorted hsame hrsorted hone
    rw [MergeJoin.Later, if_neg (by simp [he hboth]), hrev, before_neg hd]
    exact hafter

theorem pairs_outer_sorted (hrsorted : r.InOrder) (hsorted : l.InOrder) (hL : candRows l sl ≠ [])
    (hup : ¬ GivesUp l r sl sr) :
    (mergejoin l r sl sr false true false joininitresults).pairs =
      outerBy (fun x => matching x.2 (candRows r sr)) (candRows l sl) := by
  have hJ := searchable_mergeOf hl hr hrsorted false true false
  have hscan := (mergeOf_sorted (r := r) (J := mergeOf l r sl sr false true false) rfl hsorted).2.1
  have hR : (mergeOf l r sl sr false true false).InRange _ :=
    inRange_innerStart hr false true false (startProps l r joininitresults)
  rw [mergejoin_eq hl hr, if_neg (by simp [hL])]
  refine (hJ.loop_outer ⟨rfl, rfl, rfl⟩ hscan le_rfl hR fun i j h1 h2 h3 _ y hy hyj =>
      later_of_sorted hl hrsorted hsorted hup h1 h2 h3 hy hyj).trans ?_
  change (startProps l r joininitresults).pairs ++ _ = _
  rw [pairs_startProps]
  rfl

/-- The pairs of the outer merge join if the left column descends from above the one value on the
right. -/
theorem pairs_outer_above (hup : GivesUp l r sl sr) :
    (mergejoin l r sl sr false true false joininitresults).pairs =
      outerBy (fun x => matching x.2 ([] : List (ℕ × α))) (candRows l sl) := by
  obtain ⟨-, hlr, hrt, hrr, x, hx, y, hy, hxy⟩ := hup
  have hsorted : l.InOrder := by simp [hlr]
  have hJ := searchable_mergeOf hl hr (by simp [hrt]) false true false
  have hscan := (mergeOf_sorted (r := r) (J := mergeOf l r sl sr false true false) rfl hsorted).2.1
  have hR : (mergeOf l r sl sr false true false).InRange _ :=
    inRange_innerStart hr false true false (startProps l r joininitresults)
  -- the first left value is the largest, and the right values are all the same
  obtain ⟨c, h1, h2, rfl⟩ := mem_slice.mp hx
  have hfirst : (l.among sl).val c ≤ (l.among sl).val (l.among sl).lo := by
    have h := sortedOn_side hl (.inr ⟨rfl, hlr⟩) _ c le_rfl h1 h2
    rwa [before_neg_one, not_lt] at h
  have habove : ∀ z ∈ candRows r sr,
      z.2 < (l.among sl).val (l.among sl).lo := by
    intro z hz
    obtain ⟨d, h3, h4, rfl⟩ := mem_slice.mp hy
    obtain ⟨e, h5, h6, rfl⟩ := mem_slice.mp hz
    refine lt_of_lt_of_le ?_ hfirst
    have hd := val_eq_of_both hr hrt hrr h3 h4
    have he := val_eq_of_both hr hrt hrr h5 h6
    change (r.among sr).val e < _
    rw [he, ← hd]
    exact hxy
  rw [mergejoin_eq hl hr, if_neg (by simp [ne_nil_of_mem hx])]
  refine (hJ.loop_outer_above ⟨rfl, rfl, rfl⟩ hscan (by simp [mergeOf, hlr, hrr])
    (by simp [mergeOf, hrt]) (lt_of_le_of_lt h1 h2) le_rfl hR habove).trans ?_
  change (startProps l r joininitresults).pairs ++ _ = _
  rw [pairs_startProps]
  rfl

/-- The pairs of the outer merge join over an unsorted left column. -/
theorem pairs_outer_unsorted (hrsorted : r.InOrder)
    (hunsorted : (l.tsorted || l.trevsorted) = false) (hL : candRows l sl ≠ []) :
    (candRows r sr ≠ [] → (mergejoin l r sl sr false true false joininitresults).pairs =
      outerBy (fun x => matching x.2 (candRows r sr)) (candRows l sl)) ∧
    ((∀ x ∈ candRows l sl, x.2 = ⊥) →
      (mergejoin l r sl sr false true false joininitresults).pairs = []) := by
  have hJ := searchable_mergeOf hl hr hrsorted false true false
  obtain ⟨hscan, he⟩ := mergeOf_unsorted (J := mergeOf l r sl sr false true false) rfl hunsorted
  rw [mergejoin_eq hl hr, if_neg (by simp [hL])]
  constructor
  · intro hR
    refine Eq.trans (hJ.loop_outer_unsorted ⟨rfl, rfl, rfl⟩ hscan he (lo_lt_hi_of_ne_nil hr hR)
      le_rfl ?_) ?_
    · rfl
    change (startProps l r joininitresults).pairs ++ _ = _
    rw [pairs_startProps]
    rfl
  · intro hnil
    rw [MergeJoin.loop_nils hscan fun x hx => ?_]
    · exact pairs_startProps l r _
    · rw [MergeJoin.Takes, not_or, not_not]
      exact ⟨Bool.false_ne_true, hnil x hx⟩

/-- **The outer merge join is right exactly under `OuterMergeExact`.** -/
theorem isOuterJoin_mergejoin_iff (hrsorted : r.InOrder) :
    (∃ res, mergejoinChecked l r sl sr false true false joininitresults = some res ∧
        IsOuterJoin l r sl sr res.pairs) ↔ OuterMergeExact l r sl sr := by
  have hbounds := inBounds_mergejoinReads_iff hl hr hrsorted false true false
  have hsome : (∃ res, mergejoinChecked l r sl sr false true false joininitresults = some res ∧
      IsOuterJoin l r sl sr res.pairs) ↔ ¬ ReadsBehind l r sl sr false true ∧
        IsOuterJoin l r sl sr (mergejoin l r sl sr false true false joininitresults).pairs := by
    rw [← hbounds, mergejoinChecked]
    split_ifs with h <;> simp [h]
  rw [hsome, ReadsBehind, if_pos rfl, OuterMergeExact]
  rcases eq_or_ne (candRows l sl) [] with hL | hL
  · -- no left rows
    have hpairs : (mergejoin l r sl sr false true false joininitresults).pairs =
        outerBy (fun x => matching x.2 (candRows r sr)) (candRows l sl) := by
      rw [mergejoin_eq hl hr, hL]
      rfl
    rw [hpairs, isOuterJoin_matching_iff hl hr, hL]
    simp
  by_cases hls : l.InOrder
  · have hread : ¬ ((l.tsorted || l.trevsorted) = false ∧ candRows r sr = [] ∧
        ∃ x ∈ candRows l sl, Takes false x.2) := fun h => by simp [hls] at h
    rw [and_iff_right hread]
    by_cases hup : GivesUp l r sl sr
    swap
    · rw [pairs_outer_sorted hl hr hrsorted hls hL hup, isOuterJoin_matching_iff hl hr]
      refine (and_iff_left ⟨fun h => ?_, fun h1 h2 h3 h4 x hx y hy hxy => ?_⟩).symm
      · simp [hls] at h
      · exact absurd ⟨h1, h2, h3, h4, x, hx, y, hy, hxy⟩ hup
    rw [pairs_outer_above hl hr hup, isOuterJoin_nil_iff hl hr]
    obtain ⟨h1, h2, h3, h4, x, hx, y, hy, hxy⟩ := hup
    refine and_congr_right fun _ => ⟨fun h => ⟨fun h' => ?_, fun _ _ _ _ _ _ y' hy' _ z hz =>
      h z hz y' hy'⟩, fun h z hz y' hy' => ?_⟩
    · simp [hls] at h'
    · -- the right values are all the same
      obtain ⟨c, h5, h6, rfl⟩ := mem_slice.mp hy
      obtain ⟨d, h7, h8, rfl⟩ := mem_slice.mp hy'
      have hval : ((r.among sr).row d).2 = ((r.among sr).row c).2 :=
        (val_eq_of_both hr h3 h4 h7 h8).trans (val_eq_of_both hr h3 h4 h5 h6).symm
      rw [hval]
      exact h.2 h1 h2 h3 h4 x hx _ hy hxy z hz
  · have hls' : (l.tsorted || l.trevsorted) = false := by simpa using hls
    obtain ⟨hfull, hnils⟩ := pairs_outer_unsorted hl hr hrsorted hls' hL
    rcases eq_or_ne (candRows r sr) [] with hR | hR
    · -- an empty right side is searched, or there are only nils
      refine iff_of_false ?_ fun h => hL (h.2.1 hls' hR)
      rintro ⟨hread, hjoin⟩
      have hall : ∀ x ∈ candRows l sl, x.2 = ⊥ := by
        intro x hx
        by_contra hv
        exact hread ⟨hls', hR, x, hx, .inr hv⟩
      rw [hnils hall] at hjoin
      obtain ⟨x, hx⟩ := exists_mem_of_ne_nil _ hL
      obtain ⟨ro, hp⟩ := (hjoin.exists_iff x.1).mpr ((mem_candRows hl).mp hx).1
      exact absurd hp not_mem_nil
    · rw [hfull hR, isOuterJoin_matching_iff hl hr]
      constructor
      · rintro ⟨-, h⟩
        refine ⟨h, fun _ hnil => absurd hnil hR, fun _ h2 => ?_⟩
        simp [h2] at hls'
      · exact fun h => ⟨fun hread => hR hread.2.1, h.1⟩

/-! ## The hash join

The lookup is that of the inner join.  Since every left row is returned, shifted oids are wrong as
soon as there is one. -/

omit hl hr in
theorem pairs_outer_hash (hl : l.Takes sl) (hr : r.Takes sr) (mem : ℕ → ℕ) :
    (hashjoin l r sl sr mem false true false joininitresults).pairs =
      (candRows l sl).flatMap fun x => if x.2 = ⊥ then [] else
        (orNil (found r sr mem (hashKey l x))).map fun o => (hashOid l (CANDINIT l sl) x.1, o) := by
  rw [pairs_hashjoin hl hr]
  rcases eq_or_ne (candRows l sl) [] with hL | hL
  · rw [if_pos (.inl hL), hL]
    rfl
  rw [if_neg (by simp [hL])]
  refine flatMap_congr fun x _ => ?_
  unfold HashJoin.rowPairs
  simp only [hashOf, HashJoin.partners, Bool.false_eq_true, if_false, true_and, and_true]
  change (if x.2 = ⊥ then _
    else if found r sr mem (hashKey l x) = [] then _ else (found r sr mem (hashKey l x)).map _) = _
  by_cases hf : found r sr mem (hashKey l x) = []
  · rw [if_pos hf, orNil, if_pos hf]
    rfl
  · rw [if_neg hf, orNil, if_neg hf]

omit hl hr in
theorem oidNil_notMem_found (v : α × ℕ) : oidNil ∉ found r sr mem v := by
  intro h
  have h1 := ((mem_hashProbe r _ mem v oidNil).mp h).1.1.2
  have h2 := r.oids_small
  unfold oidNil at h1
  omega

/-- With right oids on the left, the outer hash join is right exactly if no left row is nil and it
finds the right rows. -/
theorem isOuterJoin_hash_of_oid (hid : ∀ x ∈ candRows l sl, hashOid l (CANDINIT l sl) x.1 = x.1) :
    IsOuterJoin l r sl sr (hashjoin l r sl sr mem false true false joininitresults).pairs ↔
      (∀ x ∈ candRows l sl, x.2 ≠ ⊥) ∧ FoundRight l r sl sr mem := by
  have hpairs : (hashjoin l r sl sr mem false true false joininitresults).pairs =
      outerBy (fun x => found r sr mem (hashKey l x)) (candRows l sl) := by
    rw [pairs_outer_hash hl hr]
    exact flatMap_congr fun x hx => by rw [hid x hx, outerRowBy]
  rw [hpairs, isOuterJoin_outerBy_iff hl hr
    fun x _ _ => ⟨nodup_found mem _, oidNil_notMem_found mem _⟩]
  refine and_congr_right fun hnil => ?_
  exact forall₂_congr fun x hx => ⟨fun h _ => h, fun h => h (hnil x hx)⟩

/-- Shifted left oids are wrong as soon as there is a left row: the left oids would have to be the
same set as the shifted ones. -/
theorem candRows_eq_nil_of_shifted (hc : (CANDINIT l sl).cand = none) (hfirst : l.first ≠ 0)
    (h : IsOuterJoin l r sl sr (hashjoin l r sl sr mem false true false joininitresults).pairs) :
    candRows l sl = [] := by
  have hcap := l.small
  have hfit := l.fits
  refine eq_nil_iff_forall_not_mem.mpr fun x hx => ?_
  refine not_mem_of_ascending (P := IsCandidate l sl) (l.hseqbase + l.count) (fun o ho => ho.1.2)
    (fun o ho => ?_) x.1 ((mem_candRows hl).mp hx).1
  -- the pair comes from a left row whose oid is larger by `BUNfirst(l)`
  obtain ⟨ro, hp⟩ := (h.exists_iff o).mpr ho
  rw [pairs_outer_hash hl hr] at hp
  obtain ⟨z, hz, -, hoid, -⟩ := RowBlocks.mem_flatMap_ite.mp hp
  have hzc := ((mem_candRows hl).mp hz).1
  refine ⟨z.1, hzc, ?_⟩
  simp only [hashOid, hc] at hoid
  have h1 := hzc.1
  have h2 := ho.1
  unfold Column.Contains at h1 h2
  unfold sub64 at hoid
  omega

/-- **The outer hash join is right exactly under `OuterHashExact`.** -/
theorem isOuterJoin_hashjoin_iff :
    IsOuterJoin l r sl sr (hashjoin l r sl sr mem false true false joininitresults).pairs ↔
      OuterHashExact l r sl sr mem := by
  rw [OuterHashExact, ← foundRight_iff hr mem, ← and_assoc]
  by_cases hshift : (CANDINIT l sl).cand = none ∧ l.first ≠ 0
  · -- shifted oids: right only without left rows
    constructor
    · intro h
      have hnil := candRows_eq_nil_of_shifted hl hr mem hshift.1 hshift.2 h
      refine ⟨⟨fun x hx => ?_, fun x hx => ?_⟩, fun _ => .inr hnil⟩ <;>
      · rw [hnil] at hx
        exact absurd hx not_mem_nil
    · rintro ⟨h, hor⟩
      have hnil := (hor hshift.1).resolve_left hshift.2
      refine (isOuterJoin_hash_of_oid hl hr mem fun x hx => ?_).mpr h
      rw [hnil] at hx
      exact absurd hx not_mem_nil
  · have hid : ∀ x ∈ candRows l sl, hashOid l (CANDINIT l sl) x.1 = x.1 :=
      fun x hx => hashOid_eq_self hl hshift hx
    rw [isOuterJoin_hash_of_oid hl hr mem hid]
    refine (and_iff_left fun hc => .inl ?_).symm
    by_contra h
    exact hshift ⟨hc, h⟩

end Exact

/-- **The outer join returns every left candidate with its partners, or with nil if it has none,
if and only if `OuterJoinExact` holds.** -/
theorem isOuterJoin_BATsubouterjoin_iff (hok : joinparamcheck l r sl sr "BATsubouterjoin" = .ok ())
    (hl : ∀ c, sl = some c → c.Within l) (hr : ∀ c, sr = some c → c.Within r) (mem : ℕ → ℕ) :
    (∃ res, BATsubouterjoin l r sl sr mem = .ok (some res) ∧ IsOuterJoin l r sl sr res.pairs) ↔
      OuterJoinExact l r sl sr mem := by
  obtain ⟨hul, hur⟩ := usable_of_joinparamcheck hok hl hr
  rw [OuterJoinExact, BATsubouterjoin, hok]
  split_ifs with hsorted
  · rw [← isOuterJoin_mergejoin_iff hul hur hsorted]
    simp [pure, Except.pure, bind, Except.bind]
  · rw [← isOuterJoin_hashjoin_iff hul hur mem]
    simp [pure, Except.pure, bind, Except.bind]

/-! ## A failing input -/

/-- One nil. -/
def justNil : Column (IntVal .bte) := bteColumn [⊥] true true (by decide) (by decide) (by decide)

/-- A left row whose value is nil is not returned at all. -/
theorem BATsubouterjoin_loses_nil :
    ¬ ∃ res, BATsubouterjoin justNil justThree none none (fun _ => 0) = .ok (some res) ∧
      IsOuterJoin justNil justThree none none res.pairs := by
  rintro ⟨res, hres, hjoin⟩
  have hpairs : (BATsubouterjoin justNil justThree none none fun _ => 0).map
      (Option.map JoinResult.pairs) = .ok (some []) := by decide
  rw [hres] at hpairs
  have hnil : res.pairs = [] := by simpa [Except.map] using hpairs
  obtain ⟨ro, hp⟩ := (hjoin.exists_iff 0).mpr ⟨by decide, by simp⟩
  rw [hnil] at hp
  exact not_mem_nil hp

/-- The values 5 and 1. -/
def fiveOne : Column (IntVal .bte) :=
  bteColumn [⟨5, bte_five⟩, ⟨1, bte_one⟩] false true (by decide) (by decide) (by decide)

/-- The hash join pairs 5 with its partner among 3, nil, 5 and 3, and 1 with nil. -/
theorem BATsubouterjoin_fiveOne :
    ∃ res, BATsubouterjoin fiveOne threeNilFive none none (fun _ => 0) = .ok (some res) ∧
      IsOuterJoin fiveOne threeNilFive none none res.pairs := by
  refine (isOuterJoin_BATsubouterjoin_iff (by decide) (by simp) (by simp) _).mpr ⟨by decide, ?_, ?_⟩
  · exact ⟨bucketsMatch_threeNilFive _ fun _ => rfl, fun x _ _ _ i _ _ _ => Iff.rfl⟩
  · exact fun _ => .inl rfl

end MonetInR.Gdk
