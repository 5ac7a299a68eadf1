import MonetInR.Gdk.Join.LeftJoin

/-!
# What the merge join reads

The merge join fetches a value through a cursor of one of the two sides, and with a candidate
array the candidate at the cursor before it.  Here the reads of a merge join are listed in the
order of the code, part by part, next to the cursor movements of `MergeJoin`: what is read depends
on the values found, so the lists are computed by the same tests.

A round may read behind the end of a side at three places: when it compares a left value with the
next right one although no right row is left, when it fetches the value at which a gallop ended,
and when it searches an empty right side.

## Main definitions

* `Cell`: a cursor of one of the sides
* `MergeJoin.iterReads`, `MergeJoin.loopReads`, `mergejoinReads`: the reads of one round, of the
  loop and of a whole merge join
* `MergeJoin.RoundSafe`: none of the three places is a trap in this round

## Main results

* `MergeJoin.inBounds_iterReads_iff`: a round stays in bounds exactly if it is safe
* `MergeJoin.inBounds_loopReads_succ`: from one round to the whole loop
-/

namespace MonetInR.Gdk

open IntervalSearch List

variable {α : Type*} [Atom α]

/-- A place that a join reads: the value and the candidate at a cursor of a side. -/
inductive Cell
  | left (c : ℕ)
  | right (c : ℕ)
  deriving DecidableEq, Repr

/-! ## The reads of the searches -/

section Search

variable {α : Type*} [LinearOrder α] {val : ℕ → α} {lo hi cur skip less i : ℕ} {v : α}
  {reverse : ℤ} {last : Bool} {s : Side α}

/-- The positions `binsearch` reads. -/
def binsearchReads (val : ℕ → α) (lo hi : ℕ) (v : α) (reverse : ℤ) (last : Bool) : List ℕ :=
  let hi := sub64 hi 1
  lo :: if stopsAt v reverse last (val lo) then []
    else hi :: if !stopsAt v reverse last (val hi) then []
      else halveTests (fun mid => stopsAt v reverse last (val mid)) (hi - lo) lo hi

/-- The cursors that `Side.searchFrom` reads. -/
def Side.searchFromReads (s : Side α) (cur skip hi : ℕ) (v : α) (reverse : ℤ) (last : Bool) :
    List ℕ :=
  if s.isCand then
    (binsearchReads (fun x => s.val (cur + x)) skip (hi - cur) v reverse last).map (cur + ·)
  else binsearchReads s.val (cur + skip) hi v reverse last

/-- The cursors that `Side.searchUpTo` reads. -/
def Side.searchUpToReads (s : Side α) (cur hi less : ℕ) (v : α) (reverse : ℤ) (last : Bool) :
    List ℕ :=
  if s.isCand then
    (binsearchReads (fun x => s.val (cur + x)) 0 (hi - cur - less) v reverse last).map (cur + ·)
  else binsearchReads s.val cur (hi - less) v reverse last

/-- A movement of a right cursor: look ahead at one cursor if there is room, and search or scan. -/
def lookAhead (room : Bool) (probe : ℕ) (far : Bool) (search scan : List ℕ) : List ℕ :=
  if room then probe :: if far then search else scan else scan

theorem of_mem_binsearchReads (hlt : lo < hi) (hhi : hi < 2 ^ 64)
    (h : i ∈ binsearchReads val lo hi v reverse last) : lo ≤ i ∧ i < hi := by
  have hsub : sub64 hi 1 = hi - 1 := sub64_of_le (by omega) hhi
  rw [binsearchReads, hsub] at h
  rcases mem_cons.mp h with rfl | h
  · exact ⟨le_rfl, hlt⟩
  split_ifs at h
  · exact absurd h not_mem_nil
  · obtain rfl : i = hi - 1 := by simpa using h
    omega
  · rcases mem_cons.mp h with rfl | h
    · omega
    · have := of_mem_halveTests h
      omega

theorem Side.of_mem_searchFromReads (hlt : cur + skip < hi) (hhi : hi < 2 ^ 64)
    (h : i ∈ s.searchFromReads cur skip hi v reverse last) : cur + skip ≤ i ∧ i < hi := by
  unfold Side.searchFromReads at h
  split_ifs at h
  · obtain ⟨x, hx, rfl⟩ := mem_map.mp h
    have := of_mem_binsearchReads (by omega) (by omega) hx
    omega
  · exact of_mem_binsearchReads hlt hhi h

theorem Side.of_mem_searchUpToReads (hlt : cur < hi - less) (hhi : hi < 2 ^ 64)
    (h : i ∈ s.searchUpToReads cur hi less v reverse last) : cur ≤ i ∧ i < hi - less := by
  unfold Side.searchUpToReads at h
  split_ifs at h
  · obtain ⟨x, hx, rfl⟩ := mem_map.mp h
    have := of_mem_binsearchReads (by omega) (by omega) hx
    omega
  · exact of_mem_binsearchReads hlt (by omega) h

theorem of_mem_lookAhead {room : Prop} [Decidable room] {far : Bool} {probe : ℕ}
    {search scan : List ℕ} {lo hi : ℕ} (hprobe : room → lo ≤ probe ∧ probe < hi)
    (hsearch : room → ∀ i ∈ search, lo ≤ i ∧ i < hi)
    (hscan : ∀ i ∈ scan, lo ≤ i ∧ i < hi) (h : i ∈ lookAhead room probe far search scan) :
    lo ≤ i ∧ i < hi := by
  simp only [lookAhead, decide_eq_true_eq] at h
  split_ifs at h with hroom hfar
  · rcases mem_cons.mp h with rfl | h
    · exact hprobe hroom
    · exact hsearch hroom i h
  · rcases mem_cons.mp h with rfl | h
    · exact hprobe hroom
    · exact hscan i h
  · exact hscan i h

end Search

namespace MergeJoin

variable (J : MergeJoin α)

/-! ## The reads of one round

Each list belongs to the function of the same name in `MergeJoin`, and is computed with the same
tests. -/

/-- The reads of `gallop`. -/
def gallopReads (li rlo : ℕ) : List Cell :=
  if !J.nilOnMiss && 0 < J.lscan then
    if J.lscan < J.l.hi - li then
      .left (li + J.lscan) :: .right rlo ::
        if J.lreverse * atomCmp (J.l.val (li + J.lscan)) (J.r.val rlo) < 0 then
          (J.l.searchFromReads li J.lscan J.l.hi (J.r.val rlo) J.lreverse false).map .left
        else []
    else []
  else []

/-- The value of the round and the values that `runEnd` compares it with. -/
def runReads (li : ℕ) : List Cell :=
  (li :: scanUpTests (fun c => atomCmp (J.l.val li) (J.l.val c) = 0) (li + 1)
    (J.l.hi - (li + 1))).map .left

/-- The reads of `advance`. -/
def advanceReads (v : α) (rlo rhi : ℕ) : List ℕ :=
  if J.lscan = 0 then J.r.searchFromReads rlo 0 rhi v J.rreverse false
  else
    lookAhead (J.rscan < rhi - rlo) (rlo + J.rscan)
      (0 < J.rreverse * atomCmp v (J.r.val (rlo + J.rscan)))
      (J.r.searchFromReads rlo J.rscan rhi v J.rreverse false)
      (scanUpTests (fun c => 0 < J.rreverse * atomCmp v (J.r.val c)) rlo (rhi - rlo))

/-- The reads of `pass`. -/
def passReads (v : α) (rlo rhi : ℕ) : List ℕ :=
  lookAhead (J.rscan < rhi - rlo) (rlo + J.rscan) (atomCmp v (J.r.val (rlo + J.rscan)) = 0)
    (J.r.searchFromReads rlo J.rscan rhi v J.rreverse true)
    (scanUpTests (fun c => atomCmp v (J.r.val c) = 0) rlo (rhi - rlo))

/-- The reads of `retreat`. -/
def retreatReads (v : α) (rlo rhi : ℕ) : List ℕ :=
  lookAhead (J.rscan < rhi - rlo) (rhi - J.rscan - 1)
    (J.rreverse * atomCmp v (J.r.val (rhi - J.rscan - 1)) < 0)
    (J.r.searchUpToReads rlo rhi (if J.lscan = 0 then 0 else J.rscan) v J.rreverse true)
    (scanDownTests (fun c => J.rreverse * atomCmp v (J.r.val c) < 0) rhi (rhi - rlo))

/-- The reads of `passDown`. -/
def passDownReads (v : α) (rlo rhi : ℕ) : List ℕ :=
  lookAhead (J.rscan < rhi - rlo) (rhi - J.rscan - 1) (atomCmp v (J.r.val (rhi - J.rscan - 1)) = 0)
    (J.r.searchUpToReads rlo rhi J.rscan v J.rreverse false)
    (scanDownTests (fun c => atomCmp v (J.r.val c) = 0) rhi (rhi - rlo))

/-- The reads of `matchRange`. -/
def matchReads (v : α) (rlo rhi : ℕ) : List ℕ :=
  if J.equalOrder then
    J.advanceReads v rlo rhi ++ J.passReads v (J.advance v rlo rhi) rhi
  else
    J.retreatReads v rlo rhi ++ J.passDownReads v rlo (J.retreat v rlo rhi)

/-- The cursors of the right rows that a left row is paired with. -/
def rightCursors (rlo rhi nr : ℕ) : List ℕ :=
  if J.equalOrder then range' (rlo - nr) nr else range' rhi nr

/-- The candidates read when the pairs are appended; without a candidate array the oids are
computed. -/
def emitReads (li nl : ℕ) (cursors : List ℕ) : List Cell := (range' (li - nl) nl).flatMap fun c =>
    (if J.l.isCand then [.left c] else []) ++ if J.r.isCand then cursors.map .right else []

/-- The reads of `iter`. -/
def iterReads (st : MergeState α) : List Cell :=
  let rlo := if J.lscan = 0 then J.r.lo else st.rlo
  let li := J.gallop st.li rlo
  let v := J.l.val li
  let li' := J.runEnd li
  J.gallopReads st.li rlo ++ J.runReads li ++
    if !J.nilMatches && atomCmp v ⊥ == 0 then []
    else
      let (rlo', rhi', nr) := J.matchRange v rlo st.rhi
      (J.matchReads v rlo st.rhi).map .right ++
        if nr = 0 ∧ !J.nilOnMiss then []
        else
          -- a nil on a miss is not read from the right side
          J.emitReads li' (li' - li)
            (if nr = 0 then [] else J.rightCursors rlo' rhi' (if J.semi then 1 else nr))

/-- The reads of `loop`. -/
def loopReads : ℕ → MergeState α → List Cell
  | 0, _ => []
  | n + 1, st =>
    if st.li < J.l.hi then
      let (st', stop) := J.iter st
      J.iterReads st ++ if stop then [] else loopReads n st'
    else []

/-! ## Staying in bounds

The searches stay within the range they are given.  What remains are the reads at the cursors
themselves. -/

/-- The cursor lies on its side. -/
def Holds : Cell → Prop
  | .left c => J.l.lo ≤ c ∧ c < J.l.hi
  | .right c => J.r.lo ≤ c ∧ c < J.r.hi

instance (x : Cell) : Decidable (J.Holds x) :=
  match x with
  | .left _ => inferInstanceAs (Decidable (_ ∧ _))
  | .right _ => inferInstanceAs (Decidable (_ ∧ _))

/-- No read is before the start or behind the end of its side. -/
def InBounds (cells : List Cell) : Prop := ∀ x ∈ cells, J.Holds x
  deriving Decidable

variable {J} {st : MergeState α} {v : α} {li rlo rhi i : ℕ} {cursors : List ℕ}

omit [Atom α] in
theorem inBounds_append {xs ys : List Cell} :
    J.InBounds (xs ++ ys) ↔ J.InBounds xs ∧ J.InBounds ys := forall_mem_append

omit [Atom α] in
theorem inBounds_nil : J.InBounds [] := fun _ h => absurd h not_mem_nil

omit [Atom α] in
theorem inBounds_right (h : ∀ i ∈ cursors, J.r.lo ≤ i ∧ i < J.r.hi) :
    J.InBounds (cursors.map .right) := by
  intro x hx
  obtain ⟨i, hi, rfl⟩ := mem_map.mp hx
  exact h i hi

omit [Atom α] in
theorem inBounds_left (h : ∀ i ∈ cursors, J.l.lo ≤ i ∧ i < J.l.hi) :
    J.InBounds (cursors.map .left) := by
  intro x hx
  obtain ⟨i, hi, rfl⟩ := mem_map.mp hx
  exact h i hi

/-- The gallop reads the next right value, whether or not there is one. -/
theorem inBounds_gallopReads_iff (hsmall : J.l.hi < 2 ^ 64) (hlo : J.l.lo ≤ li)
    (hr : J.r.lo ≤ rlo) :
    J.InBounds (J.gallopReads li rlo) ↔
      (J.nilOnMiss = false → 0 < J.lscan → J.lscan < J.l.hi - li → rlo < J.r.hi) := by
  -- both ways out start with the same two reads
  have hpair {cells : List Cell} (hg : (!J.nilOnMiss && 0 < J.lscan) = true)
      (hroom : J.lscan < J.l.hi - li) (hcells : J.InBounds cells) :
      J.InBounds (.left (li + J.lscan) :: .right rlo :: cells) ↔
        (J.nilOnMiss = false → 0 < J.lscan → J.lscan < J.l.hi - li → rlo < J.r.hi) := by
    rw [Bool.and_eq_true, Bool.not_eq_true', decide_eq_true_iff] at hg
    constructor
    · intro h _ _ _
      exact (h (.right rlo) (by simp)).2
    · intro h x hx
      rcases mem_cons.mp hx with rfl | hx
      · exact ⟨by omega, by omega⟩
      rcases mem_cons.mp hx with rfl | hx
      · exact ⟨hr, h hg.1 hg.2 hroom⟩
      · exact hcells x hx
  unfold gallopReads
  split_ifs with hg hroom hfar
  · refine hpair hg hroom (inBounds_left fun i hi => ?_)
    have := Side.of_mem_searchFromReads (by omega) hsmall hi
    omega
  · exact hpair hg hroom inBounds_nil
  · exact iff_of_true inBounds_nil fun _ _ h => absurd h hroom
  · refine iff_of_true inBounds_nil fun h1 h2 => absurd ?_ hg
    simp [h1, h2]

/-- The value of the round is read at the cursor the gallop led to. -/
theorem inBounds_runReads_iff (hlo : J.l.lo ≤ li) : J.InBounds (J.runReads li) ↔ li < J.l.hi := by
  constructor
  · intro h
    exact (h (.left li) (by simp [runReads])).2
  · intro hli
    refine inBounds_left fun i hi => ?_
    rcases mem_cons.mp hi with rfl | hi
    · exact ⟨hlo, hli⟩
    · have := of_mem_scanUpTests hi
      omega

section

variable {far last : Bool} {f : ℕ → Bool} (hle : rlo ≤ rhi) (hhi : rhi < 2 ^ 64)

include hle hhi

theorem of_mem_lookUp (h : i ∈ lookAhead (J.rscan < rhi - rlo) (rlo + J.rscan) far
      (J.r.searchFromReads rlo J.rscan rhi v J.rreverse last) (scanUpTests f rlo (rhi - rlo))) :
    rlo ≤ i ∧ i < rhi := by
  refine of_mem_lookAhead (fun hroom => ?_) (fun hroom i hi => ?_) (fun i hi => ?_) h
  · omega
  · have := Side.of_mem_searchFromReads (by omega) hhi hi
    omega
  · have := of_mem_scanUpTests hi
    omega

theorem of_mem_lookDown {less : ℕ} (hless : less ≤ J.rscan)
    (h : i ∈ lookAhead (J.rscan < rhi - rlo) (rhi - J.rscan - 1) far
      (J.r.searchUpToReads rlo rhi less v J.rreverse last) (scanDownTests f rhi (rhi - rlo))) :
    rlo ≤ i ∧ i < rhi := by
  refine of_mem_lookAhead (fun hroom => ?_) (fun hroom i hi => ?_) (fun i hi => ?_) h
  · omega
  · have := Side.of_mem_searchUpToReads (by omega) hhi hi
    omega
  · have := of_mem_scanDownTests (Nat.sub_le rhi rlo) hi
    omega

end

theorem of_mem_matchReads (hs : SortedOn J.rreverse J.r.val rlo rhi) (hd : IsDirection J.rreverse)
    (hhi : rhi < 2 ^ 64) (hle : rlo ≤ rhi) (hne : J.lscan = 0 → rlo < rhi)
    (h : i ∈ J.matchReads v rlo rhi) : rlo ≤ i ∧ i < rhi := by
  unfold matchReads at h
  split_ifs at h
  · have hb := J.boundary_advance (v := v) hs hd hhi hle hne
    rcases mem_append.mp h with h | h
    · unfold advanceReads at h
      split_ifs at h with hscan
      · exact Side.of_mem_searchFromReads (hne hscan) hhi h
      · exact of_mem_lookUp hle hhi h
    · have := of_mem_lookUp hb.le_hi hhi h
      exact ⟨le_trans hb.lo_le this.1, this.2⟩
  · have hb := J.boundary_retreat (v := v) hs hd hhi hle
    rcases mem_append.mp h with h | h
    · exact of_mem_lookDown hle hhi (by split_ifs <;> omega) h
    · have := of_mem_lookDown hb.lo_le (lt_of_le_of_lt hb.le_hi hhi) le_rfl h
      exact ⟨this.1, lt_of_lt_of_le this.2 hb.le_hi⟩

/-- The pairs are made of rows that the round has visited. -/
theorem inBounds_emitReads (hlo : J.l.lo ≤ li) (hli : li < J.l.hi)
    (hcur : ∀ i ∈ cursors, J.r.lo ≤ i ∧ i < J.r.hi) :
    J.InBounds (J.emitReads (J.runEnd li) (J.runEnd li - li) cursors) := by
  have hend := (J.boundary_runEnd hli).le_hi
  intro x hx
  obtain ⟨c, hc, hx⟩ := mem_flatMap.mp hx
  rw [mem_range'_1] at hc
  rcases mem_append.mp hx with hx | hx
  · split_ifs at hx
    · obtain rfl := mem_singleton.mp hx
      exact ⟨by omega, by omega⟩
    · exact absurd hx not_mem_nil
  · split_ifs at hx
    · exact inBounds_right hcur x hx
    · exact absurd hx not_mem_nil

theorem Matched.of_mem_rightCursors {m : ℕ × ℕ × ℕ} (h : J.Matched v rlo rhi m) {n : ℕ}
    (hn : n ≤ m.2.2) (hi : i ∈ J.rightCursors m.1 m.2.1 n) : rlo ≤ i ∧ i < rhi := by
  have hle := h.le
  have hhi := h.le_hi
  have hlo := h.lo_le
  unfold rightCursors at hi
  split_ifs at hi with he
  · have hcount := h.count_lo he
    rw [mem_range'_1] at hi
    omega
  · have hcount := h.count_hi (by simpa using he)
    rw [mem_range'_1] at hi
    omega

/-- A round does not read behind the end of a side. -/
structure RoundSafe (J : MergeJoin α) (st : MergeState α) (li rlo : ℕ) : Prop where
  /-- the gallop looks at the next right value only if there is one -/
  looks : J.nilOnMiss = false → 0 < J.lscan → J.lscan < J.l.hi - st.li → rlo < J.r.hi
  /-- the gallop ends at a left row -/
  lands : li < J.l.hi
  /-- the right rows are searched only if there are some -/
  searches : J.lscan = 0 → J.Takes (J.l.val li) → rlo < st.rhi

/-- **A round stays in bounds exactly if it is safe.** -/
theorem inBounds_iterReads_iff (hJ : J.Searchable) (heq : J.lscan = 0 → J.equalOrder = true)
    (hrlo : rlo = if J.lscan = 0 then J.r.lo else st.rlo) (hli : li = J.gallop st.li rlo)
    (hlo : J.l.lo ≤ st.li) (hge : st.li ≤ li) (hR : J.r.lo ≤ rlo ∧ rlo ≤ st.rhi ∧ st.rhi ≤ J.r.hi)
    (hfull : J.lscan = 0 → st.rhi = J.r.hi) :
    J.InBounds (J.iterReads st) ↔ J.RoundSafe st li rlo := by
  obtain ⟨hr1, hr2, hr3⟩ := hR
  have hs := hJ.rsorted.mono hr1 hr3
  have hsmall := lt_of_le_of_lt hr3 hJ.rsmall
  simp only [iterReads, ← hrlo, ← hli]
  rw [inBounds_append, inBounds_append, inBounds_gallopReads_iff hJ.lsmall hlo hr1,
    inBounds_runReads_iff (le_trans hlo hge)]
  constructor
  · rintro ⟨⟨hlooks, hlands⟩, hrest⟩
    refine ⟨hlooks, hlands, fun hscan htakes => ?_⟩
    have hnil : ¬ ((!J.nilMatches && atomCmp (J.l.val li) ⊥ == 0) = true) := by
      rcases htakes with h | h <;> simp [h]
    rw [if_neg hnil, inBounds_append] at hrest
    -- the binary search starts with the first right row, even if there is none
    have hread := hrest.1 (.right rlo) (mem_map_of_mem ?_)
    · rw [hfull hscan]
      exact hread.2
    · rw [matchReads, if_pos (heq hscan), advanceReads, if_pos hscan]
      refine mem_append_left _ ?_
      unfold Side.searchFromReads binsearchReads
      split_ifs <;> simp
  · intro h
    refine ⟨⟨h.looks, h.lands⟩, ?_⟩
    by_cases hnil : (!J.nilMatches && atomCmp (J.l.val li) ⊥ == 0) = true
    · rw [if_pos hnil]
      exact inBounds_nil
    rw [if_neg hnil, inBounds_append]
    have htakes : J.Takes (J.l.val li) := by
      by_contra hn
      rw [Takes, not_or, not_not] at hn
      exact hnil (by simp [hn])
    have hne := fun hscan => h.searches hscan htakes
    refine ⟨inBounds_right fun i hi => ?_, ?_⟩
    · have := of_mem_matchReads hs hJ.rdir hsmall hr2 hne hi
      omega
    have hm := J.matched_matchRange hs hJ.rdir hsmall hr2 hne (J.l.val li)
    -- the pairs are only made if there are right rows, or nil stands for them
    by_cases hmiss : (J.matchRange (J.l.val li) rlo st.rhi).2.2 = 0 ∧ (!J.nilOnMiss) = true
    · rw [if_pos hmiss]
      exact inBounds_nil
    rw [if_neg hmiss]
    refine inBounds_emitReads (le_trans hlo hge) h.lands fun i hi => ?_
    by_cases hnr : (J.matchRange (J.l.val li) rlo st.rhi).2.2 = 0
    · rw [if_pos hnr] at hi
      exact absurd hi not_mem_nil
    rw [if_neg hnr] at hi
    have hcount : (if J.semi = true then 1 else (J.matchRange (J.l.val li) rlo st.rhi).2.2) ≤
        (J.matchRange (J.l.val li) rlo st.rhi).2.2 := by
      split_ifs
      · exact Nat.one_le_iff_ne_zero.mpr hnr
      · exact le_refl _
    have := hm.of_mem_rightCursors hcount hi
    omega

/-! ## The whole loop -/

theorem loopReads_of_le (h : J.l.hi ≤ st.li) (n : ℕ) : J.loopReads n st = [] := by
  cases n with
  | zero => rfl
  | succ n => rw [loopReads, if_neg (not_lt.mpr h)]

/-- The loop stays in bounds if the first round does and, unless that one leaves the loop, the rest
does. -/
theorem inBounds_loopReads_succ (h : st.li < J.l.hi) (n : ℕ) :
    J.InBounds (J.loopReads (n + 1) st) ↔ J.InBounds (J.iterReads st) ∧
      ((J.iter st).2 = true ∨ J.InBounds (J.loopReads n (J.iter st).1)) := by
  rw [loopReads, if_pos h, inBounds_append]
  refine and_congr_right fun _ => ?_
  split_ifs with hstop
  · exact iff_of_true inBounds_nil (.inl hstop)
  · simp [hstop]

end MergeJoin

/-- The reads of `mergejoin`. -/
def mergejoinReads (l r : Column α) (sl sr : Option Candidates) (nilMatches nilOnMiss semi : Bool) :
    List Cell :=
  let lc := CANDINIT l sl
  let rc := CANDINIT r sr
  if lc.start = lc.stop ∨ (!nilOnMiss ∧ rc.start = rc.stop) then []
  else
    let J := mergeOf l r sl sr nilMatches nilOnMiss semi
    J.loopReads (J.l.hi - J.l.lo) ⟨J.l.lo, J.r.lo, J.r.hi, none, joininitresults⟩

end MonetInR.Gdk
