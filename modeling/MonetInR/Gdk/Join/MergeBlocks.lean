import MonetInR.Gdk.Join.ReadBounds

/-!
# The blocks of a merge join

The merge join emits its pairs in blocks: a run of equal left rows, each with the right rows that
match it, or with nil.  This module turns the loop into the list of its blocks and says how the
blocks follow each other.  How many right rows a left row is paired with does not matter for the
blocks, so that a semijoin visits the same left rows as a join.

The oids of the left rows ascend.  A gallop may lead behind the last left row, whose oid can be any
number; but it is not that of an earlier row, since the right rows of that value are given up by
then.

## Main definitions

* `MergeJoin.blocks`: the blocks that the loop emits

## Main results

* `MergeJoin.pairs_loop`: the pairs of the loop are those of its blocks
* `MergeJoin.blocks_ok`: how the blocks follow each other
* `MergeJoin.oid_ne`: the left rows of the blocks have different oids
-/

namespace MonetInR.Gdk

open IntervalSearch RowBlocks List Nat MergeState

variable {α : Type*} [Atom α]

/-- The cursors of a state. -/
def MergeState.cursors (st : MergeState α) : ℕ × ℕ × ℕ := (st.li, st.rlo, st.rhi)

namespace MergeJoin

variable (J : MergeJoin α)

/-! ## The blocks

The cursors move independently of the pairs that have been emitted, so that the blocks can be listed
without the results. -/

/-- A block: the cursor of its first left row, and the right rows that match; none for a miss. -/
structure Block where
  li : ℕ
  m : List ℕ

/-- The left cursors of a block. -/
def lefts (b : Block) : List ℕ := range' b.li (J.runEnd b.li - b.li)

/-- The right oids that the left rows of a block are paired with. -/
def out (b : Block) : List ℕ := if b.m = [] then [oidNil] else J.picked b.m

/-- The value of a block. -/
def value (b : Block) : α := J.l.val b.li

/-- The right range that a round starts with. -/
def startLo (rlo : ℕ) : ℕ := if J.lscan = 0 then J.r.lo else rlo

/-- The cursors after a round that visits the left rows from `li` on, and whether it leaves the
loop. -/
def next (li rlo rhi : ℕ) : (ℕ × ℕ × ℕ) × Bool :=
  if J.Takes (J.l.val li) then
    let m := J.matchRange (J.l.val li) rlo rhi
    ((J.runEnd li, m.1, m.2.1),
      decide (m.2.2 = 0 ∧ J.nilOnMiss = false ∧ 0 < J.lscan ∧ m.1 = m.2.1))
  else ((J.runEnd li, rlo, rhi), false)

/-- The block that a round emits, if any. -/
def emitted (li rlo rhi : ℕ) : List Block :=
  let m := matching (J.l.val li) (J.r.rows rlo rhi)
  if J.Takes (J.l.val li) ∧ (m ≠ [] ∨ J.nilOnMiss = true) then [⟨li, m⟩] else []

/-- The blocks of `n` rounds. -/
def blocks : ℕ → ℕ × ℕ × ℕ → List Block
  | 0, _ => []
  | n + 1, (li, rlo, rhi) =>
    if li < J.l.hi then
      let rlo := J.startLo rlo
      let li := J.gallop li rlo
      let out := J.next li rlo rhi
      J.emitted li rlo rhi ++ if out.2 then [] else blocks n out.1
    else []

/-- The left oids of some blocks, each with the right oids it is paired with. -/
def rowsOf (bs : List Block) : List (ℕ × List ℕ) :=
  bs.flatMap fun b => (J.lefts b).map fun c => (J.l.oid c, J.out b)

/-- The left cursors of some blocks. -/
def cursorsOf (bs : List Block) : List ℕ := bs.flatMap J.lefts

variable {J} {st : MergeState α} {b : Block} {bs : List Block} {c : ℕ}

theorem iter_next {li rlo : ℕ} (hrlo : rlo = J.startLo st.rlo) (hli : li = J.gallop st.li rlo) :
    ((J.iter st).1.cursors, (J.iter st).2) = J.next li rlo st.rhi := by
  by_cases hv : J.Takes (J.l.val li)
  · have hnil : ¬ ((!J.nilMatches && atomCmp (J.l.val li) ⊥ == 0) = true) := by
      rcases hv with hv | hv <;> simp [hv]
    have hlo : (if J.lscan = 0 then J.r.lo else st.rlo) = rlo := hrlo.symm
    rw [next, if_pos hv]
    simp only [iter, hlo, ← hli]
    rw [if_neg hnil]
    by_cases hmiss : (J.matchRange (J.l.val li) rlo st.rhi).2.2 = 0 ∧ (!J.nilOnMiss) = true
    · have hmiss' : J.nilOnMiss = false := by simpa using hmiss.2
      simp [cursors, hmiss.1, hmiss']
    · rw [if_neg hmiss]
      have hmiss' : ¬ ((J.matchRange (J.l.val li) rlo st.rhi).2.2 = 0 ∧ J.nilOnMiss = false ∧
          0 < J.lscan ∧ (J.matchRange (J.l.val li) rlo st.rhi).1 =
            (J.matchRange (J.l.val li) rlo st.rhi).2.1) := fun h => hmiss ⟨h.1, by simp [h.2.1]⟩
      simp [cursors, hmiss']
  · rw [next, if_neg hv, iter_skip hrlo hli hv]
    rfl

variable (J) in
/-- A state from which the loop can go on: the right range lies in the right rows, and all of them
are searched if the left column is not sorted. -/
structure Ready (st : MergeState α) : Prop extends J.InRange st where
  full : J.lscan = 0 → st.rhi = J.r.hi
  some_right : J.lscan = 0 → J.r.lo < J.r.hi
  same_order : J.lscan = 0 → J.equalOrder = true

theorem Ready.round (hJ : J.Searchable) (h : J.Ready st) :
    J.Round st (J.gallop st.li (J.startLo st.rlo)) (J.startLo st.rlo) (J.iter st) := by
  by_cases hscan : J.lscan = 0
  · have hlo : J.startLo st.rlo = J.r.lo := if_pos hscan
    have hg : J.gallop st.li J.r.lo = st.li := by simp [gallop, hscan]
    rw [hlo, hg]
    exact hJ.round_unsorted hscan (h.some_right hscan) (h.full hscan)
  · have hlo : J.startLo st.rlo = st.rlo := if_neg hscan
    rw [hlo]
    exact hJ.round (pos_of_ne_zero hscan) h.toInRange

omit [Atom α] in
theorem lo_le_startLo (h : J.InRange st) : J.r.lo ≤ J.startLo st.rlo := by
  unfold startLo
  split_ifs
  · exact le_refl _
  · exact h.lo_le

theorem Ready.iter (hJ : J.Searchable) (h : J.Ready st) : J.Ready (J.iter st).1 := by
  have hround := h.round hJ
  refine ⟨⟨?_, hround.le, hround.le_hi.trans h.le_hi⟩, fun hscan => ?_, h.some_right, h.same_order⟩
  · exact (lo_le_startLo h.toInRange).trans hround.lo_le
  · rw [hround.hi_eq (h.same_order hscan), h.full hscan]

theorem pairs_extend (st : MergeState α) (li : ℕ) (m : List ℕ) :
    (J.extend st li m).pairs = st.res.pairs ++ expand (J.rowsOf [⟨li, m⟩]) := by
  have hpairs : (J.extend st li m).pairs = st.res.pairs ++
      J.emit (J.runEnd li) (J.runEnd li - li) (J.out ⟨li, m⟩) := by
    unfold extend out
    by_cases hm : m = [] <;> simp [hm]
  rw [hpairs, emit, Nat.sub_sub_self (J.lt_runEnd li).le, rowsOf, flatMap_singleton, expand,
    flatMap_map]
  rfl

/-- **One round** adds the pairs of the block that it emits. -/
theorem Ready.pairs_iter (hJ : J.Searchable) (h : J.Ready st) :
    (J.iter st).1.res.pairs = st.res.pairs ++ expand (J.rowsOf
      (J.emitted (J.gallop st.li (J.startLo st.rlo)) (J.startLo st.rlo) st.rhi)) := by
  have hround := h.round hJ
  unfold emitted
  dsimp only
  split_ifs with hemit
  · rw [(hround.found hemit.1 hemit.2).1, pairs_extend]
  · rw [not_and_or, not_or, not_not, Bool.not_eq_true] at hemit
    rw [(hround.same hemit).1]
    exact (append_nil _).symm

/-- **The pairs of the loop** are those of its blocks. -/
theorem pairs_loop (hJ : J.Searchable) (n : ℕ) (h : J.Ready st) :
    (J.loop n st).res.pairs = st.res.pairs ++ expand (J.rowsOf (J.blocks n st.cursors)) := by
  induction n generalizing st with
  | zero => exact (append_nil _).symm
  | succ n ih =>
    rw [blocks.eq_def]
    dsimp only [cursors]
    rcases lt_or_ge st.li J.l.hi with hli | hli
    swap
    · rw [loop_of_le hli, if_neg (not_lt.mpr hli)]
      exact (append_nil _).symm
    rw [if_pos hli, loop_succ hli, ← @iter_next _ _ J st _ _ rfl rfl, rowsOf, flatMap_append,
      expand_append, ← append_assoc, ← rowsOf, ← rowsOf, ← h.pairs_iter hJ]
    split_ifs with hstop
    · exact (append_nil _).symm
    · exact ih (h.iter hJ)

/-! ## How the blocks follow each other

Left cursors only go forward.  Over a sorted left column the right range only shrinks, so the right
rows of a later block are among those that were left. -/

variable (J) in
/-- What is known of a block that is emitted from a state on. -/
structure BlockOk (st : MergeState α) (b : Block) : Prop where
  li_ge : st.li ≤ b.li
  li_le : b.li ≤ J.l.hi
  li_lt : J.nilOnMiss = true ∨ J.lscan = 0 → b.li < J.l.hi
  takes : J.Takes (J.value b)
  some_or : b.m ≠ [] ∨ J.nilOnMiss = true
  rest : 0 < J.lscan → ∀ o ∈ b.m, (o, J.value b) ∈ J.right st

variable (J) in
/-- A block comes after another one: its left rows do, and over a sorted left column its right rows
are among those that the other one left. -/
structure Follows (a b : Block) : Prop where
  li : J.runEnd a.li ≤ b.li
  later : 0 < J.lscan → a.m ≠ [] → b.m ≠ [] → J.Later (J.value a) (J.value b)

variable (J) in
/-- A gallop leads forward, and not further than behind the last left row. -/
def GallopsForward : Prop :=
  ∀ li rlo, J.l.lo ≤ li → li < J.l.hi → li ≤ J.gallop li rlo ∧ J.gallop li rlo ≤ J.l.hi

theorem gallop_of_miss_or (h : J.nilOnMiss = true ∨ J.lscan = 0) (li rlo : ℕ) :
    J.gallop li rlo = li := by
  unfold gallop
  rcases h with h | h <;> simp [h]

theorem emitted_ok (hgal : J.GallopsForward)
    (hlo : J.l.lo ≤ st.li) (hli : st.li < J.l.hi)
    (hb : b ∈ J.emitted (J.gallop st.li (J.startLo st.rlo)) (J.startLo st.rlo) st.rhi) :
    b = ⟨J.gallop st.li (J.startLo st.rlo),
      matching (J.l.val (J.gallop st.li (J.startLo st.rlo))) (J.r.rows (J.startLo st.rlo) st.rhi)⟩ ∧
      J.BlockOk st b := by
  obtain ⟨hge, hle⟩ := hgal st.li (J.startLo st.rlo) hlo hli
  unfold emitted at hb
  dsimp only at hb
  split_ifs at hb with hemit
  · obtain rfl := mem_singleton.mp hb
    refine ⟨rfl, hge, hle, fun hor => ?_, hemit.1, hemit.2, fun hscan o ho => ?_⟩
    · rw [gallop_of_miss_or hor]
      exact hli
    · have hlo' : J.startLo st.rlo = st.rlo := if_neg hscan.ne'
      have hmem := mem_matching.mp ho
      rw [hlo'] at hmem ⊢
      exact hmem
  · exact absurd hb not_mem_nil

/-- What is known of a block after a round was known before it. -/
theorem Ready.ok_of_iter (hJ : J.Searchable) (h : J.Ready st) (hgal : J.GallopsForward)
    (hlo : J.l.lo ≤ st.li) (hli : st.li < J.l.hi) (hb : J.BlockOk (J.iter st).1 b) :
    J.BlockOk st b := by
  have hround := h.round hJ
  obtain ⟨hge, -⟩ := hgal st.li (J.startLo st.rlo) hlo hli
  have hrun := J.lt_runEnd (J.gallop st.li (J.startLo st.rlo))
  refine ⟨?_, hb.li_le, hb.li_lt, hb.takes, hb.some_or, fun hscan o ho => ?_⟩
  · have hfrom := hb.li_ge
    rw [hround.li_eq] at hfrom
    omega
  -- a round gives up right rows, or leaves them as they are
  have hlo' : J.startLo st.rlo = st.rlo := if_neg hscan.ne'
  have hmem := hb.rest hscan o ho
  unfold right at hmem ⊢
  rw [hlo'] at hround
  by_cases hv : J.Takes (J.l.val (J.gallop st.li st.rlo))
  · rw [hround.rest hv] at hmem
    exact mem_of_mem_filter hmem
  · rwa [(hround.skip hv).1, (hround.skip hv).2] at hmem

/-- **The blocks of a run**: what is known of each, and how they follow each other. -/
theorem blocks_ok (hJ : J.Searchable) (hgal : J.GallopsForward) (n : ℕ) (h : J.Ready st)
    (hlo : J.l.lo ≤ st.li) :
    (∀ b ∈ J.blocks n st.cursors, J.BlockOk st b) ∧ (J.blocks n st.cursors).Pairwise J.Follows := by
  induction n generalizing st with
  | zero => exact ⟨fun _ hb => absurd hb not_mem_nil, List.Pairwise.nil⟩
  | succ n ih =>
    rw [blocks.eq_def]
    dsimp only [cursors]
    rcases lt_or_ge st.li J.l.hi with hli | hli
    swap
    · rw [if_neg (not_lt.mpr hli)]
      exact ⟨fun _ hb => absurd hb not_mem_nil, List.Pairwise.nil⟩
    have hround := h.round hJ
    have hge := (hgal st.li (J.startLo st.rlo) hlo hli).1
    have hrun := J.lt_runEnd (J.gallop st.li (J.startLo st.rlo))
    rw [if_pos hli, ← @iter_next _ _ J st _ _ rfl rfl]
    have hrest : (∀ b ∈ (if (J.iter st).2 = true then [] else J.blocks n (J.iter st).1.cursors),
        J.BlockOk (J.iter st).1 b) ∧
        (if (J.iter st).2 = true then [] else J.blocks n (J.iter st).1.cursors).Pairwise
          J.Follows := by
      split_ifs
      · exact ⟨fun _ hb => absurd hb not_mem_nil, List.Pairwise.nil⟩
      · exact ih (h.iter hJ) (by rw [hround.li_eq]; omega)
    refine ⟨fun b hb => ?_, pairwise_append.mpr ⟨?_, hrest.2, fun a ha b hb => ?_⟩⟩
    · rcases mem_append.mp hb with hb | hb
      · exact (emitted_ok hgal hlo hli hb).2
      · exact h.ok_of_iter hJ hgal hlo hli (hrest.1 b hb)
    · unfold emitted
      dsimp only
      split_ifs
      · exact pairwise_singleton _ _
      · exact List.Pairwise.nil
    · obtain ⟨rfl, haok⟩ := emitted_ok hgal hlo hli ha
      have hbok := hrest.1 b hb
      refine ⟨?_, fun hscan _ hbm => ?_⟩
      · rw [← hround.li_eq]
        exact hbok.li_ge
      · -- the right rows of later blocks are among those that were kept
        obtain ⟨o, ho⟩ := exists_mem_of_ne_nil _ hbm
        have hmem := hbok.rest hscan o ho
        rw [right, hround.rest haok.takes, mem_filter, decide_eq_true_iff] at hmem
        exact hmem.2

/-! ## The left rows

A left oid is emitted by one row only, which is what a semijoin relies on. -/

omit [Atom α] in
theorem out_ne_nil (b : Block) : J.out b ≠ [] := by
  unfold out
  split_ifs with h
  · simp
  · unfold picked
    have hpos := length_pos_iff.mpr h
    split_ifs
    · rw [Ne, drop_eq_nil_iff]
      omega
    · simpa using h
    · exact h

theorem map_fst_rowsOf (bs : List Block) :
    (J.rowsOf bs).map Prod.fst = (J.cursorsOf bs).map J.l.oid := by
  simp only [rowsOf, cursorsOf, map_flatMap, map_map]
  rfl

theorem mem_rowsOf {x : ℕ × List ℕ} :
    x ∈ J.rowsOf bs ↔ ∃ b ∈ bs, ∃ c ∈ J.lefts b, (J.l.oid c, J.out b) = x := by
  simp only [rowsOf, mem_flatMap, mem_map]

variable (J) in
/-- What is known of the left oids: those of the left rows ascend.  The oid behind
the last row may be any, but if it is one of the others it has the same value. -/
structure LeftOk : Prop where
  asc : ∀ c c', J.l.lo ≤ c → c < c' → c' < J.l.hi → J.l.oid c < J.l.oid c'
  behind : ∀ c, J.l.lo ≤ c → c < J.l.hi → J.l.oid c = J.l.oid J.l.hi → J.l.val c = J.l.val J.l.hi

theorem mem_lefts : c ∈ J.lefts b ↔ b.li ≤ c ∧ c < J.runEnd b.li := by
  rw [lefts, mem_range'_1]
  omega

/-- The left rows of a block that does not start behind the last one. -/
theorem lt_hi_of_mem_lefts (hb : b.li < J.l.hi) (hc : c ∈ J.lefts b) : c < J.l.hi :=
  lt_of_lt_of_le (mem_lefts.mp hc).2 (J.boundary_runEnd hb).le_hi

/-- Different left rows of the blocks have different oids.  The row behind the last one cannot have
the oid of an earlier row, since the right rows of its value are given up by then. -/
theorem oid_ne (hJ : J.LeftOk) (hd : IsDirection J.rreverse) (hlo : J.l.lo ≤ st.li)
    (hok : ∀ b ∈ bs, J.BlockOk st b) (hfol : bs.Pairwise J.Follows) :
    (J.cursorsOf bs).Pairwise fun c c' => J.l.oid c ≠ J.l.oid c' := by
  have hge : ∀ b ∈ bs, ∀ c ∈ J.lefts b, J.l.lo ≤ c := by
    intro b hb c hc
    have h1 := (hok b hb).li_ge
    have h2 := (mem_lefts.mp hc).1
    omega
  refine pairwise_flatMap.mpr ⟨fun b hb => ?_, ?_⟩
  · rcases lt_or_ge b.li J.l.hi with hlt | hle
    · refine List.Pairwise.imp_of_mem (fun {c c'} hc hc' hcc => ?_) pairwise_lt_range'
      exact (hJ.asc c c' (hge b hb c hc) hcc (lt_hi_of_mem_lefts hlt hc')).ne
    · refine pairwise_of_length_le ?_ _
      rw [lefts, length_range', J.runEnd_of_le hle]
      omega
  · refine List.Pairwise.imp_of_mem (fun {a b} ha hb hab c hc c' hc' heq => ?_) hfol
    have hfollow := hab.li
    have hle := (hok b hb).li_le
    have hc1 := mem_lefts.mp hc
    have hc2 := mem_lefts.mp hc'
    have hchi : c < J.l.hi := by omega
    rcases lt_or_ge b.li J.l.hi with hlt | hge'
    · exact (hJ.asc c c' (hge a ha c hc) (by omega) (lt_hi_of_mem_lefts hlt hc')).ne heq
    -- the block behind the last row: its value is not that of an earlier block
    have hbhi : b.li = J.l.hi := by omega
    have hc'hi : c' = J.l.hi := by
      have h3 := J.runEnd_of_le hge'
      omega
    obtain ⟨hmiss, hscan⟩ := not_or.mp (mt (hok b hb).li_lt (by omega))
    have hsome : ∀ x ∈ bs, x.m ≠ [] := fun x hx => (hok x hx).some_or.resolve_right hmiss
    have hlater := hab.later (pos_of_ne_zero hscan) (hsome a ha) (hsome b hb)
    have hval : J.value a = J.value b := by
      rw [hc'hi] at heq
      unfold value
      rw [hbhi, ← hJ.behind c (hge a ha c hc) hchi heq]
      exact (J.val_of_lt_runEnd hc1.1 hc1.2).symm
    rw [hval] at hlater
    unfold Later at hlater
    split_ifs at hlater <;> exact before_irrefl hd hlater

/-- The blocks do not depend on how many right rows a left row is paired with. -/
theorem blocks_semi (semi : Bool) (n : ℕ) (c : ℕ × ℕ × ℕ) :
    ({ J with semi := semi } : MergeJoin α).blocks n c = J.blocks n c := by
  induction n generalizing c with
  | zero => rfl
  | succ n ih =>
    rw [blocks]
    simp only [ih]
    rfl

end MergeJoin

variable {l r : Column α} {sl sr : Option Candidates}

/-! ## The merge join of two columns -/

theorem unsorted_of_lscan {nilMatches nilOnMiss semi : Bool}
    (h : (mergeOf l r sl sr nilMatches nilOnMiss semi).lscan = 0) :
    (l.tsorted || l.trevsorted) = false := by
  by_contra hls
  rw [Bool.not_eq_false] at hls
  exact (mergeOf_sorted rfl hls).2.1.ne' h

section Columns

variable (hl : l.Takes sl) (hr : r.Takes sr) (nilOnMiss semi : Bool)

include hl

theorem leftOk_mergeOf : (mergeOf l r sl sr false nilOnMiss semi).LeftOk := by
  have he := candinit_enumerates hl
  refine ⟨he.mono, fun c h1 h2 heq => ?_⟩
  -- the last row is a row of the column, so the oid behind it does not wrap around
  have hlast := (he.mem ((l.among sl).hi - 1) (le_sub_one_of_lt
    (lt_of_le_of_lt h1 h2)) (sub_one_lt_of_lt h2)).1.1.2
  change (l.among sl).val c = (l.among sl).val (l.among sl).hi
  change (l.among sl).oid c = (l.among sl).oid (l.among sl).hi at heq
  change c < (l.among sl).hi at h2
  have hoids := l.oids_small
  unfold Column.among Column.side at h2 heq hlast ⊢
  cases hc : (CANDINIT l sl).cand with
  | some cand =>
    rw [hc] at heq
    dsimp only at heq ⊢
    rw [heq]
  | none =>
    rw [hc] at h2 heq hlast
    dsimp only at h2 heq hlast
    omega

theorem gallopsForward_mergeOf (hsorted : r.InOrder) (hr : r.Takes sr) :
    (mergeOf l r sl sr false nilOnMiss semi).GallopsForward := by
  intro li rlo hlo hli
  by_cases hor : nilOnMiss = true ∨ (mergeOf l r sl sr false nilOnMiss semi).lscan = 0
  · rw [MergeJoin.gallop_of_miss_or hor]
    exact ⟨le_rfl, hli.le⟩
  rw [not_or, Bool.not_eq_true] at hor
  have hls : l.InOrder := by
    by_contra hls
    exact hor.2 (by simp [mergeOf, hls])
  refine (searchable_mergeOf hl hr hsorted false nilOnMiss semi).gallop_bounds hor.1
    (pos_of_ne_zero hor.2) ?_ hli rlo
  rw [(mergeOf_sorted rfl hls).2.2]
  exact (lsorted_side hl hls).mono hlo le_rfl

omit hl in
include hr in
theorem ready_innerStart
    (hne : (l.tsorted || l.trevsorted) = false → candRows r sr ≠ []) (res : JoinResult) :
    (mergeOf l r sl sr false nilOnMiss semi).Ready (innerStart l r sl sr res) := by
  refine ⟨⟨le_rfl, (candinit_enumerates hr).le, le_rfl⟩, fun _ => rfl, fun hscan => ?_,
    fun hscan => ?_⟩
  · exact lo_lt_hi_of_ne_nil hr (hne (unsorted_of_lscan hscan))
  · have hls := unsorted_of_lscan hscan
    simp [mergeOf, hls]

end Columns

end MonetInR.Gdk
