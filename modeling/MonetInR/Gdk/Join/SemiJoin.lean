import MonetInR.Gdk.Join.MergeBlocks
import MonetInR.Gdk.Join.OuterJoin

/-!
# The semijoin

`BATsubsemijoin` runs the kernels of the left join with a switch that makes them pair a left row
only once.  The merge join visits the same blocks as before, so its left oids are those of the left
join without repetitions, and it is right exactly when the left join is.  The hash join takes the
first right row that it accepts.  It may accept the wrong row and still be right, since only the
left oids count.

## Main definitions

* `BATsubsemijoin`: the operator
* `IsSemiJoin`: the left oids that a semijoin is to return
* `SemiHashExact`, `SemiJoinExact`: when the result is right, in terms of the rows

## Main results

* `isSemiJoin_mergejoin_iff`, `isSemiJoin_hashjoin_iff`: the two kernels
* `isSemiJoin_BATsubsemijoin_iff`: the operator
-/

namespace MonetInR.Gdk

open IntervalSearch RowBlocks List

variable {α : Type*} [Atom α] {l r : Column α} {sl sr : Option Candidates}

/-- Semijoin: a left row is paired at most once. -/
def BATsubsemijoin (l r : Column α) (sl sr : Option Candidates) (mem : ℕ → ℕ) :
    Except String JoinResult := do
  joinparamcheck l r sl sr "BATsubsemijoin"
  if r.tsorted || r.trevsorted then
    return mergejoin l r sl sr false false true joininitresults
  else
    return hashjoin l r sl sr mem false false true joininitresults

/-- The left oids that a semijoin is to return: those of the candidates with a partner, once each
and in increasing order. -/
structure IsSemiJoin (l r : Column α) (sl sr : Option Candidates) (os : List ℕ) : Prop where
  mem : ∀ o, o ∈ os ↔ IsCandidate l sl o ∧ ∃ ro, IsCandidate r sr ro ∧ l.atOid o ≠ ⊥ ∧
    l.atOid o = r.atOid ro
  asc : os.Pairwise (· < ·)

section Spec

variable (hl : l.Takes sl) (hr : r.Takes sr)

include hl hr

theorem mem_partnered_candRows {o : ℕ} : o ∈ partnered (candRows r sr) (candRows l sl) ↔
    IsCandidate l sl o ∧ ∃ ro, IsCandidate r sr ro ∧ l.atOid o ≠ ⊥ ∧ l.atOid o = r.atOid ro := by
  rw [mem_partnered]
  constructor
  · rintro ⟨v, hx, hv, y, hy, hyv⟩
    obtain ⟨hc, hat⟩ := (mem_candRows hl).mp hx
    dsimp only at hc hat hv hyv
    subst hat
    obtain ⟨hyc, hya⟩ := (mem_candRows hr).mp hy
    exact ⟨hc, y.1, hyc, hv, hyv.symm.trans hya⟩
  · rintro ⟨hc, ro, hro, hv, heq⟩
    refine ⟨l.atOid o, (mem_candRows hl).mpr ⟨hc, rfl⟩, hv, (ro, r.atOid ro), ?_, heq.symm⟩
    exact (mem_candRows hr).mpr ⟨hro, rfl⟩

theorem isSemiJoin_iff_eq {os : List ℕ} :
    IsSemiJoin l r sl sr os ↔ os = partnered (candRows r sr) (candRows l sl) := by
  have hasc := @ordered_partnered _ _ _ (candRows r sr) (ordered_candRows hl)
  constructor
  · intro h
    exact h.asc.eq_of_mem_iff hasc fun o => (h.mem o).trans (mem_partnered_candRows hl hr).symm
  · rintro rfl
    exact ⟨fun o => mem_partnered_candRows hl hr, hasc⟩

end Spec

/-! ## The merge join

The switch changes what is emitted for a block but not the blocks, and so the left oids of the two
joins are compared block by block. -/

namespace MergeJoin

variable {J : MergeJoin α} {bs : List Block}

/-- The left oids of a semijoin. -/
theorem fst_expand_semi (hsemi : J.semi = true) (hm : ∀ b ∈ bs, b.m ≠ []) :
    (expand (J.rowsOf bs)).map Prod.fst = (J.cursorsOf bs).map J.l.oid := by
  rw [← map_fst_rowsOf]
  refine map_fst_expand fun x hx => ?_
  obtain ⟨b, hb, c, -, rfl⟩ := mem_rowsOf.mp hx
  have hpos := length_pos_iff.mpr (hm b hb)
  simp only [out, if_neg (hm b hb), picked]
  split_ifs
  · rw [length_drop]
    omega
  · rw [length_take]
    omega

variable (J bs) in
/-- The left oids of a join: the same ones, in the same order, with repetitions. -/
theorem fst_expand_iff :
    (∀ o, o ∈ (expand (J.rowsOf bs)).map Prod.fst ↔ o ∈ (J.cursorsOf bs).map J.l.oid) ∧
      (((expand (J.rowsOf bs)).map Prod.fst).Pairwise (· ≤ ·) ↔
        ((J.cursorsOf bs).map J.l.oid).Pairwise (· ≤ ·)) := by
  have hsome : ∀ x ∈ J.rowsOf bs, x.2 ≠ [] := by
    intro x hx
    obtain ⟨b, -, c, -, rfl⟩ := mem_rowsOf.mp hx
    exact J.out_ne_nil b
  rw [← map_fst_rowsOf]
  refine ⟨fun o => mem_map_fst_expand hsome, ?_⟩
  rw [pairwise_fst le_refl, pairwise_map]
  exact List.Pairwise.iff_of_mem fun {x y} hx hy =>
    ⟨fun hxy => hxy (hsome x hx) (hsome y hy), fun hxy _ _ => hxy⟩

end MergeJoin

section Merge

variable (hl : l.Takes sl) (hr : r.Takes sr)

include hl hr

/-- The left oids of the semijoin are those of the left join, without repetitions. -/
theorem fst_semi_iff (hsorted : r.InOrder) (hL : candRows l sl ≠ []) (hR : candRows r sr ≠ []) :
    let S := (mergejoin l r sl sr false false true joininitresults).pairs.map Prod.fst
    let F := (mergejoin l r sl sr false false false joininitresults).pairs.map Prod.fst
    (∀ o, o ∈ S ↔ o ∈ F) ∧ (S.Pairwise (· < ·) ↔ F.Pairwise (· ≤ ·)) := by
  intro S F
  set start := startProps l r joininitresults with hstart
  set n := (l.among sl).hi - (l.among sl).lo with hn
  have hready : ∀ semi, (mergeOf l r sl sr false false semi).Ready (innerStart l r sl sr start) :=
    fun semi => ready_innerStart hr false semi (fun _ => hR) start
  have hsearch := fun semi => searchable_mergeOf hl hr hsorted false false semi
  have hpairs : ∀ semi, (mergejoin l r sl sr false false semi joininitresults).pairs = expand
      ((mergeOf l r sl sr false false semi).rowsOf
        ((mergeOf l r sl sr false false semi).blocks n (innerStart l r sl sr start).cursors)) := by
    intro semi
    rw [mergejoin_eq_loop hl hr hL hR semi joininitresults]
    refine (MergeJoin.pairs_loop (hsearch semi) n (hready semi)).trans ?_
    rw [show (innerStart l r sl sr start).res.pairs = [] from pairs_startProps l r _, nil_append]
  obtain ⟨hok, hfol⟩ := MergeJoin.blocks_ok (hsearch true)
    (gallopsForward_mergeOf hl false true hsorted hr) n (hready true) le_rfl
  -- both joins visit the same left rows
  set C := ((mergeOf l r sl sr false false true).cursorsOf
    ((mergeOf l r sl sr false false true).blocks n (innerStart l r sl sr start).cursors)).map
      (l.among sl).oid with hC
  have hS : S = C := by
    change (mergejoin l r sl sr false false true joininitresults).pairs.map Prod.fst = C
    rw [hpairs true]
    exact MergeJoin.fst_expand_semi rfl fun b hb =>
      (hok b hb).some_or.resolve_right (by simp [mergeOf])
  have hF : (∀ o, o ∈ F ↔ o ∈ C) ∧ (F.Pairwise (· ≤ ·) ↔ C.Pairwise (· ≤ ·)) := by
    have hsame := @MergeJoin.blocks_semi _ _ (mergeOf l r sl sr false false false) true n
      (innerStart l r sl sr start).cursors
    change (mergeOf l r sl sr false false true).blocks n _ = _ at hsame
    rw [hC, hsame]
    have hfst := MergeJoin.fst_expand_iff (mergeOf l r sl sr false false false)
      ((mergeOf l r sl sr false false false).blocks n (innerStart l r sl sr start).cursors)
    rw [← hpairs false] at hfst
    exact hfst
  have hne : C.Pairwise (· ≠ ·) := by
    rw [pairwise_map]
    exact MergeJoin.oid_ne (leftOk_mergeOf hl false true) (hsearch true).rdir le_rfl hok hfol
  rw [hS]
  refine ⟨fun o => (hF.1 o).symm, ?_⟩
  rw [hF.2]
  constructor
  · exact fun h => h.imp fun hlt => hlt.le
  · exact fun h => (h.and hne).imp fun hab => lt_of_le_of_ne hab.1 hab.2

/-- A list of left oids with repetitions: the oids that it is to have. -/
def FstRight (l r : Column α) (sl sr : Option Candidates) (F : List ℕ) : Prop :=
  F.Pairwise (· ≤ ·) ∧ ∀ o, o ∈ F ↔ o ∈ partnered (candRows r sr) (candRows l sl)

/-- A loop over some left rows, or over the row behind the last one. -/
theorem fstRight_visited_iff {V : List (ℕ × α)}
    (hV : V.Sublist (candRows l sl) ∨ V = [rowBehind l sl]) :
    FstRight l r sl sr ((joinRows V (candRows r sr)).map Prod.fst) ↔
      partnered (candRows r sr) V = partnered (candRows r sr) (candRows l sl) := by
  have hord : Ordered V := by
    rcases hV with hV | rfl
    · exact (ordered_candRows hl).sublist hV
    · exact pairwise_singleton _ _
  rw [FstRight, and_iff_right (sorted_joinRows hord (ordered_candRows hr))]
  simp only [mem_fst_joinRows]
  constructor
  · intro h
    exact (ordered_partnered hord).eq_of_mem_iff (ordered_partnered (ordered_candRows hl)) h
  · intro h o
    rw [h]

theorem fstRight_overrun_iff (w : ℕ) :
    FstRight l r sl sr ((joinRows (candRows l sl) (candRows r sr) ++ overrunPairs l.direction w
        (rowBehind l sl) (candRows l sl) (candRows r sr)).map Prod.fst) ↔
      overrunPairs l.direction w (rowBehind l sl) (candRows l sl) (candRows r sr) = [] := by
  constructor
  · rintro ⟨-, hmem⟩
    refine eq_nil_iff_forall_not_mem.mpr fun p hp => ?_
    obtain ⟨-, hbeyond, -, hpb⟩ := mem_fst_overrunPairs.mp (mem_map_of_mem hp)
    obtain ⟨v, hv, -⟩ :=
      mem_partnered.mp ((hmem p.1).mp (mem_map_of_mem (mem_append_right _ hp)))
    exact rowBehind_notMem hl l.isDirection_direction hbeyond (hpb ▸ hv)
  · intro hnone
    rw [hnone, append_nil]
    exact (fstRight_visited_iff hl hr (.inl (List.Sublist.refl _))).mpr rfl

/-- **The semijoin by merging is right exactly if the left join is.** -/
theorem isSemiJoin_mergejoin_iff (hsorted : r.InOrder) : IsSemiJoin l r sl sr
        ((mergejoin l r sl sr false false true joininitresults).pairs.map Prod.fst) ↔
      MergeExact l r sl sr := by
  by_cases hnil : candRows l sl = [] ∨ candRows r sr = []
  · -- nothing to join
    rw [mergejoin_eq hl hr, if_pos (by simpa using hnil), isSemiJoin_iff_eq hl hr]
    refine iff_of_true ?_ (mergeExact_of_nil hnil)
    refine (eq_nil_iff_forall_not_mem.mpr fun o ho => ?_).symm
    obtain ⟨v, hv, -, y, hy, -⟩ := mem_partnered.mp ho
    rcases hnil with h | h
    · rw [h] at hv
      exact not_mem_nil hv
    · rw [h] at hy
      exact not_mem_nil hy
  rw [not_or] at hnil
  obtain ⟨hmem, hasc⟩ := fst_semi_iff hl hr hsorted hnil.1 hnil.2
  have hiff : IsSemiJoin l r sl sr
      ((mergejoin l r sl sr false false true joininitresults).pairs.map Prod.fst) ↔
      FstRight l r sl sr
        ((mergejoin l r sl sr false false false joininitresults).pairs.map Prod.fst) := by
    refine ⟨fun h => ⟨hasc.mp h.asc, fun o => ?_⟩, fun h => ⟨fun o => ?_, hasc.mpr h.1⟩⟩
    · rw [← hmem, h.mem, mem_partnered_candRows hl hr]
    · rw [hmem, h.2, mem_partnered_candRows hl hr]
  have hy := head?_eq_some_head hnil.2
  rw [hiff, pairs_mergejoin_cases hl hr hsorted hnil.1 hnil.2 hy, MergeExact]
  split_ifs
  · exact iff_of_true ((fstRight_visited_iff hl hr (.inl (List.Sublist.refl _))).mpr rfl) trivial
  · exact (fstRight_overrun_iff hl hr _).trans overrunPairs_eq_nil
  · rw [forall_head_iff hy, fstRight_visited_iff hl hr (sublist_visitedAbove _ _ _ _)]
  · rw [forall_head_iff hy, fstRight_visited_iff hl hr (sublist_visited _ _ _ _ _)]

end Merge

/-! ## The hash join

What counts is whether a partner is found for a left row, not which one. -/

/-- The hash join finds no partner for the value and hash `v`: the right rows with that value are
in other buckets, or their oids are not accepted. -/
def HashMissed (r : Column α) (sr : Option Candidates) (mem : ℕ → ℕ) (v : α × ℕ) : Prop :=
  v.1 ≠ ⊥ ∧ ∀ i < r.count, r.value i = v.1 → r.InBucket mem (r.hseqbase + i) v.2 →
    hashAccepts (CANDINIT r sr) (r.hseqbase + i) = false

theorem found_eq_nil {mem : ℕ → ℕ} {v : α × ℕ} (hv : v.1 ≠ ⊥) :
    found r sr mem v = [] ↔ HashMissed r sr mem v := by
  rw [eq_nil_iff_forall_not_mem, HashMissed, and_iff_right hv]
  constructor
  · intro h i hi hval hbucket
    by_contra hacc
    refine h (r.hseqbase + i) ((mem_hashProbe r _ mem v _).mpr
      ⟨⟨?_, ?_, hbucket⟩, by simpa using hacc⟩)
    · exact ⟨Nat.le_add_right _ _, Nat.add_lt_add_left hi _⟩
    · rw [Column.atOid, Nat.add_sub_cancel_left, hval]
  · intro h ro hro
    obtain ⟨⟨⟨h1, h2⟩, hval, hbucket⟩, hacc⟩ := (mem_hashProbe r _ mem v ro).mp hro
    obtain ⟨i, rfl⟩ := Nat.exists_eq_add_of_le h1
    rw [Column.atOid, Nat.add_sub_cancel_left] at hval
    have := h i (by omega) hval hbucket
    rw [hacc] at this
    exact absurd this (by simp)

instance (r : Column α) (sr : Option Candidates) (mem : ℕ → ℕ) (v : α × ℕ) :
    Decidable (HashMissed r sr mem v) :=
  inferInstanceAs (Decidable (_ ∧ ∀ i < r.count, _ → _ &&& _ = _ &&& _ → _))

/-- The hash join finds a partner for the left row. -/
def HashHit (l r : Column α) (sr : Option Candidates) (mem : ℕ → ℕ) (x : ℕ × α) : Prop :=
  x.2 ≠ ⊥ ∧ ¬ HashMissed r sr mem (hashKey l x)
  deriving Decidable

/-- The left rows for which the hash join finds a partner. -/
def hashFound (l r : Column α) (sl sr : Option Candidates) (mem : ℕ → ℕ) : List (ℕ × α) :=
  (candRows l sl).filter fun x => HashHit l r sr mem x

/-- When the semijoin by hashing is right: a partner is found for the rows that have one.  Without
a left candidate array, a left column that does not start at position 0 reports a row under the oid
of the one `BUNfirst` before it; then a partner must be found for exactly the rows that many places
behind those that have one. -/
def SemiHashExact (l r : Column α) (sl sr : Option Candidates) (mem : ℕ → ℕ) : Prop :=
  if (CANDINIT l sl).cand = none ∧ l.first ≠ 0 then
    (∀ x ∈ candRows l sl, HashHit l r sr mem x →
      ∃ y ∈ candRows l sl, y.1 + l.first = x.1 ∧ HasPartner (candRows r sr) y) ∧
    ∀ y ∈ candRows l sl, HasPartner (candRows r sr) y →
      ∃ x ∈ candRows l sl, y.1 + l.first = x.1 ∧ HashHit l r sr mem x
  else ∀ x ∈ candRows l sl, (HashHit l r sr mem x ↔ HasPartner (candRows r sr) x)

section HashSemi

variable (hl : l.Takes sl) (hr : r.Takes sr)
  (mem : ℕ → ℕ)

include hr in
/-- Without right candidates there is nothing to find. -/
theorem hashMissed_of_nil (hR : candRows r sr = []) {v : α × ℕ} (hv : v.1 ≠ ⊥) :
    HashMissed r sr mem v := by
  refine ⟨hv, fun i hi _ _ => ?_⟩
  cases hc : (CANDINIT r sr).cand with
  | some cand =>
    rw [Bool.eq_false_iff]
    intro hacc
    have hcand := (hashAccepts_iff_of_cand hr hc _).mp hacc
    have hrow := (mem_candRows hr (x := (r.hseqbase + i, r.atOid (r.hseqbase + i)))).mpr
      ⟨hcand, rfl⟩
    rw [hR] at hrow
    exact not_mem_nil hrow
  | none =>
    rw [candRows_eq_nil hr] at hR
    simp only [hashAccepts, hc]
    rw [hR]
    simp

theorem fst_rowPairs_semi (x : ℕ × α) :
    ((hashOf l r sl sr mem false false true).rowPairs
        (hashOid l (CANDINIT l sl) x.1, hashKey l x)).map Prod.fst =
      if HashHit l r sr mem x then [hashOid l (CANDINIT l sl) x.1] else [] := by
  unfold HashJoin.rowPairs
  simp only [hashOf, Bool.false_eq_true, and_false, true_and, if_false]
  change map Prod.fst (if x.2 = ⊥ then _ else _) = _
  by_cases hv : x.2 = ⊥
  · rw [if_pos hv, if_neg fun h => h.1 hv, map_nil]
  rw [if_neg hv, map_map]
  change ((found r sr mem (hashKey l x)).take 1).map (fun _ => hashOid l (CANDINIT l sl) x.1) = _
  cases hf : found r sr mem (hashKey l x) with
  | nil =>
    rw [if_neg fun h => h.2 ((found_eq_nil hv).mp hf), take_nil, map_nil]
  | cons o os =>
    have hfound : ¬ HashMissed r sr mem (hashKey l x) := by
      intro h
      rw [(found_eq_nil hv).mpr h] at hf
      cases hf
    rw [if_pos ⟨hv, hfound⟩]
    rfl

include hl hr in
theorem fst_hashjoin_semi :
    (hashjoin l r sl sr mem false false true joininitresults).pairs.map Prod.fst =
      (hashFound l r sl sr mem).map fun x => hashOid l (CANDINIT l sl) x.1 := by
  rw [pairs_hashjoin hl hr]
  split_ifs with hnil
  · refine (map_eq_nil_iff.mpr (filter_eq_nil_iff.mpr fun x hx => ?_)).symm
    rw [decide_eq_true_iff]
    rintro ⟨hv, hfound⟩
    rcases hnil with h | ⟨-, h⟩
    · rw [h] at hx
      exact not_mem_nil hx
    · exact hfound (hashMissed_of_nil hr mem h hv)
  rw [hashFound]
  clear hnil
  induction candRows l sl with
  | nil => rfl
  | cons x L ih =>
    rw [flatMap_cons, map_append, ih, fst_rowPairs_semi mem x, filter_cons]
    by_cases hx : HashHit l r sr mem x
    · rw [if_pos hx, if_pos (decide_eq_true hx)]
      rfl
    · rw [if_neg hx, if_neg (by simpa using hx), nil_append]

omit mem in
include hl in
/-- The oids of the rows with a property, each under its own oid, are those of the rows with another
one exactly if the rows are the same. -/
theorem map_fst_filter_eq_iff {p q : ℕ × α → Bool} :
    ((candRows l sl).filter p).map Prod.fst = ((candRows l sl).filter q).map Prod.fst ↔
      ∀ x ∈ candRows l sl, (p x = true ↔ q x = true) := by
  have hmem : ∀ (p : ℕ × α → Bool), ∀ x ∈ candRows l sl,
      (x.1 ∈ ((candRows l sl).filter p).map Prod.fst ↔ p x = true) := by
    intro p x hx
    constructor
    · intro h
      obtain ⟨y, hy, hyx⟩ := mem_map.mp h
      obtain ⟨hyL, hyp⟩ := mem_filter.mp hy
      rwa [eq_of_fst_eq hl hyL hx hyx] at hyp
    · exact fun h => mem_map_of_mem (mem_filter.mpr ⟨hx, h⟩)
  constructor
  · intro h x hx
    rw [← hmem p x hx, ← hmem q x hx, h]
  · exact fun h => congrArg (map Prod.fst) (filter_congr fun x hx => Bool.eq_iff_iff.mpr (h x hx))

include hl in
/-- Shifted oids that do not wrap are in increasing order. -/
theorem pairwise_shifted (hle : ∀ x ∈ candRows l sl, HashHit l r sr mem x → l.first ≤ x.1) :
    ((hashFound l r sl sr mem).map fun x => sub64 x.1 l.first).Pairwise (· < ·) := by
  have hoids := l.oids_small
  refine pairwise_map.mpr (List.Pairwise.imp_of_mem (fun {x y} hx hy hxy => ?_)
    ((ordered_candRows hl).filter _))
  obtain ⟨hxL, hxh⟩ := mem_filter.mp hx
  obtain ⟨hyL, hyh⟩ := mem_filter.mp hy
  have h1 := hle x hxL (of_decide_eq_true hxh)
  have h2 := hle y hyL (of_decide_eq_true hyh)
  have h3 := ((mem_candRows hl).mp hxL).1.1.2
  have h4 := ((mem_candRows hl).mp hyL).1.1.2
  rw [sub64_of_le h1 (by omega), sub64_of_le h2 (by omega)]
  omega

include hl hr in
/-- The semijoin with shifted oids: row by row. -/
theorem isSemiJoin_shifted_iff :
    IsSemiJoin l r sl sr ((hashFound l r sl sr mem).map fun x => sub64 x.1 l.first) ↔
      (∀ x ∈ candRows l sl, HashHit l r sr mem x →
        ∃ y ∈ candRows l sl, y.1 + l.first = x.1 ∧ HasPartner (candRows r sr) y) ∧
      ∀ y ∈ candRows l sl, HasPartner (candRows r sr) y →
        ∃ x ∈ candRows l sl, y.1 + l.first = x.1 ∧ HashHit l r sr mem x := by
  have hoids := l.oids_small
  have hcap := l.small
  have hfit := l.fits
  have hbound : ∀ x ∈ candRows l sl, x.1 < l.hseqbase + l.count :=
    fun x hx => ((mem_candRows hl).mp hx).1.1.2
  have hpart : ∀ o, o ∈ partnered (candRows r sr) (candRows l sl) ↔
      ∃ y ∈ candRows l sl, y.1 = o ∧ HasPartner (candRows r sr) y := by
    intro o
    rw [mem_partnered]
    constructor
    · rintro ⟨v, hv, hp⟩
      exact ⟨_, hv, rfl, hp⟩
    · rintro ⟨y, hy, rfl, hp⟩
      exact ⟨y.2, hy, hp⟩
  constructor
  · intro h
    have hmem := fun o => (h.mem o).trans ((mem_partnered_candRows hl hr).symm.trans (hpart o))
    constructor
    · intro x hx hhit
      obtain ⟨y, hy, hyx, hp⟩ := (hmem (sub64 x.1 l.first)).mp
        (mem_map_of_mem (mem_filter.mpr ⟨hx, decide_eq_true hhit⟩))
      have h1 := hbound x hx
      have h2 := hbound y hy
      unfold sub64 at hyx
      exact ⟨y, hy, by omega, hp⟩
    · intro y hy hp
      obtain ⟨x, hx, hxy⟩ := mem_map.mp ((hmem y.1).mpr ⟨y, hy, rfl, hp⟩)
      obtain ⟨hxL, hhit⟩ := mem_filter.mp hx
      have h1 := hbound x hxL
      have h2 := hbound y hy
      unfold sub64 at hxy
      exact ⟨x, hxL, by omega, of_decide_eq_true hhit⟩
  · rintro ⟨hhit, hback⟩
    -- an oid below the start of the column would wrap around, and be no candidate
    have hle : ∀ x ∈ candRows l sl, HashHit l r sr mem x → l.first ≤ x.1 := by
      intro x hx h
      obtain ⟨y, -, hyx, -⟩ := hhit x hx h
      omega
    refine ⟨fun o => ?_, pairwise_shifted hl mem hle⟩
    rw [← mem_partnered_candRows hl hr, hpart, mem_map]
    constructor
    · rintro ⟨x, hx, rfl⟩
      obtain ⟨hxL, hxh⟩ := mem_filter.mp hx
      obtain ⟨y, hy, hyx, hp⟩ := hhit x hxL (of_decide_eq_true hxh)
      have h2 := hbound x hxL
      rw [sub64_of_le (by omega) (by omega)]
      exact ⟨y, hy, by omega, hp⟩
    · rintro ⟨y, hy, rfl, hp⟩
      obtain ⟨x, hx, hyx, hxh⟩ := hback y hy hp
      have h2 := hbound x hx
      refine ⟨x, mem_filter.mpr ⟨hx, decide_eq_true hxh⟩, ?_⟩
      rw [sub64_of_le (by omega) (by omega)]
      omega

include hl hr in
/-- **The semijoin by hashing is right exactly under `SemiHashExact`.** -/
theorem isSemiJoin_hashjoin_iff :
    IsSemiJoin l r sl sr
        ((hashjoin l r sl sr mem false false true joininitresults).pairs.map Prod.fst) ↔
      SemiHashExact l r sl sr mem := by
  rw [fst_hashjoin_semi hl hr, SemiHashExact]
  by_cases hshift : (CANDINIT l sl).cand = none ∧ l.first ≠ 0
  · rw [if_pos hshift, ← isSemiJoin_shifted_iff hl hr mem]
    simp only [hashOid, hshift.1]
  have hid : (hashFound l r sl sr mem).map (fun x => hashOid l (CANDINIT l sl) x.1) =
      (hashFound l r sl sr mem).map Prod.fst :=
    map_congr_left fun x hx => hashOid_eq_self hl hshift (mem_of_mem_filter hx)
  rw [if_neg hshift, hid, isSemiJoin_iff_eq hl hr]
  refine (map_fst_filter_eq_iff hl).trans (forall₂_congr fun x _ => ?_)
  rw [decide_eq_true_iff, decide_eq_true_iff]

end HashSemi

/-! ## The operator -/

/-- When the semijoin is right, according to the flags of the right column. -/
def SemiJoinExact (l r : Column α) (sl sr : Option Candidates) (mem : ℕ → ℕ) : Prop :=
  if r.tsorted || r.trevsorted then MergeExact l r sl sr else SemiHashExact l r sl sr mem

end MonetInR.Gdk
