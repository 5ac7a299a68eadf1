import MonetInR.Gdk.Join.Kernel
import MonetInR.Gdk.Join.Rows

/-!
# The loop of the merge join

Every cursor movement of the merge join picks between a linear scan and a binary search by
looking at one value.  On values sorted in the direction of the search both end at the same
boundary, so each movement is described by one `Boundary`, whichever loop it takes.

One round of the merge join visits a run of equal left rows, pairs it with the right rows of the
same value and gives up the right rows that later rounds cannot need.  Which right rows those
are depends on the directions of the two columns, so this module first says what a round does
in terms of rows (`Visit`), and then runs the loop for each way in which the flags of the two
columns can combine.

## Main results

* `boundary_binsearch`: binary search finds the boundary of its test
* `boundary_gallop`, `boundary_advance`, `boundary_pass`, `boundary_retreat`,
  `boundary_passDown`: the five movements
* `iter_round`: what one round does
* `Sound.loop_unsorted`: what the whole loop returns for an unsorted left column
* `Sound.loop_exhausted`: without right rows nothing is found
-/

namespace MonetInR.Gdk

open IntervalSearch Nat List

variable {α : Type*} [Atom α]

section Binsearch

variable {α : Type*} [LinearOrder α] {reverse : ℤ} {val : ℕ → α} {v : α} {lo hi cur skip : ℕ}
  (s : Side α)

/-- The values are ordered in the direction `reverse` on `[lo, hi)`. -/
def SortedOn (reverse : ℤ) (val : ℕ → α) (lo hi : ℕ) : Prop :=
  ∀ i j, lo ≤ i → i ≤ j → j < hi → ¬ Before reverse (val j) (val i)

theorem SortedOn.mono {lo' hi' : ℕ} (h : SortedOn reverse val lo hi) (hlo : lo ≤ lo')
    (hhi : hi' ≤ hi) : SortedOn reverse val lo' hi' :=
  fun i j hi1 hij hj => h i j (le_trans hlo hi1) hij (lt_of_lt_of_le hj hhi)

/-- The values a search passes over: those before `v`, and for a search of the last
occurrence also those equal to it. -/
def Passed (reverse : ℤ) (v : α) (last : Bool) (x : α) : Prop :=
  if last then ¬ Before reverse v x else Before reverse x v

theorem stopsAt_eq_false (hd : IsDirection reverse) {v : α} (last : Bool) (x : α) :
    stopsAt v reverse last x = false ↔ Passed reverse v last x := by
  have hpos := reverse_mul_pos (a := x) (b := v) hd
  have hzero := reverse_mul_eq_zero (a := x) (b := v) hd
  cases last with
  | true => simp [stopsAt, Passed, ← hpos]
  | false =>
    simp only [stopsAt, Bool.not_false, Bool.true_and, Bool.or_eq_false_iff,
      decide_eq_false_iff_not, beq_eq_false_iff_ne, hpos, ne_eq, hzero]
    constructor
    · rintro ⟨h1, h2⟩
      by_contra h3
      exact h2 (eq_of_not_before hd h3 h1)
    · intro h
      exact ⟨h.asymm hd, h.ne hd⟩

theorem SortedOn.downward (hs : SortedOn reverse val lo hi) (hd : IsDirection reverse)
    (v : α) (last : Bool) : Downward (fun c => Passed reverse v last (val c)) lo hi := by
  intro i j hi1 hij hj hp
  have hle := hs i j hi1 hij hj
  cases last with
  | true => exact not_before_trans hd hle hp
  | false => exact Before.not_trans hd hle hp

theorem boundary_binsearch (hs : SortedOn reverse val lo hi) (hd : IsDirection reverse)
    (hlt : lo < hi) (hhi : hi < 2 ^ 64) (v : α) (last : Bool) :
    Boundary (fun c => Passed reverse v last (val c)) lo hi
      (binsearch val lo hi v reverse last) := by
  have hdown := hs.downward hd v last
  have hsub : sub64 hi 1 = hi - 1 := sub64_of_le (by omega) hhi
  unfold binsearch
  rw [hsub]
  simp only
  split_ifs with h1 h2
  · refine .first hlt.le fun _ hp => ?_
    rw [(stopsAt_eq_false hd _ _).mpr hp] at h1
    exact absurd h1 (by simp)
  · rw [Nat.sub_add_cancel (by omega)]
    have hp : Passed reverse v last (val (hi - 1)) :=
      (stopsAt_eq_false hd _ _).mp (by simpa using h2)
    exact .last hlt.le fun i h3 h4 => hdown i (hi - 1) h3 (by omega) (by omega) hp
  · have h1' : stopsAt v reverse last (val lo) = false := by simpa using h1
    have h2' : stopsAt v reverse last (val (hi - 1)) = true := by simpa using h2
    have hne : lo ≠ hi - 1 := fun he => by rw [← he, h1'] at h2'; simp at h2'
    have hb := boundary_halve (fun mid => stopsAt v reverse last (val mid)) (hi - 1 - lo)
      (le_refl _) (by omega)
      (fun i j h3 h4 h5 hp => (stopsAt_eq_false hd _ _).mpr
        (hdown i j h3 h4 (by omega) ((stopsAt_eq_false hd _ _).mp hp))) h1' h2'
    have hb' := hb.congr fun i _ _ => stopsAt_eq_false hd last (val i)
    refine hb'.of_earlier (by omega) fun _ hp => ?_
    rw [← stopsAt_eq_false hd last, h2'] at hp
    simp at hp

theorem Boundary.shift {p : ℕ → Prop} {k : ℕ} (skip : ℕ) (hc : cur ≤ hi)
    (h : Boundary (fun c => p (cur + c)) skip (hi - cur) k) :
    Boundary p (cur + skip) hi (cur + k) where
  lo_le := Nat.add_le_add_left h.lo_le cur
  le_hi := by have := h.le_hi; omega
  below i h1 h2 := by
    have hp := h.below (i - cur) (by omega) (by omega)
    rwa [Nat.add_sub_cancel' (by omega)] at hp
  stop hk := h.stop (by omega)

theorem Side.boundary_searchFrom (cur skip : ℕ) (hs : SortedOn reverse s.val (cur + skip) hi)
    (hd : IsDirection reverse) (hlt : cur + skip < hi) (hhi : hi < 2 ^ 64) (v : α) (last : Bool) :
    Boundary (fun c => Passed reverse v last (s.val c)) (cur + skip) hi
      (s.searchFrom cur skip hi v reverse last) := by
  unfold Side.searchFrom
  split_ifs
  · refine Boundary.shift skip (by omega) (boundary_binsearch ?_ hd (by omega) (by omega) v last)
    exact fun i j h1 h2 h3 => hs (cur + i) (cur + j) (by omega) (by omega) (by omega)
  · exact boundary_binsearch hs hd hlt hhi v last

theorem Side.boundary_searchUpTo (less : ℕ) (hs : SortedOn reverse s.val cur (hi - less))
    (hd : IsDirection reverse) (hlt : cur < hi - less) (hhi : hi < 2 ^ 64) (v : α) (last : Bool) :
    Boundary (fun c => Passed reverse v last (s.val c)) cur (hi - less)
      (s.searchUpTo cur hi less v reverse last) := by
  unfold Side.searchUpTo
  split_ifs
  · rw [show hi - cur - less = hi - less - cur by omega]
    refine Boundary.shift 0 hlt.le (boundary_binsearch ?_ hd (by omega) (by omega) v last)
    exact fun i j h1 h2 h3 => hs (cur + i) (cur + j) (by omega) (by omega) (by omega)
  · exact boundary_binsearch hs hd hlt (by omega) v last

end Binsearch

namespace MergeJoin

variable (J : MergeJoin α) {v : α} {li rlo rhi : ℕ}

/-! ## The left cursor -/

/-- The next right value is too far away: some left row more than `lscan` behind the current one
still comes before it. -/
def Gallops (li rlo : ℕ) : Prop :=
  J.lscan < J.l.hi - li ∧ Before J.lreverse (J.l.val (li + J.lscan)) (J.r.val rlo)

theorem gallop_of_not (h : ¬ J.Gallops li rlo) : J.gallop li rlo = li := by
  unfold gallop
  split_ifs with h1 h2
  · exact absurd h2 h
  · rfl
  · rfl

/-- The left cursor skips exactly the rows before the next right value. -/
theorem boundary_gallop (hs : SortedOn J.lreverse J.l.val li J.l.hi) (hd : IsDirection J.lreverse)
    (hhi : J.l.hi < 2 ^ 64) (hmiss : J.nilOnMiss = false) (hscan : 0 < J.lscan)
    (h : J.Gallops li rlo) :
    Boundary (fun c => Before J.lreverse (J.l.val c) (J.r.val rlo)) li J.l.hi
      (J.gallop li rlo) := by
  obtain ⟨hw, hb⟩ := h
  unfold gallop
  rw [if_pos (by simp [hmiss, hscan]), if_pos ⟨hw, hb⟩]
  have hb' := J.l.boundary_searchFrom li J.lscan (hs.mono (le_add_right _ _) le_rfl) hd
    (by omega) hhi (J.r.val rlo) false
  refine hb'.of_later (le_add_right _ _) fun i h1 h2 => ?_
  exact Before.not_trans hd (hs i (li + J.lscan) h1 h2.le (by omega)) hb

theorem boundary_runEnd (h : li < J.l.hi) :
    Boundary (fun c => J.l.val li = J.l.val c) li J.l.hi (J.runEnd li) := by
  have hb := boundary_scanUp_sub (fun c => decide (atomCmp (J.l.val li) (J.l.val c) = 0))
    (show li + 1 ≤ J.l.hi by omega)
  have hb' := hb.congr (q := fun c => J.l.val li = J.l.val c) fun i _ _ => by simp
  refine hb'.of_later (le_succ li) fun i h1 h2 => ?_
  obtain rfl : i = li := by omega
  rfl

theorem runEnd_of_le (h : J.l.hi ≤ li) : J.runEnd li = li + 1 := by
  rw [runEnd, Nat.sub_eq_zero_of_le (by omega)]
  rfl

/-! ## The right cursors

The scan may go upwards or downwards, depending on whether the columns have the same direction.
Either way two boundaries are found, one on each side of the rows with the value. -/

section

variable (hs : SortedOn J.rreverse J.r.val rlo rhi) (hd : IsDirection J.rreverse)
  (hhi : rhi < 2 ^ 64) (hle : rlo ≤ rhi)

include hs hd hhi hle

theorem boundary_advance (hne : J.lscan = 0 → rlo < rhi) :
    Boundary (fun c => Before J.rreverse (J.r.val c) v) rlo rhi (J.advance v rlo rhi) := by
  unfold advance
  split_ifs with h1 h2
  · have hb := J.r.boundary_searchFrom rlo 0 hs hd (hne h2) hhi v false
    exact hb
  · obtain ⟨hw, hp⟩ := h1.resolve_left h2
    rw [reverse_mul_pos hd] at hp
    have hb := J.r.boundary_searchFrom rlo J.rscan (hs.mono (le_add_right _ _) le_rfl) hd
      (by omega) hhi v false
    refine hb.of_later (le_add_right _ _) fun i h3 h4 => ?_
    exact Before.not_trans hd (hs i (rlo + J.rscan) h3 h4.le (by omega)) hp
  · have hb := boundary_scanUp_sub (fun c => decide (0 < J.rreverse * atomCmp v (J.r.val c))) hle
    exact hb.congr fun i _ _ => by rw [decide_eq_true_iff, reverse_mul_pos hd]

theorem boundary_pass (hv : ∀ c, rlo ≤ c → c < rhi → ¬ Before J.rreverse (J.r.val c) v) :
    Boundary (fun c => J.r.val c = v) rlo rhi (J.pass v rlo rhi) := by
  have heq : ∀ c, rlo ≤ c → c < rhi → (Passed J.rreverse v true (J.r.val c) ↔ J.r.val c = v) := by
    intro c h1 h2
    constructor
    · exact fun hp => eq_of_not_before hd (hv c h1 h2) hp
    · rintro rfl
      exact before_irrefl hd
  unfold pass
  split_ifs with h
  · obtain ⟨hw, hz⟩ := h
    rw [atomCmp_eq_zero] at hz
    have hb := J.r.boundary_searchFrom rlo J.rscan (hs.mono (le_add_right _ _) le_rfl) hd
      (by omega) hhi v true
    have hb' := hb.congr fun c h1 h2 => heq c (by omega) h2
    refine hb'.of_later (le_add_right _ _) fun i h1 h2 => ?_
    refine (heq i h1 (by omega)).mp ?_
    rw [hz]
    exact hs i (rlo + J.rscan) h1 h2.le (by omega)
  · have hb := boundary_scanUp_sub (fun c => decide (atomCmp v (J.r.val c) = 0)) hle
    exact hb.congr fun i _ _ => by rw [decide_eq_true_iff, atomCmp_eq_zero, eq_comm]

theorem boundary_retreat :
    Boundary (fun c => ¬ Before J.rreverse v (J.r.val c)) rlo rhi (J.retreat v rlo rhi) := by
  unfold retreat
  split_ifs with h1 h2
  · exact J.r.boundary_searchUpTo 0 hs hd (by omega) hhi v true
  · obtain ⟨hw, hp⟩ := h1
    have hb := J.r.boundary_searchUpTo J.rscan (hs.mono le_rfl (by omega)) hd
      (by omega) hhi v true
    -- the value that chose the binary search already comes after `v`
    have hlt : J.r.searchUpTo rlo rhi J.rscan v J.rreverse true < rhi - J.rscan := by
      by_contra hge
      exact hb.below (rhi - J.rscan - 1) (by omega) (by omega) hp
    exact ⟨hb.lo_le, by omega, hb.below, fun _ => hb.stop hlt⟩
  · have hdown := hs.downward hd v true
    have hb := boundary_scanUp_sub (fun c => decide (¬ Before J.rreverse v (J.r.val c))) hle
    have hb' := hb.congr (q := fun c => ¬ Before J.rreverse v (J.r.val c)) fun i _ _ => by simp
    have heq := scanDown_eq (fun c => decide (J.rreverse * atomCmp v (J.r.val c) < 0))
      hb'.lo_le hb'.le_hi fun i h2 h3 => by
        rw [decide_eq_true_iff, ← not_lt, ← hb'.iff_lt hdown h2 h3, not_not]
        rfl
    rw [heq]
    exact hb'

theorem boundary_passDown (hv : ∀ c, rlo ≤ c → c < rhi → ¬ Before J.rreverse v (J.r.val c)) :
    Boundary (fun c => Before J.rreverse (J.r.val c) v) rlo rhi (J.passDown v rlo rhi) := by
  unfold passDown
  split_ifs with h
  · obtain ⟨hw, hz⟩ := h
    rw [atomCmp_eq_zero] at hz
    have hb := J.r.boundary_searchUpTo J.rscan (hs.mono le_rfl (by omega)) hd
      (by omega) hhi v false
    have hlt : J.r.searchUpTo rlo rhi J.rscan v J.rreverse false < rhi - J.rscan := by
      by_contra hge
      have hp : Before J.rreverse (J.r.val (rhi - J.rscan - 1)) v :=
        hb.below (rhi - J.rscan - 1) (by omega) (by omega)
      exact hp.ne hd hz.symm
    exact ⟨hb.lo_le, by omega, hb.below, fun _ => hb.stop hlt⟩
  · have hdown := hs.downward hd v false
    have hb := boundary_scanUp_sub (fun c => decide (Before J.rreverse (J.r.val c) v)) hle
    have hb' := hb.congr (q := fun c => Before J.rreverse (J.r.val c) v) fun i _ _ => by simp
    have heq := scanDown_eq (fun c => decide (atomCmp v (J.r.val c) = 0))
      hb'.lo_le hb'.le_hi fun i h1 h2 => by
        rw [decide_eq_true_iff, ← not_lt, ← hb'.iff_lt hdown h1 h2, atomCmp_eq_zero]
        constructor
        · rintro rfl
          exact before_irrefl hd
        · exact fun hn => eq_of_not_before hd (hv i h1 h2) hn
    rw [heq]
    exact hb'

end

end MergeJoin

namespace MergeJoin

variable (J : MergeJoin α) {v : α} {rlo rhi : ℕ} {m : ℕ × ℕ × ℕ}

/-! ## The right rows of one value -/

/-- On `[rlo, rhi)` the right values before `v` end at `a` and those after it start at `p`. -/
structure RunAt (v : α) (rlo rhi a p : ℕ) : Prop where
  lo_le : rlo ≤ a
  le : a ≤ p
  le_hi : p ≤ rhi
  before : ∀ i, rlo ≤ i → i < rhi → (Before J.rreverse (J.r.val i) v ↔ i < a)
  after : ∀ i, rlo ≤ i → i < rhi → (Before J.rreverse v (J.r.val i) ↔ p ≤ i)

namespace RunAt

variable {J} {a p : ℕ}

section

variable (h : J.RunAt v rlo rhi a p)

include h

theorem eq_iff (hd : IsDirection J.rreverse) {i : ℕ} (h1 : rlo ≤ i)
    (h2 : i < rhi) : J.r.val i = v ↔ a ≤ i ∧ i < p := by
  have hb := h.before i h1 h2
  have ha := h.after i h1 h2
  constructor
  · rintro rfl
    have h3 := mt hb.mpr (before_irrefl hd)
    have h4 := mt ha.mpr (before_irrefl hd)
    omega
  · rintro ⟨h3, h4⟩
    exact eq_of_not_before hd (mt hb.mp (by omega)) (mt ha.mp (by omega))

theorem matching_eq (hd : IsDirection J.rreverse) :
    matching v (J.r.rows rlo rhi) = (range' a (p - a)).map J.r.oid := by
  have hf : (J.r.rows rlo rhi).filter (fun y => y.2 = v) = J.r.rows a p :=
    filter_slice _ h.lo_le h.le h.le_hi fun i h1 h2 => by
      rw [decide_eq_true_iff]
      exact h.eq_iff hd h1 h2
  rw [matching, hf, Side.rows, slice, map_map]
  rfl

theorem filter_after :
    (J.r.rows rlo rhi).filter (fun y => Before J.rreverse v y.2) = J.r.rows p rhi :=
  filter_slice _ (le_trans h.lo_le h.le) h.le_hi le_rfl fun i h1 h2 => by
    rw [decide_eq_true_iff]
    exact (h.after i h1 h2).trans ⟨fun hp => ⟨hp, h2⟩, And.left⟩

theorem filter_before :
    (J.r.rows rlo rhi).filter (fun y => Before J.rreverse y.2 v) = J.r.rows rlo a :=
  filter_slice _ le_rfl h.lo_le (le_trans h.le h.le_hi) fun i h1 h2 => by
    rw [decide_eq_true_iff]
    exact (h.before i h1 h2).trans ⟨fun hi => ⟨h1, hi⟩, And.right⟩

end

end RunAt

section

variable (hs : SortedOn J.rreverse J.r.val rlo rhi) (hd : IsDirection J.rreverse)
  (hhi : rhi < 2 ^ 64) (hle : rlo ≤ rhi)

include hs hd hhi hle

theorem runAt_pass (hne : J.lscan = 0 → rlo < rhi) (v : α) :
    J.RunAt v rlo rhi (J.advance v rlo rhi) (J.pass v (J.advance v rlo rhi) rhi) := by
  have ha := J.boundary_advance (v := v) hs hd hhi hle hne
  have hdown := hs.downward hd v false
  have hge : ∀ c, J.advance v rlo rhi ≤ c → c < rhi → ¬ Before J.rreverse (J.r.val c) v :=
    fun c h1 h2 => ha.not_of_le hdown h1 h2
  have hp := J.boundary_pass (hs.mono ha.lo_le le_rfl) hd hhi ha.le_hi hge
  refine ⟨ha.lo_le, hp.lo_le, hp.le_hi, fun i h1 h2 => ha.iff_lt hdown h1 h2, fun i h1 h2 => ?_⟩
  constructor
  · intro hb
    by_contra hlt
    rcases lt_or_ge i (J.advance v rlo rhi) with h | h
    · exact (ha.below i h1 h).asymm hd hb
    · exact hb.ne hd (hp.below i h (by omega)).symm
  · intro hpi
    have hpv : J.r.val (J.pass v (J.advance v rlo rhi) rhi) ≠ v := hp.stop (by omega)
    have hmid := hge _ hp.lo_le (lt_of_le_of_lt hpi h2)
    have hb : Before J.rreverse v (J.r.val (J.pass v (J.advance v rlo rhi) rhi)) := by
      by_contra hn
      exact hpv (eq_of_not_before hd hmid hn)
    exact hb.trans_not hd (hs _ i (le_trans ha.lo_le hp.lo_le) hpi h2)

theorem runAt_passDown (v : α) :
    J.RunAt v rlo rhi (J.passDown v rlo (J.retreat v rlo rhi)) (J.retreat v rlo rhi) := by
  have hr := J.boundary_retreat (v := v) hs hd hhi hle
  have hdown := hs.downward hd v true
  have hp := J.boundary_passDown (hs.mono le_rfl hr.le_hi) hd (lt_of_le_of_lt hr.le_hi hhi)
    hr.lo_le (v := v) hr.below
  have hdown' := (hs.mono le_rfl hr.le_hi).downward hd v false
  refine ⟨hp.lo_le, hp.le_hi, hr.le_hi, fun i h1 h2 => ?_, fun i h1 h2 => ?_⟩
  · rcases lt_or_ge i (J.retreat v rlo rhi) with h | h
    · exact hp.iff_lt hdown' h1 h
    · have hafter : Before J.rreverse v (J.r.val i) := not_not.mp (hr.not_of_le hdown h h2)
      exact iff_of_false (hafter.asymm hd) (by have := hp.le_hi; omega)
  · rw [← not_lt, ← hr.iff_lt hdown h1 h2, not_not]

end

/-- The right rows that later rounds may still need. -/
def Later (v x : α) : Prop :=
  if J.equalOrder then Before J.rreverse v x else Before J.rreverse x v
  deriving Decidable

/-- What a round finds on the right for a value. -/
structure Matched (v : α) (rlo rhi : ℕ) (m : ℕ × ℕ × ℕ) : Prop where
  lo_le : rlo ≤ m.1
  le : m.1 ≤ m.2.1
  le_hi : m.2.1 ≤ rhi
  oids : J.rightOids m.1 m.2.1 m.2.2 = matching v (J.r.rows rlo rhi)
  count_lo : J.equalOrder = true → rlo + m.2.2 ≤ m.1
  count_hi : J.equalOrder = false → m.2.1 + m.2.2 ≤ rhi
  rest : J.r.rows m.1 m.2.1 = (J.r.rows rlo rhi).filter fun y => J.Later v y.2
  hi_eq : J.equalOrder = true → m.2.1 = rhi
  lo_eq : J.equalOrder = false → m.1 = rlo

theorem matched_matchRange (hs : SortedOn J.rreverse J.r.val rlo rhi)
    (hd : IsDirection J.rreverse) (hhi : rhi < 2 ^ 64) (hle : rlo ≤ rhi)
    (hne : J.lscan = 0 → rlo < rhi) (v : α) : J.Matched v rlo rhi (J.matchRange v rlo rhi) := by
  unfold matchRange
  by_cases he : J.equalOrder = true
  · have h := J.runAt_pass hs hd hhi hle hne v
    rw [if_pos he]
    have hlo := h.lo_le
    have hle' := h.le
    refine ⟨le_trans h.lo_le h.le, h.le_hi, le_refl _, ?_, fun _ => by dsimp only; omega,
      fun hf => absurd he (by simp [hf]), ?_, fun _ => rfl, fun hf => ?_⟩
    · rw [h.matching_eq hd, rightOids, if_pos he]
      simp only [Nat.sub_sub_self h.le]
    · rw [← h.filter_after]
      simp only [Later, he, if_true]
    · simp [he] at hf
  · have h := J.runAt_passDown hs hd hhi hle v
    rw [if_neg he]
    have hle' := h.le
    have hhi' := h.le_hi
    refine ⟨le_refl _, h.lo_le, le_trans h.le h.le_hi, ?_, fun ht => absurd ht he,
      fun _ => by dsimp only; omega, ?_, fun ht => absurd ht he, fun _ => rfl⟩
    · rw [h.matching_eq hd, rightOids, if_neg he]
    · rw [← h.filter_before]
      simp only [Later, he, if_false, Bool.false_eq_true]

theorem Matched.count_eq_zero {J : MergeJoin α} (h : J.Matched v rlo rhi m) :
    m.2.2 = 0 ↔ matching v (J.r.rows rlo rhi) = [] := by
  rw [← h.oids, rightOids]
  split_ifs <;> simp

/-- The right oids that one left row is paired with: all that match, or one of them for a
semijoin. -/
def picked (m : List ℕ) : List ℕ :=
  if J.semi then if J.equalOrder then m.drop (m.length - 1) else m.take 1 else m

theorem Matched.rightOids_eq {J : MergeJoin α} (h : J.Matched v rlo rhi m) (hne : m.2.2 ≠ 0) :
    J.rightOids m.1 m.2.1 (if J.semi then 1 else m.2.2) =
      J.picked (matching v (J.r.rows rlo rhi)) := by
  rw [← h.oids, picked]
  cases hs : J.semi with
  | false => rfl
  | true =>
    simp only [rightOids]
    split_ifs with he
    · -- the last of the run, since the cursor stands behind it
      have hle := h.count_lo he
      rw [← map_drop, length_map, length_range', drop_range', mul_one,
        show m.1 - m.2.2 + (m.2.2 - 1) = m.1 - 1 by omega,
        show m.2.2 - (m.2.2 - 1) = 1 by omega]
    · obtain ⟨n, hn⟩ := exists_eq_succ_of_ne_zero hne
      rw [hn]
      rfl

/-! ## One round

A round is described by the rows it visits, the pairs it appends and the right rows it keeps. -/

/-- The switches of an inner join. -/
structure Inner : Prop where
  nilMatches : J.nilMatches = false
  nilOnMiss : J.nilOnMiss = false
  semi : J.semi = false

/-- The left value looks for partners: it is not nil, or nils match. -/
def Takes (v : α) : Prop := J.nilMatches = true ∨ v ≠ ⊥
  deriving Decidable

theorem Inner.takes_iff {J : MergeJoin α} (h : J.Inner) : J.Takes v ↔ v ≠ ⊥ := by
  simp [Takes, h.nilMatches]

theorem lt_runEnd (li : ℕ) : li < J.runEnd li := by
  rcases lt_or_ge li J.l.hi with h | h
  · have hb := J.boundary_runEnd h
    by_contra hle
    have heq : J.runEnd li = li := le_antisymm (not_lt.mp hle) hb.lo_le
    exact hb.stop (heq.symm ▸ h) (by rw [heq])
  · rw [J.runEnd_of_le h]
    exact lt_add_one li

variable {li : ℕ} {st : MergeState α} {out : MergeState α × Bool} (R : List (ℕ × α))

theorem val_of_lt_runEnd {c : ℕ} (h1 : li ≤ c) (h2 : c < J.runEnd li) :
    J.l.val c = J.l.val li := by
  rcases lt_or_ge li J.l.hi with h | h
  · exact ((J.boundary_runEnd h).below c h1 h2).symm
  · rw [J.runEnd_of_le h] at h2
    obtain rfl : c = li := by omega
    rfl

/-- The run of left rows that a round visits. -/
def run (li : ℕ) : List (ℕ × α) := J.l.rows li (J.runEnd li)

theorem val_of_mem_run {x : ℕ × α} (h : x ∈ J.run li) : x.2 = J.l.val li := by
  obtain ⟨c, h1, h2, rfl⟩ := mem_slice.mp h
  exact J.val_of_lt_runEnd h1 h2

theorem emit_eq_joinRows (h : J.l.val li ≠ ⊥) :
    J.emit (J.runEnd li) (J.runEnd li - li) (matching (J.l.val li) R) = joinRows (J.run li) R := by
  have hlt := J.lt_runEnd li
  rw [emit, Nat.sub_sub_self hlt.le, joinRows, run, Side.rows, slice, flatMap_map]
  refine flatMap_congr fun c hc => ?_
  rw [mem_range'_1] at hc
  have hv : (J.l.row c).2 = J.l.val li := J.val_of_lt_runEnd hc.1 (by omega)
  rw [joinRow, hv, if_neg h]
  rfl

/-- The results after the run of left rows at `li` was paired with the right rows `m`, or with nil
if there are none. -/
def extend (st : MergeState α) (li : ℕ) (m : List ℕ) : JoinResult :=
  let res :=
    if m = [] then
      { st.res with
        r2 := { st.res.r2 with nil := true, nonil := false, tsorted := false,
                               trevsorted := false } }
    else st.res
  let right := if m = [] then [oidNil] else J.picked m
  let props := J.maintainProps res st.prev (J.l.val li) (J.runEnd li - li) right.length
  ⟨res.pairs ++ J.emit (J.runEnd li) (J.runEnd li - li) right, props.1, props.2⟩

/-- What a round does that visits the left rows from `li` on, with the right range starting at
`rlo`: unless it skips the run, it keeps the right rows that later rounds may need; it leaves the
loop when the value was not found and no right row is left. -/
structure Round (st : MergeState α) (li rlo : ℕ) (out : MergeState α × Bool) : Prop where
  li_eq : out.1.li = J.runEnd li
  lo_le : rlo ≤ out.1.rlo
  le : out.1.rlo ≤ out.1.rhi
  le_hi : out.1.rhi ≤ st.rhi
  hi_eq : J.equalOrder = true → out.1.rhi = st.rhi
  lo_eq : J.equalOrder = false → out.1.rlo = rlo
  skip : ¬ J.Takes (J.l.val li) → out.1.rlo = rlo ∧ out.1.rhi = st.rhi
  rest : J.Takes (J.l.val li) →
    J.r.rows out.1.rlo out.1.rhi = (J.r.rows rlo st.rhi).filter fun y => J.Later (J.l.val li) y.2
  same : (¬ J.Takes (J.l.val li) ∨
      matching (J.l.val li) (J.r.rows rlo st.rhi) = [] ∧ J.nilOnMiss = false) →
    out.1.res = st.res ∧ out.1.prev = st.prev
  found : J.Takes (J.l.val li) →
    (matching (J.l.val li) (J.r.rows rlo st.rhi) ≠ [] ∨ J.nilOnMiss = true) →
    out.1.res = J.extend st li (matching (J.l.val li) (J.r.rows rlo st.rhi)) ∧
      out.1.prev = if J.lscan = 0 then some (J.l.val li) else st.prev
  stop : out.2 = true ↔ J.Takes (J.l.val li) ∧
    matching (J.l.val li) (J.r.rows rlo st.rhi) = [] ∧ J.nilOnMiss = false ∧
    0 < J.lscan ∧ out.1.rlo = out.1.rhi

section Iter

variable {J} {st : MergeState α} {li rlo : ℕ}

section

variable (hrlo : rlo = if J.lscan = 0 then J.r.lo else st.rlo) (hli : li = J.gallop st.li rlo)

include hrlo hli

theorem iter_skip (hv : ¬ J.Takes (J.l.val li)) :
    J.iter st = ({ st with li := J.runEnd li, rlo := rlo }, false) := by
  rw [Takes, not_or, not_not] at hv
  simp only [iter, ← hrlo, ← hli]
  rw [if_pos (by simp [hv])]

theorem iter_takes (hv : J.Takes (J.l.val li)) (hm : J.matchRange (J.l.val li) rlo st.rhi = m)
    (h : J.Matched (J.l.val li) rlo st.rhi m) :
    J.iter st =
      if matching (J.l.val li) (J.r.rows rlo st.rhi) = [] ∧ J.nilOnMiss = false then
        ({ st with li := J.runEnd li, rlo := m.1, rhi := m.2.1 },
          decide (0 < J.lscan ∧ m.1 = m.2.1))
      else
        ({ li := J.runEnd li, rlo := m.1, rhi := m.2.1
           prev := if J.lscan = 0 then some (J.l.val li) else st.prev
           res := J.extend st li (matching (J.l.val li) (J.r.rows rlo st.rhi)) }, false) := by
  have hz := h.count_eq_zero
  have hnil : ¬ ((!J.nilMatches && atomCmp (J.l.val li) ⊥ == 0) = true) := by
    rcases hv with hv | hv <;> simp [hv]
  simp only [iter, ← hrlo, ← hli, hm]
  rw [if_neg hnil]
  simp only [hz, Bool.not_eq_true']
  by_cases hmiss : matching (J.l.val li) (J.r.rows rlo st.rhi) = [] ∧ J.nilOnMiss = false
  · rw [if_pos hmiss, if_pos hmiss]
  by_cases hone : matching (J.l.val li) (J.r.rows rlo st.rhi) = []
  · -- a miss that is paired with nil
    simp only [extend, hone, if_true, true_or, length_singleton]
  · have hp := h.rightOids_eq (mt hz.mp hone)
    have hlen : (J.rightOids m.1 m.2.1 (if J.semi = true then 1 else m.2.2)).length =
        if J.semi = true then 1 else m.2.2 := by
      rw [rightOids]
      split_ifs <;> simp
    simp only [extend, hone, if_false, false_or, ← hp, hlen]

/-- **One round of the loop.** -/
theorem iter_round (hs : SortedOn J.rreverse J.r.val rlo st.rhi)
    (hd : IsDirection J.rreverse) (hhi : st.rhi < 2 ^ 64) (hle : rlo ≤ st.rhi)
    (hne : J.lscan = 0 → rlo < st.rhi) : J.Round st li rlo (J.iter st) := by
  by_cases hv : J.Takes (J.l.val li)
  · have hm := J.matched_matchRange hs hd hhi hle hne (J.l.val li)
    rw [iter_takes hrlo hli hv rfl hm]
    by_cases hmiss : matching (J.l.val li) (J.r.rows rlo st.rhi) = [] ∧ J.nilOnMiss = false
    -- no partner and no nil for it: the loop may end
    · rw [if_pos hmiss]
      refine ⟨rfl, hm.lo_le, hm.le, hm.le_hi, hm.hi_eq, hm.lo_eq, fun h => absurd hv h,
        fun _ => hm.rest, fun _ => ⟨rfl, rfl⟩, fun _ h => ?_, ?_⟩
      · rcases h with h | h
        · exact absurd hmiss.1 h
        · simp [hmiss.2] at h
      · simp only [decide_eq_true_iff]
        exact ⟨fun h => ⟨hv, hmiss.1, hmiss.2, h⟩, fun h => h.2.2.2⟩
    · rw [if_neg hmiss]
      refine ⟨rfl, hm.lo_le, hm.le, hm.le_hi, hm.hi_eq, hm.lo_eq, fun h => absurd hv h,
        fun _ => hm.rest, fun h => absurd (h.resolve_left (not_not.mpr hv)) hmiss,
        fun _ _ => ⟨rfl, rfl⟩, ?_⟩
      simp only [Bool.false_eq_true, false_iff]
      exact fun h => hmiss ⟨h.2.1, h.2.2.1⟩
  · rw [iter_skip hrlo hli hv]
    refine ⟨rfl, le_rfl, hle, le_rfl, fun _ => rfl, fun _ => rfl, fun _ => ⟨rfl, rfl⟩,
      fun h => absurd h hv, fun _ => ⟨rfl, rfl⟩, fun h => absurd h hv, ?_⟩
    simp [hv]

end

end Iter

/-- What a round of an inner join does that visits the left rows from `li` on, with the right range
starting at `rlo`: it appends the pairs of the run, keeps the right rows that later rounds may need,
and leaves the loop when the value was not found and no right row is left. -/
structure Visit (st : MergeState α) (li rlo : ℕ) (out : MergeState α × Bool) : Prop where
  li_eq : out.1.li = J.runEnd li
  pairs_eq : out.1.res.pairs = st.res.pairs ++ joinRows (J.run li) (J.r.rows rlo st.rhi)
  lo_le : rlo ≤ out.1.rlo
  le : out.1.rlo ≤ out.1.rhi
  le_hi : out.1.rhi ≤ st.rhi
  hi_eq : J.equalOrder = true → out.1.rhi = st.rhi
  lo_eq : J.equalOrder = false → out.1.rlo = rlo
  rest_nil : J.l.val li = ⊥ → out.1.rlo = rlo ∧ out.1.rhi = st.rhi
  rest : J.l.val li ≠ ⊥ →
    J.r.rows out.1.rlo out.1.rhi = (J.r.rows rlo st.rhi).filter fun y => J.Later (J.l.val li) y.2
  stop : out.2 = true ↔ J.l.val li ≠ ⊥ ∧ matching (J.l.val li) (J.r.rows rlo st.rhi) = [] ∧
    0 < J.lscan ∧ out.1.rlo = out.1.rhi

theorem Round.visit {J : MergeJoin α} (hJ : J.Inner) {rlo : ℕ}
    (h : J.Round st li rlo out) : J.Visit st li rlo out := by
  have htakes : J.Takes (J.l.val li) ↔ J.l.val li ≠ ⊥ := hJ.takes_iff
  refine ⟨h.li_eq, ?_, h.lo_le, h.le, h.le_hi, h.hi_eq, h.lo_eq,
    fun hv => h.skip (mt htakes.mp (not_not.mpr hv)), fun hv => h.rest (htakes.mpr hv), ?_⟩
  · by_cases hv : J.l.val li = ⊥
    · rw [(h.same (.inl (mt htakes.mp (not_not.mpr hv)))).1, joinRows_eq_nil.mpr fun _ hx hp =>
        hp.1 ((J.val_of_mem_run hx).trans hv), append_nil]
    · have hemit := J.emit_eq_joinRows (J.r.rows rlo st.rhi) hv
      by_cases hm : matching (J.l.val li) (J.r.rows rlo st.rhi) = []
      · rw [(h.same (.inr ⟨hm, hJ.nilOnMiss⟩)).1, ← hemit, hm]
        simp [emit]
      · rw [(h.found (htakes.mpr hv) (.inl hm)).1]
        simp only [extend, hm, if_false, picked, hJ.semi, Bool.false_eq_true]
        rw [hemit]
  · rw [h.stop, htakes]
    simp only [hJ.nilOnMiss, true_and]

/-! ## The loop

These are the parts of the induction over the rounds that do not depend on the directions. -/

/-- What all rounds of a merge join have in common: the right rows are sorted in the direction in
which they are searched. -/
structure Searchable : Prop where
  ldir : IsDirection J.lreverse
  rdir : IsDirection J.rreverse
  lsmall : J.l.hi < 2 ^ 64
  rsmall : J.r.hi < 2 ^ 64
  rsorted : SortedOn J.rreverse J.r.val J.r.lo J.r.hi

/-- An inner join whose right rows are sorted in the direction in which they are searched, and not
empty. -/
structure Sound : Prop where
  inner : J.Inner
  ldir : IsDirection J.lreverse
  rdir : IsDirection J.rreverse
  lsmall : J.l.hi < 2 ^ 64
  rsmall : J.r.hi < 2 ^ 64
  rsorted : SortedOn J.rreverse J.r.val J.r.lo J.r.hi
  rne : J.r.lo < J.r.hi

/-- The right range of a state lies in the right rows. -/
structure InRange (st : MergeState α) : Prop where
  lo_le : J.r.lo ≤ st.rlo
  le : st.rlo ≤ st.rhi
  le_hi : st.rhi ≤ J.r.hi

/-- The right rows of a state. -/
def right (st : MergeState α) : List (ℕ × α) := J.r.rows st.rlo st.rhi

/-- The left rows from a cursor on. -/
def left (li : ℕ) : List (ℕ × α) := J.l.rows li J.l.hi

/-- The row behind the last left row. -/
def behind : ℕ × α := J.l.row J.l.hi

variable {J}

theorem Sound.searchable (h : J.Sound) : J.Searchable :=
  ⟨h.ldir, h.rdir, h.lsmall, h.rsmall, h.rsorted⟩

theorem loop_of_le (h : J.l.hi ≤ st.li) (n : ℕ) : J.loop n st = st := by
  cases n with
  | zero => rfl
  | succ n => rw [loop, if_neg (not_lt.mpr h)]

omit [Atom α] in
/-- Induction over the rounds of a loop, of which there are enough. -/
@[elab_as_elim]
theorem rounds_induction {motive : (n : ℕ) → (st : MergeState α) → J.l.hi - st.li ≤ n → Prop}
    (done : ∀ n st hn, J.l.hi ≤ st.li → motive n st hn)
    (round : ∀ n st hn, st.li < J.l.hi → (∀ st' hn', motive n st' hn') → motive (n + 1) st hn)
    (n : ℕ) (st : MergeState α) (hn : J.l.hi - st.li ≤ n) : motive n st hn := by
  induction n generalizing st with
  | zero => exact done 0 st hn (by omega)
  | succ n ih =>
    rcases lt_or_ge st.li J.l.hi with hli | hli
    · exact round n st hn hli ih
    · exact done _ st hn hli

theorem loop_succ (h : st.li < J.l.hi) (n : ℕ) :
    J.loop (n + 1) st = if (J.iter st).2 then (J.iter st).1 else J.loop n (J.iter st).1 := by
  rw [loop, if_pos h]

omit [Atom α] in
theorem left_eq_nil (h : J.l.hi ≤ li) : J.left li = [] := slice_eq_nil _ h

theorem left_eq_append (h : li < J.l.hi) : J.left li = J.run li ++ J.left (J.runEnd li) :=
  slice_append _ (J.lt_runEnd li).le (J.boundary_runEnd h).le_hi

theorem run_behind : J.run J.l.hi = [J.behind] := by
  rw [run, J.runEnd_of_le le_rfl, Side.rows, slice_cons _ (lt_add_one _),
    slice_eq_nil _ le_rfl]
  rfl

/-- In a sorted left column the rest after a run comes after it. -/
theorem startsWith_run {reverse : ℤ} (hd : IsDirection reverse) (h : li < J.l.hi)
    (hs : SortedOn reverse J.l.val li J.l.hi) :
    StartsWith reverse (J.l.val li) (J.run li) (J.left (J.runEnd li)) where
  run_ne hnil := by
    have hlt := J.lt_runEnd li
    rw [run, Side.rows, slice_eq_nil_iff] at hnil
    omega
  run_eq x hx := J.val_of_mem_run hx
  after x hx := by
    obtain ⟨c, h1, h2, rfl⟩ := mem_slice.mp hx
    have hb := J.boundary_runEnd h
    have hne := hb.stop (lt_of_le_of_lt h1 h2)
    -- the first value behind the run differs, and everything later is not before it
    have hfirst : Before reverse (J.l.val li) (J.l.val (J.runEnd li)) := by
      by_contra hn
      exact hne (eq_of_not_before hd hn (hs li _ le_rfl hb.lo_le (lt_of_le_of_lt h1 h2)))
    exact hfirst.trans_not hd (hs _ c hb.lo_le h1 h2)

/-- A round started in a good state visits the rows the gallop leads to. -/
theorem Searchable.round (hJ : J.Searchable) (hscan : 0 < J.lscan)
    (h : J.InRange st) : J.Round st (J.gallop st.li st.rlo) st.rlo (J.iter st) :=
  iter_round (if_neg hscan.ne').symm rfl (hJ.rsorted.mono h.lo_le h.le_hi) hJ.rdir
    (lt_of_le_of_lt h.le_hi hJ.rsmall) h.le fun h0 => absurd h0 hscan.ne'

theorem Sound.visit (hJ : J.Sound) (hscan : 0 < J.lscan) (h : J.InRange st) :
    J.Visit st (J.gallop st.li st.rlo) st.rlo (J.iter st) :=
  (hJ.searchable.round hscan h).visit hJ.inner

/-- With an unsorted left column, a round searches all right rows. -/
theorem Searchable.round_unsorted (hJ : J.Searchable) (hscan : J.lscan = 0)
    (hne : J.r.lo < J.r.hi) (hhi : st.rhi = J.r.hi) :
    J.Round st st.li J.r.lo (J.iter st) :=
  iter_round (if_pos hscan).symm (by simp [gallop, hscan]) (hhi ▸ hJ.rsorted) hJ.rdir
    (hhi ▸ hJ.rsmall) (hhi ▸ hne.le) fun _ => hhi ▸ hne

theorem Round.inRange (hv : J.Round st li st.rlo out) (h : J.InRange st) : J.InRange out.1 :=
  ⟨le_trans h.lo_le hv.lo_le, hv.le, le_trans hv.le_hi h.le_hi⟩

theorem Visit.inRange (hv : J.Visit st li st.rlo out) (h : J.InRange st) : J.InRange out.1 :=
  ⟨le_trans h.lo_le hv.lo_le, hv.le, le_trans hv.le_hi h.le_hi⟩

/-- An unsorted left column: the right rows are searched completely for every run. -/
theorem Sound.loop_unsorted (hJ : J.Sound) (hscan : J.lscan = 0) (he : J.equalOrder = true)
    (st : MergeState α) (n : ℕ) (hn : J.l.hi - st.li ≤ n) (hhi : st.rhi = J.r.hi) :
    (J.loop n st).res.pairs =
      st.res.pairs ++ joinRows (J.left st.li) (J.r.rows J.r.lo J.r.hi) := by
  induction n, st, hn using rounds_induction with
  | done n st hn hli => rw [loop_of_le hli, left_eq_nil hli, joinRows_nil_left, append_nil]
  | round n st hn hli ih =>
    have hv := (hJ.searchable.round_unsorted hscan hJ.rne hhi).visit hJ.inner
    have hstop : ¬ (J.iter st).2 = true := fun hs => by
      have h1 := (hv.stop.mp hs).2.2.1
      omega
    have hlt := J.lt_runEnd st.li
    rw [loop_succ hli, if_neg hstop, ih _ (by rw [hv.li_eq]; omega) ((hv.hi_eq he).trans hhi),
      hv.pairs_eq, hv.li_eq, hhi, left_eq_append hli, joinRows_append, append_assoc]

/-- Once no right row is left, nothing more is found. -/
theorem Sound.loop_exhausted (hJ : J.Sound) (hscan : 0 < J.lscan) (n : ℕ)
    (h : J.InRange st) (hempty : st.rlo = st.rhi) :
    (J.loop n st).res.pairs = st.res.pairs := by
  induction n generalizing st with
  | zero => rfl
  | succ n ih =>
    rcases lt_or_ge st.li J.l.hi with hli | hli
    · have hv := hJ.visit hscan h
      have hpairs : (J.iter st).1.res.pairs = st.res.pairs := by
        rw [hv.pairs_eq, Side.rows, slice_eq_nil _ hempty.symm.le, joinRows_nil_right, append_nil]
      have hempty' : (J.iter st).1.rlo = (J.iter st).1.rhi := by
        have h1 := hv.lo_le
        have h2 := hv.le
        have h3 := hv.le_hi
        omega
      rw [loop_succ hli]
      split_ifs
      · exact hpairs
      · rw [ih (hv.inRange h) hempty', hpairs]
    · rw [loop_of_le hli]

end MergeJoin

end MonetInR.Gdk
