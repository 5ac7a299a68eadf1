import Mathlib.Data.Nat.Count
import Mathlib.Tactic.Linarith

/-!
# Searching an interval of positions

A search over the positions `lo, lo + 1, …, hi - 1` looks for the place where a test `p` stops
holding.  This module collects the loops that find it (a step-by-step scan from either end, a
halving loop, and a gallop that looks in steps that double before it halves) and the one notion
they all compute.

## Main definitions

* `Boundary p lo hi k`: `p` holds on `[lo, k)` and fails at `k`, unless `k = hi`
* `scanUp`, `scanDown`: the linear loops
* `halve`: the halving loop between a position where `q` fails and one where it holds
* `scanUpTests`, `scanDownTests`, `halveTests`: the positions at which these loops look
* `slice`: what an indexed sequence holds on an interval, as a list
* `bisect`, `gallopOut`, `gallop`: halving a half-open interval, and galloping from a guess

## Main results

* `Boundary.unique`: a boundary is determined by the test and the interval
* `boundary_scanUp`, `boundary_halve`, `boundary_gallop`: the loops find it
* `scanDown_eq`: scanning down over a test that holds on an upper part finds its lower end
* `filter_slice`: filtering a slice by a test that holds on an interval is a smaller slice
-/

namespace IntervalSearch

open List Nat

/-- `k` is the first position of `[lo, hi)` at which `p` fails, and `hi` if there is none. -/
structure Boundary (p : ℕ → Prop) (lo hi k : ℕ) : Prop where
  lo_le : lo ≤ k
  le_hi : k ≤ hi
  below : ∀ i, lo ≤ i → i < k → p i
  stop : k < hi → ¬ p k

/-- A test that, once failed, stays failed on the interval. -/
def Downward (p : ℕ → Prop) (lo hi : ℕ) : Prop := ∀ i j, lo ≤ i → i ≤ j → j < hi → p j → p i

variable {p q : ℕ → Prop} {lo lo' hi k k' i n hint : ℕ}

section

variable (h : Boundary p lo hi k)

include h

theorem Boundary.unique (h' : Boundary p lo hi k') : k = k' := by
  rcases lt_trichotomy k k' with hlt | heq | hgt
  · exact absurd (h'.below k h.lo_le hlt) (h.stop (lt_of_lt_of_le hlt h'.le_hi))
  · exact heq
  · exact absurd (h.below k' h'.lo_le hgt) (h'.stop (lt_of_lt_of_le hgt h.le_hi))

/-- Past the boundary of a downward test, the test fails. -/
theorem Boundary.not_of_le (hd : Downward p lo hi) (hk : k ≤ i) (hi' : i < hi) : ¬ p i := fun hp =>
  h.stop (lt_of_le_of_lt hk hi') (hd k i h.lo_le hk hi' hp)

/-- On the interval, a downward test holds exactly below its boundary. -/
theorem Boundary.iff_lt (hd : Downward p lo hi) (hlo : lo ≤ i) (hi' : i < hi) : p i ↔ i < k := by
  constructor
  · intro hp
    by_contra hk
    exact h.not_of_le hd (not_lt.mp hk) hi' hp
  · exact h.below i hlo

theorem Boundary.congr (hpq : ∀ i, lo ≤ i → i < hi → (p i ↔ q i)) :
    Boundary q lo hi k where
  lo_le := h.lo_le
  le_hi := h.le_hi
  below i hlo hk := (hpq i hlo (lt_of_lt_of_le hk h.le_hi)).mp (h.below i hlo hk)
  stop hk hq := h.stop hk ((hpq k h.lo_le hk).mpr hq)

end

/-- A search may start later when the test is known to hold before. -/
theorem Boundary.of_later (h : Boundary p lo' hi k) (hlo : lo ≤ lo')
    (hp : ∀ i, lo ≤ i → i < lo' → p i) : Boundary p lo hi k where
  lo_le := le_trans hlo h.lo_le
  le_hi := h.le_hi
  below i hi' hk := by
    rcases lt_or_ge i lo' with hlt | hge
    · exact hp i hi' hlt
    · exact h.below i hge hk
  stop := h.stop

theorem Boundary.first (hle : lo ≤ hi) (h : lo < hi → ¬ p lo) : Boundary p lo hi lo :=
  ⟨le_rfl, hle, fun _ h1 h2 => absurd h2 (not_lt.mpr h1), h⟩

theorem Boundary.last (hle : lo ≤ hi) (h : ∀ i, lo ≤ i → i < hi → p i) : Boundary p lo hi hi :=
  ⟨hle, le_rfl, h, fun h => absurd h (lt_irrefl _)⟩

/-- A search may end earlier, where the test is known to fail. -/
theorem Boundary.of_earlier (h : Boundary p lo lo' k) (hle : lo' ≤ hi) (hp : lo' < hi → ¬ p lo') :
    Boundary p lo hi k where
  lo_le := h.lo_le
  le_hi := h.le_hi.trans hle
  below := h.below
  stop hk := by
    rcases h.le_hi.lt_or_eq with hlt | rfl
    · exact h.stop hlt
    · exact hp hk

/-! ## The linear loops

The number of steps is bounded by the length of the interval, so that a loop stops at its other end
at the latest. -/

/-- Step up from `lo` while `p` holds, at most `n` times. -/
def scanUp (p : ℕ → Bool) (lo : ℕ) : ℕ → ℕ
  | 0 => lo
  | n + 1 => if p lo then scanUp p (lo + 1) n else lo

/-- Step down from `hi` while `p` holds just below, at most `n` times. -/
def scanDown (p : ℕ → Bool) (hi : ℕ) : ℕ → ℕ
  | 0 => hi
  | n + 1 => if p (hi - 1) then scanDown p (hi - 1) n else hi

theorem boundary_scanUp (p : ℕ → Bool) (lo n : ℕ) :
    Boundary (fun i => p i = true) lo (lo + n) (scanUp p lo n) := by
  induction n generalizing lo with
  | zero => exact .first le_rfl fun h => absurd h (lt_irrefl _)
  | succ n ih =>
    by_cases hp : p lo = true
    · have hb := ih (lo + 1)
      rw [show lo + 1 + n = lo + (n + 1) by omega] at hb
      rw [scanUp, if_pos hp]
      refine hb.of_later (le_succ lo) fun i h1 h2 => ?_
      obtain rfl : i = lo := by omega
      exact hp
    · rw [scanUp, if_neg hp]
      exact .first (le_add_right _ _) fun _ => hp

/-- The scan over a whole interval. -/
theorem boundary_scanUp_sub (p : ℕ → Bool) (h : lo ≤ hi) :
    Boundary (fun i => p i = true) lo hi (scanUp p lo (hi - lo)) := by
  have hb := boundary_scanUp p lo (hi - lo)
  rwa [Nat.add_sub_cancel' h] at hb

/-- Scanning down over a test that holds exactly on `[k, hi)` stops at `k`. -/
theorem scanDown_eq (p : ℕ → Bool) (hlo : lo ≤ k) (hk : k ≤ hi)
    (hp : ∀ i, lo ≤ i → i < hi → (p i = true ↔ k ≤ i)) :
    scanDown p hi (hi - lo) = k := by
  obtain ⟨n, rfl⟩ := Nat.exists_eq_add_of_le hk
  induction n with
  | zero =>
    rcases Nat.eq_zero_or_pos (k + 0 - lo) with h0 | h0
    · rw [h0]; rfl
    · obtain ⟨m, hm⟩ := Nat.exists_eq_succ_of_ne_zero h0.ne'
      have hf : ¬ p (k + 0 - 1) = true := fun ht => by
        have := (hp (k + 0 - 1) (by omega) (by omega)).mp ht
        omega
      rw [hm, scanDown, if_neg hf]
      rfl
  | succ n ih =>
    have ht : p (k + (n + 1) - 1) = true := (hp _ (by omega) (by omega)).mpr (by omega)
    rw [show k + (n + 1) - lo = (k + n - lo) + 1 by omega, scanDown, if_pos ht]
    exact ih (by omega) fun i h1 h2 => hp i h1 (by omega)

/-! ## The halving loop -/

/-- While more than one position lies between `lo` and `hi`, test the middle one: `hi` moves
there if `q` holds, `lo` otherwise.  The answer is `hi`. -/
def halve (q : ℕ → Bool) : ℕ → ℕ → ℕ → ℕ
  | 0, _, hi => hi
  | n + 1, lo, hi =>
    if 1 < hi - lo then
      if q ((hi + lo) / 2) then halve q n lo ((hi + lo) / 2) else halve q n ((hi + lo) / 2) hi
    else hi

/-- The halving loop keeps `q` failing at `lo` and holding at `hi`, so it ends at the first
position where `q` holds. -/
theorem boundary_halve (q : ℕ → Bool) (n : ℕ) (hn : hi - lo ≤ n) (hlt : lo < hi)
    (hd : Downward (fun i => q i = false) lo (hi + 1)) (h1 : q lo = false) (h2 : q hi = true) :
    Boundary (fun i => q i = false) lo hi (halve q n lo hi) := by
  induction n generalizing lo hi with
  | zero => omega
  | succ n ih =>
    by_cases hgap : 1 < hi - lo
    · rw [halve, if_pos hgap]
      have hm1 : lo < (hi + lo) / 2 := by omega
      have hm2 : (hi + lo) / 2 < hi := by omega
      split_ifs with hq
      · have hb := ih (by omega) hm1 (fun i j hi' hij hj => hd i j hi' hij (by omega)) h1 hq
        exact hb.of_earlier hm2.le fun _ => by simp [hq]
      · have hq' : q ((hi + lo) / 2) = false := by simpa using hq
        have hb := ih (by omega) hm2 (fun i j hi' hij hj => hd i j (by omega) hij hj) hq' h2
        exact hb.of_later hm1.le fun i hi' hi'' =>
          hd i ((hi + lo) / 2) hi' hi''.le (by omega) hq'
    · rw [halve, if_neg hgap]
      refine .last hlt.le fun i hi' hi'' => ?_
      obtain rfl : i = lo := by omega
      exact h1

/-! ## The positions that the loops test

A loop that finds the right boundary may still look outside of the interval on the way, so the tests
are listed on their own. -/

/-- The positions that `scanUp` tests, in order. -/
def scanUpTests (p : ℕ → Bool) (lo : ℕ) : ℕ → List ℕ
  | 0 => []
  | n + 1 => lo :: if p lo then scanUpTests p (lo + 1) n else []

/-- The positions that `scanDown` tests, in order. -/
def scanDownTests (p : ℕ → Bool) (hi : ℕ) : ℕ → List ℕ
  | 0 => []
  | n + 1 => (hi - 1) :: if p (hi - 1) then scanDownTests p (hi - 1) n else []

/-- The positions that `halve` tests, in order. -/
def halveTests (q : ℕ → Bool) : ℕ → ℕ → ℕ → List ℕ
  | 0, _, _ => []
  | n + 1, lo, hi =>
    if 1 < hi - lo then
      (hi + lo) / 2 ::
        if q ((hi + lo) / 2) then halveTests q n lo ((hi + lo) / 2)
        else halveTests q n ((hi + lo) / 2) hi
    else []

theorem of_mem_scanUpTests {p : ℕ → Bool} {lo : ℕ} (h : i ∈ scanUpTests p lo n) :
    lo ≤ i ∧ i < lo + n := by
  induction n generalizing lo with
  | zero => exact absurd h not_mem_nil
  | succ n ih =>
    rcases mem_cons.mp h with rfl | h
    · exact ⟨le_rfl, by omega⟩
    · split_ifs at h
      · have := ih h
        omega
      · exact absurd h not_mem_nil

theorem of_mem_scanDownTests {p : ℕ → Bool} {hi : ℕ} (hn : n ≤ hi) (h : i ∈ scanDownTests p hi n) :
    hi - n ≤ i ∧ i < hi := by
  induction n generalizing hi with
  | zero => exact absurd h not_mem_nil
  | succ n ih =>
    rcases mem_cons.mp h with rfl | h
    · omega
    · split_ifs at h
      · have := ih (by omega) h
        omega
      · exact absurd h not_mem_nil

theorem of_mem_halveTests {q : ℕ → Bool} {lo hi : ℕ} (h : i ∈ halveTests q n lo hi) :
    lo < i ∧ i < hi := by
  induction n generalizing lo hi with
  | zero => exact absurd h not_mem_nil
  | succ n ih =>
    rw [halveTests] at h
    split_ifs at h with hgap hq
    · rcases mem_cons.mp h with rfl | h
      · omega
      · have := ih h
        omega
    · rcases mem_cons.mp h with rfl | h
      · omega
      · have := ih h
        omega
    · exact absurd h not_mem_nil

/-! ## Slices of a sequence -/

section Slice

variable {β : Type*} (f : ℕ → β) {g : ℕ → β} (P : β → Bool)

/-- The values of a sequence on `[lo, hi)`. -/
def slice (lo hi : ℕ) : List β := (range' lo (hi - lo)).map f

@[simp] theorem length_slice (lo hi : ℕ) : (slice f lo hi).length = hi - lo := by
  simp [slice]

theorem slice_eq_nil (h : hi ≤ lo) : slice f lo hi = [] := by
  simp [slice, Nat.sub_eq_zero_of_le h]

theorem slice_cons (h : lo < hi) : slice f lo hi = f lo :: slice f (lo + 1) hi := by
  rw [slice, show hi - lo = (hi - (lo + 1)) + 1 by omega]
  rfl

theorem slice_snoc (h : lo ≤ hi) : slice f lo (hi + 1) = slice f lo hi ++ [f hi] := by
  rw [slice, slice, show hi + 1 - lo = hi - lo + 1 by omega, range'_1_concat, map_append,
    Nat.add_sub_cancel' h, map_singleton]

theorem slice_append (h1 : lo ≤ k) (h2 : k ≤ hi) :
    slice f lo hi = slice f lo k ++ slice f k hi := by
  rw [slice, slice, slice, ← map_append, show hi - lo = (k - lo) + (hi - k) by omega,
    ← range'_append_1, Nat.add_sub_cancel' h1]

variable {f}

theorem mem_slice {x : β} : x ∈ slice f lo hi ↔ ∃ i, lo ≤ i ∧ i < hi ∧ f i = x := by
  simp only [slice, mem_map, mem_range'_1]
  constructor
  · rintro ⟨i, ⟨h1, h2⟩, rfl⟩
    exact ⟨i, h1, by omega, rfl⟩
  · rintro ⟨i, h1, h2, rfl⟩
    exact ⟨i, ⟨h1, by omega⟩, rfl⟩

theorem forall_slice {P : β → Prop} :
    (∀ x ∈ slice f lo hi, P x) ↔ ∀ i, lo ≤ i → i < hi → P (f i) := by
  refine ⟨fun h i h1 h2 => h _ (mem_slice.mpr ⟨i, h1, h2, rfl⟩), fun h x hx => ?_⟩
  obtain ⟨i, h1, h2, rfl⟩ := mem_slice.mp hx
  exact h i h1 h2

theorem slice_congr (h : ∀ i, lo ≤ i → i < hi → f i = g i) : slice f lo hi = slice g lo hi := by
  refine map_congr_left fun i hi => ?_
  rw [mem_range'_1] at hi
  exact h i hi.1 (by omega)

/-- A sequence that agrees with `f` on an interval except at `p`. -/
theorem slice_of_eq_off {p : ℕ} (h1 : lo ≤ p) (h2 : p < hi)
    (hg : ∀ i, lo ≤ i → i < hi → i ≠ p → g i = f i) :
    slice g lo hi = slice f lo p ++ g p :: slice f (p + 1) hi := by
  rw [slice_append g h1 h2.le, slice_cons g h2]
  congr 1
  · exact slice_congr fun i h h' => hg i h (h'.trans h2) h'.ne
  · rw [slice_congr fun i h h' => hg i (by omega) h' (by omega)]

theorem slice_split {p : ℕ} (h1 : lo ≤ p) (h2 : p < hi) :
    slice f lo hi = slice f lo p ++ f p :: slice f (p + 1) hi :=
  slice_of_eq_off h1 h2 fun _ _ _ _ => rfl

theorem slice_eq_nil_iff : slice f lo hi = [] ↔ hi ≤ lo := by
  rw [← length_eq_zero_iff, length_slice, Nat.sub_eq_zero_iff_le]

/-- A test that holds exactly on `[k, k')` cuts that part out of a slice. -/
theorem filter_slice (h1 : lo ≤ k) (h2 : k ≤ k') (h3 : k' ≤ hi)
    (hP : ∀ i, lo ≤ i → i < hi → (P (f i) = true ↔ k ≤ i ∧ i < k')) :
    (slice f lo hi).filter P = slice f k k' := by
  rw [slice_append f h1 (le_trans h2 h3), slice_append f h2 h3, filter_append, filter_append]
  have hlow : (slice f lo k).filter P = [] := by
    refine filter_eq_nil_iff.mpr (forall_slice.mpr fun i hi1 hi2 => ?_)
    rw [hP i hi1 (by omega)]
    omega
  have hmid : (slice f k k').filter P = slice f k k' := by
    refine filter_eq_self.mpr (forall_slice.mpr fun i hi1 hi2 => ?_)
    exact (hP i (by omega) (by omega)).mpr ⟨hi1, hi2⟩
  have hhigh : (slice f k' hi).filter P = [] := by
    refine filter_eq_nil_iff.mpr (forall_slice.mpr fun i hi1 hi2 => ?_)
    rw [hP i (by omega) hi2]
    omega
  rw [hlow, hmid, hhigh, nil_append, append_nil]

/-- The same for a test whose interval need not lie in the slice. -/
theorem filter_slice_inter (k k' : ℕ) (h : ∀ i, lo ≤ i → i < hi → (P (f i) = true ↔ k ≤ i ∧ i < k'))
    :
    (slice f lo hi).filter P = slice f (max lo k) (min hi k') := by
  by_cases hle : max lo k ≤ min hi k'
  · refine filter_slice P (le_max_left _ _) hle (min_le_left _ _) fun i h1 h2 => ?_
    rw [h i h1 h2]
    omega
  · rw [slice_eq_nil f (not_le.mp hle).le, filter_eq_nil_iff, forall_slice]
    intro i h1 h2
    rw [h i h1 h2]
    omega

/-- A slice is ordered by a relation that orders the sequence on the interval. -/
theorem pairwise_slice {R : β → β → Prop}
    (hR : ∀ i j, lo ≤ i → i < j → j < hi → R (f i) (f j)) : (slice f lo hi).Pairwise R := by
  rw [slice, pairwise_map]
  refine List.Pairwise.imp_of_mem ?_ (pairwise_lt_range' (s := lo) (n := hi - lo))
  intro i j hi' hj' hij
  rw [mem_range'_1] at hi' hj'
  exact hR i j hi'.1 hij (by omega)

end Slice

/-! ## Galloping

The test is made at offsets that double until it fails, and the place is then searched between the
last two. -/

/-- Halve `[lo, hi)` until nothing is left: go on behind the middle if `p` holds there. -/
def bisect (p : ℕ → Bool) : ℕ → ℕ → ℕ → ℕ
  | 0, lo, _ => lo
  | n + 1, lo, hi =>
    if lo < hi then
      if p (lo + (hi - lo) / 2) then bisect p n (lo + (hi - lo) / 2 + 1) hi
      else bisect p n lo (lo + (hi - lo) / 2)
    else lo

theorem boundary_bisect (p : ℕ → Bool) (n lo hi : ℕ) (hn : hi - lo ≤ n) (hle : lo ≤ hi)
    (hd : Downward (fun i => p i = true) lo hi) :
    Boundary (fun i => p i = true) lo hi (bisect p n lo hi) := by
  induction n generalizing lo hi with
  | zero => exact .first hle fun h => by omega
  | succ n ih =>
    rw [bisect]
    by_cases hlt : lo < hi
    · rw [if_pos hlt]
      have hm : lo + (hi - lo) / 2 < hi := by omega
      by_cases hp : p (lo + (hi - lo) / 2) = true
      · rw [if_pos hp]
        have hb := ih (lo + (hi - lo) / 2 + 1) hi (by omega) hm fun i j h1 => hd i j (by omega)
        refine hb.of_later (by omega) fun i h1 h2 => ?_
        exact hd i _ h1 (le_of_lt_succ h2) hm hp
      · rw [if_neg hp]
        have hb := ih lo (lo + (hi - lo) / 2) (by omega) (le_add_right _ _)
          fun i j h1 h2 h3 => hd i j h1 h2 (h3.trans hm)
        exact hb.of_earlier hm.le fun _ => hp
    · rw [if_neg hlt]
      exact .first hle fun h => absurd h hlt

/-- Double the offset while the test holds there and the offset is below the bound: the last offset
that passed and the one at which the search ended, cut off at the bound. -/
def gallopOut (q : ℕ → Bool) (maxofs : ℕ) : ℕ → ℕ → ℕ → ℕ × ℕ
  | 0, lastofs, ofs => (lastofs, min ofs maxofs)
  | n + 1, lastofs, ofs =>
    if ofs < maxofs then
      if q ofs then gallopOut q maxofs n ofs (2 * ofs + 1) else (lastofs, ofs)
    else (lastofs, maxofs)

/-- The two offsets enclose the place where the test stops holding. -/
theorem gallopOut_spec (q : ℕ → Bool) (maxofs n lastofs ofs : ℕ)
    (hn : maxofs - ofs ≤ n) (hlt : lastofs < ofs) (hmax : lastofs < maxofs)
    (hq : lastofs = 0 ∨ q lastofs = true) :
    let r := gallopOut q maxofs n lastofs ofs
    r.1 < r.2 ∧ r.2 ≤ maxofs ∧ (r.1 = 0 ∨ q r.1 = true) ∧ (r.2 = maxofs ∨ q r.2 = false) := by
  induction n generalizing lastofs ofs with
  | zero =>
    have hmin : min ofs maxofs = maxofs := min_eq_right (by omega)
    rw [gallopOut, hmin]
    exact ⟨hmax, le_rfl, hq, .inl rfl⟩
  | succ n ih =>
    rw [gallopOut]
    by_cases hofs : ofs < maxofs
    · rw [if_pos hofs]
      by_cases hqo : q ofs = true
      · rw [if_pos hqo]
        exact ih _ _ (by omega) (by omega) hofs (.inr hqo)
      · rw [if_neg hqo]
        exact ⟨hlt, hofs.le, hq, .inr (Bool.eq_false_iff.mpr hqo)⟩
    · rw [if_neg hofs]
      exact ⟨hmax, le_rfl, hq, .inl rfl⟩

/-- Gallop from `hint`, upwards if the test holds there and downwards otherwise, and search between
the last two probes. -/
def gallop (p : ℕ → Bool) (n hint : ℕ) : ℕ :=
  if p hint then
    let r := gallopOut (fun ofs => p (hint + ofs)) (n - hint) (n - hint) 0 1
    bisect p n (r.1 + hint + 1) (r.2 + hint)
  else
    let r := gallopOut (fun ofs => !p (hint - ofs)) (hint + 1) (hint + 1) 0 1
    bisect p n (hint + 1 - r.2) (hint - r.1)

/-- **Galloping finds the boundary, whatever the guess.** -/
theorem boundary_gallop {p : ℕ → Bool} (hhint : hint < n) (hd : Downward (fun i => p i = true) 0 n)
    :
    Boundary (fun i => p i = true) 0 n (gallop p n hint) := by
  rw [gallop]
  split_ifs with hp
  · obtain ⟨h1, h2, h3, h4⟩ := gallopOut_spec (fun ofs => p (hint + ofs)) (n - hint) (n - hint) 0 1
      (by omega) (by omega) (by omega) (.inl rfl)
    set r := gallopOut (fun ofs => p (hint + ofs)) (n - hint) (n - hint) 0 1
    -- upwards: the test holds at the last offset that passed
    have hlast : p (r.1 + hint) = true := by
      rcases h3 with h | h
      · rw [h, zero_add]
        exact hp
      · rw [add_comm]
        exact h
    have hb := boundary_bisect p n (r.1 + hint + 1) (r.2 + hint) (by omega)
      (by omega) fun i j h h' h'' => hd i j (zero_le _) h' (by omega)
    have hb' := hb.of_later (zero_le _) fun i _ hi =>
      hd i _ (zero_le _) (le_of_lt_succ hi) (by omega) hlast
    refine hb'.of_earlier (by omega) fun hk => ?_
    rw [add_comm, h4.resolve_left (by omega)]
    exact Bool.false_ne_true
  · obtain ⟨h1, h2, h3, h4⟩ := gallopOut_spec (fun ofs => !p (hint - ofs)) (hint + 1) (hint + 1) 0 1
      (by omega) (by omega) (by omega) (.inl rfl)
    set r := gallopOut (fun ofs => !p (hint - ofs)) (hint + 1) (hint + 1) 0 1
    -- downwards: the test fails there
    have hfirst : ¬ p (hint - r.1) = true := by
      rcases h3 with h | h
      · rw [h]
        exact hp
      · rw [Bool.not_eq_true'] at h
        rw [h]
        exact Bool.false_ne_true
    have hb := boundary_bisect p n (hint + 1 - r.2) (hint - r.1) (by omega)
      (by omega) fun i j h h' h'' => hd i j (zero_le _) h' (by omega)
    have hb' := hb.of_later (zero_le _) fun i _ hi => by
      rcases h4 with h | h
      · omega
      · rw [Bool.not_eq_false'] at h
        exact hd i _ (zero_le _) (by omega) (by omega) h
    exact hb'.of_earlier (by omega) fun _ => hfirst

/-- A gallop over the places from `lo` on. -/
theorem gallop_shifted {p : ℕ → Bool} {lo : ℕ} (hhint : hint < n)
    (hd : Downward (fun i => p i = true) lo (lo + n)) :
    let k := gallop (fun i => p (lo + i)) n hint
    k ≤ n ∧ (∀ j, lo ≤ j → j < lo + k → p j = true) ∧
      ∀ j, lo + k ≤ j → j < lo + n → p j = false := by
  have hd' : Downward (fun i => p (lo + i) = true) 0 n := fun i j _ h2 h3 =>
    hd _ _ (Nat.le_add_right _ _) (by omega) (by omega)
  have hb := boundary_gallop hhint hd'
  refine ⟨hb.le_hi, fun j h1 h2 => ?_, fun j h1 h2 => ?_⟩
  · obtain ⟨i, rfl⟩ := Nat.exists_eq_add_of_le h1
    exact hb.below i (zero_le _) (by omega)
  · obtain ⟨i, rfl⟩ := Nat.exists_eq_add_of_le ((Nat.le_add_right _ _).trans h1)
    exact Bool.eq_false_of_not_eq_true (hb.not_of_le hd' (by omega) (by omega))

/-- The positions at which `bisect` looks. -/
def bisectTests (p : ℕ → Bool) : ℕ → ℕ → ℕ → List ℕ
  | 0, _, _ => []
  | n + 1, lo, hi =>
    let m := lo + (hi - lo) / 2
    if lo < hi then m :: if p m then bisectTests p n (m + 1) hi else bisectTests p n lo m
    else []

/-- The offsets at which `gallopOut` looks. -/
def gallopOutTests (q : ℕ → Bool) (m : ℕ) : ℕ → ℕ → List ℕ
  | 0, _ => []
  | n + 1, ofs =>
    if ofs < m then ofs :: if q ofs then gallopOutTests q m n (2 * ofs + 1) else [] else []

/-- Where `gallop` looks: the offsets from `hint`, and the positions after that. -/
def gallopTests (p : ℕ → Bool) (n hint : ℕ) : List ℕ × List ℕ :=
  if p hint then
    let q ofs := p (hint + ofs)
    let r := gallopOut q (n - hint) (n - hint) 0 1
    (gallopOutTests q (n - hint) (n - hint) 1, bisectTests p n (r.1 + hint + 1) (r.2 + hint))
  else
    let q ofs := !p (hint - ofs)
    let r := gallopOut q (hint + 1) (hint + 1) 0 1
    (gallopOutTests q (hint + 1) (hint + 1) 1, bisectTests p n (hint + 1 - r.2) (hint - r.1))

theorem lt_of_mem_bisectTests {p : ℕ → Bool} (h : i ∈ bisectTests p n lo hi) : i < hi := by
  induction n generalizing lo hi with
  | zero => cases h
  | succ n ih => grind [bisectTests]

/-- The offsets are the powers of 2, less 1. -/
theorem mem_gallopOutTests {q : ℕ → Bool} {m ofs j : ℕ} (hofs : ofs + 1 = 2 ^ j)
    (h : i ∈ gallopOutTests q m n ofs) : i < m ∧ ∃ j, i + 1 = 2 ^ j := by
  induction n generalizing ofs j with
  | zero => cases h
  | succ n ih =>
    have hnext : 2 * ofs + 1 + 1 = 2 ^ (j + 1) := by rw [pow_succ]; omega
    grind [gallopOutTests]

/-- A gallop looks inside the interval only. -/
theorem gallopTests_spec {p : ℕ → Bool} (hhint : hint < n) :
    (∀ ofs ∈ (gallopTests p n hint).1, (if p hint then hint + ofs < n else ofs ≤ hint) ∧
      ∃ j, ofs + 1 = 2 ^ j) ∧ ∀ i ∈ (gallopTests p n hint).2, i < n := by
  have hout := @mem_gallopOutTests (j := 1)
  obtain ⟨-, hmax, -⟩ := gallopOut_spec (fun ofs => p (hint + ofs)) (n - hint) (n - hint) 0 1
    (by omega) (by omega) (by omega) (.inl rfl)
  unfold gallopTests
  split_ifs <;> grind [→ lt_of_mem_bisectTests]

theorem Boundary.count_eq {p : ℕ → Bool} (h : Boundary (p ·) 0 n k) (hd : Downward (p ·) 0 n) :
    k = Nat.count (p ·) n := by
  obtain ⟨m, rfl⟩ := Nat.exists_eq_add_of_le h.le_hi
  rw [count_add, count_of_forall fun i => h.below i (zero_le _),
    count_of_forall_not fun i hi => h.not_of_le hd (le_add_right _ _) (by omega), add_zero]

end IntervalSearch
