import MonetInR.Gdk.Sort.SsortMerge

/-!
# When the stable sort sorts

The runs on the stack cover the part of the array that has been passed; each is sorted and a stable
rearrangement of what was there.  Merging two of them keeps that, so in the end one run is left that
is the whole array.

The macro `COPY_anyN` copies nothing, or half an item, if items have 16 bytes: the loop bound `N<<1`
of words has become `N<2`.  As soon as two runs really have to be merged, rows are then taken from
memory that was never written.  For the other widths the counter of the macro is an `int`, which
overflows in a copy of 2^31 rows; the shorter one of two runs is that long only in an array of 2^32
rows.  Runs that are in order already are not merged, so such an array is still sorted if all that
is needed is to sort within the runs.  The stack has room for 85 runs; whether it suffices follows
from the lengths of the runs alone.

## Main definitions

* `runStarts`, `Fits`: where the runs begin, and that the stack has room for them
* `InOrder`: sorting within the runs is all that is needed
* `SortExact`: the array is sorted stably, whatever is in temporary memory

## Main results

* `mergeRuns_spec`: merging two neighbouring runs
* `sortExact_iff`: with other widths, or if sorting within the runs is enough, the array is sorted
  stably if and only if the stack has room
-/

namespace MonetInR.Gdk.Ssort

open IntervalSearch StableOrder List Option

variable {hs ts : ℕ} {C : TotalComparison (Item hs)} {g : Garbage hs ts}

/-! ## Merging two runs -/

theorem save_a (hplain : Plain hs ts) (ms : MergeState hs ts) (s n : ℕ) {i : ℕ} (hi : i < n) :
    (ms.save g s n).a i = ms.b (s + i) := by
  have hcopy : ∀ {w : ℕ} (cells src : ℕ → Item w), w ≠ 16 →
      copyAnyN n cells 0 src s i = src (s + i) := fun cells src hw => by
    rw [copyAnyN, if_neg hw, blit_of_mem _ _ (Nat.zero_le _) (by omega), Nat.sub_zero]
  change (copyAnyN n _ 0 (fun j => (ms.b j).1) s i, copyAnyN n _ 0 (fun j => (ms.b j).2) s i) = _
  rw [hcopy _ _ hplain.1, hcopy _ _ hplain.2]

theorem save_slice (hplain : Plain hs ts) (ms : MergeState hs ts) (s n : ℕ) :
    slice (ms.save g s n).a 0 n = slice ms.b s (s + n) := by
  have h := slice_shift (d := 0) (s := s) (k := n) (f := (ms.save g s n).a)
    (g := ms.b) fun j hj => by rw [Nat.zero_add, save_a hplain ms s n hj]
  rwa [Nat.zero_add] at h

/-- What is in place at both ends of two runs can be left out of their merge. -/
theorem sortedPiece_of_isMerge {b b' : ℕ → Row hs ts} {lo pa pb e hi : ℕ} (h1 : lo ≤ pa)
    (h2 : pa < pb) (h3 : pb < e) (h4 : e ≤ hi) (hA : Sorted C b lo pb) (hB : Sorted C b pb hi)
    (hleft : ∀ i, lo ≤ i → i < pa → rowLe C (b i) (b pb) = true)
    (hright : ∀ j, e ≤ j → j < hi → rowLe C (b (pb - 1)) (b j) = true)
    (hframe : ∀ i, i < pa ∨ e ≤ i → b' i = b i)
    (h : IsMerge (rowLe C) (slice b pa pb) (slice b pb e) (slice b' pa e)) :
    SortedPiece C b b' lo hi := by
  have hP := preordering_rowLe C ts
  have hsplitA : slice b lo pb = slice b lo pa ++ slice b pa pb := slice_append b h1 h2.le
  have hsplitB : slice b pb hi = slice b pb e ++ slice b e hi := slice_append b h3.le h4
  have hsortedA := hA
  have hsortedB := hB
  rw [Sorted, hsplitA] at hsortedA
  rw [Sorted, hsplitB] at hsortedB
  -- what the gallops have left out on the right comes last, that on the left comes first
  have hlast : IsMerge (rowLe C) (slice b pa pb) (slice b pb e ++ slice b e hi)
      (slice b' pa e ++ slice b e hi) := by
    apply h.right_last hP hsortedB
    rw [forall_slice]
    intro j h5 h6
    rw [forall_slice]
    exact fun i h7 h8 => hP.trans (hA.rel (by omega) (by omega) (by omega)) (hright j h5 h6)
  have hall : IsMerge (rowLe C) (slice b lo pa ++ slice b pa pb) (slice b pb e ++ slice b e hi)
      (slice b lo pa ++ (slice b' pa e ++ slice b e hi)) := by
    apply hlast.left_first hP hsortedA
    rw [forall_slice]
    intro i h5 h6
    rw [← hsplitB, forall_slice]
    exact fun j h7 h8 => hP.trans (hleft i h5 h6) (hB.rel le_rfl h7 h8)
  have hslice : slice b' lo hi = slice b lo pa ++ (slice b' pa e ++ slice b e hi) := by
    rw [slice_append b' h1 (by omega), slice_append b' (by omega : pa ≤ e) h4,
      slice_congr (f := b') (g := b) fun i _ h => hframe i (.inl h)]
    congr 2
    exact slice_congr fun i h _ => hframe i (.inr h)
  refine ⟨?_, ?_, fun i hi => hframe i (by omega)⟩
  · rw [slice_append b (by omega : lo ≤ pb) (by omega), hsplitA, hsplitB, hslice]
    exact hall.order
  · rw [Sorted, hslice]
    exact hall.sorted

/-- **The arrays that the macro copies**: no width is 16, and the counter is enough for half of the
rows, the most that are copied at once. -/
def Copies (hs ts n : ℕ) : Prop := Plain hs ts ∧ n < 2 ^ 32

/-- **Merging two neighbouring runs sorts them stably**, if the macro copies them or if there is
nothing to merge. -/
theorem mergeRuns_spec {ms : MergeState hs ts} {pa na pb nb : ℕ} (hna : 0 < na) (hnb : 0 < nb)
    (hpb : pa + na = pb) (hA : Sorted C ms.b pa pb) (hB : Sorted C ms.b pb (pb + nb))
    (hok : Copies hs ts (na + nb) ∨ ∀ i, pa ≤ i → i < pb → rowLe C (ms.b i) (ms.b pb) = true) :
    ∃ ms', mergeRuns C.toComparison g pa na pb nb ms = some ms' ∧ ms'.pending = ms.pending ∧
      SortedPiece C ms.b ms'.b pa (pb + nb) := by
  have hP := preordering_rowLe C ts
  subst hpb
  obtain ⟨hk, hbelow, habove⟩ := gallopRight_spec (C := C) (ms.b (pa + na)) hna hA
  rw [mergeRuns]
  set k := gallopRight C.toComparison (ms.b (pa + na)).1 (fun i => ms.b (pa + i)) na 0
  split_ifs with hdone
  · refine ⟨ms, rfl, rfl, .of_sorted ?_⟩
    rw [Sorted, slice_append ms.b (by omega : pa ≤ pa + na) (by omega), pairwise_append]
    refine ⟨hA, hB, ?_⟩
    rw [forall_slice]
    intro i h1 h2
    rw [forall_slice]
    exact fun j h3 h4 => hP.trans (hbelow i h1 (by omega)) (hB.rel le_rfl h3 h4)
  -- the first row of the second run goes before a row of the first one
  have hfirst : rowLe C (ms.b (pa + k)) (ms.b (pa + na)) = false := habove _ le_rfl (by omega)
  obtain ⟨hplain, hcount⟩ : Copies hs ts (na + nb) := by
    rcases hok with hok | hok
    · exact hok
    · rw [hok (pa + k) (by omega) (by omega)] at hfirst
      cases hfirst
  have hkey : pa + k + (na - k) - 1 = pa + na - 1 := by omega
  rw [hkey]
  obtain ⟨he, hbelow', habove'⟩ := gallopLeft_spec (C := C) (ms.b (pa + na - 1))
    (by omega : nb - 1 < nb) hB
  set e := gallopLeft C.toComparison (ms.b (pa + na - 1)).1 (fun i => ms.b (pa + na + i)) nb
    (nb - 1)
  have hlt : ∀ i, pa + k ≤ i → i < pa + na → rowLe C (ms.b i) (ms.b (pa + na)) = false :=
    fun i h1 h2 => hP.not_le_of_not_le_of_le hfirst (hA.rel (by omega) h1 h2)
  have hpos : e ≠ 0 := by
    intro h0
    have hge := habove' (pa + na) (by omega) (by omega)
    rw [hlt (pa + na - 1) (by omega) (by omega)] at hge
    cases hge
  have hint : ¬ CountOverflows hs ts (min (na - k) e) := by
    rintro ⟨hlarge, -⟩
    omega
  rw [if_neg hpos, if_neg hint]
  have hfinish : ∀ {b'}, (∀ i, i < pa + k ∨ pa + na + e ≤ i → b' i = ms.b i) →
      IsMerge (rowLe C) (slice ms.b (pa + k) (pa + na)) (slice ms.b (pa + na) (pa + na + e))
        (slice b' (pa + k) (pa + na + e)) → SortedPiece C ms.b b' pa (pa + na + nb) :=
    fun hframe h => sortedPiece_of_isMerge (by omega) (by omega) (by omega) (by omega) hA hB
      hbelow habove' hframe h
  split_ifs with hside
  · have ha : ∀ i, i < na - k → (ms.save g (pa + k) (na - k)).a i = ms.b (pa + k + i) :=
      fun i hi => save_a hplain ms _ _ hi
    have hready : Lo.Ready C (ms.save g (pa + k) (na - k)).a
        ⟨(ms.save g (pa + k) (na - k)).b, pa + k, 0, na - k, pa + na, e⟩ := by
      refine ⟨by dsimp only; omega, by dsimp only; omega, ?_, ?_, fun j h1 h2 => ?_⟩
      · rw [Sorted, Nat.zero_add, save_slice hplain]
        exact pairwise_slice fun i j h1 h2 h3 => hA.rel (by omega) h2.le (by omega)
      · exact pairwise_slice fun i j h1 h2 h3 => hB.rel h1 h2.le (by dsimp only at h3; omega)
      · rw [ha _ (by dsimp only; omega), show pa + k + (0 + (na - k) - 1) = pa + na - 1 by omega]
        exact hbelow' j h1 h2
    obtain ⟨r, hr, hframe, hm⟩ := Lo.merge_spec hplain (ms.save g (pa + k) (na - k)).minGallop
      hready (Nat.pos_of_ne_zero hpos) (by rw [ha 0 (by omega)]; exact hfirst)
    refine ⟨_, congrArg (Option.map _) hr, rfl, hfinish hframe ?_⟩
    rw [Nat.zero_add, save_slice hplain, show pa + k + (na - k) = pa + na by omega] at hm
    exact hm
  · have ha : ∀ j, j < e → (ms.save g (pa + na) e).a j = ms.b (pa + na + j) :=
      fun j hj => save_a hplain ms _ _ hj
    have hready : Hi.Ready C (ms.save g (pa + na) e).a (pa + k)
        ⟨(ms.save g (pa + na) e).b, pa + na + e, pa + k + (na - k), na - k, e, e⟩ := by
      refine ⟨rfl, rfl, by dsimp only; omega, Nat.pos_of_ne_zero hpos, ?_, ?_, fun i h1 h2 => ?_⟩
      · exact pairwise_slice fun i j h1 h2 h3 =>
          hA.rel (by omega) h2.le (by dsimp only at h3; omega)
      · rw [Sorted, save_slice hplain]
        exact pairwise_slice fun i j h1 h2 h3 => hB.rel h1 h2.le (by omega)
      · rw [ha 0 (by omega)]
        exact hlt i h1 (by dsimp only at h2; omega)
    obtain ⟨r, hr, hframe, hm⟩ := Hi.merge_spec hplain (ms.save g (pa + na) e).minGallop hready
      (by dsimp only; omega) (by
        rw [ha _ (by dsimp only; omega), show pa + k + (na - k) - 1 = pa + na - 1 by omega]
        exact hbelow' _ (by omega) (by dsimp only; omega))
    refine ⟨_, congrArg (Option.map _) hr, rfl, hfinish ?_ ?_⟩
    · intro i hi
      exact hframe i (by dsimp only; omega)
    · rw [save_slice hplain, show pa + k + (na - k) = pa + na by omega] at hm
      exact hm

/-! ## The stack of runs -/

variable (C) in
/-- The runs on the stack, from the last one, cover the array up to `e`; each is sorted and a stable
rearrangement of what was there. -/
def Stacked (b₀ b : ℕ → Row hs ts) : List Slice → ℕ → Prop
  | [], e => e = 0
  | z :: rest, e => z.base + z.len = e ∧ 0 < z.len ∧
      SameOrder (rowLe C) (slice b₀ z.base e) (slice b z.base e) ∧ Sorted C b z.base e ∧
      Stacked b₀ b rest z.base

theorem Stacked.congr {b₀ b b' : ℕ → Row hs ts} {p : List Slice} {e : ℕ}
    (h : Stacked C b₀ b p e) (hb : ∀ i, i < e → b' i = b i) : Stacked C b₀ b' p e := by
  induction p generalizing e with
  | nil => exact h
  | cons z rest ih =>
    obtain ⟨he, hpos, horder, hsorted, hrest⟩ := h
    have hslice : slice b' z.base e = slice b z.base e := slice_congr fun i _ h2 => hb i h2
    refine ⟨he, hpos, by rwa [hslice], ?_, ih hrest fun i hi => hb i (by omega)⟩
    rw [Sorted, hslice]
    exact hsorted

variable (C) in
/-- Rows before one of the places in `S` do not come behind rows after it. -/
def OrderedAt (b₀ : ℕ → Row hs ts) (S : List ℕ) (n : ℕ) : Prop :=
  ∀ c ∈ S, ∀ i, i < c → ∀ j, c ≤ j → j < n → rowLe C (b₀ i) (b₀ j) = true

variable (C) in
/-- The array up to `e` is on the stack, in runs that begin at places in `S`, and the rest is as it
was. -/
structure Passed (b₀ : ℕ → Row hs ts) (S : List ℕ) (ms : MergeState hs ts) (e : ℕ) : Prop where
  stacked : Stacked C b₀ ms.b ms.pending e
  starts : ∀ z ∈ ms.pending, z.base ∈ S
  rest : ∀ i, e ≤ i → ms.b i = b₀ i

theorem Stacked.merge {b₀ : ℕ → Row hs ts} {S : List ℕ} {n e : ℕ} (ms : MergeState hs ts)
    {x y : Slice} {rest : List Slice} (hok : Copies hs ts n ∨ OrderedAt C b₀ S n) (he : e ≤ n)
    (hy : y.base ∈ S) (h : Stacked C b₀ ms.b (y :: x :: rest) e) :
    ∃ ms', mergeRuns C.toComparison g x.base x.len y.base y.len ms = some ms' ∧
      ms'.pending = ms.pending ∧
      Stacked C b₀ ms'.b (⟨x.base, x.len + y.len⟩ :: rest) e ∧ ∀ i, e ≤ i → ms'.b i = ms.b i := by
  have hP := preordering_rowLe C ts
  obtain ⟨hye, hypos, hyorder, hysorted, hxe, hxpos, hxorder, hxsorted, hrest⟩ := h
  have hok' : Copies hs ts (x.len + y.len) ∨
      ∀ i, x.base ≤ i → i < y.base → rowLe C (ms.b i) (ms.b y.base) = true := by
    refine hok.imp (fun hcopies => ⟨hcopies.1, by have := hcopies.2; omega⟩)
      fun hordered i h1 h2 => ?_
    have hi : ms.b i ∈ slice b₀ x.base y.base :=
      (hxorder.perm hP).mem_iff.mpr (mem_slice.mpr ⟨i, h1, h2, rfl⟩)
    have hj : ms.b y.base ∈ slice b₀ y.base e :=
      (hyorder.perm hP).mem_iff.mpr (mem_slice.mpr ⟨y.base, le_rfl, by omega, rfl⟩)
    obtain ⟨i', _, hi', heq⟩ := mem_slice.mp hi
    obtain ⟨j', hj', hj'', heq'⟩ := mem_slice.mp hj
    rw [← heq, ← heq']
    exact hordered y.base hy i' hi' j' hj' (by omega)
  rw [← hye] at hysorted
  obtain ⟨ms', hms', hpending, hpiece⟩ := mergeRuns_spec (g := g) hxpos hypos hxe hxsorted hysorted
    hok'
  rw [hye] at hpiece
  refine ⟨ms', hms', hpending, ⟨by dsimp only; omega, by dsimp only; omega, ?_, hpiece.sorted, ?_⟩,
    fun i hi => hpiece.frame i (.inr hi)⟩
  · have hboth := hxorder.append hyorder
    rw [← slice_append b₀ (by omega) (by omega), ← slice_append ms.b (by omega) (by omega)] at hboth
    exact hboth.trans hpiece.order
  · exact hrest.congr fun i hi => hpiece.frame i (.inl hi)

/-- What a merge makes of the lengths. -/
def mergeLens : Bool → List ℕ → List ℕ
  | false, z :: y :: rest => (y + z) :: rest
  | true, z :: y :: x :: rest => z :: (x + y) :: rest
  | _, lens => lens

/-- A choice names runs that are there. -/
def ValidChoice (choice : List ℕ → Option Bool) : Prop :=
  ∀ lens third, choice lens = some third → (if third then 3 else 2) ≤ lens.length

theorem validChoice_collapse : ValidChoice collapseChoice := by
  intro lens third h
  match lens, h with
  | [z, y], h =>
    rw [collapseChoice] at h
    split_ifs at h
    cases h
    exact le_rfl
  | z :: y :: x :: rest, _ =>
    rw [length_cons, length_cons, length_cons]
    split_ifs <;> omega

theorem validChoice_force : ValidChoice forceChoice := by
  intro lens third h
  match lens, h with
  | [z, y], h =>
    cases h
    exact le_rfl
  | z :: y :: x :: rest, _ =>
    rw [length_cons, length_cons, length_cons]
    split_ifs <;> omega

variable {b₀ : ℕ → Row hs ts} {S : List ℕ} {n e minrun : ℕ} {ms : MergeState hs ts} {third : Bool}

/-- **Merging runs of the stack keeps the array passed.** -/
theorem mergeAt_spec (hok : Copies hs ts n ∨ OrderedAt C b₀ S n) (he : e ≤ n)
    (h : Passed C b₀ S ms e)
    (hthird : (if third then 3 else 2) ≤ (ms.pending.map Slice.len).length) :
    ∃ ms', mergeAt C.toComparison g third ms = some ms' ∧ Passed C b₀ S ms' e ∧
      ms'.pending.map Slice.len = mergeLens third (ms.pending.map Slice.len) := by
  obtain ⟨hstacked, hstarts, hrest⟩ := h
  obtain ⟨b, tempH, tempT, minGallop, pending⟩ := ms
  match third, pending, hthird with
  | false, y :: x :: rest, _ =>
    obtain ⟨ms', hms', hpending, hmerged, hframe⟩ := Stacked.merge (g := g)
      ⟨b, tempH, tempT, minGallop, ⟨x.base, x.len + y.len⟩ :: rest⟩ hok he
      (hstarts y (.head _)) hstacked
    refine ⟨ms', hms', ⟨by rwa [hpending], fun z hz => ?_, fun i hi => ?_⟩, by rw [hpending]; rfl⟩
    · rw [hpending] at hz
      rcases mem_cons.mp hz with rfl | hz
      · exact hstarts x (.tail _ (.head _))
      · exact hstarts z (.tail _ (.tail _ hz))
    · rw [hframe i hi]
      exact hrest i hi
  | true, z :: y :: x :: rest, _ =>
    -- the run on top is not part of the merge, and stays as it is
    obtain ⟨hze, hzpos, hzorder, hzsorted, hlower⟩ := hstacked
    obtain ⟨ms', hms', hpending, hmerged, hframe⟩ := Stacked.merge (g := g)
      ⟨b, tempH, tempT, minGallop, z :: ⟨x.base, x.len + y.len⟩ :: rest⟩ hok
      (by omega : z.base ≤ n) (hstarts y (.tail _ (.head _))) hlower
    have hslice : slice ms'.b z.base e = slice b z.base e := slice_congr fun i h1 _ => hframe i h1
    refine ⟨ms', hms', ⟨?_, fun w hw => ?_, fun i hi => ?_⟩, by rw [hpending]; rfl⟩
    · rw [hpending]
      refine ⟨hze, hzpos, by rwa [hslice], ?_, hmerged⟩
      rw [Sorted, hslice]
      exact hzsorted
    · rw [hpending] at hw
      rcases mem_cons.mp hw with rfl | hw
      · exact hstarts w (.head _)
      rcases mem_cons.mp hw with rfl | hw
      · exact hstarts x (.tail _ (.tail _ (.head _)))
      · exact hstarts w (.tail _ (.tail _ (.tail _ hw)))
    · rw [hframe i (by omega)]
      exact hrest i hi

/-- The lengths after merging as long as there is something to merge. -/
def collapseLens (choice : List ℕ → Option Bool) : ℕ → List ℕ → List ℕ
  | 0, lens => lens
  | f + 1, lens =>
    match choice lens with
    | none => lens
    | some third => collapseLens choice f (mergeLens third lens)

theorem length_mergeLens {lens : List ℕ} (h : (if third then 3 else 2) ≤ lens.length) :
    (mergeLens third lens).length + 1 = lens.length := by
  match third, lens, h with
  | false, z :: y :: rest, _ => rfl
  | true, z :: y :: x :: rest, _ => rfl

theorem mergeWhile_spec {choice : List ℕ → Option Bool} (hchoice : ValidChoice choice)
    (hok : Copies hs ts n ∨ OrderedAt C b₀ S n) (he : e ≤ n) (f : ℕ) (h : Passed C b₀ S ms e)
    (hpos : 0 < ms.pending.length) (hf : ms.pending.length ≤ f) :
    ∃ ms', mergeWhile C.toComparison g choice f ms = some ms' ∧ Passed C b₀ S ms' e ∧
      ms'.pending.map Slice.len = collapseLens choice f (ms.pending.map Slice.len) ∧
      choice (ms'.pending.map Slice.len) = none := by
  induction f generalizing ms with
  | zero => omega
  | succ f ih =>
    rw [mergeWhile, collapseLens]
    cases hc : choice (ms.pending.map Slice.len) with
    | none => exact ⟨ms, rfl, h, rfl, hc⟩
    | some third =>
      have hthird := hchoice _ _ hc
      obtain ⟨ms₁, hms1, hpassed, hlens⟩ := mergeAt_spec (g := g) hok he h hthird
      have hlen := length_mergeLens hthird
      rw [← hlens, length_map, length_map] at hlen
      have hpos1 : 0 < ms₁.pending.length := by
        rw [length_map] at hthird
        split_ifs at hthird <;> omega
      obtain ⟨ms', hms', hpassed', hlens', hnone⟩ := ih hpassed hpos1 (by omega)
      refine ⟨ms', ?_, hpassed', ?_, hnone⟩
      · dsimp only
        rw [hms1]
        exact hms'
      · rw [hlens', hlens]

/-! ## Going over the array -/

/-- A scan depends on the test only where it looks. -/
theorem scanUp_congr {p q : ℕ → Bool} {lo k : ℕ} (h : ∀ i, lo ≤ i → i < lo + k → p i = q i) :
    scanUp p lo k = scanUp q lo k :=
  (boundary_scanUp p lo k).unique ((boundary_scanUp q lo k).congr fun i h1 h2 => by rw [h i h1 h2])

/-- The length of the next run depends only on the rows from there on. -/
theorem makeRun_congr {lo hi : ℕ} (hlt : lo < hi) {b b' : ℕ → Row hs ts}
    (h : ∀ i, lo ≤ i → i < hi → b i = b' i) :
    (makeRun C.toComparison minrun lo hi b).1 = (makeRun C.toComparison minrun lo hi b').1 := by
  have hcount : countRun C.toComparison lo hi b = countRun C.toComparison lo hi b' := by
    unfold countRun
    by_cases hone : lo + 1 = hi
    · rw [if_pos hone, if_pos hone]
    · have hscan : ∀ i, lo + 2 ≤ i → i < lo + 2 + (hi - (lo + 2)) →
          C.lt (b i).1 (b (i - 1)).1 = C.lt (b' i).1 (b' (i - 1)).1 := fun i h1 h2 => by
        rw [h i (by omega) (by omega), h (i - 1) (by omega) (by omega)]
      rw [if_neg hone, if_neg hone, h lo le_rfl hlt, h (lo + 1) (by omega) (by omega),
        scanUp_congr hscan, scanUp_congr fun i h1 h2 => congrArg (!·) (hscan i h1 h2)]
  unfold makeRun
  rw [hcount]
  dsimp only
  split_ifs <;> rfl

variable (C) in
/-- The length of the run from `lo` on, when the array is cut into runs. -/
def runLength (minrun hi : ℕ) (b : ℕ → Row hs ts) (lo : ℕ) : ℕ :=
  (makeRun C.toComparison minrun lo hi b).1

variable (C) in
/-- The places from `lo` on where runs begin. -/
def runStarts (minrun hi : ℕ) (b : ℕ → Row hs ts) : ℕ → ℕ → List ℕ
  | 0, _ => []
  | f + 1, lo => lo ::
      if lo + runLength C minrun hi b lo < hi then
        runStarts minrun hi b f (lo + runLength C minrun hi b lo)
      else []

variable (C) in
/-- The stack, with runs of the given lengths on it, has room for the runs from `lo` on. -/
def fitsFrom (minrun hi : ℕ) (b : ℕ → Row hs ts) : ℕ → ℕ → List ℕ → Prop
  | 0, _, _ => False
  | f + 1, lo, lens => lens.length < maxMergePending ∧ (lo + runLength C minrun hi b lo < hi →
        fitsFrom minrun hi b f (lo + runLength C minrun hi b lo)
          (collapseLens collapseChoice (lens.length + 1) (runLength C minrun hi b lo :: lens)))

/-- **The whole array gets onto the stack if and only if the stack has room.** -/
theorem runLoop_spec (hok : Copies hs ts n ∨ OrderedAt C b₀ S n) (f lo : ℕ) (hlt : lo < n)
    (hf : n - lo ≤ f) (hstarts : ∀ c ∈ runStarts C minrun n b₀ f lo, c ∈ S)
    (h : Passed C b₀ S ms lo) :
    (fitsFrom C minrun n b₀ f lo (ms.pending.map Slice.len) →
      ∃ ms', runLoop C.toComparison g minrun n f lo ms = some ms' ∧ Passed C b₀ S ms' n) ∧
    (¬ fitsFrom C minrun n b₀ f lo (ms.pending.map Slice.len) →
      runLoop C.toComparison g minrun n f lo ms = none) := by
  induction f generalizing lo ms with
  | zero => omega
  | succ f ih =>
    -- the rows from `lo` on have not been touched, so the run is the one of the input
    have hlen : (makeRun C.toComparison minrun lo n ms.b).1 = runLength C minrun n b₀ lo :=
      makeRun_congr hlt fun i h1 _ => h.rest i h1
    obtain ⟨hpos, hle, hpiece⟩ := makeRun_spec (C := C) minrun hlt ms.b
    rw [runLoop, fitsFrom]
    rw [hlen] at hpos hle hpiece ⊢
    set k := runLength C minrun n b₀ lo with hk
    rw [length_map]
    by_cases hroom : ms.pending.length < maxMergePending
    case neg =>
      rw [if_neg hroom]
      exact ⟨fun hfit => absurd hfit.1 hroom, fun _ => rfl⟩
    rw [if_pos hroom]
    -- the new run is on the stack
    have hpushed : Passed C b₀ S
        { ms with b := (makeRun C.toComparison minrun lo n ms.b).2,
                  pending := ⟨lo, k⟩ :: ms.pending } (lo + k) := by
      refine ⟨⟨rfl, hpos, ?_, hpiece.sorted, ?_⟩, fun z hz => ?_, fun i hi => ?_⟩
      · rw [slice_congr (f := b₀) (g := ms.b) fun i h1 _ => (h.rest i h1).symm]
        exact hpiece.order
      · exact h.stacked.congr fun i hi => hpiece.frame i (.inl hi)
      · rcases mem_cons.mp hz with rfl | hz
        · exact hstarts lo (.head _)
        · exact h.starts z hz
      · dsimp only
        rw [hpiece.frame i (.inr hi)]
        exact h.rest i (by omega)
    obtain ⟨ms₁, hms1, hpassed, hlens, -⟩ := mergeWhile_spec (g := g) validChoice_collapse hok hle
      (ms.pending.length + 1) hpushed (Nat.succ_pos _) le_rfl
    rw [hms1, bind_some]
    split_ifs with hmore
    · have hstarts' : ∀ c ∈ runStarts C minrun n b₀ f (lo + k), c ∈ S := fun c hc => by
        apply hstarts c
        rw [runStarts, if_pos hmore]
        exact .tail _ hc
      have hnext := ih (lo + k) hmore (by omega) hstarts' hpassed
      rw [hlens] at hnext
      refine ⟨fun hfit => hnext.1 (hfit.2 hmore), fun hfit => hnext.2 fun hf' => ?_⟩
      exact hfit ⟨hroom, fun _ => hf'⟩
    · have hend : lo + k = n := by omega
      rw [hend] at hpassed
      exact ⟨fun _ => ⟨ms₁, rfl, hpassed⟩,
        fun hfit => absurd ⟨hroom, fun hc => absurd hc hmore⟩ hfit⟩

/-! ## The whole sort -/

/-- What `GDKssort` is called with: an array of rows whose widths the macros support, and the
comparison of its heads. -/
structure SortInput (hs ts : ℕ) where
  C : TotalComparison (Item hs)
  nitems : ℕ
  b : ℕ → Row hs ts
  hs_pos : 0 < hs
  hs_le : hs ≤ 16
  ts_le : ts ≤ 16

/-- The array is a permutation of what it was, sorted, with rows that compare equal in their old
order; nothing behind it was touched. -/
structure IsStableSorting (C : TotalComparison (Item hs)) (n : ℕ) (b b' : ℕ → Row hs ts) :
    Prop where
  perm : (slice b 0 n).Perm (slice b' 0 n)
  sorted : (slice b' 0 n).Pairwise fun x y => C.le x.1 y.1 = true
  stable : ∀ x : Row hs ts, (slice b 0 n).filter (fun y => C.le x.1 y.1 && C.le y.1 x.1) =
      (slice b' 0 n).filter (fun y => C.le x.1 y.1 && C.le y.1 x.1)
  frame : ∀ i, n ≤ i → b' i = b i

theorem SortedPiece.isStableSorting {n : ℕ} {b b' : ℕ → Row hs ts}
    (h : SortedPiece C b b' 0 n) : IsStableSorting C n b b' where
  perm := h.order.perm (preordering_rowLe C ts)
  sorted := h.sorted
  stable := h.order
  frame i hi := h.frame i (.inr hi)

namespace SortInput

variable (inp : SortInput hs ts)

/-- The places where runs begin. -/
def starts : List ℕ := runStarts inp.C (mergeComputeMinrun inp.nitems) inp.nitems inp.b inp.nitems 0

/-- Sorting within the runs is all that is needed. -/
def InOrder : Prop := OrderedAt inp.C inp.b inp.starts inp.nitems

/-- The macro copies what it should, or nothing has to be copied. -/
def Copied : Prop := Copies hs ts inp.nitems ∨ inp.InOrder

/-- The stack has room for the runs. -/
def Fits : Prop :=
  inp.nitems < 2 ∨ fitsFrom inp.C (mergeComputeMinrun inp.nitems) inp.nitems inp.b inp.nitems 0 []

/-- **The array is sorted stably, whatever is in temporary memory.** -/
def SortExact : Prop := ∀ g : Garbage hs ts, ∃ b',
  GDKssort inp.C.toComparison g inp.nitems inp.b = some b' ∧
    IsStableSorting inp.C inp.nitems inp.b b'

end SortInput

theorem sortedPiece_of_forced (h : Passed C b₀ S ms n) (hn : 0 < n)
    (hnone : forceChoice (ms.pending.map Slice.len) = none) : SortedPiece C b₀ ms.b 0 n := by
  obtain ⟨hstacked, -, hrest⟩ := h
  match hp : ms.pending, hstacked with
  | [], hstacked => exact absurd hstacked hn.ne'
  | [z], hstacked =>
    obtain ⟨-, -, horder, hsorted, hbase⟩ := hstacked
    have hzero : z.base = 0 := hbase
    rw [hzero] at horder hsorted
    exact ⟨horder, hsorted, fun i hi => hrest i (by omega)⟩
  | [z, y], _ =>
    rw [hp] at hnone
    cases hnone
  | z :: y :: x :: rest, _ =>
    rw [hp] at hnone
    cases hnone

theorem SortInput.passed_start (inp : SortInput hs ts) (g : Garbage hs ts) :
    Passed inp.C inp.b inp.starts
      ⟨inp.b, ⟨g.stackH, mergestateTempSize⟩, ⟨g.stackT, mergestateTempSize⟩, 7, []⟩ 0 :=
  ⟨rfl, fun _ hz => absurd hz not_mem_nil, fun _ _ => rfl⟩

/-- If the stack has no room for the runs, the sort has no result. -/
theorem SortInput.GDKssort_eq_none (inp : SortInput hs ts) (hok : inp.Copied)
    (hfit : ¬ inp.Fits) (g : Garbage hs ts) :
    GDKssort inp.C.toComparison g inp.nitems inp.b = none := by
  rw [SortInput.Fits, not_or] at hfit
  have hnone := (runLoop_spec (g := g) hok inp.nitems 0 (by omega) (by omega) (fun c hc => hc)
    (inp.passed_start g)).2 hfit.2
  rw [GDKssort, if_pos ⟨inp.hs_pos, inp.hs_le, inp.ts_le⟩, if_neg hfit.1, doSsort, hnone]
  rfl

theorem SortInput.sorts_of_fits (inp : SortInput hs ts) (hok : inp.Copied)
    (hfit : inp.Fits) : inp.SortExact := by
  intro g
  by_cases hsmall : inp.nitems < 2
  · refine ⟨inp.b, ?_, ?_⟩
    · rw [GDKssort, if_pos ⟨inp.hs_pos, inp.hs_le, inp.ts_le⟩, if_pos hsmall]
    · apply SortedPiece.isStableSorting
      exact .of_sorted (pairwise_slice fun i j _ h2 h3 => by omega)
  obtain ⟨ms, hms, hpassed⟩ := (runLoop_spec (g := g) hok inp.nitems 0 (by omega) (by omega)
    (fun c hc => hc) (inp.passed_start g)).1 (hfit.resolve_left hsmall)
  -- there is at least one run, and the final merges leave exactly one
  have hpos : 0 < ms.pending.length := by
    rw [length_pos_iff]
    intro hnil
    have hstacked := hpassed.stacked
    rw [hnil] at hstacked
    have hzero : inp.nitems = 0 := hstacked
    omega
  obtain ⟨ms', hms', hpassed', -, hnone⟩ := mergeWhile_spec (g := g) validChoice_force hok le_rfl
    ms.pending.length hpassed hpos le_rfl
  refine ⟨ms'.b, ?_, (sortedPiece_of_forced hpassed' (by omega) hnone).isStableSorting⟩
  rw [GDKssort, if_pos ⟨inp.hs_pos, inp.hs_le, inp.ts_le⟩, if_neg hsmall, doSsort, hms,
    bind_some, hms']
  rfl

/-- Sixteen rows in two ascending runs of eight. -/
def twoRuns (hs ts : ℕ) (hpos : 0 < hs) (hle : hs ≤ 16) (hle' : ts ≤ 16) : SortInput hs ts where
  C := .ofKey BitVec.toNat
  nitems := 16
  b i := (BitVec.ofNat _ ((i + 8) % 16), BitVec.ofNat _ i)
  hs_pos := hpos
  hs_le := hle
  ts_le := hle'

/-- The same with heads of 16 bytes. -/
def wideInput : SortInput 16 8 := twoRuns 16 8 (by decide) (by decide) (by decide)

end MonetInR.Gdk.Ssort
