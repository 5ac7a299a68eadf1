import MonetInR.Gdk.Sort.Ssort

/-!
# Merging runs of the stable sort

Both directions of merging fill the gap that the run in temporary memory has left.  At any time the
rows that are still to be placed fit exactly, and what the rest of the merge makes of them is a
stable merge of the two remainders.  One row at a time or in gallops, a step takes rows from an end
of one run that nothing of the other run may pass; `Lo.Merges` and `Hi.Merges` say what the
remaining steps have to do, and each step hands that on.

## Main results

* `Lo.merge_spec`, `Hi.merge_spec`: each direction merges stably
-/

namespace MonetInR.Gdk.Ssort

open IntervalSearch StableOrder Function Bool Nat

variable {hs ts k n : ℕ} {C : TotalComparison (Item hs)}

/-! ## Copying rows

Unless an item has 16 bytes, the macro is a plain copy. -/

/-- The widths for which the macro copies what it should. -/
def Plain (hs ts : ℕ) : Prop := hs ≠ 16 ∧ ts ≠ 16

theorem copyRows_eq_blit (hplain : Plain hs ts) (N : ℕ) (dst : ℕ → Row hs ts) (d : ℕ)
    (src : ℕ → Row hs ts) (s : ℕ) : copyRows N dst d src s = blit dst d src s N := by
  funext i
  unfold copyRows copyAnyN blit
  rw [if_neg hplain.1, if_neg hplain.2]
  by_cases h : d ≤ i ∧ i < d + N
  · rw [if_pos h, if_pos h, if_pos h]
  · rw [if_neg h, if_neg h, if_neg h]

theorem blit_zero (b src : ℕ → Row hs ts) (d s : ℕ) : blit b d src s 0 = b :=
  funext fun _ => blit_of_not b src (by omega)

/-! ## What galloping finds -/

section

variable {a : ℕ → Row hs ts} (key : Row hs ts) {lo hint : ℕ} (hhint : hint < n)
  (hsorted : Sorted C a lo (lo + n))

include key hhint hsorted

/-- The rows of a sorted piece that do not come behind the key are those before the place found. -/
theorem gallopRight_spec :
    let k := gallopRight C.toComparison key.1 (fun i => a (lo + i)) n hint
    k ≤ n ∧ (∀ j, lo ≤ j → j < lo + k → rowLe C (a j) key = true) ∧
      ∀ j, lo + k ≤ j → j < lo + n → rowLe C (a j) key = false := by
  have hle : ∀ j, (!C.lt key.1 (a j).1) = rowLe C (a j) key := fun j => by
    rw [lt_eq_not_rowLe, Bool.not_not]
  simp only [gallopRight, hle]
  exact gallop_shifted hhint fun i j h1 h2 h3 =>
    (preordering_rowLe C ts).trans (hsorted.rel h1 h2 h3)

/-- The rows of a sorted piece that come before the key are those before the place found. -/
theorem gallopLeft_spec :
    let k := gallopLeft C.toComparison key.1 (fun i => a (lo + i)) n hint
    k ≤ n ∧ (∀ j, lo ≤ j → j < lo + k → rowLe C key (a j) = false) ∧
      ∀ j, lo + k ≤ j → j < lo + n → rowLe C key (a j) = true := by
  have hlt : ∀ j, C.lt (a j).1 key.1 = !rowLe C key (a j) := fun j =>
    lt_eq_not_rowLe C _ _
  have hdown : Downward (fun j => (!rowLe C key (a j)) = true) lo (lo + n) := by
    intro i j h1 h2 h3 h
    rw [not_eq_true'] at h ⊢
    exact (preordering_rowLe C ts).not_le_of_le_of_not_le (hsorted.rel h1 h2 h3) h
  simp only [gallopLeft, hlt]
  simpa using gallop_shifted hhint hdown

end

/-- **What galloping finds in a sorted slice**, without leaving it and without an overflow. -/
theorem gallop_counts (C : Comparison (Item hs)) (key : Item hs) {a : ℕ → Row hs ts}
    (hsorted : ∀ i j, i < j → j < n → C.le (a i).1 (a j).1 = true) (hhint : hint < n)
    (hn : n < 2 ^ 63) :
    let before i := C.lt (a i).1 key
    let upto i := !C.lt key (a i).1
    gallopLeft C key a n hint = count (before ·) n ∧
      gallopRight C key a n hint = count (upto ·) n ∧
      ∀ p ∈ [before, upto], (∀ ofs ∈ (gallopTests p n hint).1, 2 * ofs + 1 < 2 ^ 63 ∧
        if p hint then hint + ofs < n else ofs ≤ hint) ∧ ∀ i ∈ (gallopTests p n hint).2, i < n := by
  intro before upto
  have hb : Downward (before ·) 0 n := by grind [Downward, C.lt_iff, C.trans]
  have hu : Downward (upto ·) 0 n := by grind [Downward, C.lt_iff, C.trans]
  refine ⟨(boundary_gallop hhint hb).count_eq hb, (boundary_gallop hhint hu).count_eq hu,
    fun p _ => ⟨fun ofs ho => ?_, (gallopTests_spec hhint).2⟩⟩
  obtain ⟨hlt, j, hj⟩ := (gallopTests_spec hhint).1 ofs ho
  have hj63 : j < 63 := (Nat.pow_lt_pow_iff_right (a := 2) (by decide)).mp (by grind)
  have := Nat.pow_le_pow_right (n := 2) (by decide) hj63
  exact ⟨by omega, hlt⟩

theorem gallop_counts_two :
    @gallopLeft 1 0 (TotalComparison.ofKey BitVec.toNat).toComparison 1 (fun _ => (0, 0)) 2 0 = 2 :=
  (gallop_counts _ _ (fun _ _ _ _ => rfl) (by decide) (by decide)).1

/-! ## Moves

A merge is proved backwards: what finishes the merge after a move finishes it before the move. -/

section Move

variable {σ β : Type*}

/-- The move from `c` to `c'` keeps `Ready`, and `Merges` can be taken back along it. -/
structure Move (Ready : σ → Prop) (Merges : σ → β → Prop) (c c' : σ) : Prop where
  ready : Ready c'
  back : ∀ {b'}, Merges c' b' → Merges c b'

/-- The outcome of a loop merges what was left. -/
def Done (Merges : σ → β → Prop) (c : σ) (r : Option (β × ℕ)) : Prop :=
  ∃ b', r = some b' ∧ Merges c b'.1

variable {Ready : σ → Prop} {Merges : σ → β → Prop} {c c' : σ} {r : Option (β × ℕ)}

theorem Move.done (h : Move Ready Merges c c') (hr : Done Merges c' r) : Done Merges c r :=
  hr.imp fun _ hb => ⟨hb.1, h.back hb.2⟩

theorem Done.of_some {b' : β} (h : Merges c b') : Done Merges c (some (b', n)) :=
  ⟨_, rfl, h⟩

end Move

/-! ## From the left

`Ready` says where the rows are that remain to be placed, and `Merges` what is to become of them.
The cursor after a move is ready again, and what the rest of the merge does from there is right from
here. -/

namespace Lo

variable (C) in
/-- The rows to be placed fit, the runs are sorted, and the last row of the first run belongs at the
end. -/
structure Ready (a : ℕ → Row hs ts) (c : Cursor hs ts) : Prop where
  gap : c.dest + c.na = c.pb
  na_pos : 0 < c.na
  sortedA : Sorted C a c.pa (c.pa + c.na)
  sortedB : Sorted C c.b c.pb (c.pb + c.nb)
  last : ∀ j, c.pb ≤ j → j < c.pb + c.nb → rowLe C (a (c.pa + c.na - 1)) (c.b j) = false

variable (C) in
/-- The array that the rest of the merge leaves. -/
structure Merges (a : ℕ → Row hs ts) (c : Cursor hs ts) (b' : ℕ → Row hs ts) : Prop where
  frame : ∀ i, i < c.dest ∨ c.pb + c.nb ≤ i → b' i = c.b i
  isMerge : IsMerge (rowLe C) (slice a c.pa (c.pa + c.na)) (slice c.b c.pb (c.pb + c.nb))
    (slice b' c.dest (c.pb + c.nb))

variable {a b' : ℕ → Row hs ts} {c : Cursor hs ts}

namespace Ready

theorem takeManyA (hplain : Plain hs ts) (h : Ready C a c) (hk : k < c.na) :
    Ready C a (c.takeManyA a k) := by
  have hgap := h.gap
  have hb : (c.takeManyA a k).b = blit c.b c.dest a c.pa k := copyRows_eq_blit hplain ..
  have heq : ∀ j, c.pb ≤ j → (c.takeManyA a k).b j = c.b j := fun j hj => by
    rw [hb, blit_of_not _ _ (by omega)]
  refine ⟨?_, Nat.sub_pos_of_lt hk, ?_, ?_, fun j h1 h2 => ?_⟩
  · change c.dest + k + (c.na - k) = c.pb
    omega
  · change Sorted C a (c.pa + k) (c.pa + k + (c.na - k))
    exact pairwise_slice fun i j h1 h2 h3 => h.sortedA.rel (by omega) h2.le (by omega)
  · change Sorted C (c.takeManyA a k).b c.pb (c.pb + c.nb)
    rw [Sorted, slice_congr fun i h1 _ => heq i h1]
    exact h.sortedB
  · rw [heq j h1]
    change rowLe C (a (c.pa + k + (c.na - k) - 1)) (c.b j) = false
    rw [show c.pa + k + (c.na - k) - 1 = c.pa + c.na - 1 by omega]
    exact h.last j h1 h2

theorem takeManyB (h : Ready C a c) (hk : k ≤ c.nb) : Ready C a (c.takeManyB k) := by
  have hgap := h.gap
  have heq : ∀ j, c.pb + k ≤ j → (c.takeManyB k).b j = c.b j := fun j hj => by
    change blit c.b c.dest c.b c.pb k j = c.b j
    rw [blit_of_not _ _ (by omega)]
  refine ⟨?_, h.na_pos, h.sortedA, ?_, fun j h1 h2 => ?_⟩
  · change c.dest + k + c.na = c.pb + k
    omega
  · change Sorted C (c.takeManyB k).b (c.pb + k) (c.pb + k + (c.nb - k))
    rw [Sorted, slice_congr fun i h1 _ => heq i h1]
    exact pairwise_slice fun i j h1 h2 h3 => h.sortedB.rel (by omega) h2.le (by omega)
  · rw [heq j h1]
    change j < c.pb + k + (c.nb - k) at h2
    exact h.last j (by change c.pb + k ≤ j at h1; omega) (by omega)

end Ready

namespace Merges

/-- Taking rows of the first run that do not come behind any row of the second one. -/
theorem of_takeManyA (hplain : Plain hs ts) (hready : Ready C a c) (hk : k ≤ c.na)
    (hle : ∀ i, c.pa ≤ i → i < c.pa + k → ∀ j, c.pb ≤ j → j < c.pb + c.nb →
      rowLe C (a i) (c.b j) = true) (h : Merges C a (c.takeManyA a k) b') : Merges C a c b' := by
  have hgap := hready.gap
  have hb : (c.takeManyA a k).b = blit c.b c.dest a c.pa k := copyRows_eq_blit hplain ..
  have hframe : ∀ i, i < c.dest + k ∨ c.pb + c.nb ≤ i → b' i = blit c.b c.dest a c.pa k i :=
    fun i hi => by rw [← hb]; exact h.frame i hi
  refine ⟨fun i hi => ?_, ?_⟩
  · rw [hframe i (by omega), blit_of_not _ _ (by omega)]
  have hm := h.isMerge
  rw [hb] at hm
  change IsMerge (rowLe C) (slice a (c.pa + k) (c.pa + k + (c.na - k)))
    (slice (blit c.b c.dest a c.pa k) c.pb (c.pb + c.nb))
    (slice b' (c.dest + k) (c.pb + c.nb)) at hm
  rw [show c.pa + k + (c.na - k) = c.pa + c.na by omega,
    slice_blit_of_disjoint _ _ (by omega)] at hm
  have hhead : slice b' c.dest (c.dest + k) = slice a c.pa (c.pa + k) := by
    rw [slice_congr fun i _ h2 => hframe i (.inl h2), slice_blit]
  have hA : slice a c.pa (c.pa + c.na) =
      slice a c.pa (c.pa + k) ++ slice a (c.pa + k) (c.pa + c.na) :=
    slice_append a (by omega) (by omega)
  rw [slice_append b' (by omega : c.dest ≤ c.dest + k) (by omega), hhead, hA]
  have hsorted := hready.sortedA
  rw [Sorted, hA] at hsorted
  apply hm.left_first (preordering_rowLe C ts) hsorted
  rw [forall_slice]
  intro i h1 h2
  rw [forall_slice]
  exact hle i h1 h2

/-- Taking rows of the second run that come before all rows of the first one. -/
theorem of_takeManyB (hready : Ready C a c) (hk : k ≤ c.nb)
    (hlt : ∀ j, c.pb ≤ j → j < c.pb + k → ∀ i, c.pa ≤ i → i < c.pa + c.na →
      rowLe C (a i) (c.b j) = false) (h : Merges C a (c.takeManyB k) b') : Merges C a c b' := by
  have hgap := hready.gap
  have hframe : ∀ i, i < c.dest + k ∨ c.pb + c.nb ≤ i → b' i = blit c.b c.dest c.b c.pb k i :=
    fun i hi => by
      apply h.frame i
      change i < c.dest + k ∨ c.pb + k + (c.nb - k) ≤ i
      omega
  refine ⟨fun i hi => ?_, ?_⟩
  · rw [hframe i (by omega), blit_of_not _ _ (by omega)]
  have hm := h.isMerge
  change IsMerge (rowLe C) (slice a c.pa (c.pa + c.na))
    (slice (blit c.b c.dest c.b c.pb k) (c.pb + k) (c.pb + k + (c.nb - k)))
    (slice b' (c.dest + k) (c.pb + k + (c.nb - k))) at hm
  rw [show c.pb + k + (c.nb - k) = c.pb + c.nb by omega,
    slice_blit_of_disjoint _ _ (by omega)] at hm
  have hhead : slice b' c.dest (c.dest + k) = slice c.b c.pb (c.pb + k) := by
    rw [slice_congr fun i _ h2 => hframe i (.inl h2), slice_blit]
  have hB : slice c.b c.pb (c.pb + c.nb) =
      slice c.b c.pb (c.pb + k) ++ slice c.b (c.pb + k) (c.pb + c.nb) :=
    slice_append c.b (by omega) (by omega)
  rw [slice_append b' (by omega : c.dest ≤ c.dest + k) (by omega), hhead, hB]
  have hsorted := hready.sortedB
  rw [Sorted, hB] at hsorted
  apply hm.right_first (preordering_rowLe C ts) hsorted
  rw [forall_slice]
  intro j h1 h2
  rw [forall_slice]
  exact hlt j h1 h2

theorem succeedA (hplain : Plain hs ts) (hready : Ready C a c) (hnb : c.nb = 0) :
    Merges C a c (c.succeedA a) := by
  have hgap := hready.gap
  have hb : c.succeedA a = blit c.b c.dest a c.pa c.na := by
    rw [Cursor.succeedA, if_neg hready.na_pos.ne', copyRows_eq_blit hplain]
  refine ⟨fun i hi => ?_, ?_⟩
  · rw [hb, blit_of_not _ _ (by omega)]
  · rw [hb, hnb, add_zero, slice_eq_nil c.b le_rfl, ← hgap, slice_blit]
    exact .of_nil_right hready.sortedA

theorem copyB (hready : Ready C a c) (hna : c.na = 1) : Merges C a c (c.copyB a) := by
  have hgap := hready.gap
  have hb : c.copyB a = update (blit c.b c.dest c.b c.pb c.nb) (c.dest + c.nb) (a c.pa) :=
    rfl
  refine ⟨fun i hi => ?_, ?_⟩
  · rw [hb, update_of_ne (by omega), blit_of_not _ _ (by omega)]
  have hend : c.pb + c.nb = c.dest + c.nb + 1 := by omega
  have hfront : slice (c.copyB a) c.dest (c.dest + c.nb) = slice c.b c.pb (c.pb + c.nb) := by
    rw [← slice_blit c.b c.b, hb]
    apply slice_congr
    intro i _ h2
    rw [update_of_ne h2.ne]
  have hslice : slice (c.copyB a) c.dest (c.pb + c.nb) =
      slice c.b c.pb (c.pb + c.nb) ++ [a c.pa] := calc
    _ = slice (c.copyB a) c.dest (c.dest + c.nb + 1) := by rw [hend]
    _ = slice (c.copyB a) c.dest (c.dest + c.nb) ++ [c.copyB a (c.dest + c.nb)] :=
      slice_snoc _ (le_add_right _ _)
    _ = _ := by rw [hfront, hb, update_self]
  have hA : slice a c.pa (c.pa + c.na) = [] ++ [a c.pa] := by
    rw [hna, slice_snoc a le_rfl, slice_eq_nil a le_rfl]
  rw [hslice, hA]
  apply (IsMerge.of_nil_left hready.sortedB).left_last (preordering_rowLe C ts)
    (List.pairwise_singleton _ _)
  intro x hx
  rw [List.mem_singleton.mp hx, forall_slice]
  intro j h1 h2
  have := hready.last j h1 h2
  rwa [hna] at this

end Merges

/-! ### Single rows -/

theorem takeB_eq (c : Cursor hs ts) : c.takeB = c.takeManyB 1 := by
  rw [Cursor.takeB, Cursor.takeManyB, update_eq_blit]

theorem takeA_eq (hplain : Plain hs ts) (c : Cursor hs ts) : c.takeA a = c.takeManyA a 1 := by
  rw [Cursor.takeA, Cursor.takeManyA, update_eq_blit, copyRows_eq_blit hplain]

theorem takeManyA_zero (hplain : Plain hs ts) (c : Cursor hs ts) : c.takeManyA a 0 = c := by
  rw [Cursor.takeManyA, copyRows_eq_blit hplain, blit_zero]
  rfl

theorem takeManyB_zero (c : Cursor hs ts) : c.takeManyB 0 = c := by
  rw [Cursor.takeManyB, blit_zero]
  rfl

/-- A row of the second run that comes before the next row of the first one may be taken. -/
theorem takeB_move (hready : Ready C a c) (hnb : 0 < c.nb)
    (hlt : rowLe C (a c.pa) (c.b c.pb) = false) : Move (Ready C a) (Merges C a) c c.takeB := by
  rw [takeB_eq]
  refine ⟨hready.takeManyB hnb, fun h => h.of_takeManyB hready hnb fun j h1 h2 i h3 h4 => ?_⟩
  obtain rfl : j = c.pb := by omega
  exact (preordering_rowLe C ts).not_le_of_not_le_of_le hlt (hready.sortedA.rel le_rfl h3 h4)

/-- A row of the first run that does not come behind the next row of the second one may be taken. -/
theorem takeA_move (hplain : Plain hs ts) (hready : Ready C a c) (hna : 1 < c.na)
    (hle : 0 < c.nb → rowLe C (a c.pa) (c.b c.pb) = true) :
    Move (Ready C a) (Merges C a) c (c.takeA a) := by
  rw [takeA_eq hplain]
  refine ⟨hready.takeManyA hplain hna, fun h =>
    h.of_takeManyA hplain hready hready.na_pos fun i h1 h2 j h3 h4 => ?_⟩
  obtain rfl : i = c.pa := by omega
  exact (preordering_rowLe C ts).trans (hle (by omega)) (hready.sortedB.rel le_rfl h3 h4)

/-! ### Gallops

The place that a gallop finds separates the rows that may be taken from those that may not, so a
gallop is a move of several rows at once. -/

/-- The rows of the first run up to the next row of the second one may be taken, and that row comes
before the next one of the first run. -/
theorem gallopA_move (hplain : Plain hs ts) (hready : Ready C a c) (hnb : 0 < c.nb) :
    let k := gallopRight C.toComparison (c.b c.pb).1 (fun i => a (c.pa + i)) c.na 0
    let c' := if k = 0 then c else c.takeManyA a k
    c' = c.takeManyA a k ∧ k < c.na ∧ rowLe C (a c'.pa) (c'.b c'.pb) = false ∧
      Move (Ready C a) (Merges C a) c c' := by
  intro k c'
  have hgap := hready.gap
  have hc : c' = c.takeManyA a k := ite_eq_right_iff.mpr fun h0 => by rw [h0, takeManyA_zero hplain]
  obtain ⟨hk, hbelow, habove⟩ := gallopRight_spec (C := C) (c.b c.pb) hready.na_pos hready.sortedA
  have hk' : k < c.na := by
    by_contra hc
    have hpos := hready.na_pos
    have hend := hbelow (c.pa + c.na - 1) (by omega) (by omega)
    rw [hready.last c.pb le_rfl (by omega)] at hend
    cases hend
  have hnext : (c.takeManyA a k).b c.pb = c.b c.pb := by
    change copyRows k c.b c.dest a c.pa c.pb = c.b c.pb
    rw [copyRows_eq_blit hplain, blit_of_not _ _ (by omega)]
  rw [hc]
  refine ⟨rfl, hk', ?_, hready.takeManyA hplain hk', fun h =>
    h.of_takeManyA hplain hready hk fun i h1 h2 j h3 h4 => ?_⟩
  · change rowLe C (a (c.pa + k)) ((c.takeManyA a k).b c.pb) = false
    rw [hnext]
    exact habove _ le_rfl (by omega)
  · exact (preordering_rowLe C ts).trans (hbelow i h1 h2) (hready.sortedB.rel le_rfl h3 h4)

/-- The rows of the second run before the next row of the first one may be taken, and that row does
not come behind the next one of the second run. -/
theorem gallopB_move (hready : Ready C a c) (hnb : 0 < c.nb) :
    let k := gallopLeft C.toComparison (a c.pa).1 (fun i => c.b (c.pb + i)) c.nb 0
    let c' := if k = 0 then c else c.takeManyB k
    c' = c.takeManyB k ∧ (0 < c'.nb → rowLe C (a c'.pa) (c'.b c'.pb) = true) ∧
      Move (Ready C a) (Merges C a) c c' := by
  intro k c'
  have hgap := hready.gap
  have hc : c' = c.takeManyB k := ite_eq_right_iff.mpr fun h0 => by rw [h0, takeManyB_zero]
  obtain ⟨hk, hbelow, habove⟩ := gallopLeft_spec (C := C) (a c.pa) hnb hready.sortedB
  rw [hc]
  refine ⟨rfl, fun hlt => ?_, hready.takeManyB hk, fun h =>
    h.of_takeManyB hready hk fun j h1 h2 i h3 h4 => ?_⟩
  · change 0 < c.nb - k at hlt
    change rowLe C (a c.pa) (blit c.b c.dest c.b c.pb k (c.pb + k)) = true
    rw [blit_of_not _ _ (by omega)]
    exact habove _ le_rfl (by omega)
  · exact (preordering_rowLe C ts).not_le_of_not_le_of_le (hbelow j h1 h2)
      (hready.sortedA.rel le_rfl h3 h4)

/-! ### The loops

By induction on the fuel, over both phases at once, since each of them may lead to the other one. -/

/-- **The loops merge what is left, in either phase.** -/
theorem loop_spec (hplain : Plain hs ts) (f : ℕ) (phase : Phase) (minGallop : ℕ)
    (c : Cursor hs ts) (hready : Ready C a c) (hna : 1 < c.na) (hnb : 0 < c.nb)
    (hf : c.na + c.nb ≤ f) : Done (Merges C a) c (loop C.toComparison a f phase minGallop c) := by
  induction f generalizing phase minGallop c with
  | zero => omega
  | succ f ih =>
    cases phase with
    | pairs acount bcount =>
      rw [loop]
      by_cases hwin : C.lt (c.b c.pb).1 (a c.pa).1 = true
      · rw [if_pos hwin]
        rw [lt_eq_not_rowLe, not_eq_true'] at hwin
        have hmove := takeB_move hready hnb hwin
        have hnb' : c.takeB.nb = c.nb - 1 := rfl
        have hna' : c.takeB.na = c.na := rfl
        apply hmove.done
        dsimp only
        split_ifs with hdone
        · exact .of_some (.succeedA hplain hmove.ready hdone)
        all_goals exact ih _ _ _ hmove.ready hna (pos_of_ne_zero hdone) (by omega)
      · rw [if_neg hwin]
        rw [lt_eq_not_rowLe, not_eq_true', not_eq_false] at hwin
        have hmove := takeA_move hplain hready hna fun _ => hwin
        have hna' : (c.takeA a).na = c.na - 1 := rfl
        have hnb' : (c.takeA a).nb = c.nb := rfl
        apply hmove.done
        dsimp only
        split_ifs with hdone
        · exact .of_some (.copyB hmove.ready hdone)
        all_goals exact ih _ _ _ hmove.ready (by omega) hnb (by omega)
    | gallop =>
      rw [loop]
      dsimp only
      obtain ⟨hc1, hk, hnext, hmove1⟩ := gallopA_move hplain hready hnb
      generalize gallopRight C.toComparison (c.b c.pb).1 (fun i => a (c.pa + i)) c.na 0 =
        acount at *
      generalize (if acount = 0 then c else c.takeManyA a acount) = c₁ at *
      have hna1 : c₁.na = c.na - acount := by rw [hc1]; rfl
      have hnb1 : c₁.nb = c.nb := by rw [hc1]; rfl
      apply hmove1.done
      by_cases hone : acount ≠ 0 ∧ c₁.na = 1
      · rw [if_pos hone]
        exact .of_some (.copyB hmove1.ready hone.2)
      rw [if_neg hone, if_neg (by omega)]
      -- the row of the second run at which the gallop stopped
      have hmove2 := takeB_move hmove1.ready (by omega) hnext
      have hna2 : c₁.takeB.na = c₁.na := rfl
      have hnb2 : c₁.takeB.nb = c₁.nb - 1 := rfl
      generalize c₁.takeB = c₂ at *
      apply hmove2.done
      by_cases hdone : c₂.nb = 0
      · rw [if_pos hdone]
        exact .of_some (.succeedA hplain hmove2.ready hdone)
      rw [if_neg hdone]
      obtain ⟨hc3, hnext3, hmove3⟩ := gallopB_move hmove2.ready (pos_of_ne_zero hdone)
      generalize gallopLeft C.toComparison (a c₂.pa).1 (fun i => c₂.b (c₂.pb + i)) c₂.nb 0 =
        bcount at *
      generalize (if bcount = 0 then c₂ else c₂.takeManyB bcount) = c₃ at *
      have hna3 : c₃.na = c₂.na := by rw [hc3]; rfl
      have hnb3 : c₃.nb = c₂.nb - bcount := by rw [hc3]; rfl
      apply hmove3.done
      by_cases hdone3 : bcount ≠ 0 ∧ c₃.nb = 0
      · rw [if_pos hdone3]
        exact .of_some (.succeedA hplain hmove3.ready hdone3.2)
      rw [if_neg hdone3]
      -- and the row of the first run at which that gallop stopped
      have hmove4 := takeA_move hplain hmove3.ready (by omega) hnext3
      have hna4 : (c₃.takeA a).na = c₃.na - 1 := rfl
      have hnb4 : (c₃.takeA a).nb = c₃.nb := rfl
      apply hmove4.done
      by_cases hlast : (c₃.takeA a).na = 1
      · rw [if_pos hlast]
        exact .of_some (.copyB hmove4.ready hlast)
      split_ifs
      all_goals exact ih _ _ _ hmove4.ready (by omega) (by omega) (by omega)

/-- **The merge from the left is a stable merge.**  The first row of the second run comes before the
first run. -/
theorem merge_spec (hplain : Plain hs ts) (minGallop : ℕ) (hready : Ready C a c) (hnb : 0 < c.nb)
    (hfirst : rowLe C (a c.pa) (c.b c.pb) = false) :
    ∃ r, merge C.toComparison a minGallop c = some r ∧ Merges C a c r.1 := by
  have hmove := takeB_move hready hnb hfirst
  have hpos : 0 < c.takeB.na := hready.na_pos
  apply hmove.done
  rw [merge]
  split_ifs with hdone hone
  · exact .of_some (.succeedA hplain hmove.ready hdone)
  · exact .of_some (.copyB hmove.ready hone)
  · exact loop_spec hplain _ _ _ _ hmove.ready (by omega) (pos_of_ne_zero hdone) le_rfl

end Lo

/-! ## From the right

The same with the ends exchanged: the second run is in temporary memory, and its first row belongs
at the front. -/

namespace Hi

variable (C) in
/-- The rows to be placed fit, the runs are sorted, and the first row of the second run belongs at
the front. -/
structure Ready (a : ℕ → Row hs ts) (basea : ℕ) (c : Cursor hs ts) : Prop where
  ea : c.ea = basea + c.na
  eb : c.eb = c.nb
  ed : c.ed = basea + c.na + c.nb
  nb_pos : 0 < c.nb
  sortedA : Sorted C c.b basea (basea + c.na)
  sortedB : Sorted C a 0 c.nb
  first : ∀ i, basea ≤ i → i < basea + c.na → rowLe C (c.b i) (a 0) = false

variable (C) in
/-- The array that the rest of the merge leaves. -/
structure Merges (a : ℕ → Row hs ts) (basea : ℕ) (c : Cursor hs ts) (b' : ℕ → Row hs ts) :
    Prop where
  frame : ∀ i, i < basea ∨ basea + c.na + c.nb ≤ i → b' i = c.b i
  isMerge : IsMerge (rowLe C) (slice c.b basea (basea + c.na)) (slice a 0 c.nb)
    (slice b' basea (basea + c.na + c.nb))

variable {a b' : ℕ → Row hs ts} {basea : ℕ} {c : Cursor hs ts}

namespace Ready

theorem takeManyA (h : Ready C a basea c) (hk : k ≤ c.na) : Ready C a basea (c.takeManyA k) := by
  have hea := h.ea
  have hed := h.ed
  have heq : ∀ i, i < basea + (c.na - k) → (c.takeManyA k).b i = c.b i := fun i hi => by
    change blit c.b (c.ed - k) c.b (c.ea - k) k i = c.b i
    rw [blit_of_not _ _ (by omega)]
  refine ⟨?_, h.eb, ?_, h.nb_pos, ?_, h.sortedB, fun i h1 h2 => ?_⟩
  · change c.ea - k = basea + (c.na - k)
    omega
  · change c.ed - k = basea + (c.na - k) + c.nb
    omega
  · change Sorted C (c.takeManyA k).b basea (basea + (c.na - k))
    rw [Sorted, slice_congr fun i _ h2 => heq i h2]
    exact pairwise_slice fun i j h1 h2 h3 => h.sortedA.rel h1 h2.le (by omega)
  · rw [heq i h2]
    exact h.first i h1 (by change i < basea + (c.na - k) at h2; omega)

theorem takeManyB (h : Ready C a basea c) (hk : k < c.nb) : Ready C a basea (c.takeManyB a k) := by
  have heb := h.eb
  have hed := h.ed
  have heq : ∀ i, i < basea + c.na → (c.takeManyB a k).b i = c.b i := fun i hi => by
    change blit c.b (c.ed - k) a (c.eb - k) k i = c.b i
    rw [blit_of_not _ _ (by omega)]
  refine ⟨h.ea, ?_, ?_, Nat.sub_pos_of_lt hk, ?_, ?_, fun i h1 h2 => ?_⟩
  · change c.eb - k = c.nb - k
    omega
  · change c.ed - k = basea + c.na + (c.nb - k)
    omega
  · change Sorted C (c.takeManyB a k).b basea (basea + c.na)
    rw [Sorted, slice_congr fun i _ h2 => heq i h2]
    exact h.sortedA
  · change Sorted C a 0 (c.nb - k)
    exact pairwise_slice fun i j h1 h2 h3 => h.sortedB.rel h1 h2.le (by omega)
  · rw [heq i h2]
    exact h.first i h1 h2

end Ready

namespace Merges

/-- Taking rows of the first run that come behind all rows of the second one. -/
theorem of_takeManyA (hready : Ready C a basea c) (hk : k ≤ c.na)
    (hlt : ∀ j, basea + c.na - k ≤ j → j < basea + c.na → ∀ i, i < c.nb →
      rowLe C (c.b j) (a i) = false) (h : Merges C a basea (c.takeManyA k) b') :
    Merges C a basea c b' := by
  have hea := hready.ea
  have hed := hready.ed
  have hframe : ∀ i, i < basea ∨ basea + (c.na - k) + c.nb ≤ i →
      b' i = blit c.b (c.ed - k) c.b (c.ea - k) k i := h.frame
  refine ⟨fun i hi => ?_, ?_⟩
  · rw [hframe i (by omega), blit_of_not _ _ (by omega)]
  have hm := h.isMerge
  change IsMerge (rowLe C)
    (slice (blit c.b (c.ed - k) c.b (c.ea - k) k) basea (basea + (c.na - k))) (slice a 0 c.nb)
    (slice b' basea (basea + (c.na - k) + c.nb)) at hm
  rw [slice_blit_of_disjoint _ _ (by omega)] at hm
  have htail : slice b' (basea + (c.na - k) + c.nb) (basea + c.na + c.nb) =
      slice c.b (basea + (c.na - k)) (basea + c.na) := by
    rw [slice_congr fun i h1 _ => hframe i (.inr h1)]
    exact slice_blit_of_eq _ _ (by omega) (by omega) (by omega) (by omega)
  have hA : slice c.b basea (basea + c.na) =
      slice c.b basea (basea + (c.na - k)) ++ slice c.b (basea + (c.na - k)) (basea + c.na) :=
    slice_append c.b (by omega) (by omega)
  have hR : slice b' basea (basea + c.na + c.nb) = _ :=
    slice_append b' (by omega : basea ≤ basea + (c.na - k) + c.nb) (by omega)
  rw [hR, htail, hA]
  have hsorted := hready.sortedA
  rw [Sorted, hA] at hsorted
  apply hm.left_last (preordering_rowLe C ts) hsorted
  rw [forall_slice]
  intro j h1 h2
  rw [forall_slice]
  exact fun i _ h4 => hlt j (by omega) h2 i h4

/-- Taking rows of the second run that do not come before any row of the first one. -/
theorem of_takeManyB (hready : Ready C a basea c) (hk : k ≤ c.nb)
    (hle : ∀ j, c.nb - k ≤ j → j < c.nb → ∀ i, basea ≤ i → i < basea + c.na →
      rowLe C (c.b i) (a j) = true) (h : Merges C a basea (c.takeManyB a k) b') :
    Merges C a basea c b' := by
  have heb := hready.eb
  have hed := hready.ed
  have hframe : ∀ i, i < basea ∨ basea + c.na + (c.nb - k) ≤ i →
      b' i = blit c.b (c.ed - k) a (c.eb - k) k i := h.frame
  refine ⟨fun i hi => ?_, ?_⟩
  · rw [hframe i (by omega), blit_of_not _ _ (by omega)]
  have hm := h.isMerge
  change IsMerge (rowLe C)
    (slice (blit c.b (c.ed - k) a (c.eb - k) k) basea (basea + c.na)) (slice a 0 (c.nb - k))
    (slice b' basea (basea + c.na + (c.nb - k))) at hm
  rw [slice_blit_of_disjoint _ _ (by omega)] at hm
  have htail : slice b' (basea + c.na + (c.nb - k)) (basea + c.na + c.nb) =
      slice a (c.nb - k) c.nb := by
    rw [slice_congr fun i h1 _ => hframe i (.inr h1)]
    exact slice_blit_of_eq _ _ (by omega) (by omega) (by omega) (by omega)
  have hB : slice a 0 c.nb = slice a 0 (c.nb - k) ++ slice a (c.nb - k) c.nb :=
    slice_append a (zero_le _) (by omega)
  have hR : slice b' basea (basea + c.na + c.nb) = _ :=
    slice_append b' (by omega : basea ≤ basea + c.na + (c.nb - k)) (by omega)
  rw [hR, htail, hB]
  have hsorted := hready.sortedB
  rw [Sorted, hB] at hsorted
  apply hm.right_last (preordering_rowLe C ts) hsorted
  rw [forall_slice]
  intro j h1 h2
  rw [forall_slice]
  exact hle j h1 h2

theorem succeedB (hplain : Plain hs ts) (hready : Ready C a basea c) (hna : c.na = 0) :
    Merges C a basea c (c.succeedB a) := by
  have hed := hready.ed
  have hb : c.succeedB a = blit c.b basea a 0 c.nb := by
    rw [Cursor.succeedB, if_neg hready.nb_pos.ne', copyRows_eq_blit hplain,
      show c.ed - c.nb = basea by omega]
  refine ⟨fun i hi => ?_, ?_⟩
  · rw [hb, blit_of_not _ _ (by omega)]
  · rw [hb, hna, add_zero, slice_eq_nil c.b le_rfl, slice_blit, zero_add]
    exact .of_nil_left hready.sortedB

theorem copyA (hready : Ready C a basea c) (hnb : c.nb = 1) :
    Merges C a basea c (c.copyA a) := by
  have hea := hready.ea
  have heb := hready.eb
  have hed := hready.ed
  have hb : c.copyA a = update (blit c.b (basea + 1) c.b basea c.na) basea (a 0) := by
    rw [Cursor.copyA, show c.ed - c.na = basea + 1 by omega, show c.ea - c.na = basea by omega,
      show c.eb - 1 = 0 by omega, Nat.add_sub_cancel]
  refine ⟨fun i hi => ?_, ?_⟩
  · rw [hb, update_of_ne (by omega), blit_of_not _ _ (by omega)]
  have hback : slice (c.copyA a) (basea + 1) (basea + 1 + c.na) =
      slice c.b basea (basea + c.na) := by
    rw [← slice_blit c.b c.b, hb]
    apply slice_congr
    intro i h1 _
    rw [update_of_ne (by omega)]
  have hslice : slice (c.copyA a) basea (basea + c.na + c.nb) =
      [a 0] ++ slice c.b basea (basea + c.na) := calc
    _ = slice (c.copyA a) basea (basea + 1 + c.na) := by
      rw [show basea + c.na + c.nb = basea + 1 + c.na by omega]
    _ = c.copyA a basea :: slice (c.copyA a) (basea + 1) (basea + 1 + c.na) :=
      slice_cons _ (by omega)
    _ = _ := by rw [hback, hb, update_self, List.singleton_append]
  have hB : slice a 0 c.nb = [a 0] ++ [] := by
    rw [hnb, slice_cons a Nat.one_pos, slice_eq_nil a le_rfl, List.singleton_append]
  rw [hslice, hB]
  apply (IsMerge.of_nil_right hready.sortedA).right_first (preordering_rowLe C ts)
    (List.pairwise_singleton _ _)
  intro y hy
  rw [List.mem_singleton.mp hy, forall_slice]
  exact hready.first

end Merges

/-! ### Single rows from the right -/

theorem takeA_eq (c : Cursor hs ts) : c.takeA = c.takeManyA 1 := by
  rw [Cursor.takeA, Cursor.takeManyA, update_eq_blit]

theorem takeB_eq (c : Cursor hs ts) : c.takeB a = c.takeManyB a 1 := by
  rw [Cursor.takeB, Cursor.takeManyB, update_eq_blit]

theorem takeManyA_zero (c : Cursor hs ts) : c.takeManyA 0 = c := by
  rw [Cursor.takeManyA, blit_zero]
  rfl

theorem takeManyB_zero (c : Cursor hs ts) : c.takeManyB a 0 = c := by
  rw [Cursor.takeManyB, blit_zero]
  rfl

section

variable (hready : Ready C a basea c)

include hready

/-- A row of the first run that comes behind the last row of the second one may be taken. -/
theorem takeA_move (hna : 0 < c.na)
    (hlt : rowLe C (c.b (c.ea - 1)) (a (c.eb - 1)) = false) :
    Move (Ready C a basea) (Merges C a basea) c c.takeA := by
  have hea := hready.ea
  have heb := hready.eb
  rw [takeA_eq]
  refine ⟨hready.takeManyA hna, fun h => h.of_takeManyA hready hna fun j h1 h2 i h3 => ?_⟩
  obtain rfl : j = c.ea - 1 := by omega
  exact (preordering_rowLe C ts).not_le_of_le_of_not_le
    (hready.sortedB.rel (zero_le _) (by omega) (by omega)) hlt

/-- A row of the second run that does not come before the last row of the first one may be taken. -/
theorem takeB_move (hnb : 1 < c.nb)
    (hle : 0 < c.na → rowLe C (c.b (c.ea - 1)) (a (c.eb - 1)) = true) :
    Move (Ready C a basea) (Merges C a basea) c (c.takeB a) := by
  have hea := hready.ea
  have heb := hready.eb
  rw [takeB_eq]
  refine ⟨hready.takeManyB hnb, fun h =>
    h.of_takeManyB hready hready.nb_pos fun j h1 h2 i h3 h4 => ?_⟩
  obtain rfl : j = c.eb - 1 := by omega
  exact (preordering_rowLe C ts).trans (hready.sortedA.rel h3 (by omega) (by omega))
    (hle (by omega))

/-! ### Gallops from the right -/

/-- The rows of the first run behind the last row of the second one may be taken, and the last row
then left of the first run does not come behind it. -/
theorem gallopA_move (hna : 0 < c.na) :
    let k := c.na -
      gallopRight C.toComparison (a (c.eb - 1)).1 (fun i => c.b (basea + i)) c.na (c.na - 1)
    let c' := if k = 0 then c else c.takeManyA k
    c' = c.takeManyA k ∧ (0 < c'.na → rowLe C (c'.b (c'.ea - 1)) (a (c'.eb - 1)) = true) ∧
      Move (Ready C a basea) (Merges C a basea) c c' := by
  intro k c'
  have hea := hready.ea
  have heb := hready.eb
  have hed := hready.ed
  have hc : c' = c.takeManyA k := ite_eq_right_iff.mpr fun h0 => by rw [h0, takeManyA_zero]
  obtain ⟨hk, hbelow, habove⟩ := gallopRight_spec (C := C) (a (c.eb - 1))
    (by omega : c.na - 1 < c.na) hready.sortedA
  rw [hc]
  refine ⟨rfl, fun hlt => ?_, hready.takeManyA (sub_le _ _), fun h =>
    h.of_takeManyA hready (sub_le _ _) fun j h1 h2 i h3 => ?_⟩
  · change 0 < c.na - k at hlt
    change rowLe C (blit c.b (c.ed - k) c.b (c.ea - k) k (c.ea - k - 1)) (a (c.eb - 1)) = true
    rw [blit_of_not _ _ (by omega)]
    exact hbelow _ (by omega) (by omega)
  · exact (preordering_rowLe C ts).not_le_of_le_of_not_le
      (hready.sortedB.rel (zero_le _) (by omega) (by omega)) (habove j (by omega) h2)

/-- The rows of the second run that do not come before the last row of the first one may be taken;
some row is left, and the last one then comes before it. -/
theorem gallopB_move (hna : 0 < c.na) :
    let k := c.nb - gallopLeft C.toComparison (c.b (c.ea - 1)).1 a c.nb (c.nb - 1)
    let c' := if k = 0 then c else c.takeManyB a k
    c' = c.takeManyB a k ∧ k < c.nb ∧ rowLe C (c'.b (c'.ea - 1)) (a (c'.eb - 1)) = false ∧
      Move (Ready C a basea) (Merges C a basea) c c' := by
  intro k c'
  have hea := hready.ea
  have heb := hready.eb
  have hed := hready.ed
  have hpos := hready.nb_pos
  have hc : c' = c.takeManyB a k := ite_eq_right_iff.mpr fun h0 => by rw [h0, takeManyB_zero]
  have hsorted := hready.sortedB
  rw [← zero_add c.nb] at hsorted
  obtain ⟨hk, hbelow, habove⟩ := gallopLeft_spec (C := C) (c.b (c.ea - 1))
    (by omega : c.nb - 1 < c.nb) hsorted
  have heta : (fun i => a (0 + i)) = a := funext fun i => by rw [zero_add]
  rw [heta] at hk hbelow habove
  simp only [zero_add] at hbelow habove
  have hk' : gallopLeft C.toComparison (c.b (c.ea - 1)).1 a c.nb (c.nb - 1) ≠ 0 := by
    intro h0
    have hfirst := habove 0 (by omega) hpos
    rw [hready.first (c.ea - 1) (by omega) (by omega)] at hfirst
    cases hfirst
  have hlt : k < c.nb := by omega
  rw [hc]
  refine ⟨rfl, hlt, ?_, hready.takeManyB hlt, fun h =>
    h.of_takeManyB hready (sub_le _ _) fun j h1 h2 i h3 h4 => ?_⟩
  · change rowLe C (blit c.b (c.ed - k) a (c.eb - k) k (c.ea - 1)) (a (c.eb - k - 1)) = false
    rw [blit_of_not _ _ (by omega)]
    exact hbelow _ (zero_le _) (by omega)
  · exact (preordering_rowLe C ts).trans (hready.sortedA.rel h3 (by omega) (by omega))
      (habove j (by omega) h2)

end

/-! ### The loops from the right -/

/-- **The loops merge what is left, in either phase.** -/
theorem loop_spec (hplain : Plain hs ts) (f : ℕ) (phase : Phase) (minGallop : ℕ)
    (c : Cursor hs ts) (hready : Ready C a basea c) (hna : 0 < c.na) (hnb : 1 < c.nb)
    (hf : c.na + c.nb ≤ f) :
    Done (Merges C a basea) c (loop C.toComparison a basea f phase minGallop c) := by
  induction f generalizing phase minGallop c with
  | zero => omega
  | succ f ih =>
    cases phase with
    | pairs acount bcount =>
      rw [loop]
      by_cases hwin : C.lt (a (c.eb - 1)).1 (c.b (c.ea - 1)).1 = true
      · rw [if_pos hwin]
        rw [lt_eq_not_rowLe, not_eq_true'] at hwin
        have hmove := takeA_move hready hna hwin
        have hna' : c.takeA.na = c.na - 1 := rfl
        have hnb' : c.takeA.nb = c.nb := rfl
        apply hmove.done
        dsimp only
        split_ifs with hdone
        · exact .of_some (.succeedB hplain hmove.ready hdone)
        all_goals exact ih _ _ _ hmove.ready (pos_of_ne_zero hdone) hnb (by omega)
      · rw [if_neg hwin]
        rw [lt_eq_not_rowLe, not_eq_true', not_eq_false] at hwin
        have hmove := takeB_move hready hnb fun _ => hwin
        have hna' : (c.takeB a).na = c.na := rfl
        have hnb' : (c.takeB a).nb = c.nb - 1 := rfl
        apply hmove.done
        dsimp only
        split_ifs with hdone
        · exact .of_some (.copyA hmove.ready hdone)
        all_goals exact ih _ _ _ hmove.ready hna (by omega) (by omega)
    | gallop =>
      rw [loop]
      dsimp only
      obtain ⟨hc1, hnext, hmove1⟩ := gallopA_move hready hna
      generalize c.na - gallopRight C.toComparison (a (c.eb - 1)).1 (fun i => c.b (basea + i))
        c.na (c.na - 1) = acount at *
      generalize (if acount = 0 then c else c.takeManyA acount) = c₁ at *
      have hna1 : c₁.na = c.na - acount := by rw [hc1]; rfl
      have hnb1 : c₁.nb = c.nb := by rw [hc1]; rfl
      apply hmove1.done
      by_cases hempty : acount ≠ 0 ∧ c₁.na = 0
      · rw [if_pos hempty]
        exact .of_some (.succeedB hplain hmove1.ready hempty.2)
      rw [if_neg hempty]
      -- the row of the second run at which the gallop stopped
      have hmove2 := takeB_move hmove1.ready (by omega) hnext
      have hna2 : (c₁.takeB a).na = c₁.na := rfl
      have hnb2 : (c₁.takeB a).nb = c₁.nb - 1 := rfl
      generalize c₁.takeB a = c₂ at *
      apply hmove2.done
      by_cases hone : c₂.nb = 1
      · rw [if_pos hone]
        exact .of_some (.copyA hmove2.ready hone)
      rw [if_neg hone]
      obtain ⟨hc3, hk, hnext3, hmove3⟩ := gallopB_move hmove2.ready (by omega)
      generalize c₂.nb - gallopLeft C.toComparison (c₂.b (c₂.ea - 1)).1 a c₂.nb (c₂.nb - 1) =
        bcount at *
      generalize (if bcount = 0 then c₂ else c₂.takeManyB a bcount) = c₃ at *
      have hna3 : c₃.na = c₂.na := by rw [hc3]; rfl
      have hnb3 : c₃.nb = c₂.nb - bcount := by rw [hc3]; rfl
      apply hmove3.done
      by_cases hone3 : bcount ≠ 0 ∧ c₃.nb = 1
      · rw [if_pos hone3]
        exact .of_some (.copyA hmove3.ready hone3.2)
      rw [if_neg hone3, if_neg (by omega)]
      -- and the row of the first run at which that gallop stopped
      have hmove4 := takeA_move hmove3.ready (by omega) hnext3
      have hna4 : c₃.takeA.na = c₃.na - 1 := rfl
      have hnb4 : c₃.takeA.nb = c₃.nb := rfl
      apply hmove4.done
      by_cases hdone : c₃.takeA.na = 0
      · rw [if_pos hdone]
        exact .of_some (.succeedB hplain hmove4.ready hdone)
      split_ifs
      all_goals exact ih _ _ _ hmove4.ready (by omega) (by omega) (by omega)

/-- **The merge from the right is a stable merge.**  The last row of the first run comes behind the
second run. -/
theorem merge_spec (hplain : Plain hs ts) (minGallop : ℕ) (hready : Ready C a basea c)
    (hna : 0 < c.na) (hlast : rowLe C (c.b (c.ea - 1)) (a (c.eb - 1)) = false) :
    ∃ r, merge C.toComparison a basea minGallop c = some r ∧ Merges C a basea c r.1 := by
  have hmove := takeA_move hready hna hlast
  have hpos : 0 < c.takeA.nb := hready.nb_pos
  apply hmove.done
  rw [merge]
  split_ifs with hdone hone
  · exact .of_some (.succeedB hplain hmove.ready hdone)
  · exact .of_some (.copyA hmove.ready hone)
  · exact loop_spec hplain _ _ _ _ hmove.ready (pos_of_ne_zero hdone) (by omega) le_rfl

end Hi

end MonetInR.Gdk.Ssort
