import MonetInR.Gdk.Select.Normalize

/-!
# Range selection on an ordered column

On a column that is sorted, sorted downwards or dense, `BATsubselect` does not scan.  It finds the
first and the last row of the range by binary search (or, for a dense column, by subtraction), and
returns the rows between them or, for a complement, those before and behind them.  With a candidate
list the positions are looked up in it first.

For a complement the search also skips the nils, with `SORTfndlast`.  This is right for a sorted
column, where nils come first, but not for the other two kinds.

Normalisation is done with any least value here: that of the integers follows nil, that of oids is
0.  A complement is left only if the type has values on both sides of it; in all other cases the
bounds are included.

## Main definitions

* `SelectColumn`: a column of integers or oids with its order
* `subselect`: the operator, by search or by scan
* `TwoSided`, `Below`, `Above`: a complement with values on both sides, and these values

## Main results

* `boundary_sortFndFirst`, …: the positions found
* `selectPlanOf_twoSided`, `selectPlanOf_range`: the bounds that the search is called with
-/

namespace MonetInR.Gdk

open IntervalSearch Nat Option Bounds

/-! ## The column -/

/-- A column of integers or, if `isOid`, of oids.  Oids are stored as numbers of 64 bits, of which
the least one is nil and the others are not negative. -/
structure SelectColumn (t : IntType) extends Column (IntVal t) where
  /-- The sequence base of the tail if `BATtdense` holds. -/
  tseq : Option ℕ
  /-- The tail type is oid or void. -/
  isOid : Bool
  dense_true : ∀ seq, tseq = some seq → tsorted = true ∧ tnonil = true ∧ seq + count < 2 ^ 63 ∧
    ∀ i < count, (val (first + i)).1 = seq + i
  dense_oid : ∀ seq, tseq = some seq → isOid = true
  oid_lng : isOid = true → t = .lng

theorem not_dense (seq : ℕ) (h : none = some seq) : false = true := by cases h

namespace SelectColumn

variable {t : IntType} (b : SelectColumn t)

/-- `MINVALUE`: the least value of the type that is not nil. -/
def minValue : ℤ := if b.isOid then 0 else t.min + 1

/-- The same values, with the flags on their order cleared. -/
def clearOrder : SelectColumn t := { b with
    tsorted := false
    trevsorted := false
    sorted_true := nofun
    revsorted_true := nofun
    tseq := none
    dense_true := nofun
    dense_oid := nofun }

/-- `SORTfndfirst` on the tail, counted from the first row. -/
def sortFndFirst (v : IntVal t) : ℕ :=
  match b.tseq with
  | some seq =>
    let o := (v.1 % 2 ^ 64).toNat
    if o < seq then 0 else if seq + b.count ≤ o then b.count else o - seq
  | none =>
    if b.tsorted then SORTfndfirst b.val b.first (b.first + b.count) b.tkey v - b.first
    else SORTfndfirst (OrderDual.toDual ∘ b.val) b.first (b.first + b.count) b.tkey
      (OrderDual.toDual v) - b.first

/-- `SORTfndlast` on the tail, counted from the first row. -/
def sortFndLast (v : IntVal t) : ℕ :=
  match b.tseq with
  | some seq =>
    let o := (v.1 % 2 ^ 64).toNat
    if o < seq then 0 else if seq + b.count ≤ o then b.count else o - seq + 1
  | none =>
    if b.tsorted then SORTfndlast b.val b.first (b.first + b.count) b.tkey v - b.first
    else SORTfndlast (OrderDual.toDual ∘ b.val) b.first (b.first + b.count) b.tkey
      (OrderDual.toDual v) - b.first

end SelectColumn

/-- `SORTfndfirst` in a candidate list. -/
def Candidates.fndFirst (s : Candidates) (o : ℕ) : ℕ :=
  match s.tseq with
  | some seq => if o < seq then 0 else if seq + s.count ≤ o then s.count else o - seq
  | none => SORTfndfirst s.tail 0 s.count s.tkey o

/-! ## The operator

A selection is a slice of a column: of the oids of the rows, or of the candidate list.  A complement
is two slices. -/

section Operator

variable {t : IntType}

/-- A value of the type: the bounds of a lookup are such values. -/
def toVal (t : IntType) (v : ℤ) : IntVal t :=
  if h : t.min ≤ v ∧ v ≤ t.max then ⟨v, h⟩ else ⊥

/-- The rows of the range, or those before and behind it: the positions `low` and `high`. -/
def searchRange (b : SelectColumn t) (bd : Bounds) : ℕ × ℕ :=
  match b.tseq with
  | some seq =>
    let h := (bd.high % 2 ^ 64).toNat + bd.hi.toNat
    let l := (bd.low % 2 ^ 64).toNat + (!bd.li).toNat
    (if seq < l then l - seq else 0, min (if seq < h then h - seq else 0) b.count)
  | none =>
    let tl := toVal t bd.low
    let th := toVal t bd.high
    if b.tsorted then
      (if bd.lval then if bd.li then b.sortFndFirst tl else b.sortFndLast tl
        else b.sortFndLast ⊥,
        if bd.hval then if bd.hi then b.sortFndLast th else b.sortFndFirst th else b.count)
    else
      (if bd.hval then if bd.hi then b.sortFndFirst th else b.sortFndLast th else 0,
        if bd.lval then if bd.li then b.sortFndLast tl else b.sortFndFirst tl
        else b.sortFndFirst ⊥)

/-- The column that is sliced: the oids of the rows, or the candidate list. -/
def viewAt (b : SelectColumn t) : Option Candidates → ℕ → ℕ
  | some s => s.tail
  | none => fun i => b.hseqbase + i

def viewCount (b : SelectColumn t) : Option Candidates → ℕ
  | some s => s.count
  | none => b.count

/-- The place of a row in that column. -/
def viewPos (b : SelectColumn t) : Option Candidates → ℕ → ℕ
  | some s => fun p => s.fndFirst (p + b.hseqbase)
  | none => fun p => p

/-- `BATslice` -/
def BATslice (v : ℕ → ℕ) (count l h : ℕ) : List ℕ :=
  let h := min h count
  slice v l (max h l)

/-- `BATslice2`: two slices, of which only the second one is cut at the end of the column. -/
def BATslice2 (v : ℕ → ℕ) (count l₁ h₁ l₂ h₂ : ℕ) : List ℕ :=
  let h₂ := min h₂ count
  slice v l₁ (max h₁ l₁) ++ slice v l₂ (max h₂ l₂)

/-- The selection by search. -/
def orderedSelect (b : SelectColumn t) (s : Option Candidates) (bd : Bounds) : List ℕ :=
  let (low, high) := searchRange b bd
  if bd.anti then
    let first := b.sortFndLast ⊥
    BATslice2 (viewAt b s) (viewCount b s) (viewPos b s first) (viewPos b s low)
      (viewPos b s high) (viewCount b s)
  else BATslice (viewAt b s) (viewCount b s) (viewPos b s low) (viewPos b s high)

/-- `BATsubselect`, where no hash index and no imprints are used. -/
def subselect (b : SelectColumn t) (s : Option Candidates) (tl : IntVal t)
    (th : Option (IntVal t)) (li hi anti : Bool) : Except String (List ℕ) :=
  if !b.hdense then
    .error "BATsubselect: invalid argument: b must have a dense head.\n"
  else if s.any fun s => !s.tsorted then
    .error "BATsubselect: invalid argument: s must be sorted.\n"
  else if triviallyEmpty b.toColumn s then .ok []
  else
    match selectPlanOf t.min b.minValue t.max b.tnonil tl.1 (th.map Subtype.val) li hi anti with
    | .nothing => .ok []
    | .everything => .ok (everything b.toColumn s)
    | .lookup bd =>
      if b.tsorted || b.trevsorted then .ok (orderedSelect b s bd)
      else .ok (BAT_scanselect b.toColumn s fun v =>
        scanTest t b.tnonil bd.equi bd.anti bd.low bd.high v.1)

end Operator

/-! ## The positions found

The searches are those of `SORTfnd`, and are used through the boundary they find.  A column that is
sorted downwards is taken in the dual order. -/

section Positions

variable {t : IntType} {b : SelectColumn t}

theorem rows_of_boundary {p : ℕ → Prop} {first count k : ℕ}
    (hb : Boundary p first (first + count) k) (hd : Downward p first (first + count)) :
    k - first ≤ count ∧ ∀ i < count, (p (first + i) ↔ i < k - first) := by
  have h2 := hb.le_hi
  refine ⟨by omega, fun i hi => ?_⟩
  rw [hb.iff_lt hd (by omega) (by omega)]
  omega

variable (b) in
theorem ascending_val (hs : b.tsorted = true) :
    Ascending b.val b.first (b.first + b.count) := by
  intro i j h1 h2 h3
  have h := b.sorted_true hs (i - b.first) (j - b.first) (by omega) (by omega)
  rwa [Nat.add_sub_cancel' h1, Nat.add_sub_cancel' (h1.trans h2)] at h

variable (b) in
/-- A column that is sorted downwards is ascending in the dual order. -/
theorem ascending_dual (hs : b.trevsorted = true) :
    Ascending (OrderDual.toDual ∘ b.val) b.first (b.first + b.count) := by
  intro i j h1 h2 h3
  have h := b.revsorted_true hs (i - b.first) (j - b.first) (by omega) (by omega)
  rwa [Nat.add_sub_cancel' h1, Nat.add_sub_cancel' (h1.trans h2)] at h

variable (b) in
theorem val_ne_val (hk : b.tkey = true) (i j : ℕ) (h1 : b.first ≤ i) (h2 : i < j)
    (h3 : j < b.first + b.count) : b.val i ≠ b.val j := by
  have h := b.key_true hk (i - b.first) (j - b.first) (by omega) (by omega)
  rwa [Nat.add_sub_cancel' h1, Nat.add_sub_cancel' (h1.trans h2.le)] at h

section Sorted

variable (hseq : b.tseq = none) (hs : b.tsorted = true)

include hseq hs

theorem sortFndFirst_sorted (v : IntVal t) :
    b.sortFndFirst v ≤ b.count ∧ ∀ i < b.count, (b.value i < v ↔ i < b.sortFndFirst v) := by
  rw [SelectColumn.sortFndFirst, hseq]
  rw [if_pos hs]
  refine rows_of_boundary (p := fun p => b.val p < v) ?_ fun i j h1 h2 h3 hlt => ?_
  · exact boundary_SORTfndfirst (ascending_val b hs) (le_add_right _ _) (val_ne_val b) v
  · exact lt_of_le_of_lt (ascending_val b hs i j h1 h2 h3) hlt

theorem sortFndLast_sorted (v : IntVal t) :
    b.sortFndLast v ≤ b.count ∧ ∀ i < b.count, (b.value i ≤ v ↔ i < b.sortFndLast v) := by
  rw [SelectColumn.sortFndLast, hseq]
  rw [if_pos hs]
  refine rows_of_boundary (p := fun p => b.val p ≤ v) ?_ fun i j h1 h2 h3 hle => ?_
  · exact boundary_SORTfndlast (ascending_val b hs) (le_add_right _ _) (val_ne_val b) v
  · exact (ascending_val b hs i j h1 h2 h3).trans hle

end Sorted

section Reversed

variable (hseq : b.tseq = none) (hns : b.tsorted = false) (hs : b.trevsorted = true)

include hseq hns hs

theorem sortFndFirst_reversed (v : IntVal t) :
    b.sortFndFirst v ≤ b.count ∧ ∀ i < b.count, (v < b.value i ↔ i < b.sortFndFirst v) := by
  rw [SelectColumn.sortFndFirst, hseq]
  rw [if_neg (by simp [hns])]
  refine rows_of_boundary (p := fun p => v < b.val p) ?_ fun i j h1 h2 h3 hlt => ?_
  · exact boundary_SORTfndfirst (ascending_dual b hs) (le_add_right _ _) (val_ne_val b)
      (OrderDual.toDual v)
  · exact lt_of_lt_of_le hlt (ascending_dual b hs i j h1 h2 h3)

theorem sortFndLast_reversed (v : IntVal t) :
    b.sortFndLast v ≤ b.count ∧ ∀ i < b.count, (v ≤ b.value i ↔ i < b.sortFndLast v) := by
  rw [SelectColumn.sortFndLast, hseq]
  rw [if_neg (by simp [hns])]
  refine rows_of_boundary (p := fun p => v ≤ b.val p) ?_ fun i j h1 h2 h3 hle => ?_
  · exact boundary_SORTfndlast (ascending_dual b hs) (le_add_right _ _) (val_ne_val b)
      (OrderDual.toDual v)
  · exact hle.trans (ascending_dual b hs i j h1 h2 h3)

end Reversed

/-- The place of a row in the column that is sliced. -/
theorem viewPos_spec {s : Option Candidates} (hs : ∀ c, s = some c → c.tsorted = true) (p : ℕ) :
    (s ≠ none → viewPos b s p ≤ viewCount b s) ∧
      ∀ j < viewCount b s, (viewAt b s j < p + b.hseqbase ↔ j < viewPos b s p) := by
  cases s with
  | none =>
    refine ⟨fun h => absurd rfl h, fun j _ => ?_⟩
    simp only [viewAt, viewPos]
    omega
  | some c =>
    simp only [viewAt, viewPos, viewCount, Candidates.fndFirst]
    cases hseq : c.tseq with
    | some seq =>
      have hdense := c.dense_true seq hseq
      dsimp only
      refine ⟨fun _ => by split_ifs <;> omega, fun j hj => ?_⟩
      rw [hdense j hj]
      split_ifs <;> omega
    | none =>
      have hasc : Ascending c.tail 0 c.count := fun i j _ hij hj =>
        c.sorted_true (hs c rfl) i j hij hj
      have hb := boundary_SORTfndfirst hasc (zero_le _)
        (fun hk i j _ hij hj => c.key_true hk i j hij hj) (p + b.hseqbase)
      refine ⟨fun _ => hb.le_hi, fun j hj => ?_⟩
      exact hb.iff_lt (fun i j _ hij hj hlt =>
        lt_of_le_of_lt (c.sorted_true (hs c rfl) i j hij hj) hlt) (zero_le j) hj

end Positions

/-! ## Slices as selections

Rows between two boundaries are the rows that pass a test, and a slice of the candidate list holds
the candidates among them. -/

section Slices

variable {t : IntType} {b : SelectColumn t} {s : Option Candidates}

theorem everything_eq_slice :
    everything b.toColumn s = slice (viewAt b s) 0 (viewCount b s) := by
  cases s <;> simp [everything, slice, viewAt, viewCount, List.range_eq_range']

variable (hs : ∀ c, s = some c → c.tsorted = true)

include hs

theorem BATslice_eq (low high : ℕ) :
    BATslice (viewAt b s) (viewCount b s) (viewPos b s low) (viewPos b s high) =
      (everything b.toColumn s).filter fun o =>
        low + b.hseqbase ≤ o ∧ o < high + b.hseqbase := by
  have hlow := (viewPos_spec (b := b) hs low).2
  have hhigh := (viewPos_spec (b := b) hs high).2
  have hiff : ∀ j < viewCount b s,
      (decide (low + b.hseqbase ≤ viewAt b s j ∧ viewAt b s j < high + b.hseqbase) = true ↔
        viewPos b s low ≤ j ∧ j < viewPos b s high) := by
    intro j hj
    rw [decide_eq_true_iff, ← not_lt, hlow j hj, hhigh j hj, not_lt]
  rw [everything_eq_slice, BATslice, filter_slice_inter _ _ _ fun j _ hj => hiff j hj,
    zero_max, min_comm]
  rcases le_total (viewPos b s low) (min (viewCount b s) (viewPos b s high)) with hle | hge
  · rw [max_eq_left hle]
  · rw [max_eq_right hge, slice_eq_nil _ le_rfl, slice_eq_nil _ hge]

/-- Two slices hold the oids between two rows and those from a third row on. -/
theorem BATslice2_eq {first low high : ℕ} (hle : low ≤ high)
    (hcut : viewPos b s first < viewPos b s low → viewPos b s low ≤ viewCount b s) :
    BATslice2 (viewAt b s) (viewCount b s) (viewPos b s first) (viewPos b s low)
        (viewPos b s high) (viewCount b s) =
      (everything b.toColumn s).filter fun o =>
        (first + b.hseqbase ≤ o ∧ o < low + b.hseqbase) ∨ high + b.hseqbase ≤ o := by
  have hfirst := (viewPos_spec (b := b) hs first).2
  have hlow := (viewPos_spec (b := b) hs low).2
  have hhigh := (viewPos_spec (b := b) hs high).2
  set F := viewPos b s first
  set L := viewPos b s low
  set H := viewPos b s high
  set n := viewCount b s with hn
  have hiff : ∀ j < n, (decide ((first + b.hseqbase ≤ viewAt b s j ∧
      viewAt b s j < low + b.hseqbase) ∨ high + b.hseqbase ≤ viewAt b s j) = true ↔
        (F ≤ j ∧ j < L) ∨ H ≤ j) := by
    intro j hj
    rw [decide_eq_true_iff, ← not_lt, ← not_lt, hfirst j hj, hlow j hj, hhigh j hj, not_lt, not_lt]
  have hLH : ∀ j < n, j < L → j < H := fun j hj hlt =>
    (hhigh j hj).mp (lt_of_lt_of_le ((hlow j hj).mpr hlt) (by omega))
  -- up to the third row the first slice decides, from there on everything is taken
  rw [everything_eq_slice, slice_append _ (zero_le (min H n)) (min_le_right H n),
    List.filter_append, BATslice2]
  congr 1
  · rw [filter_slice_inter _ F L fun j _ hj => ?_]
    · rcases lt_or_ge F L with hlt | hge
      · have hLm : L ≤ min H n := by
          by_contra hgt
          exact absurd (hLH H (by omega) (by omega)) (lt_irrefl H)
        rw [max_eq_left hlt.le, zero_max, min_eq_right hLm]
      · rw [max_eq_right hge, slice_eq_nil _ le_rfl, slice_eq_nil _ (by omega)]
    · rw [hiff j (by omega)]
      omega
  · rw [List.filter_eq_self.mpr]
    · rcases le_total H n with hle | hge
      · rw [min_self, max_eq_left hle, min_eq_left hle]
      · rw [min_self, max_eq_right hge, min_eq_right hge, slice_eq_nil _ le_rfl,
          slice_eq_nil _ le_rfl]
    · intro o ho
      obtain ⟨j, h1, h2, rfl⟩ := mem_slice.mp ho
      rw [hiff j h2]
      omega

end Slices

namespace Bounds

variable {b b' : Bounds} {nil mn mx v : ℤ}

/-! ## The switches after normalisation -/

theorem normLow_equi : (b.normLow mn).equi = b.equi := by
  unfold normLow
  split_ifs <;> rfl

theorem normHigh_equi : (b.normHigh mx).equi = b.equi := by
  unfold normHigh
  split_ifs <;> rfl

/-- A complement without numbers on one side is turned into a range. -/
theorem normLow_normHigh_anti (hr : b.Ready nil mx)
    (h : ¬ (b.anti = true ∧ ¬ (b.li = true ∧ b.low = mn) ∧ ¬ (b.hi = true ∧ b.high = mx))) :
    ((b.normLow mn).normHigh mx).anti = false := by
  cases ha : b.anti with
  | false => simp [normLow, normHigh, ha]
  | true =>
    by_cases hl : b.li = true ∧ b.low = mn
    · simp [normLow, normHigh, ha, hl.1, hl.2]
    · have hh : b.hi = true ∧ b.high = mx := by
        by_contra hh
        exact h ⟨ha, hl, hh⟩
      obtain ⟨v, p, hb, -, -, hhigh, -⟩ := normLow_spec hr ha hl
      rw [normHigh, hhigh, hb]
      simp [ha, hh.1, hh.2]

/-! ## The bounds stay in the type

The search gets bounds as values of the type.  Normalisation moves a bound by 1 at most, and does
not move it out of the type. -/

/-- The bounds that are used are values of the type other than nil. -/
structure InRange (b : Bounds) (mn mx : ℤ) : Prop where
  low_ge : b.lval = true → mn ≤ b.low
  high_ge : b.hval = true → mn ≤ b.high
  low_le : b.low ≤ mx
  high_le : b.high ≤ mx

section

variable (h : b.InRange mn mx)

include h

theorem InRange.normLow (hr : b.Ready nil mx) :
    (b.normLow mn).InRange mn mx ∧ (b.normLow mn).tl ≠ .vh ∧
      ((b.normLow mn).anti = true → (b.normLow mn).lval = true ∧ (b.normLow mn).hval = true) := by
  obtain ⟨h1, h2, h3, h4⟩ := h
  have hboth : b.anti = true → b.lval = true ∧ b.hval = true :=
    fun ha => ⟨(hr.anti_both ha).1, (hr.anti_both ha).2.1⟩
  unfold Bounds.normLow
  split_ifs with ha hl
  · rw [Bool.and_eq_true] at ha
    exact ⟨⟨fun _ => h2 (hboth ha.1).2, nofun, h4, h4⟩, hr.th_ne.2, nofun⟩
  · rw [Bool.and_eq_true] at ha
    have hlow := h1 (hboth ha.1).1
    have hhigh : ({ b with vl := b.low - 1, tl := .vl, li := false } : Bounds).high = b.high := by
      rcases hr.th_arg with h | h <;> simp [high, deref, h]
    refine ⟨⟨fun _ => ?_, fun hv => hhigh ▸ h2 hv, ?_, hhigh ▸ h4⟩, by simp, hboth⟩
    · change mn ≤ b.low - 1
      omega
    · change b.low - 1 ≤ mx
      omega
  · exact ⟨⟨h1, h2, h3, h4⟩, hr.tl_ne.2, hboth⟩

theorem InRange.normHigh (htl : b.tl ≠ .vh)
    (ha : b.anti = true → b.lval = true ∧ b.hval = true) : (b.normHigh mx).InRange mn mx := by
  obtain ⟨h1, h2, h3, h4⟩ := h
  unfold Bounds.normHigh
  split_ifs with hc hh
  · rw [Bool.and_eq_true] at hc
    exact ⟨nofun, fun _ => h1 (ha hc.1).1, h3, h3⟩
  · rw [Bool.and_eq_true] at hc
    have hhigh := h2 (ha hc.1).2
    have hlow : ({ b with vh := b.high + 1, th := .vh, hi := false } : Bounds).low = b.low := by
      cases h : b.tl <;> simp [low, deref, h] at htl ⊢
    refine ⟨fun hv => hlow ▸ h1 hv, fun _ => ?_, hlow ▸ h3, ?_⟩
    · change mn ≤ b.high + 1
      omega
    · change b.high + 1 ≤ mx
      omega
  · exact ⟨h1, h2, h3, h4⟩

/-- Writing a lower bound to `vl`, to which `th` may point as well. -/
theorem InRange.write_vl (hv : mn ≤ v) (hv' : v ≤ mx) (l m : Bool) :
    ({ b with vl := v, li := l, tl := .vl, lval := m } : Bounds).InRange mn mx := by
  have hhigh : ({ b with vl := v, li := l, tl := .vl, lval := m } : Bounds).high = v ∨
      ({ b with vl := v, li := l, tl := .vl, lval := m } : Bounds).high = b.high := by
    cases h : b.th <;> simp [high, deref, h]
  rcases hhigh with he | he
  · exact ⟨fun _ => hv, fun _ => he.symm ▸ hv, hv', he.symm ▸ hv'⟩
  · exact ⟨fun _ => hv, fun hh => he.symm ▸ h.high_ge hh, hv', he.symm ▸ h.high_le⟩

theorem InRange.write_vh (hv : mn ≤ v) (hv' : v ≤ mx) (l m : Bool) :
    ({ b with vh := v, hi := l, th := .vh, hval := m } : Bounds).InRange mn mx := by
  have hlow : ({ b with vh := v, hi := l, th := .vh, hval := m } : Bounds).low = v ∨
      ({ b with vh := v, hi := l, th := .vh, hval := m } : Bounds).low = b.low := by
    cases h : b.tl <;> simp [low, deref, h]
  rcases hlow with he | he
  · exact ⟨fun _ => he.symm ▸ hv, fun _ => hv, he.symm ▸ hv', hv'⟩
  · exact ⟨fun hl => he.symm ▸ h.low_ge hl, fun _ => hv, he.symm ▸ h.low_le, hv'⟩

theorem InRange.closeLow (hmx : mn ≤ mx) (hb : b.closeLow mn mx = some b') :
    b'.InRange mn mx := by
  unfold Bounds.closeLow at hb
  split_ifs at hb with hl hli hlow
  · obtain rfl := some.inj hb
    have := h.low_ge hl
    have := h.low_le
    exact h.write_vl (by omega) (by omega) true b.lval
  · obtain rfl := some.inj hb
    exact h
  · obtain rfl := some.inj hb
    exact h.write_vl le_rfl hmx true true

theorem InRange.closeHigh (hmx : mn ≤ mx)
    (hb : b.closeHigh mn mx = some b') : b'.InRange mn mx := by
  unfold Bounds.closeHigh at hb
  split_ifs at hb with hh hhi hhigh
  · obtain rfl := some.inj hb
    have := h.high_ge hh
    have := h.high_le
    exact h.write_vh (by omega) (by omega) true b.hval
  · obtain rfl := some.inj hb
    exact h
  · obtain rfl := some.inj hb
    exact h.write_vh hmx le_rfl true true

end

/-- **Normalisation of anything but a complement with numbers on both sides**: the bounds are
included, and they stay in the type. -/
theorem normalize_range (hr : b.Ready nil mx) (he : b.equi = false) (hin : b.InRange mn mx)
    (hmx : mn ≤ mx)
    (hone : ¬ (b.anti = true ∧ ¬ (b.li = true ∧ b.low = mn) ∧ ¬ (b.hi = true ∧ b.high = mx)))
    (hb : b.normalize mn mx = some b') :
    b'.equi = false ∧ b'.anti = false ∧ (b'.li = true ∧ b'.hi = true ∧ b'.lval = true ∧
      b'.hval = true) ∧ b'.InRange mn mx := by
  have hanti := normLow_normHigh_anti hr hone
  obtain ⟨hin1, htl, hboth⟩ := hin.normLow hr
  unfold normalize at hb
  dsimp only at hb
  rw [hanti] at hb
  obtain ⟨b₁, hb1, hb2⟩ := bind_eq_some_iff.mp hb
  obtain ⟨hli, hlv, -, -, heq1, hanti1⟩ := closeLow_switches hb1
  obtain ⟨hhi, hhv, hli2, hlv2, heq2, hanti2⟩ := closeHigh_switches hb2
  refine ⟨?_, ?_, ⟨hli2.trans hli, hhi, hlv2.trans hlv, hhv⟩, ?_⟩
  · rw [heq2, heq1, normHigh_equi, normLow_equi, he]
  · rw [hanti2, hanti1, hanti]
  · exact ((hin1.normHigh htl hboth).closeLow hmx hb1).closeHigh hmx hb2

end Bounds

/-! ## The bounds in terms of the arguments

What is found is to be compared with the arguments of the selection and not with the bounds that
normalisation makes of them. -/

section Arguments

variable {nil mn mx tl : ℤ} {th : Option ℤ} {li hi anti nonil : Bool} {b bd : Bounds}

/-- The switch of the upper bound, which is that of the lower one if there is no other. -/
def upperIncluded (th : Option ℤ) (li hi : Bool) : Bool := if th.isNone then li else hi

/-- A complement that the type has values on both sides of. -/
def TwoSided (nil mn mx tl : ℤ) (th : Option ℤ) (li hi anti : Bool) : Prop :=
  (anti = true ∧ tl ≠ nil ∧ th ≠ some nil ∧
    ((th = none ∨ th = some tl) → li = true ∧ (th = some tl → hi = true))) ∧
  tl ≤ th.getD tl ∧ ¬ (li = true ∧ tl = mn) ∧ ¬ (upperIncluded th li hi = true ∧ th.getD tl = mx)

/-- The values below a complement. -/
def Below (tl : ℤ) (li : Bool) (x : ℤ) : Prop := if li then x < tl else x ≤ tl

/-- The values above a complement. -/
def Above (tl : ℤ) (th : Option ℤ) (li hi : Bool) (x : ℤ) : Prop :=
  if upperIncluded th li hi then th.getD tl < x else th.getD tl ≤ x

/-- The arguments are values of the type, whose values other than nil start with `mn`. -/
structure ArgsInRange (nil mn mx tl : ℤ) (th : Option ℤ) : Prop where
  nil_lt : nil < mn
  min_le : mn ≤ mx
  low_ge : tl = nil ∨ mn ≤ tl
  low_le : tl ≤ mx
  high_ge : ∀ v ∈ th, v = nil ∨ mn ≤ v
  high_le : ∀ v ∈ th, v ≤ mx

namespace ArgsInRange

variable (h : ArgsInRange nil mn mx tl th)

include h

theorem prepared (hb : (init nil tl th li hi anti).antiSelect nil = some b)
    (he : b.isEmpty = false) : b.Ready nil mx ∧ Prepared nil tl th li hi anti b := by
  have hnil := h.nil_lt
  refine prepared_antiSelect_init ?_ (fun v hv => ?_) h.low_le h.high_le hb he
  · rcases h.low_ge with h | h <;> omega
  · rcases h.high_ge v hv with h | h <;> omega

theorem getD_ge : th.getD tl = nil ∨ mn ≤ th.getD tl := by
  cases th with
  | none => exact h.low_ge
  | some v => exact h.high_ge v rfl

end ArgsInRange

theorem antiSelect_args (hb : (init nil tl th li hi anti).antiSelect nil = some b) :
    b.tlArg = tl ∧ b.thArg = th.getD tl := by
  unfold antiSelect at hb
  split_ifs at hb <;> obtain rfl := some.inj hb <;> exact ⟨rfl, rfl⟩

theorem antiSelect_equi (hb : (init nil tl th li hi anti).antiSelect nil = some b)
    (he : b.equi = true) : b.low = tl ∧ (b.lnil = true ↔ tl = nil) := by
  have hboth : (init nil tl th li hi anti).equi = true → (init nil tl th li hi anti).lval = true ∧
        (init nil tl th li hi anti).hval = true := by
    cases th <;> simp +contextual [init]
  unfold antiSelect at hb
  split_ifs at hb with ha h1 h2 h3 h4 h5 <;> obtain rfl := some.inj hb
  · -- a point has both bounds
    obtain ⟨hl, hh⟩ := hboth he
    simp [hl, hh] at h1
  · exact absurd he (by simp)
  · exact absurd he (by simp)
  · exact absurd he (by simp)
  · exact absurd he h4
  · exact ⟨rfl, beq_iff_eq⟩

theorem selectPlanOf_eq_lookup
    (hplan : selectPlanOf nil mn mx nonil tl th li hi anti = .lookup bd) :
    ∃ b, (init nil tl th li hi anti).antiSelect nil = some b ∧ b.isEmpty = false ∧
      ¬ (b.equi = true ∧ b.lnil = true ∧ nonil = true) ∧ b.normalize mn mx = some bd := by
  unfold selectPlanOf at hplan
  cases hb : (init nil tl th li hi anti).antiSelect nil with
  | none => simp [hb] at hplan
  | some b =>
    rw [hb] at hplan
    dsimp only at hplan
    split_ifs at hplan with h1 h2 h3
    refine ⟨b, rfl, by simpa using h1, fun h => h2 (by simp [h.1, h.2.1, h.2.2]), ?_⟩
    cases hn : b.normalize mn mx with
    | none => simp [hn] at hplan
    | some b' =>
      rw [hn] at hplan
      rw [SelectPlan.lookup.inj hplan]

/-- A complement with values on both sides is left by `antiSelect`. -/
theorem TwoSided.antiSelect (h : TwoSided nil mn mx tl th li hi anti) :
    ∃ b, (init nil tl th li hi anti).antiSelect nil = some b ∧ b.isEmpty = false ∧
      b.equi = false ∧ b.lval = true ∧ b.hval = true := by
  obtain ⟨⟨rfl, hnil, hth, hincl⟩, hle, -⟩ := h
  have hl : (tl == nil) = false := by simpa using hnil
  cases th with
  | none =>
    obtain ⟨rfl, -⟩ := hincl (.inl rfl)
    exact ⟨_, by simp [init, hl]; rfl, by
      simp [isEmpty, high, low], rfl, rfl, rfl⟩
  | some v =>
    have hv : (some v != some nil) = true := by simpa using hth
    by_cases heq : v = tl
    · subst heq
      obtain ⟨rfl, hhi⟩ := hincl (.inr rfl)
      obtain rfl := hhi rfl
      exact ⟨_, by simp [init, hl]; rfl, by
        simp [isEmpty, high, low], rfl, rfl, rfl⟩
    · have hne : (v == tl) = false := by simpa using heq
      exact ⟨_, by simp [init, hl, hv, hne]; rfl, by
        exact decide_eq_false (not_lt.mpr hle), rfl, rfl, rfl⟩

section

variable (h : ArgsInRange nil mn mx tl th)

include h

/-- The bounds of anything but a point are values of the type. -/
theorem ArgsInRange.inRange (hb : (init nil tl th li hi anti).antiSelect nil = some b)
    (he : b.isEmpty = false) (hequi : b.equi = false) : b.InRange mn mx := by
  have hr := (h.prepared hb he).1
  obtain ⟨htl, hth⟩ := antiSelect_args hb
  have hval : ∀ p, p = Ptr.tlArg ∨ p = Ptr.thArg → b.deref p = nil ∨ mn ≤ b.deref p := by
    rintro p (rfl | rfl)
    · rw [deref, htl]
      exact h.low_ge
    · rw [deref, hth]
      exact h.getD_ge
  refine ⟨fun hl => ?_, fun hh => ?_, hr.low_le, hr.high_le⟩
  · have := hr.low_gt hequi hl
    rcases hval b.tl hr.tl_arg with hv | hv
    · exact absurd hv this.ne'
    · exact hv
  · have := hr.high_gt hequi hh
    rcases hval b.th hr.th_arg with hv | hv
    · exact absurd hv this.ne'
    · exact hv

/-- **The bounds of a lookup that is not a complement with values on both sides.** -/
theorem selectPlanOf_range (hplan : selectPlanOf nil mn mx nonil tl th li hi anti = .lookup bd)
    (hone : ¬ TwoSided nil mn mx tl th li hi anti) :
    bd.anti = false ∧ (bd.li = true ∧ bd.hi = true ∧ bd.lval = true ∧ bd.hval = true) ∧
      (bd.equi = true → bd.low = bd.high) ∧ (nil ≤ bd.low ∧ bd.low ≤ mx) ∧
      (nil ≤ bd.high ∧ bd.high ≤ mx) ∧
      (bd.equi = false ∨ nonil = true → mn ≤ bd.low ∧ mn ≤ bd.high) := by
  obtain ⟨b, hb, he, hnil, hnorm⟩ := selectPlanOf_eq_lookup hplan
  obtain ⟨hr, hp⟩ := h.prepared hb he
  have hlt := h.nil_lt
  cases hequi : b.equi with
  | true =>
    obtain ⟨ha, hl, hh, hli, hhi, heq⟩ := hr.equi_point hequi
    obtain rfl : b = bd := some.inj ((hr.normalize_point hequi).symm.trans hnorm)
    obtain ⟨hlow, hlnil⟩ := antiSelect_equi hb hequi
    have hge : b.low = nil ∨ mn ≤ b.low := hlow.symm ▸ h.low_ge
    have hle := hr.low_le
    refine ⟨ha, ⟨hli, hhi, hl, hh⟩, fun _ => heq, ⟨by omega, hle⟩, ⟨by omega, by omega⟩,
      fun hn => ?_⟩
    have hmin : mn ≤ b.low := hge.resolve_left fun hv =>
      hnil ⟨hequi, hlnil.mpr (hlow.symm.trans hv), hn.resolve_left (by simp [hequi])⟩
    exact ⟨hmin, heq ▸ hmin⟩
  | false =>
    -- the bounds before normalisation are those of the caller if there are two of them
    have hone' : ¬ (b.anti = true ∧ ¬ (b.li = true ∧ b.low = mn) ∧
        ¬ (b.hi = true ∧ b.high = mx)) := by
      rintro ⟨ha, hl, hh⟩
      obtain ⟨hlv, hhv, hle⟩ := hr.anti_both ha
      obtain ⟨hli, hhi, hlow, hhigh⟩ := hp.bounds hequi hlv hhv
      rw [hli, hlow] at hl
      rw [hhi, hhigh] at hh
      rw [hlow, hhigh] at hle
      exact hone ⟨hp.anti_iff.mp ha, hle, hl, hh⟩
    obtain ⟨he', ha, hflags, hin⟩ :=
      normalize_range hr hequi (h.inRange hb he hequi) h.min_le hone' hnorm
    have hlow := hin.low_ge hflags.2.2.1
    have hhigh := hin.high_ge hflags.2.2.2
    exact ⟨ha, hflags, fun heq => absurd heq (by simp [he']), ⟨by omega, hin.low_le⟩,
      ⟨by omega, hin.high_le⟩, fun _ => ⟨hlow, hhigh⟩⟩

/-- **The bounds of a complement with values on both sides.** -/
theorem selectPlanOf_twoSided (htwo : TwoSided nil mn mx tl th li hi anti) (nonil : Bool) :
    ∃ bd, selectPlanOf nil mn mx nonil tl th li hi anti = .lookup bd ∧ bd.equi = false ∧
      bd.anti = true ∧ (bd.li = false ∧ bd.hi = false ∧ bd.lval = true ∧ bd.hval = true) ∧
      (∀ x, x ≤ bd.low ↔ Below tl li x) ∧ (∀ x, bd.high ≤ x ↔ Above tl th li hi x) ∧
      bd.low < bd.high ∧ mn ≤ bd.low ∧ bd.high ≤ mx := by
  obtain ⟨b, hb, he, hequi, hlv, hhv⟩ := htwo.antiSelect
  obtain ⟨hr, hp⟩ := h.prepared hb he
  have hin := h.inRange hb he hequi
  obtain ⟨hli, hhi, hlow, hhigh⟩ := hp.bounds hequi hlv hhv
  have ha : b.anti = true := hp.anti_iff.mpr htwo.1
  have hl : ¬ (b.li = true ∧ b.low = mn) := by
    rw [hli, hlow]
    exact htwo.2.2.1
  have hh : ¬ (b.hi = true ∧ b.high = mx) := by
    rw [hhi, hhigh]
    exact htwo.2.2.2
  obtain ⟨bd, hnorm, hequi', ha', hflags, hlow', hhigh'⟩ := normalize_outside hr ha hl hh
  refine ⟨bd, ?_, hequi', ha', hflags, fun x => ?_, fun x => ?_, ?_, ?_, ?_⟩
  · rw [selectPlanOf, hb]
    dsimp only
    rw [he, hequi, hlv, hnorm]
    rfl
  · rw [hlow', hli, Below]
    split_ifs <;> omega
  · rw [hhigh', hhi, Above, upperIncluded]
    split_ifs <;> omega
  · obtain ⟨⟨-, -, -, hincl⟩, hle, -⟩ := htwo
    rw [hlow', hhigh', hli]
    rcases lt_or_eq_of_le hle with hlt | heq
    · split_ifs <;> omega
    · -- a single value is included
      have hth : th = none ∨ th = some tl := by
        cases th with
        | none => exact .inl rfl
        | some v => exact .inr (congrArg some heq.symm)
      rw [if_pos (hincl hth).1]
      split_ifs <;> omega
  · have := hin.low_ge hlv
    rw [hlow']
    split_ifs with hb'
    · have : b.low ≠ mn := fun h => hl ⟨hb', h⟩
      omega
    · omega
  · have := hin.high_le
    rw [hhigh']
    split_ifs with hb'
    · have : b.high ≠ mx := fun h => hh ⟨hb', h⟩
      omega
    · omega

end

end Arguments

end MonetInR.Gdk
