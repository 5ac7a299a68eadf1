import MonetInR.Gdk.Select.Ordered

/-!
# Search against scan

On an ordered column, `BATsubselect` returns the same oids as a scan of the same values, except for
complements with values on both sides:

* the second of the two slices goes up to the end of the candidate list, so that candidates behind
  the last row are returned,
* on a column that is sorted downwards the position behind the nils is the end of the column, so
  that the rows above the range are lost and the nils are returned,
* on a dense column the search for nil ends behind the last row as well, so that the rows below
  the range are lost.

## Main definitions

* `OrderExact`: when a complement is right

## Main results

* `subselect_eq_clearOrder_iff`: search and scan agree exactly under `OrderExact`
-/

namespace MonetInR.Gdk

open IntervalSearch List SelectColumn

/-! ## The rows found by the search -/

section Search

variable {t : IntType} {b : SelectColumn t} {bd : Bounds} {seq : ℕ} {v : ℤ}

theorem toVal_compare (h1 : t.min ≤ v) (h2 : v ≤ t.max) (x : IntVal t) :
    (toVal t v ≤ x ↔ v ≤ x.1) ∧ (x ≤ toVal t v ↔ x.1 ≤ v) ∧ (toVal t v < x ↔ v < x.1) ∧
      (x < toVal t v ↔ x.1 < v) := by
  have h : toVal t v = ⟨v, h1, h2⟩ := dif_pos ⟨h1, h2⟩
  rw [h]
  exact ⟨Iff.rfl, Iff.rfl, Iff.rfl, Iff.rfl⟩

theorem oid_of_val (h1 : 0 ≤ v) (h2 : v ≤ t.max) : ((v % 2 ^ 64).toNat : ℤ) = v := by
  have hmax : t.max < 2 ^ 63 := by cases t <;> decide
  rw [Int.emod_eq_of_lt h1 (by omega), Int.toNat_of_nonneg h1]

/-- The bounds are values of the type, and no oid is negative. -/
structure BoundsInType (b : SelectColumn t) (bd : Bounds) : Prop where
  low_ge : t.min ≤ bd.low
  low_le : bd.low ≤ t.max
  high_ge : t.min ≤ bd.high
  high_le : bd.high ≤ t.max
  dense : b.tseq ≠ none → 0 ≤ bd.low ∧ 0 ≤ bd.high

section

variable (hin : BoundsInType b bd)

include hin

theorem searchRange_range (hord : b.tsorted = true ∨ b.trevsorted = true)
    (hflags : bd.li = true ∧ bd.hi = true ∧ bd.lval = true ∧ bd.hval = true) :
    (searchRange b bd).2 ≤ b.count ∧ ∀ i < b.count,
      ((searchRange b bd).1 ≤ i ∧ i < (searchRange b bd).2 ↔
        bd.low ≤ (b.value i).1 ∧ (b.value i).1 ≤ bd.high) := by
  obtain ⟨hli, hhi, hlv, hhv⟩ := hflags
  have hlow := toVal_compare hin.low_ge hin.low_le
  have hhigh := toVal_compare hin.high_ge hin.high_le
  unfold searchRange
  rw [hli, hhi, hlv, hhv]
  cases hseq : b.tseq with
  -- a dense column is not searched: the rows are computed
  | some seq =>
    obtain ⟨h1, h2⟩ := hin.dense (by simp [hseq])
    have hl := oid_of_val h1 hin.low_le
    have hh := oid_of_val h2 hin.high_le
    obtain ⟨-, -, -, hval⟩ := b.dense_true seq hseq
    refine ⟨min_le_right _ _, fun i hi => ?_⟩
    rw [Column.value, hval i hi]
    simp only [Bool.toNat_true, Bool.not_true, Bool.toNat_false]
    split_ifs <;> omega
  | none =>
    cases hsort : b.tsorted with
    | true =>
      obtain ⟨-, hf⟩ := sortFndFirst_sorted hseq hsort (toVal t bd.low)
      obtain ⟨hle, hl⟩ := sortFndLast_sorted hseq hsort (toVal t bd.high)
      refine ⟨hle, fun i hi => ?_⟩
      simp only [if_true]
      rw [← hl i hi, ← not_lt, ← hf i hi, not_lt, (hlow _).1, (hhigh _).2.1]
    | false =>
      -- in a column in descending order the bounds change places
      have hrev := hord.resolve_left (by simp [hsort])
      obtain ⟨-, hf⟩ := sortFndFirst_reversed hseq hsort hrev (toVal t bd.high)
      obtain ⟨hle, hl⟩ := sortFndLast_reversed hseq hsort hrev (toVal t bd.low)
      refine ⟨hle, fun i hi => ?_⟩
      simp only [if_true, Bool.false_eq_true, if_false]
      rw [← hl i hi, ← not_lt, ← hf i hi, not_lt, (hlow _).1, (hhigh _).2.1, and_comm]

/-- The rows before and behind a complement, in the order of the rows. -/
theorem searchRange_sorted (hseq : b.tseq = none) (hsort : b.tsorted = true)
    (hflags : bd.li = false ∧ bd.hi = false ∧ bd.lval = true ∧ bd.hval = true) :
    ((searchRange b bd).1 ≤ b.count ∧ (searchRange b bd).2 ≤ b.count) ∧ ∀ i < b.count,
      (i < (searchRange b bd).1 ↔ (b.value i).1 ≤ bd.low) ∧
      (i < (searchRange b bd).2 ↔ (b.value i).1 < bd.high) := by
  obtain ⟨hli, hhi, hlv, hhv⟩ := hflags
  obtain ⟨hle, hl⟩ := sortFndLast_sorted hseq hsort (toVal t bd.low)
  obtain ⟨hle', hf⟩ := sortFndFirst_sorted hseq hsort (toVal t bd.high)
  unfold searchRange
  rw [hli, hhi, hlv, hhv, hseq]
  simp only [hsort, if_true, Bool.false_eq_true, if_false]
  refine ⟨⟨hle, hle'⟩, fun i hi => ⟨?_, ?_⟩⟩
  · rw [← hl i hi, (toVal_compare hin.low_ge hin.low_le _).2.1]
  · rw [← hf i hi, (toVal_compare hin.high_ge hin.high_le _).2.2.2]

theorem searchRange_reversed (hseq : b.tseq = none) (hsort : b.tsorted = false)
    (hrev : b.trevsorted = true)
    (hflags : bd.li = false ∧ bd.hi = false ∧ bd.lval = true ∧ bd.hval = true) :
    ((searchRange b bd).1 ≤ b.count ∧ (searchRange b bd).2 ≤ b.count) ∧ ∀ i < b.count,
      (i < (searchRange b bd).1 ↔ bd.high ≤ (b.value i).1) ∧
      (i < (searchRange b bd).2 ↔ bd.low < (b.value i).1) := by
  obtain ⟨hli, hhi, hlv, hhv⟩ := hflags
  obtain ⟨hle, hl⟩ := sortFndLast_reversed hseq hsort hrev (toVal t bd.high)
  obtain ⟨hle', hf⟩ := sortFndFirst_reversed hseq hsort hrev (toVal t bd.low)
  unfold searchRange
  rw [hli, hhi, hlv, hhv, hseq]
  simp only [hsort, if_true, Bool.false_eq_true, if_false]
  refine ⟨⟨hle, hle'⟩, fun i hi => ⟨?_, ?_⟩⟩
  · rw [← hl i hi, (toVal_compare hin.high_ge hin.high_le _).1]
  · rw [← hf i hi, (toVal_compare hin.low_ge hin.low_le _).2.2.1]

/-- On a dense column the first position may lie behind the last row. -/
theorem searchRange_dense (hseq : b.tseq = some seq) (hlt : bd.low < bd.high)
    (hflags : bd.li = false ∧ bd.hi = false ∧ bd.lval = true ∧ bd.hval = true) :
    ((searchRange b bd).1 ≤ b.count → (searchRange b bd).1 ≤ (searchRange b bd).2) ∧
      (b.count < (searchRange b bd).1 → (searchRange b bd).2 = b.count) ∧
      (searchRange b bd).2 ≤ b.count ∧ ∀ i < b.count,
        (i < (searchRange b bd).1 ↔ (b.value i).1 ≤ bd.low) ∧
        (i < (searchRange b bd).2 ↔ (b.value i).1 < bd.high) := by
  obtain ⟨hli, hhi, hlv, hhv⟩ := hflags
  obtain ⟨h1, h2⟩ := hin.dense (by simp [hseq])
  have hh := oid_of_val h2 hin.high_le
  obtain ⟨-, -, -, hval⟩ := b.dense_true seq hseq
  unfold searchRange
  rw [hli, hhi, hseq]
  simp only [Bool.not_false, Bool.toNat_true, Bool.toNat_false]
  refine ⟨fun h => ?_, fun h => ?_, min_le_right _ _, fun i hi => ⟨?_, ?_⟩⟩
  · split_ifs at h ⊢ <;> omega
  · split_ifs at h ⊢ <;> omega
  · rw [Column.value, hval i hi]
    split_ifs <;> omega
  · rw [Column.value, hval i hi]
    split_ifs <;> omega

end

theorem sortFndLast_nil_sorted (hseq : b.tseq = none) (hsort : b.tsorted = true) :
    ∀ i < b.count, (i < b.sortFndLast ⊥ ↔ (b.value i).1 = t.min) := by
  intro i hi
  rw [← (sortFndLast_sorted hseq hsort ⊥).2 i hi, le_bot_iff]
  exact Subtype.ext_iff

theorem sortFndLast_nil_reversed (hseq : b.tseq = none) (hsort : b.tsorted = false)
    (hrev : b.trevsorted = true) : b.sortFndLast ⊥ = b.count := by
  obtain ⟨hle, hl⟩ := sortFndLast_reversed hseq hsort hrev ⊥
  by_contra hne
  have hlt : b.sortFndLast ⊥ < b.count := lt_of_le_of_ne hle hne
  exact absurd ((hl _ hlt).mp bot_le) (lt_irrefl _)

theorem sortFndLast_nil_dense (hseq : b.tseq = some seq) : b.sortFndLast ⊥ = b.count := by
  have hlng := b.oid_lng (b.dense_oid seq hseq)
  obtain ⟨-, -, hsmall, -⟩ := b.dense_true seq hseq
  have hnil : (((⊥ : IntVal t).1) % 2 ^ 64).toNat = 2 ^ 63 := by
    subst hlng
    decide
  rw [sortFndLast, hseq]
  dsimp only
  rw [if_neg (by omega), if_pos (by omega)]

end Search

/-! ## Comparison with the scan -/

section Compare

variable {t : IntType} {b : SelectColumn t} {s : Option Candidates} {bd : Bounds} {i : ℕ}
  {P : ℤ → Prop}

/-- Two filters of one list agree exactly if the tests agree on it. -/
theorem filter_eq_filter_iff {l : List ℕ} {p q : ℕ → Bool} :
    l.filter p = l.filter q ↔ ∀ o ∈ l, (p o = true ↔ q o = true) := by
  constructor
  · intro h o ho
    have hmem := congrArg (o ∈ ·) h
    simpa [mem_filter, ho] using hmem
  · intro h
    exact filter_congr fun o ho => Bool.eq_iff_iff.mpr (h o ho)

/-- The oids that a scan with the bounds of a lookup finds. -/
def scanned (b : SelectColumn t) (s : Option Candidates) (bd : Bounds) : List ℕ :=
  (everything b.toColumn s).filter fun o =>
    b.Contains o && scanTest t b.tnonil bd.equi bd.anti bd.low bd.high (b.atOid o).1

theorem scanned_iff (hP : ∀ i < b.count,
      (scanTest t b.tnonil bd.equi bd.anti bd.low bd.high (b.value i).1 = true ↔ P (b.value i).1))
    (o : ℕ) :
    (decide (b.Contains o) && scanTest t b.tnonil bd.equi bd.anti bd.low bd.high (b.atOid o).1) =
        true ↔ b.hseqbase ≤ o ∧ o - b.hseqbase < b.count ∧ P (b.value (o - b.hseqbase)).1 := by
  rw [Bool.and_eq_true, decide_eq_true_iff]
  constructor
  · rintro ⟨⟨h1, h2⟩, h3⟩
    have hi : o - b.hseqbase < b.count := by omega
    exact ⟨h1, hi, (hP _ hi).mp h3⟩
  · rintro ⟨h1, h2, h3⟩
    exact ⟨⟨h1, by omega⟩, (hP _ h2).mpr h3⟩

/-- A value of the column is nil only if the column may hold nils. -/
theorem value_ne_nil (hn : b.tnonil = true) (hi : i < b.count) : (b.value i).1 ≠ t.min :=
  fun h => b.nonil_true hn i hi (Subtype.ext h)

theorem scanTest_range (ha : bd.anti = false) (he : bd.equi = true → bd.low = bd.high)
    (hi : i < b.count) :
    scanTest t b.tnonil bd.equi bd.anti bd.low bd.high (b.value i).1 = true ↔
      bd.low ≤ (b.value i).1 ∧ (b.value i).1 ≤ bd.high := by
  have hmin := (b.value i).2.1
  have hmax := (b.value i).2.2
  unfold scanTest
  split_ifs with h1 h2 h3 h4 h5
  · have := he h1
    rw [decide_eq_true_iff]
    omega
  · simp [ha] at h2
  · simp [ha] at h2
  · rw [Bool.and_eq_true, decide_eq_true_iff] at h4
    have := value_ne_nil h4.1 hi
    rw [decide_eq_true_iff]
    omega
  · rw [decide_eq_true_iff]
    omega
  · rw [Bool.and_eq_true, decide_eq_true_iff, decide_eq_true_iff]

theorem scanTest_outside (ha : bd.anti = true) (he : bd.equi = false) (hi : i < b.count) :
    scanTest t b.tnonil bd.equi bd.anti bd.low bd.high (b.value i).1 = true ↔
      (b.value i).1 ≠ t.min ∧ ((b.value i).1 ≤ bd.low ∨ bd.high ≤ (b.value i).1) := by
  rw [scanTest, if_neg (by simp [he])]
  split_ifs with hn
  · have := value_ne_nil hn hi
    simp [this]
  · simp [and_comm]

section

variable (hs : ∀ c, s = some c → c.tsorted = true)

include hs

/-- **A range is found by search as by a scan.** -/
theorem orderedSelect_range (hin : BoundsInType b bd)
    (hord : b.tsorted = true ∨ b.trevsorted = true) (ha : bd.anti = false)
    (hflags : bd.li = true ∧ bd.hi = true ∧ bd.lval = true ∧ bd.hval = true)
    (he : bd.equi = true → bd.low = bd.high) : orderedSelect b s bd = scanned b s bd := by
  obtain ⟨hle, hrows⟩ := searchRange_range hin hord hflags
  have hslice : orderedSelect b s bd = BATslice (viewAt b s) (viewCount b s)
      (viewPos b s (searchRange b bd).1) (viewPos b s (searchRange b bd).2) := if_neg (by simp [ha])
  rw [hslice, BATslice_eq hs, scanned, filter_eq_filter_iff]
  intro o _
  rw [scanned_iff (P := fun x => bd.low ≤ x ∧ x ≤ bd.high) fun i hi => scanTest_range ha he hi,
    decide_eq_true_iff]
  constructor
  · rintro ⟨h1, h2⟩
    have hi : o - b.hseqbase < b.count := by omega
    exact ⟨by omega, hi, (hrows _ hi).mp ⟨by omega, by omega⟩⟩
  · rintro ⟨h1, h2, h3⟩
    have := (hrows _ h2).mpr h3
    omega

theorem orderedSelect_outside (ha : bd.anti = true)
    (hle : (searchRange b bd).1 ≤ (searchRange b bd).2) (hcut : (searchRange b bd).1 ≤ b.count) :
    orderedSelect b s bd = (everything b.toColumn s).filter fun o =>
      (b.sortFndLast ⊥ + b.hseqbase ≤ o ∧ o < (searchRange b bd).1 + b.hseqbase) ∨
        (searchRange b bd).2 + b.hseqbase ≤ o := by
  rw [← BATslice2_eq hs hle fun _ => ?_]
  · exact if_pos ha
  · cases s with
    | none => exact hcut
    | some c => exact (viewPos_spec hs _).1 (by simp)

/-- If both slices start behind the last row, they hold the candidates that lie there. -/
theorem mem_orderedSelect_behind (ha : bd.anti = true)
    (hfirst : b.sortFndLast ⊥ = b.count) (hend : (searchRange b bd).2 = b.count) :
    (∀ o ∈ orderedSelect b s bd, b.hseqbase + b.count ≤ o ∧
      (s ≠ none → o ∈ everything b.toColumn s)) ∧
    ∀ o ∈ everything b.toColumn s, b.hseqbase + b.count ≤ o → o ∈ orderedSelect b s bd := by
  have hsel : orderedSelect b s bd = BATslice2 (viewAt b s) (viewCount b s) (viewPos b s b.count)
      (viewPos b s (searchRange b bd).1) (viewPos b s b.count) (viewCount b s) := by
    have hstep : orderedSelect b s bd = BATslice2 (viewAt b s) (viewCount b s)
        (viewPos b s (b.sortFndLast ⊥)) (viewPos b s (searchRange b bd).1)
        (viewPos b s (searchRange b bd).2) (viewCount b s) := if_pos ha
    rw [hstep, hfirst, hend]
  have hview := (viewPos_spec (b := b) hs b.count).2
  -- both slices start at the end of the column
  have hbehind : ∀ j, viewPos b s b.count ≤ j → (s ≠ none → j < viewCount b s) →
      b.hseqbase + b.count ≤ viewAt b s j := by
    intro j hj hn
    cases s with
    | none =>
      simp only [viewPos] at hj
      simp only [viewAt]
      omega
    | some c =>
      have := hview j (hn (by simp))
      omega
  rw [hsel, BATslice2]
  constructor
  · intro o ho
    rw [mem_append, mem_slice, mem_slice] at ho
    have hin : ∃ j, viewPos b s b.count ≤ j ∧ (s ≠ none → j < viewCount b s) ∧
        viewAt b s j = o := by
      rcases ho with ⟨j, h1, h2, rfl⟩ | ⟨j, h1, h2, rfl⟩
      · refine ⟨j, h1, fun hn => ?_, rfl⟩
        have := (viewPos_spec (b := b) hs (searchRange b bd).1).1 hn
        omega
      · exact ⟨j, h1, fun _ => by omega, rfl⟩
    obtain ⟨j, h1, h2, rfl⟩ := hin
    refine ⟨hbehind j h1 h2, fun hn => ?_⟩
    rw [everything_eq_slice]
    exact mem_slice.mpr ⟨j, Nat.zero_le j, h2 hn, rfl⟩
  · intro o ho hge
    rw [everything_eq_slice] at ho
    obtain ⟨j, -, hj, rfl⟩ := mem_slice.mp ho
    have := hview j hj
    exact mem_append_right _ (mem_slice.mpr ⟨j, by omega, by omega, rfl⟩)

end

/-- No candidate lies behind the last row. -/
def NoneBehind (b : SelectColumn t) (s : Option Candidates) : Prop :=
  ∀ o ∈ everything b.toColumn s, o < b.hseqbase + b.count
  deriving Decidable

/-- A condition on every candidate row. -/
def EveryRow (b : SelectColumn t) (s : Option Candidates) (P : ℤ → Prop) : Prop :=
  ∀ o ∈ candidateOids b.toColumn s, P (b.atOid o).1

/-- A condition on the candidates behind the last row and one on the candidate rows, together. -/
theorem forall_everything_iff :
    (∀ o ∈ everything b.toColumn s, o < b.hseqbase + b.count ∧
        (b.hseqbase ≤ o → P (b.value (o - b.hseqbase)).1)) ↔
      NoneBehind b s ∧ EveryRow b s P := by
  constructor
  · intro h
    refine ⟨fun o ho => (h o ho).1, fun o ho => ?_⟩
    obtain ⟨hall, hc⟩ := mem_filter.mp ho
    exact (h o hall).2 (of_decide_eq_true hc).1
  · rintro ⟨h1, h2⟩ o ho
    refine ⟨h1 o ho, fun hge => ?_⟩
    exact h2 o (mem_filter.mpr ⟨ho, decide_eq_true ⟨hge, h1 o ho⟩⟩)

/-- **When the two slices are what a scan finds**: there is no candidate behind the last row, and
each candidate row satisfies `C`, which says that slices and scan agree on the row. -/
theorem filter_slices_iff {first low high : ℕ} {C : ℤ → Prop} (ha : bd.anti = true)
    (he : bd.equi = false) (hhigh : high ≤ b.count)
    (hC : ∀ i < b.count, (((first ≤ i ∧ i < low) ∨ high ≤ i ↔
      (b.value i).1 ≠ t.min ∧ ((b.value i).1 ≤ bd.low ∨ bd.high ≤ (b.value i).1)) ↔
        C (b.value i).1)) :
    ((everything b.toColumn s).filter fun o =>
        (first + b.hseqbase ≤ o ∧ o < low + b.hseqbase) ∨ high + b.hseqbase ≤ o) = scanned b s bd ↔
      NoneBehind b s ∧ EveryRow b s C := by
  rw [scanned, filter_eq_filter_iff, ← forall_everything_iff]
  refine forall₂_congr fun o _ => ?_
  rw [scanned_iff (P := fun x => x ≠ t.min ∧ (x ≤ bd.low ∨ bd.high ≤ x))
    fun i hi => scanTest_outside ha he hi, decide_eq_true_iff]
  by_cases hrow : b.hseqbase ≤ o ∧ o - b.hseqbase < b.count
  · -- a row of the column
    have hlt : o < b.hseqbase + b.count := by omega
    have hpos : (first + b.hseqbase ≤ o ∧ o < low + b.hseqbase) ∨ high + b.hseqbase ≤ o ↔
        (first ≤ o - b.hseqbase ∧ o - b.hseqbase < low) ∨ high ≤ o - b.hseqbase := by omega
    rw [and_iff_right hrow.1, and_iff_right hrow.2, and_iff_right hlt, ← hC _ hrow.2,
      forall_prop_of_true hrow.1, hpos]
  · constructor
    · intro h
      have hlt : o < b.hseqbase + b.count := by
        by_contra hge
        obtain ⟨h1, h2, -⟩ := h.mp (by omega)
        exact hrow ⟨h1, h2⟩
      exact ⟨hlt, fun hge => absurd ⟨hge, by omega⟩ hrow⟩
    · intro h
      exact iff_of_false (by omega) fun h => hrow ⟨h.1, h.2.1⟩

section Outside

variable (hs : ∀ c, s = some c → c.tsorted = true) (hin : BoundsInType b bd)
  (hlt : bd.low < bd.high) (hmin : t.min < bd.low) (ha : bd.anti = true) (he : bd.equi = false)
  (hflags : bd.li = false ∧ bd.hi = false ∧ bd.lval = true ∧ bd.hval = true)

include hs hin hlt hmin ha he hflags

theorem orderedSelect_sorted_iff (hseq : b.tseq = none) (hsort : b.tsorted = true) :
    orderedSelect b s bd = scanned b s bd ↔ NoneBehind b s := by
  obtain ⟨⟨hle1, hle2⟩, hrows⟩ := searchRange_sorted hin hseq hsort hflags
  have hnil := sortFndLast_nil_sorted hseq hsort
  have hle : (searchRange b bd).1 ≤ (searchRange b bd).2 := by
    by_contra hgt
    have hrow := hrows (searchRange b bd).2 (by omega)
    omega
  rw [orderedSelect_outside hs ha hle hle1, filter_slices_iff (C := fun _ => True) ha he
    hle2 fun i hi => ?_]
  · exact and_iff_left fun _ _ => trivial
  · have hrow := hrows i hi
    have hn := hnil i hi
    rw [iff_true]
    omega

theorem orderedSelect_reversed_iff (hseq : b.tseq = none) (hsort : b.tsorted = false)
    (hrev : b.trevsorted = true) :
    orderedSelect b s bd = scanned b s bd ↔
      NoneBehind b s ∧ EveryRow b s fun x => x ≠ t.min ∧ ¬ bd.high ≤ x := by
  obtain ⟨⟨hle1, hle2⟩, hrows⟩ := searchRange_reversed hin hseq hsort hrev hflags
  have hle : (searchRange b bd).1 ≤ (searchRange b bd).2 := by
    by_contra hgt
    have hrow := hrows (searchRange b bd).2 (by omega)
    omega
  rw [orderedSelect_outside hs ha hle hle1, sortFndLast_nil_reversed hseq hsort hrev]
  refine filter_slices_iff ha he hle2 fun i hi => ?_
  have hrow := hrows i hi
  omega

theorem orderedSelect_dense_iff {seq : ℕ} (hseq : b.tseq = some seq)
    (hne : triviallyEmpty b.toColumn s = false) :
    orderedSelect b s bd = scanned b s bd ↔
      NoneBehind b s ∧ EveryRow b s fun x => ¬ x ≤ bd.low := by
  obtain ⟨hle, hend, hle2, hrows⟩ := searchRange_dense hin hseq hlt hflags
  obtain ⟨-, hnonil, -, -⟩ := b.dense_true seq hseq
  have hfirst := sortFndLast_nil_dense hseq
  by_cases hcut : (searchRange b bd).1 ≤ b.count
  · rw [orderedSelect_outside hs ha (hle hcut) hcut]
    refine filter_slices_iff ha he hle2 fun i hi => ?_
    have hrow := hrows i hi
    have hval := value_ne_nil hnonil hi
    omega
  · -- every row is below the complement, and the first slice lies behind the last row
    rw [not_le] at hcut
    have hbelow : ∀ i < b.count, (b.value i).1 ≤ bd.low := fun i hi =>
      (hrows i hi).1.mp (by omega)
    have hslices := mem_orderedSelect_behind hs ha hfirst (hend hcut)
    have hscan : ∀ o, o ∈ scanned b s bd ↔ o ∈ candidateOids b.toColumn s := by
      intro o
      rw [scanned, mem_filter, scanned_iff (P := fun x => x ≠ t.min ∧
        (x ≤ bd.low ∨ bd.high ≤ x)) fun i hi => scanTest_outside ha he hi, candidateOids,
        mem_filter, decide_eq_true_iff]
      refine and_congr_right fun _ => ⟨fun h => ⟨h.1, by omega⟩, fun h => ?_⟩
      have hi : o - b.hseqbase < b.count := by
        have := h.1
        have := h.2
        omega
      exact ⟨h.1, hi, value_ne_nil hnonil hi, .inl (hbelow _ hi)⟩
    constructor
    · intro heq
      -- the two lists have no oid in common
      have hnone : ∀ o, o ∈ scanned b s bd → False := by
        intro o ho
        have h1 := (hslices.1 o (heq ▸ ho)).1
        have h2 : b.Contains o := of_decide_eq_true (mem_filter.mp ((hscan o).mp ho)).2
        exact absurd h2.2 (by omega)
      refine ⟨fun o ho => ?_, fun o ho => absurd ((hscan o).mpr ho) (hnone o)⟩
      by_contra hge
      exact hnone o (heq ▸ hslices.2 o ho (by omega))
    · rintro ⟨hbehind, hrow⟩
      have hnorow : ∀ o, o ∉ candidateOids b.toColumn s := by
        intro o ho
        have hc : b.Contains o := of_decide_eq_true (mem_filter.mp ho).2
        refine hrow o ho (hbelow _ ?_)
        have := hc.1
        have := hc.2
        omega
      have hsome : s ≠ none := by
        rintro rfl
        have hcount : b.count ≠ 0 := by
          rintro h
          simp [triviallyEmpty, h] at hne
        refine hnorow b.hseqbase (mem_candidateOids.mpr ⟨⟨le_rfl, by omega⟩, ?_⟩)
        simp
      have hleft : orderedSelect b s bd = [] := by
        refine eq_nil_iff_forall_not_mem.mpr fun o ho => ?_
        obtain ⟨h1, h2⟩ := hslices.1 o ho
        exact absurd (hbehind o (h2 hsome)) (by omega)
      have hright : scanned b s bd = [] :=
        eq_nil_iff_forall_not_mem.mpr fun o ho => hnorow o ((hscan o).mp ho)
      rw [hleft, hright]

end Outside

end Compare

/-! ## The result -/

section Result

variable {t : IntType}

/-- When a complement with values on both sides is right. -/
structure OrderExact (b : SelectColumn t) (s : Option Candidates) (tl : ℤ) (th : Option ℤ)
    (li hi : Bool) : Prop where
  /-- No candidate lies behind the last row. -/
  behind : NoneBehind b s
  /-- In a column that is only sorted downwards, no candidate is nil or above the range. -/
  reversed : b.tsorted = false → EveryRow b s fun x => x ≠ t.min ∧ ¬ Above tl th li hi x
  /-- In a dense column, no candidate is below the range. -/
  dense : b.tseq ≠ none → EveryRow b s fun x => ¬ Below tl li x

/-- The arguments of a selection on oids are oids. -/
def ArgsAreOids (b : SelectColumn t) (tl : IntVal t) (th : Option (IntVal t)) : Prop :=
  b.isOid = true → (tl.1 = t.min ∨ 0 ≤ tl.1) ∧ ∀ v ∈ th, v.1 = t.min ∨ 0 ≤ v.1

variable {b : SelectColumn t} {s : Option Candidates} {tl : IntVal t} {th : Option (IntVal t)}
  {li hi anti : Bool}

theorem ArgsAreOids.inRange (h : ArgsAreOids b tl th) :
    ArgsInRange t.min b.minValue t.max tl.1 (th.map Subtype.val) := by
  have hzero : t.min < 0 ∧ 0 ≤ t.max := by cases t <;> decide
  have hvals : ∀ v : IntVal t, (b.isOid = true → v.1 = t.min ∨ 0 ≤ v.1) →
      v.1 = t.min ∨ b.minValue ≤ v.1 := by
    intro v hv
    unfold minValue
    split_ifs with hoid
    · exact hv hoid
    · have := v.2.1
      omega
  have hmin : t.min < b.minValue ∧ b.minValue ≤ t.max := by
    unfold minValue
    split_ifs <;> omega
  refine ⟨hmin.1, hmin.2, hvals tl fun ho => (h ho).1, tl.2.2, fun v hv => ?_, fun v hv => ?_⟩
  · obtain ⟨w, hw, rfl⟩ := Option.mem_map.mp hv
    exact hvals w fun ho => (h ho).2 w hw
  · obtain ⟨w, -, rfl⟩ := Option.mem_map.mp hv
    exact w.2.2

theorem minValue_dense (h : b.tseq ≠ none) : b.minValue = 0 := by
  obtain ⟨seq, hseq⟩ := Option.ne_none_iff_exists'.mp h
  exact if_pos (b.dense_oid seq hseq)

theorem subselect_eq_iff (hd : b.hdense = true) (hs : ∀ c, s = some c → c.tsorted = true)
    (hord : b.tsorted = true ∨ b.trevsorted = true) (hne : triviallyEmpty b.toColumn s = false) :
    subselect b s tl th li hi anti = subselect b.clearOrder s tl th li hi anti ↔
      ∀ bd, selectPlanOf t.min b.minValue t.max b.tnonil tl.1 (th.map Subtype.val) li hi anti =
        .lookup bd → orderedSelect b s bd = scanned b s bd := by
  have hs' : ¬ (s.any fun s => !s.tsorted) = true := by
    rcases s with _ | c
    · simp
    · simp [hs c rfl]
  have hord' : (b.tsorted || b.trevsorted) = true := by
    rcases hord with h | h <;> simp [h]
  have hd' : ¬ (!b.clearOrder.hdense) = true := by simp [clearOrder, hd]
  have hne' : ¬ triviallyEmpty b.clearOrder.toColumn s = true := Bool.eq_false_iff.mp hne
  have hplan : selectPlanOf t.min b.clearOrder.minValue t.max b.clearOrder.tnonil tl.1
      (th.map Subtype.val) li hi anti =
      selectPlanOf t.min b.minValue t.max b.tnonil tl.1 (th.map Subtype.val) li hi anti := rfl
  rw [subselect, if_neg (by simp [hd]), if_neg hs', if_neg (by simp [hne]), subselect, if_neg hd',
    if_neg hs', if_neg hne', hplan]
  rcases selectPlanOf t.min b.minValue t.max b.tnonil tl.1 (th.map Subtype.val) li hi anti with
    _ | _ | bd
  · simp
  · exact iff_of_true rfl (by simp)
  · have hscan := BAT_scanselect_eq (fun v : IntVal t =>
      scanTest t b.tnonil bd.equi bd.anti bd.low bd.high v.1) hs hne
    simp only [hord', SelectPlan.lookup.injEq, forall_eq']
    change Except.ok _ = Except.ok (BAT_scanselect b.toColumn s fun v =>
      scanTest t b.tnonil bd.equi bd.anti bd.low bd.high v.1) ↔ _
    rw [hscan, Except.ok.injEq, candidateOids, filter_filter, scanned]
    simp only [Bool.and_comm]

/-- **Search and scan agree exactly under `OrderExact`**, which is only asked of a complement that
the type has values on both sides of. -/
theorem subselect_eq_clearOrder_iff (b : SelectColumn t) (s : Option Candidates) (tl : IntVal t)
    (th : Option (IntVal t)) (li hi anti : Bool) (hd : b.hdense = true)
    (hs : ∀ c, s = some c → c.tsorted = true) (hord : b.tsorted = true ∨ b.trevsorted = true)
    (hargs : ArgsAreOids b tl th) :
    subselect b s tl th li hi anti = subselect b.clearOrder s tl th li hi anti ↔
      triviallyEmpty b.toColumn s = true ∨
        (TwoSided t.min b.minValue t.max tl.1 (th.map Subtype.val) li hi anti →
          OrderExact b s tl.1 (th.map Subtype.val) li hi) := by
  cases hne : triviallyEmpty b.toColumn s with
  | true =>
    refine iff_of_true ?_ (.inl rfl)
    have hne' : triviallyEmpty b.clearOrder.toColumn s = true := hne
    have hdense : b.clearOrder.hdense = b.hdense := rfl
    simp only [subselect, hne, hne', hdense, if_true]
  | false =>
    have hin := hargs.inRange
    rw [subselect_eq_iff hd hs hord hne, or_iff_right (by simp)]
    by_cases htwo : TwoSided t.min b.minValue t.max tl.1 (th.map Subtype.val) li hi anti
    swap
    · -- a range
      refine iff_of_true (fun bd hplan => ?_) fun h => absurd h htwo
      obtain ⟨ha, hflags, he, hlow, hhigh, hnonil⟩ := selectPlanOf_range hin hplan htwo
      refine orderedSelect_range hs ⟨hlow.1, hlow.2, hhigh.1, hhigh.2, fun hseq => ?_⟩ hord ha
        hflags he
      obtain ⟨seq, hseq'⟩ := Option.ne_none_iff_exists'.mp hseq
      have := hnonil (.inr (b.dense_true seq hseq').2.1)
      rwa [minValue_dense hseq] at this
    obtain ⟨bd, hplan, he, ha, hflags, hbelow, habove, hlt, hmn, hmx⟩ :=
      selectPlanOf_twoSided hin htwo b.tnonil
    have hnil := hin.nil_lt
    have hbd : BoundsInType b bd := by
      refine ⟨by omega, by omega, by omega, hmx, fun hseq => ?_⟩
      rw [minValue_dense hseq] at hmn
      omega
    simp only [hplan, SelectPlan.lookup.injEq, forall_eq', htwo, forall_const]
    cases hseq : b.tseq with
    | some seq =>
      have hsort := (b.dense_true seq hseq).1
      rw [orderedSelect_dense_iff hs hbd hlt (by omega) ha he hflags hseq hne]
      simp only [hbelow]
      exact ⟨fun h => ⟨h.1, fun hns => absurd hsort (by simp [hns]), fun _ => h.2⟩,
        fun h => ⟨h.behind, h.dense (by simp [hseq])⟩⟩
    | none =>
      cases hsort : b.tsorted with
      | true =>
        rw [orderedSelect_sorted_iff hs hbd hlt (by omega) ha he hflags hseq hsort]
        exact ⟨fun h => ⟨h, fun hns => absurd hsort (by simp [hns]), fun hd => absurd hseq hd⟩,
          fun h => h.behind⟩
      | false =>
        have hrev := hord.resolve_left (by simp [hsort])
        rw [orderedSelect_reversed_iff hs hbd hlt (by omega) ha he hflags hseq hsort hrev]
        simp only [habove]
        exact ⟨fun h => ⟨h.1, fun _ => h.2, fun hd => absurd hseq hd⟩,
          fun h => ⟨h.behind, h.reversed hsort⟩⟩

end Result

/-! ## A failing input -/

/-- A column of the type `bte` for selections. -/
def bteSelectColumn (b : Column (IntVal .bte)) : SelectColumn .bte := { b with
    tseq := none
    isOid := false
    dense_true := nofun
    dense_oid := not_dense
    oid_lng := nofun }

/-- The values 3, 2 and 1, flagged as reverse sorted. -/
def threeTwoOne : SelectColumn .bte :=
  bteSelectColumn (bteColumn [⟨3, bte_three⟩, ⟨2, by decide⟩, ⟨1, bte_one⟩] false true
    (by decide) (by decide) (by decide))

/-- Of the values that are not 2, the search finds only the 1. -/
theorem subselect_loses_above :
    subselect threeTwoOne none ⟨2, by decide⟩ none true true true = .ok [2] ∧
      subselect threeTwoOne.clearOrder none ⟨2, by decide⟩ none true true true = .ok [0, 2] := by
  decide

/-- The values 1, 2 and 3, flagged as sorted. -/
def oneTwoThree : SelectColumn .bte :=
  bteSelectColumn (bteColumn [⟨1, bte_one⟩, ⟨2, by decide⟩, ⟨3, bte_three⟩] true false
    (by decide) (by decide) (by decide))

/-- The other way round it finds both. -/
theorem subselect_oneTwoThree : subselect oneTwoThree none ⟨2, by decide⟩ none true true true =
      subselect oneTwoThree.clearOrder none ⟨2, by decide⟩ none true true true :=
  (subselect_eq_clearOrder_iff oneTwoThree none _ _ _ _ _ rfl (by simp) (.inl rfl) nofun).mpr
    (.inr fun _ => ⟨by decide, nofun, fun h => absurd rfl h⟩)

end MonetInR.Gdk
