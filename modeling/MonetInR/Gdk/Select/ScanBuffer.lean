import Mathlib.Data.Int.Interval
import MonetInR.Gdk.Select.HashSelect
import MonetInR.Gdk.Select.OrderedExact
import MonetInR.Lib.SpeculativeAppend

/-!
# The result array of a scan

Before it scans, `BATsubselect` estimates the size of the result and allocates an array for it.  The
loops write the oid of every row at the end of the array before they test the value of the row.
If the array may be too small for all rows, a loop grows it when it is full; otherwise it does not
look at the capacity at all.

For a column without duplicates the number of values in a range bounds the result, and the array is
allocated for that number.  There is no room then for the oid of a row that is visited after all
these values have been found, unless the size of the array was rounded up.

## Main definitions

* `ScanRequest`: a selection that has reached the scan
* `ScanRequest.writes`: the writes to the result array
* `ScanRequest.FillsArray`: all values of the range are found before the last row, and the array has
  room for them only

## Main results

* `count_passing_le`: a range of a column without duplicates passes at most its own size
* `inBounds_writes_iff`: every write is in bounds exactly if the array is not filled too early
-/

namespace MonetInR.Gdk

open SpeculativeAppend List Subtype

variable {α : Type*} [Atom α] {count : ℕ}

/-! ## Allocation

`BATnew` rounds a capacity up, so that an array is never smaller than 256 rows. -/

/-- `BUN_NONE`. -/
def bunNoneMax : ℕ := 2 ^ 63 - 1

/-- `BATTINY`. -/
def batTiny : ℕ := 256

/-- Rounding up to a multiple of `BATTINY`. -/
def roundTiny (cap : ℕ) : ℕ :=
  if cap < bunNoneMax - 1 - batTiny then (cap + batTiny - 1) / batTiny * batTiny else cap

/-- The capacity that `BATnew` allocates. -/
def batNewCapacity (cap : ℕ) : ℕ :=
  let cap := roundTiny cap
  let cap := if cap < batTiny then batTiny else cap
  if bunNoneMax - 1 < cap then bunNoneMax - 1 else cap

theorem batNewCapacity_eq (cap : ℕ) :
    batNewCapacity cap = min (max (roundTiny cap) batTiny) (bunNoneMax - 1) := by
  unfold batNewCapacity
  dsimp only
  split_ifs <;> omega

theorem le_batNewCapacity {cap : ℕ} (h : cap < bunNoneMax) : cap ≤ batNewCapacity cap := by
  have : cap ≤ roundTiny cap := by
    unfold roundTiny batTiny
    split_ifs <;> omega
  rw [batNewCapacity_eq]
  omega

theorem batTiny_le_batNewCapacity (cap : ℕ) : batTiny ≤ batNewCapacity cap := by
  have : batTiny ≤ bunNoneMax - 1 := by decide
  rw [batNewCapacity_eq]
  omega

/-! ## A selection that scans -/

/-- How the type of a column is stored: as an integer, as another type that has a loop of its own
(`flt` and `dbl`), or in any other way. -/
inductive Storage
  | int (t : IntType)
  | float
  | any
  deriving DecidableEq, Repr

/-- A selection that has reached the scan.  `test` is the test of the loop that is chosen. -/
structure ScanRequest (α : Type*) [Atom α] where
  b : Column α
  s : Option Candidates
  storage : Storage
  /-- The bounds, for an integer type. -/
  low : ℤ
  high : ℤ
  li : Bool
  hi : Bool
  lval : Bool
  hval : Bool
  equi : Bool
  anti : Bool
  test : α → Bool
  /-- The candidate list is sorted and without duplicates. -/
  cands : ∀ c, s = some c → c.tsorted = true ∧ c.tkey = true
  nonempty : triviallyEmpty b s = false
  /-- A point selection passes one value. -/
  point : equi = true → ∃ v, ∀ x, test x = true → x = v
  /-- A range of integers is closed, its bounds are values of the type, and it passes only values
  between them. -/
  range : ∀ t, storage = .int t → equi = false → anti = false → lval = true → hval = true →
    (li = true ∧ hi = true) ∧ (t.min < low ∧ high ≤ t.max) ∧ ∃ f : α → ℤ, Function.Injective f ∧
        ∀ i < b.count, test (b.value i) = true → low ≤ f (b.value i) ∧ f (b.value i) ≤ high

namespace ScanRequest

variable (r : ScanRequest α)

/-- The upper limit of the result size: the number of rows, or of candidates among them. -/
def limit : ℕ :=
  match r.s with
  | none => r.b.count
  | some s =>
    match s.tseq with
    | some seq =>
      min r.b.count (min (r.b.hseqbase + r.b.count) (seq + s.count) - max r.b.hseqbase seq)
    | none =>
      min r.b.count (SORTfndfirst s.tail 0 s.count s.tkey (r.b.hseqbase + r.b.count) -
        SORTfndfirst s.tail 0 s.count s.tkey r.b.hseqbase)

/-- The number of values of a range, in the arithmetic of the type: `int` for the types up to 32
bits, `lng` for the last one. -/
def rangeEstimate (t : IntType) (low high : ℤ) (li hi : Bool) : ℕ :=
  let width := if t = .lng then 64 else 32
  let estimate := (Int.bmod (high - low) (2 ^ width) % 2 ^ 64).toNat
  if estimate ≠ bunNoneMax then (estimate + li.toNat + hi.toNat + (2 ^ 64 - 1)) % 2 ^ 64
  else estimate

/-- The exact size in special cases of a column without duplicates, or `BUN_NONE`. -/
def exact : ℕ :=
  if r.b.tkey then
    if r.equi then 1
    else if !r.anti && r.lval && r.hval then
      match r.storage with
      | .int t => rangeEstimate t r.low r.high r.li r.hi
      | _ => bunNoneMax
    else bunNoneMax
  else bunNoneMax

/-- `maximum`: the upper limit, refined by the exact size. -/
def maximum : ℕ := min r.limit r.exact

/-- The capacity of the new result.  `sample` is the estimate made from a sample, if one is made;
without any estimate a million rows are assumed. -/
def capacity (sample : Option ℕ) : ℕ :=
  let estimate := if r.exact = bunNoneMax then sample.getD bunNoneMax else r.exact
  let estimate := if estimate = bunNoneMax then 1000000 else estimate
  batNewCapacity (min estimate r.maximum)

/-- The outcomes of the tests, in the order of the visits. -/
def outcomes : List Bool := (candidateOids r.b r.s).map fun o => r.test (r.b.atOid o)

/-- `buninsfix`: a full array is extended by 1024 more than `growth`, but not by more than the rows
to come, where `k` of `n` rows have been visited. -/
def grow (growth : ℕ → ℕ → ℕ → ℕ) (n k cap cnt : ℕ) : ℕ :=
  if cnt = cap then max cap (min (cap + (growth cnt k (n - k) + 1024)) (cap + (n - k))) else cap

/-- The writes of the scan.  The loops for types without a loop of their own always look at the
capacity, the others only if it is less than `maximum`.  `growth` stands for the estimate of the
rows to come, which is made in floating-point arithmetic. -/
def writes (growth : ℕ → ℕ → ℕ → ℕ) (sample : Option ℕ) : List (ℕ × ℕ) :=
  let cap := r.capacity sample
  if r.storage = .any ∨ cap < r.maximum then
    SpeculativeAppend.writes (grow growth r.outcomes.length) r.outcomes 0 cap 0
  else SpeculativeAppend.writes (fun _ cap _ => cap) r.outcomes 0 cap 0

/-- All values of a range of a column without duplicates are found before the last row, and the
array has room for them only. -/
def FillsArray : Prop :=
  r.b.tkey = true ∧ r.equi = false ∧ r.anti = false ∧ r.lval = true ∧ r.hval = true ∧
    ∃ t, r.storage = .int t ∧ batNewCapacity (rangeEstimate t r.low r.high r.li r.hi) ≤
        rangeEstimate t r.low r.high r.li r.hi ∧
      rangeEstimate t r.low r.high r.li r.hi ≤ r.outcomes.dropLast.count true

end ScanRequest

/-! ## The size of a range

The number of values in a range is computed in machine arithmetic.  It is right unless it is larger
than any column, in which case it does not matter. -/

/-- The estimate for a range is its size, or larger than any column. -/
theorem rangeEstimate_eq {t : IntType} {low high : ℤ} (hlow : t.min < low) (hle : low ≤ high + 1)
    (hhigh : high ≤ t.max) :
    ScanRequest.rangeEstimate t low high true true = (high - low + 1).toNat ∨
      bunNoneMax ≤ ScanRequest.rangeEstimate t low high true true := by
  have hmin : t.max - t.min < 2 ^ t.bits := by cases t <;> decide
  have hone : Bool.toNat true = 1 := rfl
  unfold ScanRequest.rangeEstimate bunNoneMax
  by_cases hlng : t = .lng
  · subst hlng
    have hbits : (2 : ℤ) ^ IntType.lng.bits = 2 ^ 64 := rfl
    have hmod : Int.bmod (high - low) (2 ^ 64) % 2 ^ 64 = (high - low) % 2 ^ 64 := by
      exact Int.bmod_emod
    simp only [if_true]
    split_ifs with h <;> omega
  · have hbits : (2 : ℤ) ^ t.bits ≤ 2 ^ 32 := by
      cases t <;> first | decide | exact absurd rfl hlng
    simp only [if_neg hlng]
    have hmod := Int.bmod_def (high - low) (2 ^ 32)
    split_ifs at hmod ⊢ <;> omega

namespace ScanRequest

variable {r : ScanRequest α}

theorem length_candidateOids_le : (candidateOids r.b r.s).length ≤ r.b.count := by
  have hnd : (candidateOids r.b r.s).Nodup := (increasing_candidateOids r.cands).imp ne_of_lt
  have hsub : candidateOids r.b r.s ⊆ range' r.b.hseqbase r.b.count := by
    intro o ho
    have hc : r.b.Contains o := of_decide_eq_true (mem_filter.mp ho).2
    exact mem_range'_1.mpr hc
  simpa using (hnd.subperm hsub).length_le

/-- The number of visited rows is the upper limit. -/
theorem length_outcomes : r.outcomes.length = r.limit := by
  rw [outcomes, length_map]
  have hle := length_candidateOids_le (r := r)
  have hne := r.nonempty
  unfold limit
  cases hs : r.s with
  | none => simp [candidateOids_none]
  | some c =>
    rw [hs] at hle hne
    dsimp only
    cases hseq : c.tseq with
    | some seq =>
      have hcut := (candidateOids_dense hseq hne).2
      rw [hcut, IntervalSearch.length_slice] at hle ⊢
      dsimp only
      omega
    | none =>
      have hcut := (candidateOids_array (b := r.b) (r.cands c hs).1).2
      rw [hcut, IntervalSearch.length_slice] at hle ⊢
      dsimp only
      omega

/-- In a column without duplicates, no more rows pass than there are values to pass. -/
theorem count_passing_le {β : Type*} [DecidableEq β] (hkey : r.b.tkey = true) {g : α → β}
    (hg : Function.Injective g) (S : Finset β)
    (hS : ∀ i < r.b.count, r.test (r.b.value i) = true → g (r.b.value i) ∈ S) :
    r.outcomes.count true ≤ S.card := by
  set L := (candidateOids r.b r.s).filter fun o => r.test (r.b.atOid o) with hL
  have hlen : r.outcomes.count true = L.length := by
    rw [outcomes, count, countP_map, countP_eq_length_filter]
    congr 2
    funext o
    simp
  have hnd : L.Nodup := ((increasing_candidateOids r.cands).imp ne_of_lt).filter _
  have hrow : ∀ o ∈ L, o - r.b.hseqbase < r.b.count ∧ r.b.hseqbase ≤ o ∧
      r.test (r.b.atOid o) = true := by
    intro o ho
    obtain ⟨hin, htest⟩ := mem_filter.mp ho
    have hc : r.b.Contains o := of_decide_eq_true (mem_filter.mp hin).2
    have h1 := hc.1
    have h2 := hc.2
    exact ⟨by omega, h1, htest⟩
  rw [hlen, ← toFinset_card_of_nodup hnd]
  refine Finset.card_le_card_of_injOn (fun o => g (r.b.atOid o)) (fun o ho => ?_)
    fun o ho o' ho' heq => ?_
  · obtain ⟨h1, -, h3⟩ := hrow o (mem_toFinset.mp ho)
    exact hS _ h1 h3
  · obtain ⟨h1, h2, -⟩ := hrow o (mem_toFinset.mp ho)
    obtain ⟨h1', h2', -⟩ := hrow o' (mem_toFinset.mp ho')
    have hval : r.b.value (o - r.b.hseqbase) = r.b.value (o' - r.b.hseqbase) := hg heq
    rcases Nat.lt_trichotomy (o - r.b.hseqbase) (o' - r.b.hseqbase) with hlt | he | hgt
    · exact absurd hval (r.b.key_true hkey _ _ hlt h1')
    · omega
    · exact absurd hval.symm (r.b.key_true hkey _ _ hgt h1)

theorem limit_lt : r.limit < 2 ^ 63 := by
  have h1 := length_outcomes (r := r)
  have h2 := length_candidateOids_le (r := r)
  have h3 := r.b.fits
  have h4 := r.b.small
  rw [outcomes, length_map] at h1
  omega

theorem exact_cases (h : r.exact < bunNoneMax) : r.b.tkey = true ∧ ((r.equi = true ∧ r.exact = 1) ∨
      (r.equi = false ∧ r.anti = false ∧ r.lval = true ∧ r.hval = true ∧
        ∃ t, r.storage = .int t ∧ r.exact = rangeEstimate t r.low r.high r.li r.hi)) := by
  unfold exact at h ⊢
  split_ifs at h ⊢ with hkey hequi hrange
  · exact ⟨hkey, .inl ⟨hequi, rfl⟩⟩
  · simp only [Bool.and_eq_true, Bool.not_eq_true'] at hrange
    cases hstore : r.storage with
    | int t =>
      exact ⟨hkey, .inr ⟨by simpa using hequi, hrange.1.1, hrange.1.2, hrange.2, t, rfl, rfl⟩⟩
    | float => simp [hstore] at h
    | any => simp [hstore] at h
  · exact absurd h (lt_irrefl _)
  · exact absurd h (lt_irrefl _)

/-- **At most as many rows pass as the exact size says.** -/
theorem count_outcomes_le : r.outcomes.count true ≤ r.exact := by
  rcases le_or_gt bunNoneMax r.exact with hnone | hlt
  · have h1 := count_le_length (a := true) (l := r.outcomes)
    have h2 := r.limit_lt
    rw [length_outcomes] at h1
    rw [bunNoneMax] at hnone
    omega
  obtain ⟨hkey, ⟨hequi, hone⟩ | ⟨hequi, hanti, hlv, hhv, t, hstore, he⟩⟩ := exact_cases hlt
  · -- a point
    obtain ⟨v, hv⟩ := r.point hequi
    rw [hone]
    exact count_passing_le hkey Function.injective_id {v} fun i _ htest =>
      Finset.mem_singleton.mpr (hv _ htest)
  · obtain ⟨⟨hli, hhi⟩, ⟨hlow, hhigh⟩, f, hf, hpass⟩ := r.range t hstore hequi hanti hlv hhv
    have hcard := count_passing_le hkey hf (Finset.Icc r.low r.high) fun i hi htest =>
      Finset.mem_Icc.mpr (hpass i hi htest)
    rw [Int.card_Icc] at hcard
    rw [he, hli, hhi] at hlt ⊢
    rcases le_or_gt r.low (r.high + 1) with hle | hgt
    · rcases rangeEstimate_eq hlow hle hhigh with he | hge
      · omega
      · omega
    · omega

/-! ## The writes

A loop that looks at the capacity is always safe.  One that does not is safe unless it visits a row
after the last one that fits has been found. -/

theorem FillsArray.exact_eq (h : r.FillsArray) :
    r.storage ≠ .any ∧ batNewCapacity r.exact ≤ r.exact ∧
      r.exact ≤ r.outcomes.dropLast.count true := by
  obtain ⟨hkey, hequi, hanti, hlv, hhv, t, hstore, h1, h2⟩ := h
  have he : r.exact = rangeEstimate t r.low r.high r.li r.hi := by
    simp [exact, hkey, hequi, hanti, hlv, hhv, hstore]
  rw [he]
  exact ⟨by simp [hstore], h1, h2⟩

theorem FillsArray.ne_nil (h : r.FillsArray) : r.outcomes ≠ [] := by
  intro he
  obtain ⟨-, hcap, hfull⟩ := h.exact_eq
  have hpos : 0 < batNewCapacity r.exact :=
    lt_of_lt_of_le (by decide) (batTiny_le_batNewCapacity r.exact)
  rw [he, dropLast_nil, count_nil] at hfull
  omega

theorem count_dropLast (h : r.outcomes ≠ []) :
    r.outcomes.dropLast.count true < r.limit ∧ r.outcomes.dropLast.count true ≤ r.exact := by
  have hpos := length_pos_of_ne_nil h
  have hle := count_le_length (a := true) (l := r.outcomes.dropLast)
  rw [length_dropLast, length_outcomes] at hle
  rw [length_outcomes] at hpos
  have hsub := (dropLast_sublist r.outcomes).count_le true
  exact ⟨by omega, hsub.trans count_outcomes_le⟩

/-- If the exact size is less than the number of rows, the array is allocated for it. -/
theorem capacity_of_exact (h : r.exact < r.limit) (sample : Option ℕ) :
    r.maximum = r.exact ∧ r.capacity sample = batNewCapacity r.exact := by
  have hlim := r.limit_lt
  have hmax : r.maximum = r.exact := min_eq_right h.le
  have hne : r.exact ≠ bunNoneMax := by
    rw [bunNoneMax]
    omega
  refine ⟨hmax, ?_⟩
  rw [capacity, hmax]
  simp only [if_neg hne, min_self]

theorem inBounds_grow (growth : ℕ → ℕ → ℕ → ℕ) (cap : ℕ) :
    InBounds (SpeculativeAppend.writes (grow growth r.outcomes.length) r.outcomes 0 cap 0) := by
  refine inBounds_of_growing (n := r.outcomes.length) (fun k cap cnt hk hcnt => ?_) (by simp)
    (Nat.zero_le _)
  unfold grow
  split_ifs <;> omega

/-- **Every write of a scan is within the result array, exactly if it is not the case that all
values of a range of a column without duplicates are found before the last row, and that the
array has room for them only.** -/
theorem inBounds_writes_iff (r : ScanRequest α) (growth : ℕ → ℕ → ℕ → ℕ) (sample : Option ℕ) :
    InBounds (r.writes growth sample) ↔ ¬ r.FillsArray := by
  have hlim := r.limit_lt
  unfold writes
  dsimp only
  split_ifs with hgrow
  · refine iff_of_true (inBounds_grow growth _) fun hfill => ?_
    obtain ⟨hstore, hcap, hfull⟩ := hfill.exact_eq
    have hlt := (count_dropLast hfill.ne_nil).1
    obtain ⟨hmax, hnew⟩ := capacity_of_exact (r := r) (by omega) sample
    have hge : r.exact ≤ batNewCapacity r.exact := le_batNewCapacity (by rw [bunNoneMax]; omega)
    rcases hgrow with h | h
    · exact hstore h
    · omega
  · by_cases hne : r.outcomes = []
    · rw [hne]
      exact iff_of_true (fun w hw => nomatch hw) fun hfill => hfill.ne_nil hne
    obtain ⟨hlt, hle⟩ := count_dropLast hne
    rw [inBounds_fixed_iff hne]
    by_cases hexact : r.exact < r.limit
    · obtain ⟨hmax, hnew⟩ := capacity_of_exact hexact sample
      obtain ⟨hkey, ⟨hequi, hone⟩ | ⟨hequi, hanti, hlv, hhv, t, hstore, he⟩⟩ :=
        exact_cases (r := r) (by rw [bunNoneMax]; omega)
      · -- one row at most is found
        have := batTiny_le_batNewCapacity r.exact
        have htiny : batTiny = 256 := rfl
        exact iff_of_true (by omega) fun hfill => absurd hfill.2.1 (by simp [hequi])
      constructor
      · intro hroom hfill
        obtain ⟨-, hcap, hfull⟩ := hfill.exact_eq
        omega
      · intro hfill
        by_contra hfull
        refine hfill ⟨hkey, hequi, hanti, hlv, hhv, t, hstore, ?_, ?_⟩
        · rw [← he]
          omega
        · omega
    · -- there is room for every row
      have hmax : r.maximum = r.limit := min_eq_left (not_lt.mp hexact)
      refine iff_of_true (by omega) fun hfill => ?_
      obtain ⟨-, -, hfull⟩ := hfill.exact_eq
      omega

end ScanRequest

/-! ## Selections on columns of integers -/

section Integers

variable {t : IntType} {b : SelectColumn t} {s : Option Candidates} {tl : IntVal t}
  {th : Option (IntVal t)} {li hi anti : Bool} {bd : Bounds}

theorem scanTest_point (nonil : Bool) (he : bd.equi = true) :
    ∃ v, ∀ x : IntVal t, scanTest t nonil bd.equi bd.anti bd.low bd.high x.1 = true → x = v := by
  by_cases h : t.min ≤ bd.low ∧ bd.low ≤ t.max
  · refine ⟨⟨bd.low, h⟩, fun x hx => Subtype.ext ?_⟩
    simpa [scanTest, he] using hx
  · refine ⟨⊥, fun x hx => absurd ?_ h⟩
    have hval : x.1 = bd.low := by simpa [scanTest, he] using hx
    exact hval ▸ x.2

/-- A range of integers that is looked up is closed, and its bounds are values of the type. -/
theorem lookup_range (hargs : ArgsAreOids b tl th)
    (hplan : selectPlanOf t.min b.minValue t.max b.tnonil tl.1 (th.map val) li hi anti =
      .lookup bd) (t' : IntType) (ht' : Storage.int t = .int t') (he : bd.equi = false)
    (ha : bd.anti = false) (_ : bd.lval = true) (_ : bd.hval = true) :
    (bd.li = true ∧ bd.hi = true) ∧ (t'.min < bd.low ∧ bd.high ≤ t'.max) ∧
      ∃ f : IntVal t → ℤ, Function.Injective f ∧ ∀ i < b.count,
        scanTest t b.tnonil bd.equi bd.anti bd.low bd.high (b.value i).1 = true →
          bd.low ≤ f (b.value i) ∧ f (b.value i) ≤ bd.high := by
  obtain rfl : t = t' := by simpa using ht'
  have hone : ¬ TwoSided t.min b.minValue t.max tl.1 (th.map val) li hi anti := by
    intro htwo
    obtain ⟨bd', hplan', -, ha', -⟩ := selectPlanOf_twoSided hargs.inRange htwo b.tnonil
    rw [hplan, SelectPlan.lookup.injEq] at hplan'
    simp [hplan', ha'] at ha
  obtain ⟨-, hflags, hequi, -, hhigh, hmin⟩ := selectPlanOf_range hargs.inRange hplan hone
  have hlow := (hmin (.inl he)).1
  have hnil := hargs.inRange.nil_lt
  exact ⟨⟨hflags.1, hflags.2.1⟩, ⟨by omega, hhigh.2⟩, val, val_injective,
    fun i hi htest => (scanTest_range ha hequi hi).mp htest⟩

variable (b s tl th li hi anti bd)

/-- The scan that a selection on a column of integers or oids requests. -/
def SelectColumn.scanRequest (hs : ∀ c, s = some c → c.tsorted = true ∧ c.tkey = true)
    (hne : triviallyEmpty b.toColumn s = false) (hargs : ArgsAreOids b tl th)
    (hplan : selectPlanOf t.min b.minValue t.max b.tnonil tl.1 (th.map val) li hi anti =
      .lookup bd) : ScanRequest (IntVal t) where
  b := b.toColumn
  s := s
  storage := .int t
  low := bd.low
  high := bd.high
  li := bd.li
  hi := bd.hi
  lval := bd.lval
  hval := bd.hval
  equi := bd.equi
  anti := bd.anti
  test v := scanTest t b.tnonil bd.equi bd.anti bd.low bd.high v.1
  cands := hs
  nonempty := hne
  point := scanTest_point b.tnonil
  range := lookup_range hargs hplan

end Integers

/-! ## A failing input -/

section CountUp

/-- The values 1, 2, 3 and so on. -/
def shtFromOne (p : ℕ) : IntVal .sht := ⟨(p % 1000 : ℕ) + 1, by
    have hmin : IntType.sht.min ≤ 0 := by decide
    have hmax : 1000 ≤ IntType.sht.max := by decide
    omega⟩

theorem few_small (hcount : count < 1000) : count < 2 ^ 63 := by omega

theorem few_oids_small (hcount : count < 1000) : 0 + count ≤ 2 ^ 63 := by omega

theorem shtFromOne_key (hcount : count < 1000) (_ : true = true) (i j : ℕ) (hij : i < j)
    (hj : j < count) : shtFromOne (0 + i) ≠ shtFromOne (0 + j) := by
  intro he
  have h := congrArg val he
  change ((((0 + i) % 1000 : ℕ) : ℤ) + 1) = (((0 + j) % 1000 : ℕ) : ℤ) + 1 at h
  omega

/-- A column of these values, flagged as unique but not as sorted. -/
def countUp (count : ℕ) (hcount : count < 1000) : SelectColumn .sht where
  hdense := true
  hseqbase := 0
  ttype := 3
  first := 0
  count := count
  capacity := count
  val := shtFromOne
  tsorted := false
  trevsorted := false
  tkey := true
  tnonil := false
  hash := none
  fits := zero_add_le count
  small := few_small hcount
  oids_small := few_oids_small hcount
  sorted_true := nofun
  revsorted_true := nofun
  key_true := shtFromOne_key hcount
  nonil_true := nofun
  hash_shape := nofun
  tseq := none
  isOid := false
  dense_true := nofun
  dense_oid := not_dense
  oid_lng := nofun

theorem countUp_nonempty (hcount : count < 1000) (hpos : 0 < count) :
    triviallyEmpty (countUp count hcount).toColumn none = false := by
  simp only [triviallyEmpty, countUp]
  simp [hpos.ne']

/-- The bounds of a selection from 1 to 256. -/
def oneTo256 : Bounds :=
  { tlArg := 1, thArg := 256, vl := 0, vh := 0, tl := .tlArg, th := .thArg, li := true, hi := true,
    lval := true, hval := true, equi := false, anti := false, lnil := false }

/-- The scan for the values from 1 to 256. -/
def countUpRequest (count : ℕ) (hcount : count < 1000) (hpos : 0 < count) :
    ScanRequest (IntVal .sht) :=
  (countUp count hcount).scanRequest none ⟨1, by decide⟩ (some ⟨256, by decide⟩) true true false
    oneTo256 (by simp) (countUp_nonempty hcount hpos) nofun rfl

/-- With 257 rows, the last one is written behind the end of an array with room for 256. -/
theorem writes_countUp :
    ¬ InBounds ((countUpRequest 257 (by decide) (by decide)).writes (fun _ _ _ => 0) none) :=
  fun h => absurd (h (256, 256) (by decide +kernel)) (by decide)

end CountUp

end MonetInR.Gdk
