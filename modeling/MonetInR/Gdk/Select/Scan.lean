import MonetInR.Gdk.SortFnd

/-!
# Range selection on integer columns

`BATsubselect` takes two bounds, of which the upper one may be missing, and three switches:
whether each bound is included, and whether the complement is wanted.  It rewrites them until the
range is closed on both sides (`NORMALIZE`), and then scans the column.

The bounds are passed as pointers, and normalisation makes them point to two local variables
`vl` and `vh` when it computes new ones.  The model keeps the pointers, since two of them may
point to the same variable when it is overwritten.

The scan visits the rows that the candidate list names.  A candidate array is cut by two binary
searches, a dense candidate list by comparing its ends with those of the column, and the positions
are found by adding an offset that wraps around at the size of a machine word.

## Main definitions

* `Bounds`: the variables of `BATsubselect` that describe the range
* `Bounds.init`, `Bounds.antiSelect`, `Bounds.normalize`: the rewriting
* `selectPlan`: which way the selection takes
* `scanTest`, `BAT_scanselect`, `BATsubselect`: the scan and the operator
* `candidateOids`: the candidates that lie in the column

## Main results

* `BAT_scanselect_eq`: the scan returns these candidates, filtered by the test
-/

namespace MonetInR.Gdk

open IntervalSearch List Option

variable {α : Type*} [Atom α]

/-- Where a bound may point to: the caller's two values, or the local variables. -/
inductive Ptr
  | tlArg
  | thArg
  | vl
  | vh
  deriving DecidableEq, Repr

/-- The variables that describe the range. -/
structure Bounds where
  /-- The caller's values. -/
  tlArg : ℤ
  thArg : ℤ
  vl : ℤ
  vh : ℤ
  tl : Ptr
  th : Ptr
  li : Bool
  hi : Bool
  /-- The lower bound is used for comparison. -/
  lval : Bool
  /-- The upper bound is used for comparison. -/
  hval : Bool
  /-- A single value is selected. -/
  equi : Bool
  /-- The complement is selected. -/
  anti : Bool
  /-- The lower bound is nil. -/
  lnil : Bool
  deriving DecidableEq, Repr

namespace Bounds

/-- The value a pointer points to. -/
def deref (b : Bounds) : Ptr → ℤ
  | .tlArg => b.tlArg
  | .thArg => b.thArg
  | .vl => b.vl
  | .vh => b.vh

/-- The current bounds. -/
def low (b : Bounds) : ℤ := b.deref b.tl
def high (b : Bounds) : ℤ := b.deref b.th

/-- The arguments as they come in.  Without an upper bound the lower one takes its place. -/
def init (nil tl : ℤ) (th : Option ℤ) (li hi anti : Bool) : Bounds :=
  let lnil := tl == nil
  let lval := !lnil || th.isNone
  let equi := th.isNone || (lval && th == some tl)
  { tlArg := tl
    thArg := th.getD tl
    vl := 0
    vh := 0
    tl := .tlArg
    th := if equi then .tlArg else .thArg
    li := li
    hi := if th.isNone then li else hi
    lval := lval
    hval := if equi then true else th != some nil
    equi := equi
    anti := anti
    lnil := lnil }

/-- The complement of a half range is the other half range, and the complement of nil or of
nothing is everything but nil.  No result means that nothing is selected. -/
def antiSelect (b : Bounds) (nil : ℤ) : Option Bounds :=
  if b.anti then
    if b.lval != b.hval then
      some { b with
        li := !b.hi, hi := !b.li, tl := b.th, th := b.tl, lval := b.hval, hval := b.lval
        lnil := b.deref b.th == nil, anti := false }
    else if !b.lval && !b.hval then none
    else if b.equi && b.lnil then
      some { b with equi := false, anti := false, lval := false, hval := false }
    else if b.equi then
      if !(b.li && b.hi) then
        some { b with equi := false, anti := false, lval := false, hval := false }
      else some { b with equi := false }
    else some b
  else some b

/-- The range is empty. -/
def isEmpty (b : Bounds) : Bool := b.hval && ((b.equi && !(b.li && b.hi)) || b.high < b.low)

/-! ### NORMALIZE

`mn` and `mx` are `MINVALUE` and `MAXVALUE`, the least and the greatest number of the type. -/

/-- `x < vl` becomes `x <= vl - 1`, unless nothing is below `vl`. -/
def normLow (b : Bounds) (mn : ℤ) : Bounds :=
  if b.anti && b.li then
    if b.low = mn then { b with anti := false, tl := b.th, li := !b.hi, hval := false }
    else { b with vl := b.low - 1, tl := .vl, li := false }
  else b

/-- `vh < x` becomes `vh + 1 <= x`, unless nothing is above `vh`. -/
def normHigh (b : Bounds) (mx : ℤ) : Bounds :=
  if b.anti && b.hi then
    if b.high = mx then { b with anti := false, th := b.tl, hi := !b.li, lval := false }
    else { b with vh := b.high + 1, th := .vh, hi := false }
  else b

/-- The lower end of a range that is not a complement is closed. -/
def closeLow (b : Bounds) (mn mx : ℤ) : Option Bounds :=
  if b.lval then
    if !b.li then
      if b.low = mx then none else some { b with vl := b.low + 1, li := true, tl := .vl }
    else some b
  else some { b with vl := mn, li := true, tl := .vl, lval := true }

/-- The upper end of a range that is not a complement is closed. -/
def closeHigh (b : Bounds) (mn mx : ℤ) : Option Bounds :=
  if b.hval then
    if !b.hi then
      if b.high = mn then none else some { b with vh := b.high - 1, hi := true, th := .vh }
    else some b
  else some { b with vh := mx, hi := true, th := .vh, hval := true }

/-- Make the range closed.  No result means that it is empty. -/
def normalize (b : Bounds) (mn mx : ℤ) : Option Bounds :=
  let b := (b.normLow mn).normHigh mx
  if !b.anti then (b.closeLow mn mx).bind fun b => b.closeHigh mn mx else some b

end Bounds

/-- The ways a selection on an unsorted column can go: nothing, everything, or a scan (or a hash
or imprints lookup) with normalised bounds. -/
inductive SelectPlan
  | nothing
  | everything
  | lookup (b : Bounds)
  deriving DecidableEq, Repr

/-- What `BATsubselect` decides before it looks at the values, where `nil` is the nil of the type
and `mn` and `mx` are `MINVALUE` and `MAXVALUE`. -/
def selectPlanOf (nil mn mx : ℤ) (nonil : Bool) (tl : ℤ) (th : Option ℤ) (li hi anti : Bool) :
    SelectPlan :=
  match (Bounds.init nil tl th li hi anti).antiSelect nil with
  | none => .nothing
  | some b =>
    if b.isEmpty then .nothing
    else if b.equi && b.lnil && nonil then .nothing
    else if !b.equi && !b.lval && !b.hval && b.lnil && nonil then .everything
    else
      match b.normalize mn mx with
      | none => .nothing
      | some b => .lookup b

/-- The plan for an integer type, whose least value that is not nil is the one above nil. -/
def selectPlan (t : IntType) : Bool → ℤ → Option ℤ → Bool → Bool → Bool → SelectPlan :=
  selectPlanOf t.min (t.min + 1) t.max

/-- The test that `scanfunc` chooses, with `vl` and `vh` the values of the two bounds. -/
def scanTest (t : IntType) (nonil equi anti : Bool) (vl vh v : ℤ) : Bool :=
  if equi then v = vl
  else if anti then
    if nonil then v ≤ vl || vh ≤ v
    else (v ≤ vl || vh ≤ v) && v ≠ t.min
  else if nonil && vl = t.min + 1 then v ≤ vh
  else if vh = t.max then vl ≤ v
  else vl ≤ v && v ≤ vh

/-- `scanloop`: visit `n` rows from `p` on, where `pos` gives the physical position of a row, and
collect the oids of those that pass the test. -/
def scanloop {α : Type*} (src : ℕ → α) (pos : ℕ → ℕ) (oidAt : ℕ → ℕ) (test : α → Bool) :
    ℕ → ℕ → List ℕ
  | 0, _ => []
  | n + 1, p =>
    if test (src (pos p)) then oidAt (pos p) :: scanloop src pos oidAt test n (p + 1)
    else scanloop src pos oidAt test n (p + 1)

section Scan

variable {t : IntType}

/-- Scan the column, or the part of the candidate list that lies in the column.  `off` is
`hseqbase - BUNfirst(b)`. -/
def BAT_scanselect (b : Column α) (s : Option Candidates) (test : α → Bool) : List ℕ :=
  let addOff := fun o => sub64 (o + b.hseqbase) b.first
  let subOff := fun o => sub64 (o + b.first) b.hseqbase
  match s with
  | some s =>
    match s.tseq with
    | none =>
      let q := SORTfndfirst s.tail 0 s.count s.tkey (b.hseqbase + b.count)
      let p := SORTfndfirst s.tail 0 s.count s.tkey b.hseqbase
      scanloop b.val (fun p => subOff (s.tail p)) addOff test (q - p) p
    | some seq =>
      let p := subOff (max seq b.hseqbase)
      let q := subOff (min (seq + s.count) (b.hseqbase + b.count))
      scanloop b.val id addOff test (q - p) p
  | none => scanloop b.val id addOff test b.count b.first

/-- A result that is empty without looking at the values. -/
def triviallyEmpty (b : Column α) (s : Option Candidates) : Bool :=
  b.count == 0 || s.any fun s => s.count == 0 ||
    s.tseq.any fun seq => b.hseqbase + b.count ≤ seq || seq + s.count ≤ b.hseqbase

/-- All rows, or the candidate list itself. -/
def everything (b : Column α) : Option Candidates → List ℕ
  | some s => (List.range s.count).map s.tail
  | none => (List.range b.count).map fun i => b.hseqbase + i

/-- What the scan is called with: the bounds, and the assertion on them. -/
structure ScanCall where
  bounds : Bounds
  /-- `assert(!lval || !hval || cmp(tl, th) <= 0)` -/
  assertion : Bool
  deriving DecidableEq, Repr

/-- The outcome of a selection: the oids, and the call of the scan if there was one. -/
structure Selection where
  oids : List ℕ
  scan : Option ScanCall
  deriving DecidableEq, Repr

/-- `BATsubselect` on a column that is neither sorted nor dense, where no hash index and no
imprints are used. -/
def BATsubselect (b : Column (IntVal t)) (s : Option Candidates) (tl : IntVal t)
    (th : Option (IntVal t)) (li hi anti : Bool) : Except String Selection :=
  if !b.hdense then
    .error "BATsubselect: invalid argument: b must have a dense head.\n"
  else if s.any fun s => !s.tsorted then
    .error "BATsubselect: invalid argument: s must be sorted.\n"
  else if triviallyEmpty b s then .ok ⟨[], none⟩
  else
    match selectPlan t b.tnonil tl.1 (th.map Subtype.val) li hi anti with
    | .nothing => .ok ⟨[], none⟩
    | .everything => .ok ⟨everything b s, none⟩
    | .lookup bd =>
      .ok ⟨BAT_scanselect b s fun v => scanTest t b.tnonil bd.equi bd.anti bd.low bd.high v.1,
        some ⟨bd, !bd.lval || !bd.hval || bd.low ≤ bd.high⟩⟩

end Scan

/-! ## What the scan returns -/

theorem scanloop_eq {α : Type*} (src : ℕ → α) (pos oidAt : ℕ → ℕ) (test : α → Bool) (n p : ℕ) :
    scanloop src pos oidAt test n p =
      ((range' p n).filter fun i => test (src (pos i))).map fun i => oidAt (pos i) := by
  induction n generalizing p with
  | zero => rfl
  | succ n ih =>
    rw [scanloop, range'_succ, filter_cons, ih]
    split_ifs <;> rfl

section

variable (b : Column α)

/-- The candidates that lie in the column, in their order. -/
def candidateOids (s : Option Candidates) : List ℕ := (everything b s).filter fun o => b.Contains o

variable {b} {s : Option Candidates} (test : α → Bool) {c : Candidates} {seq o : ℕ}

/-- The candidates in the column are the rows an operator is asked about. -/
theorem mem_candidateOids : o ∈ candidateOids b s ↔ IsCandidate b s o := by
  rw [candidateOids, mem_filter, decide_eq_true_iff, IsCandidate, and_comm, and_congr_right_iff]
  intro ho
  rcases s with _ | c
  · simp only [everything, List.mem_map, List.mem_range, reduceCtorEq, false_implies, implies_true,
      iff_true]
    exact ⟨o - b.hseqbase, by have := ho.2; have := ho.1; omega, by have := ho.1; omega⟩
  · simp [everything, Candidates.Mem]

theorem pairwise_candidateOids (hs : ∀ c, s = some c → c.tsorted = true) :
    (candidateOids b s).Pairwise (· ≤ ·) := by
  refine List.Pairwise.filter _ ?_
  rcases s with _ | c
  · rw [everything, pairwise_map]
    exact pairwise_lt_range.imp fun h => by omega
  · rw [everything, pairwise_map]
    refine pairwise_lt_range.imp_of_mem fun {i j} _ hj hij => ?_
    exact c.sorted_true (hs c rfl) i j hij.le (mem_range.mp hj)

/-- A scan over positions that stand for the oids `f i` of the column. -/
theorem scanloop_eq_filter {pos oidAt f : ℕ → ℕ} {n p : ℕ}
    (hpos : ∀ i, p ≤ i → i < p + n → b.Contains (f i) ∧
      pos i = b.first + (f i - b.hseqbase) ∧ oidAt (pos i) = f i) :
    scanloop b.val pos oidAt test n p = (slice f p (p + n)).filter fun o => test (b.atOid o) := by
  rw [scanloop_eq, slice, Nat.add_sub_cancel_left, List.filter_map]
  have hfilter : (range' p n).filter (fun i => test (b.val (pos i))) =
      (range' p n).filter ((fun o => test (b.atOid o)) ∘ f) := by
    refine filter_congr fun i hi => ?_
    rw [mem_range'_1] at hi
    rw [(hpos i hi.1 hi.2).2.1]
    rfl
  rw [hfilter]
  refine map_congr_left fun i hi => ?_
  have hi' := mem_range'_1.mp (mem_of_mem_filter hi)
  exact (hpos i hi'.1 hi'.2).2.2

theorem candidateOids_none : candidateOids b none =
      slice (fun i => b.hseqbase + (i - b.first)) b.first (b.first + b.count) := by
  have hself : candidateOids b none = everything b none := by
    refine filter_eq_self.mpr fun o ho => ?_
    obtain ⟨i, hi, rfl⟩ := mem_map.mp ho
    rw [mem_range] at hi
    exact decide_eq_true ⟨by omega, by omega⟩
  rw [hself, everything, slice, range'_eq_map_range]
  simp

theorem BAT_scanselect_none :
    BAT_scanselect b none test = (candidateOids b none).filter fun o => test (b.atOid o) := by
  rw [candidateOids_none]
  refine scanloop_eq_filter test fun i h1 h2 => ?_
  have hc : b.Contains (b.hseqbase + (i - b.first)) := ⟨by omega, by omega⟩
  have hi : i = b.first + (b.hseqbase + (i - b.first) - b.hseqbase) := by omega
  refine ⟨hc, hi, ?_⟩
  have h := (position_of_oid hc).2
  rwa [← hi] at h

/-- A dense candidate list that overlaps with the column, cut at its ends. -/
theorem candidateOids_dense (hseq : c.tseq = some seq) (hne : triviallyEmpty b (some c) = false) :
    max seq b.hseqbase < min (seq + c.count) (b.hseqbase + b.count) ∧ candidateOids b (some c) =
        slice id (max seq b.hseqbase) (min (seq + c.count) (b.hseqbase + b.count)) := by
  simp only [triviallyEmpty, any_some, hseq, Bool.or_eq_false_iff, beq_eq_false_iff_ne,
    decide_eq_false_iff_not] at hne
  refine ⟨by omega, ?_⟩
  have hall : everything b (some c) = slice id seq (seq + c.count) := by
    rw [slice, Nat.add_sub_cancel_left, List.range'_eq_map_range, List.map_map]
    refine map_congr_left fun i hi' => ?_
    exact c.dense_true seq hseq i (mem_range.mp hi')
  rw [candidateOids, hall]
  refine filter_slice _ (by omega) (by omega) (by omega) fun i h5 h6 => ?_
  rw [decide_eq_true_iff]
  show b.hseqbase ≤ i ∧ i < b.hseqbase + b.count ↔ _
  omega

theorem BAT_scanselect_dense (hseq : c.tseq = some seq) (hne : triviallyEmpty b (some c) = false) :
    BAT_scanselect b (some c) test =
      (candidateOids b (some c)).filter fun o => test (b.atOid o) := by
  obtain ⟨hlt, hcut⟩ := candidateOids_dense hseq hne
  set lo := max seq b.hseqbase with hlo
  set hi := min (seq + c.count) (b.hseqbase + b.count) with hhi
  have hstart : sub64 (lo + b.first) b.hseqbase = b.first + (lo - b.hseqbase) :=
    (position_of_oid ⟨by omega, by omega⟩).1
  have hstop : sub64 (hi + b.first) b.hseqbase = b.first + (hi - b.hseqbase) := by
    have h5 := b.fits
    have h6 := b.small
    have h7 := b.oids_small
    rw [sub64_of_le (by omega) (by omega)]
    omega
  -- the positions are the oids, shifted
  have hshift : slice id lo hi = slice (fun i => b.hseqbase + (i - b.first))
      (b.first + (lo - b.hseqbase)) (b.first + (lo - b.hseqbase) + (hi - lo)) := by
    rw [slice, slice, Nat.add_sub_cancel_left, List.range'_eq_map_range,
      List.range'_eq_map_range, List.map_map, List.map_map]
    refine map_congr_left fun i _ => ?_
    simp only [Function.comp_apply, id_eq]
    omega
  rw [hcut, hshift, BAT_scanselect, hseq]
  dsimp only
  rw [hstart, hstop, show b.first + (hi - b.hseqbase) -
    (b.first + (lo - b.hseqbase)) = hi - lo by omega]
  refine scanloop_eq_filter test fun i h5 h6 => ?_
  have hc : b.Contains (b.hseqbase + (i - b.first)) := ⟨by omega, by omega⟩
  have hi' : i = b.first + (b.hseqbase + (i - b.first) - b.hseqbase) := by omega
  refine ⟨hc, hi', ?_⟩
  have h := (position_of_oid hc).2
  rwa [← hi'] at h

theorem candidateOids_array (hs : c.tsorted = true) :
    let p := SORTfndfirst c.tail 0 c.count c.tkey b.hseqbase
    let q := SORTfndfirst c.tail 0 c.count c.tkey (b.hseqbase + b.count)
    (∀ i, p ≤ i → i < q → b.Contains (c.tail i)) ∧
      candidateOids b (some c) = slice c.tail p (p + (q - p)) := by
  intro p q
  have hasc : Ascending c.tail 0 c.count := fun i j _ hij hj => c.sorted_true hs i j hij hj
  have hsearch := fun v => boundary_SORTfndfirst hasc (Nat.zero_le _)
    (fun hk i j _ hij hj => c.key_true hk i j hij hj) v
  have hdown : ∀ v, Downward (fun p => c.tail p < v) 0 c.count :=
    fun v i j _ hij hj hlt => lt_of_le_of_lt (c.sorted_true hs i j hij hj) hlt
  have hbp : Boundary (fun i => c.tail i < b.hseqbase) 0 c.count p := hsearch b.hseqbase
  have hbq : Boundary (fun i => c.tail i < b.hseqbase + b.count) 0 c.count q :=
    hsearch (b.hseqbase + b.count)
  have hpq : p ≤ q := by
    by_contra hlt
    have hlt' : q < c.count := lt_of_lt_of_le (not_le.mp hlt) hbp.le_hi
    exact hbq.stop hlt' (lt_of_lt_of_le (hbp.below q (Nat.zero_le _) (not_le.mp hlt))
      (Nat.le_add_right _ _))
  have hin : ∀ i, i < c.count → (b.Contains (c.tail i) ↔ p ≤ i ∧ i < q) := by
    intro i hi
    have h1 := hbp.iff_lt (hdown _) (Nat.zero_le i) hi
    have h2 := hbq.iff_lt (hdown _) (Nat.zero_le i) hi
    rw [Column.Contains, h2, ← not_lt, h1, not_lt]
  refine ⟨fun i h1 h2 => (hin i (by have := hbq.le_hi; omega)).mpr ⟨h1, h2⟩, ?_⟩
  have hall : everything b (some c) = slice c.tail 0 c.count := by
    rw [everything, slice, range_eq_range', Nat.sub_zero]
  rw [candidateOids, hall, Nat.add_sub_cancel' hpq]
  refine filter_slice _ (Nat.zero_le _) hpq hbq.le_hi fun i _ hi => ?_
  rw [decide_eq_true_iff, hin i hi]

theorem BAT_scanselect_array (hseq : c.tseq = none) (hs : c.tsorted = true) :
    BAT_scanselect b (some c) test =
      (candidateOids b (some c)).filter fun o => test (b.atOid o) := by
  obtain ⟨hin, hcut⟩ := candidateOids_array (b := b) hs
  rw [hcut, BAT_scanselect, hseq]
  refine scanloop_eq_filter test fun i h1 h2 => ?_
  have hc := hin i h1 (by omega)
  obtain ⟨hpos, hoid⟩ := position_of_oid hc
  exact ⟨hc, hpos, by dsimp only; rw [hpos]; exact hoid⟩

/-- **The scan returns the candidates that lie in the column and pass the test, in their
order.** -/
theorem BAT_scanselect_eq (hs : ∀ c, s = some c → c.tsorted = true)
    (hne : triviallyEmpty b s = false) :
    BAT_scanselect b s test = (candidateOids b s).filter fun o => test (b.atOid o) := by
  rcases s with _ | c
  · exact BAT_scanselect_none test
  · rcases hseq : c.tseq with _ | seq
    · exact BAT_scanselect_array test hseq (hs c rfl)
    · exact BAT_scanselect_dense test hseq hne

/-- If the result is empty without a scan, there are no candidates in the column. -/
theorem candidateOids_of_triviallyEmpty (hne : triviallyEmpty b s = true) :
    candidateOids b s = [] := by
  refine filter_eq_nil_iff.mpr fun o ho => ?_
  rw [decide_eq_true_iff]
  rintro ⟨h1, h2⟩
  rcases s with _ | c
  · simp only [triviallyEmpty, any_none, Bool.or_false, beq_iff_eq] at hne
    omega
  obtain ⟨i, hi, rfl⟩ := mem_map.mp ho
  rw [mem_range] at hi
  rcases hseq : c.tseq with _ | seq
  · simp only [triviallyEmpty, any_some, hseq, any_none, Bool.or_false,
      Bool.or_eq_true, beq_iff_eq] at hne
    omega
  · simp only [triviallyEmpty, any_some, hseq, Bool.or_eq_true, beq_iff_eq,
      decide_eq_true_eq] at hne
    have := c.dense_true seq hseq i hi
    omega

end

end MonetInR.Gdk
