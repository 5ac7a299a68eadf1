import MonetInR.Gdk.Join.Kernel
import MonetInR.Gdk.SortFnd
import Mathlib.Data.List.Chain
import MonetInR.Gdk.Atoms.StrHeap

/-!
# Fetching the values of a column by oid

`BATproject` takes a column of oids and returns the values that another column has at them.  A
range of oids becomes a slice of that column and a column of nils one of nils; any other column of
oids is gone through row by row, and the flags of the result are those that comparing every value
with the one before allows.

The value before is read through a pointer into the result.  Values of variable size lie in a heap
that grows as values are inserted, and growing may move it: the pointer then shows memory that has
been freed, and the comparison can have any outcome.  So the flags are true for all contents of that
memory if and only if the comparisons that were really made determine them.

## Main definitions

* `Project.BATslice`, `Project.BATconstant`, `Project.loop`: the three ways
* `BATproject`: the operation
* `IsProjection`: what the result should be
* `ProjectExact`: no comparison that went wrong can leave a wrong flag
* `Project.Seen`: all comparisons so far had a certain outcome
* `Project.Inv`: what holds after some rows

## Main results

* `isProjection_iff`: when the result is right, whatever the freed memory holds
-/

namespace MonetInR.Gdk

open List Option Bool

variable {α : Type*} [Atom α]

/-! ## The columns -/

/-- The tail of a column of oids: `BATtdense` holds, or it is void with a sequence base of nil, or
it is an array. -/
inductive OidTail
  | dense (tseqbase count : ℕ)
  | voidNil (count : ℕ)
  | oids (vals : List ℕ)
  deriving DecidableEq, Repr

def OidTail.vals : OidTail → List ℕ
  | dense tseqbase count => range' tseqbase count
  | voidNil count => replicate count oidNil
  | oids vals => vals

/-- A column of oids with a dense head. -/
structure OidColumn where
  hseqbase : ℕ
  tail : OidTail
  dense_lt : ∀ s n, tail = .dense s n → s + n ≤ oidNil

/-- The column that values are taken from.  `varsized` tells whether they are kept in a heap. -/
structure ProjectColumn (α : Type*) [Atom α] extends SearchColumn α where
  varsized : Bool
  void_true : ttype = typeVoid → dense = none → ∀ i < count, val (first + i) = ⊥

/-- The values and flags of a result. -/
structure ProjectResult (α : Type*) where
  hseqbase : ℕ
  vals : List α
  props : Props
  deriving DecidableEq, Repr

section Model

variable (r : ProjectColumn α)

/-- `BATtordered`. -/
def ProjectColumn.tordered : Bool := r.ttype == typeVoid || r.tsorted

/-- `BATtrevordered`. -/
def ProjectColumn.trevordered : Bool := (r.ttype == typeVoid && r.dense.isNone) || r.trevsorted

/-- `BATtkey`. -/
def ProjectColumn.keyed : Bool := r.tkey || r.dense.isSome

namespace Project

/-- The rows `l` up to `h`. -/
def BATslice (l h : ℕ) : List α × Props :=
  let h := max (min h r.count) l
  ((range' l (h - l)).map r.value,
    { tkey := r.keyed, tsorted := r.tordered, trevsorted := r.trevordered, nil := false,
      nonil := r.tnonil || h - l == 0 })

/-- The value nil `n` times. -/
def BATconstant (α : Type*) [Atom α] (n : ℕ) : List α × Props := (replicate n ⊥,
    { tkey := decide (n ≤ 1), tsorted := true, trevsorted := true, nil := decide (1 ≤ n),
      nonil := decide (¬ 1 ≤ n) })

/-- The pointer `prev`: `NULL`, at a value, or at memory that has been freed. -/
inductive Prev (α : Type*)
  | null
  | value (v : α)
  | freed
  deriving DecidableEq, Repr

/-- The pointer after the heap of the result has been moved. -/
def Prev.moved : Prev α → Prev α
  | null => null
  | _ => freed

/-- `cmp(prev, v)`, where `garbage` is the outcome for freed memory. -/
def Prev.cmp (v : α) (garbage : ℤ) : Prev α → ℤ
  | value w => atomCmp w v
  | _ => garbage

/-- The result so far. -/
structure State (α : Type*) where
  vals : List α
  props : Props
  prev : Prev α
  deriving DecidableEq, Repr

/-- The optimistic start. -/
def start (α : Type*) : State α := ⟨[], ⟨true, true, true, false, true⟩, .null⟩

/-- `tfastins_nocheck`: insert a value, which may move the heap. -/
def State.insert (s : State α) (v : α) (moves : Bool) : State α :=
  { s with vals := s.vals ++ [v], prev := if moves then s.prev.moved else s.prev }

/-- What a comparison with the value before does to the flags. -/
def compared (p : Props) (c : ℤ) : Props :=
  if c < 0 then { p with trevsorted := false, tkey := p.tsorted && p.tkey }
  else if 0 < c then { p with tsorted := false, tkey := p.trevsorted && p.tkey }
  else { p with tkey := false }

/-- What a value does to the flags about nil. -/
def checkNil (p : Props) (v : α) : Props :=
  if p.nonil = true ∧ atomCmp v ⊥ = 0 then { p with nonil := false, nil := true } else p

variable (moves : ℕ → Bool) (garbage : ℕ → ℤ)

/-- One row of the loop: row `n` of the result, for oid `o`. -/
def step (n o : ℕ) (s : State α) : Option (State α) :=
  if o = oidNil then
    some { s.insert ⊥ (moves n) with props := ⟨false, false, false, true, false⟩ }
  else if o < r.hseqbase ∨ r.hseqbase + r.count ≤ o then none
  else
    let v := r.atOid o
    let s := s.insert v (moves n)
    let p := checkNil s.props v
    let p :=
      if s.prev ≠ .null ∧ (p.trevsorted || p.tsorted || p.tkey) = true then
        compared p (s.prev.cmp v (garbage n))
      else p
    some { s with props := p, prev := .value v }

/-- The loop over the oids, from row `n` of the result on. -/
def loop : ℕ → List ℕ → State α → Option (State α)
  | _, [], s => some s
  | n, o :: os, s => (step r moves garbage n o s).bind (loop (n + 1) os)

end Project

/-- For each oid of `l` the value of `r` at it.  `moved n` tells whether inserting row `n` moves the
heap that values of variable size are in, and `garbage n` is the outcome of a comparison with
memory that has been freed. -/
def BATproject (l : OidColumn) (moved : ℕ → Bool) (garbage : ℕ → ℤ) : Option (ProjectResult α) :=
  let constant := Project.BATconstant α l.tail.vals.length
  match l.tail with
  | .dense tseqbase count =>
    if 0 < count then
      let lo := tseqbase
      let hi := tseqbase + count
      if lo < r.hseqbase ∨ r.hseqbase + r.count < hi then none
      else
        let (vals, props) := Project.BATslice r (lo - r.hseqbase) (hi - r.hseqbase)
        some ⟨l.hseqbase, vals, props⟩
    else some ⟨l.hseqbase, constant.1, constant.2⟩
  | .voidNil _ => some ⟨l.hseqbase, constant.1, constant.2⟩
  | .oids os =>
    if os.length = 0 then some ⟨l.hseqbase, constant.1, constant.2⟩
    else
      (Project.loop r (fun n => r.varsized && moved n) garbage 0 os (Project.start α)).map
        fun s => ⟨l.hseqbase, s.vals, s.props⟩

end Model

/-! ## What the result should be

The result may not depend on what the freed memory holds.  The flags are therefore compared with the
outcomes of the comparisons that were made with values. -/

section Spec

/-- The flags are true of a list of values. -/
structure Props.TrueOfVals (p : Props) (vs : List α) : Prop where
  tsorted : p.tsorted = true → vs.Pairwise (· ≤ ·)
  trevsorted : p.trevsorted = true → vs.Pairwise (· ≥ ·)
  tkey : p.tkey = true → vs.Nodup
  nil : p.nil = true → ⊥ ∈ vs
  nonil : p.nonil = true → ⊥ ∉ vs

/-- The value at an oid, nil for nil. -/
def fetch (r : Column α) (o : ℕ) : α := if o = oidNil then ⊥ else r.atOid o

/-- The oid is not nil and not in the column. -/
def Outside (r : Column α) (o : ℕ) : Prop := o ≠ oidNil ∧ ¬ r.Contains o

/-- The result for `l` and `r`: none if an oid is outside of `r`, else the values with true
flags. -/
structure IsProjection (l : OidColumn) (r : Column α) (res : Option (ProjectResult α)) : Prop where
  fails_iff : res = none ↔ ∃ o ∈ l.tail.vals, Outside r o
  head : ∀ p, res = some p → p.hseqbase = l.hseqbase
  vals : ∀ p, res = some p → p.vals = l.tail.vals.map (fetch r)
  props : ∀ p, res = some p → p.props.TrueOfVals p.vals

/-- Neighbours at positions that are not moved are related. -/
def KeptBy (moves : ℕ → Bool) (R : α → α → Prop) (vs : List α) : Prop :=
  ∀ n w v, vs[n]? = some w → vs[n + 1]? = some v → moves (n + 1) = false → R w v

/-- The neighbours that are really compared determine the flags: what they leave open is true. -/
structure FlagsKept (moves : ℕ → Bool) (vs : List α) : Prop where
  tsorted : KeptBy moves (· ≤ ·) vs → vs.Pairwise (· ≤ ·)
  trevsorted : KeptBy moves (· ≥ ·) vs → vs.Pairwise (· ≥ ·)
  tkey : KeptBy moves (· < ·) vs ∨ KeptBy moves (· > ·) vs → vs.Nodup

/-- A comparison with freed memory cannot leave a wrong flag.  It is only made if the oids are an
array of oids of `r`. -/
def ProjectExact (l : OidColumn) (r : ProjectColumn α) (moved : ℕ → Bool) : Prop :=
  ∀ os, l.tail = .oids os → (∀ o ∈ os, o ≠ oidNil ∧ r.Contains o) →
    FlagsKept (fun n => r.varsized && moved n) (os.map r.atOid)

end Spec

/-! ## The slice and the constant

Here the flags are taken over from the column, and are true because those of the column are. -/

section Whole

variable {r : ProjectColumn α}

theorem ProjectColumn.value_lt_of_dense (h : r.dense.isSome = true) {i j : ℕ} (hij : i < j)
    (hj : j < r.count) : r.value i < r.value j := by
  obtain ⟨⟨seq, oids⟩, hdense⟩ := isSome_iff_exists.mp h
  obtain ⟨-, hsmall, hbits⟩ := r.dense_true _ hdense
  have hi := hbits i (hij.trans hj)
  have hj := hbits j hj
  dsimp only at hsmall hi hj
  -- no oid below the end of the range is nil
  have hne : ∀ v : α, (oids v).bits < oidNil → oids v ≠ ⊥ := by
    intro v hv he
    rw [he] at hv
    exact hv.false
  refine oids.lt_iff_lt.mp ((Oid.bits_lt_bits (hne _ ?_) (hne _ ?_)).mp ?_)
  · change (oids (r.val (r.first + i))).bits < oidNil
    omega
  · change (oids (r.val (r.first + j))).bits < oidNil
    omega
  · change (oids (r.val (r.first + i))).bits < (oids (r.val (r.first + j))).bits
    omega

theorem ProjectColumn.value_le_of_tordered (h : r.tordered = true) {i j : ℕ} (hij : i < j)
    (hj : j < r.count) : r.value i ≤ r.value j := by
  rcases or_eq_true_iff.mp h with hvoid | hs
  · -- a void tail ascends, or is nil throughout
    cases hd : r.dense with
    | none =>
      have hnil := r.void_true (beq_iff_eq.mp hvoid) hd
      exact (hnil i (hij.trans hj)).trans_le bot_le
    | some d => exact (r.value_lt_of_dense (by rw [hd]; rfl) hij hj).le
  · exact r.sorted_true hs i j hij.le hj

theorem ProjectColumn.value_ge_of_trevordered (h : r.trevordered = true) {i j : ℕ} (hij : i < j)
    (hj : j < r.count) : r.value j ≤ r.value i := by
  rcases or_eq_true_iff.mp h with hvoid | hs
  · obtain ⟨hvoid, hd⟩ := and_eq_true_iff.mp hvoid
    have hnil := r.void_true (beq_iff_eq.mp hvoid) (isNone_iff_eq_none.mp hd)
    exact (hnil j hj).trans_le bot_le
  · exact r.revsorted_true hs i j hij.le hj

theorem ProjectColumn.value_ne_of_keyed (h : r.keyed = true) {i j : ℕ} (hij : i < j)
    (hj : j < r.count) : r.value i ≠ r.value j := by
  rcases or_eq_true_iff.mp h with hk | hd
  · exact r.key_true hk i j hij hj
  · exact (r.value_lt_of_dense hd hij hj).ne

namespace Project

/-- A relation between the rows of the column holds between the rows of a slice. -/
theorem pairwise_slice {R : α → α → Prop} {l n : ℕ} (hn : l + n ≤ r.count)
    (hR : ∀ i j, i < j → j < r.count → R (r.value i) (r.value j)) :
    ((range' l n).map r.value).Pairwise R := by
  rw [pairwise_map]
  refine (pairwise_lt_range' (s := l) (n := n)).imp_of_mem ?_
  intro i j _ hj hij
  exact hR i j hij ((mem_range'_1.mp hj).2.trans_le hn)

/-- **A slice has true flags.** -/
theorem trueOfVals_BATslice {l h : ℕ} (hlh : l ≤ h) (hh : h ≤ r.count) :
    (BATslice r l h).2.TrueOfVals (BATslice r l h).1 := by
  have hh' : max (min h r.count) l = h := by rw [min_eq_left hh, max_eq_left hlh]
  unfold BATslice
  rw [hh']
  have hn : l + (h - l) ≤ r.count := by omega
  refine ⟨fun hs => ?_, fun hs => ?_, fun hk => ?_, nofun, fun hnn hmem => ?_⟩
  · exact pairwise_slice hn fun i j hij hj => r.value_le_of_tordered hs hij hj
  · exact pairwise_slice hn fun i j hij hj => r.value_ge_of_trevordered hs hij hj
  · exact pairwise_slice hn fun i j hij hj => r.value_ne_of_keyed hk hij hj
  · obtain ⟨i, hi, hnil⟩ := mem_map.mp hmem
    have hi := (mem_range'_1.mp hi).2
    rcases or_eq_true_iff.mp hnn with hnn | hempty
    · exact r.nonil_true hnn i (hi.trans_le hn) hnil
    · -- an empty slice has no member
      have hempty := beq_iff_eq.mp hempty
      simp [hempty] at hmem

theorem trueOfVals_BATconstant (n : ℕ) : (BATconstant α n).2.TrueOfVals (BATconstant α n).1 := by
  refine ⟨fun _ => ?_, fun _ => ?_, fun hk => ?_, fun hn => ?_, fun hn hmem => ?_⟩
  · exact pairwise_replicate_of_refl
  · exact pairwise_replicate_of_refl
  · exact nodup_replicate.mpr (of_decide_eq_true hk)
  · exact mem_replicate.mpr ⟨by have := of_decide_eq_true hn; omega, rfl⟩
  · exact of_decide_eq_true hn (Nat.one_le_iff_ne_zero.mpr (mem_replicate.mp hmem).1)

end Project

end Whole

/-! ## The loop

The flags record the outcomes of all comparisons of neighbours, the wrong ones included, until all
are cleared or a nil is met.  The invariant says so without asking whether the outcomes are right.
-/

namespace Project

section Loop

variable {r : ProjectColumn α} {moves : ℕ → Bool} {garbage : ℕ → ℤ}

/-- The outcome of comparing `v` of row `n` with the value before it. -/
def cmpAt (moves : ℕ → Bool) (garbage : ℕ → ℤ) (n : ℕ) (w v : α) : ℤ :=
  if moves n then garbage n else atomCmp w v

/-- All comparisons of neighbours had an outcome in `P`. -/
def Seen (moves : ℕ → Bool) (garbage : ℕ → ℤ) (P : ℤ → Prop) (vs : List α) : Prop :=
  ∀ n w v, vs[n]? = some w → vs[n + 1]? = some v → P (cmpAt moves garbage (n + 1) w v)

theorem seen_nil (P : ℤ → Prop) : Seen moves garbage P ([] : List α) :=
  fun n w v hw => absurd hw (by simp)

variable {P : ℤ → Prop} {vs : List α} {R : α → α → Prop} {n : ℕ}

theorem seen_append_singleton {x : α} : Seen moves garbage P (vs ++ [x]) ↔ Seen moves garbage P vs ∧
      ∀ w, vs.getLast? = some w → P (cmpAt moves garbage vs.length w x) := by
  constructor
  · intro h
    refine ⟨fun n w v hw hv => ?_, fun w hw => ?_⟩
    · have hlt : n + 1 < vs.length := (List.getElem?_eq_some_iff.mp hv).1
      refine h n w v ?_ ?_
      · rw [getElem?_append_left (Nat.lt_of_succ_lt hlt), hw]
      · rw [getElem?_append_left hlt, hv]
    · rw [getLast?_eq_getElem?] at hw
      have hlt := (List.getElem?_eq_some_iff.mp hw).1
      have hlen : vs.length - 1 + 1 = vs.length := by omega
      have hP := h (vs.length - 1) w x (by rw [getElem?_append_left hlt, hw])
        (by rw [hlen, getElem?_concat_length])
      rwa [hlen] at hP
  · rintro ⟨hold, hnew⟩ n w v hw hv
    have hlt : n + 1 < (vs ++ [x]).length := (List.getElem?_eq_some_iff.mp hv).1
    rw [length_append, length_singleton] at hlt
    -- the second of the two neighbours is an old value or the new one
    rcases Nat.lt_or_ge (n + 1) vs.length with h | h
    · rw [getElem?_append_left (Nat.lt_of_succ_lt h)] at hw
      rw [getElem?_append_left h] at hv
      exact hold n w v hw hv
    obtain hlen : vs.length = n + 1 := by omega
    rw [← hlen, getElem?_concat_length, some_inj] at hv
    rw [getElem?_append_left (by omega)] at hw
    subst hv
    rw [← hlen]
    refine hnew w ?_
    rw [getLast?_eq_getElem?, hlen]
    exact hw

/-- Two outcomes that exclude each other leave no room for a comparison. -/
theorem Seen.absurd {Q S : ℤ → Prop} (hP : Seen moves garbage P vs)
    (hQ : Seen moves garbage Q vs) (h : ∀ c, P c → ¬ Q c) : Seen moves garbage S vs :=
  fun n w v hw hv => (h _ (hP n w v hw hv) (hQ n w v hw hv)).elim

/-- The pointer to the last value. -/
def lastValue (vs : List α) : Prev α :=
  match vs.getLast? with
  | none => .null
  | some w => .value w

/-- The flags about order say what the comparisons of neighbours have shown. -/
structure Shows (moves : ℕ → Bool) (garbage : ℕ → ℤ) (vs : List α) (p : Props) : Prop where
  tsorted : p.tsorted = true ↔ Seen moves garbage (· ≤ 0) vs
  trevsorted : p.trevsorted = true ↔ Seen moves garbage (0 ≤ ·) vs
  tkey : p.tkey = true ↔ Seen moves garbage (· < 0) vs ∨ Seen moves garbage (0 < ·) vs

/-- What holds when the rows of the oids `os` have been inserted.  Until a nil is met, the flags say
what the comparisons have shown. -/
structure Inv (r : ProjectColumn α) (moves : ℕ → Bool) (garbage : ℕ → ℤ) (os : List ℕ)
    (s : State α) : Prop where
  vals : s.vals = os.map (fetch r.toColumn)
  nil_iff : s.props.nil = true ↔ ⊥ ∈ s.vals
  nonil_iff : s.props.nonil = true ↔ ⊥ ∉ s.vals
  cleared : oidNil ∈ os →
    s.props.tsorted = false ∧ s.props.trevsorted = false ∧ s.props.tkey = false
  prev : oidNil ∉ os → s.prev = lastValue s.vals
  order : oidNil ∉ os → Shows moves garbage s.vals s.props

theorem inv_start : Inv r moves garbage [] (start α) where
  vals := rfl
  nil_iff := by simp [start]
  nonil_iff := by simp [start]
  cleared := nofun
  prev := fun _ => rfl
  order := fun _ => ⟨iff_of_true rfl (seen_nil _), iff_of_true rfl (seen_nil _),
    iff_of_true rfl (.inl (seen_nil _))⟩

section Order

variable {vs : List α} {p : Props} {v w : α}

theorem Shows.singleton (h : Shows moves garbage ([] : List α) p) :
    Shows moves garbage [v] p := by
  have hseen : ∀ P, Seen moves garbage P [v] := fun P =>
    (@seen_append_singleton _ _ _ _ P [] v).mpr ⟨seen_nil P, fun w hw => absurd hw (by simp)⟩
  refine ⟨?_, ?_, ?_⟩
  · exact iff_of_true (h.tsorted.mpr (seen_nil _)) (hseen _)
  · exact iff_of_true (h.trevsorted.mpr (seen_nil _)) (hseen _)
  · exact iff_of_true (h.tkey.mpr (.inl (seen_nil _))) (.inl (hseen _))

/-- A comparison adds its outcome to what the flags say. -/
theorem Shows.compared (h : Shows moves garbage vs p) (hw : vs.getLast? = some w) :
    Shows moves garbage (vs ++ [v]) (compared p (cmpAt moves garbage vs.length w v)) := by
  have hseen : ∀ P, Seen moves garbage P (vs ++ [v]) ↔
      Seen moves garbage P vs ∧ P (cmpAt moves garbage vs.length w v) := by
    intro P
    rw [seen_append_singleton, hw]
    simp
  -- strictly one way and weakly the other way leaves no neighbours
  have hlt := fun (h1 : Seen moves garbage (0 < ·) vs) (h2 : Seen moves garbage (· ≤ 0) vs) =>
    Seen.absurd (S := (· < 0)) h1 h2 fun c hc => not_le.mpr hc
  have hgt := fun (h1 : Seen moves garbage (· < 0) vs) (h2 : Seen moves garbage (0 ≤ ·) vs) =>
    Seen.absurd (S := (0 < ·)) h1 h2 fun c hc => not_le.mpr hc
  have hle : Seen moves garbage (· < 0) vs → Seen moves garbage (· ≤ 0) vs :=
    fun h n w v hw hv => (h n w v hw hv).le
  have hge : Seen moves garbage (0 < ·) vs → Seen moves garbage (0 ≤ ·) vs :=
    fun h n w v hw hv => (h n w v hw hv).le
  obtain ⟨hs, hr, hk⟩ := h
  generalize cmpAt moves garbage vs.length w v = c at *
  unfold Project.compared
  rcases lt_trichotomy c 0 with hc | rfl | hc
  · rw [if_pos hc]
    refine ⟨?_, ?_, ?_⟩
    · rw [hseen, ← hs]
      exact (and_iff_left hc.le).symm
    · rw [hseen]
      exact iff_of_false false_ne_true fun h => not_le.mpr hc h.2
    rw [hseen, hseen, and_eq_true_iff, hs, hk]
    constructor
    · rintro ⟨h1, h2 | h2⟩
      · exact .inl ⟨h2, hc⟩
      · exact .inl ⟨hlt h2 h1, hc⟩
    · rintro (h | h)
      · exact ⟨hle h.1, .inl h.1⟩
      · exact absurd h.2 hc.asymm
  · refine ⟨?_, ?_, ?_⟩
    · rw [hseen, ← hs]
      exact (and_iff_left le_rfl).symm
    · rw [hseen, ← hr]
      exact (and_iff_left le_rfl).symm
    · rw [hseen, hseen]
      refine iff_of_false false_ne_true ?_
      rintro (h | h)
      · exact h.2.false
      · exact h.2.false
  · rw [if_neg hc.asymm, if_pos hc]
    refine ⟨?_, ?_, ?_⟩
    · rw [hseen]
      exact iff_of_false false_ne_true fun h => not_le.mpr hc h.2
    · rw [hseen, ← hr]
      exact (and_iff_left hc.le).symm
    rw [hseen, hseen, and_eq_true_iff, hr, hk]
    constructor
    · rintro ⟨h1, h2 | h2⟩
      · exact .inr ⟨hgt h2 h1, hc⟩
      · exact .inr ⟨h2, hc⟩
    · rintro (h | h)
      · exact absurd h.2 hc.asymm
      · exact ⟨hge h.1, .inr h.1⟩

/-- Once all three flags are gone, no comparison brings one back. -/
theorem Shows.all_false (h : Shows moves garbage vs p)
    (hp : (p.trevsorted || p.tsorted || p.tkey) = false) : Shows moves garbage (vs ++ [v]) p := by
  simp only [or_eq_false_iff] at hp
  obtain ⟨⟨hr, hs⟩, hk⟩ := hp
  have hold : ∀ P, Seen moves garbage P (vs ++ [v]) → Seen moves garbage P vs :=
    fun P h => (seen_append_singleton.mp h).1
  obtain ⟨h1, h2, h3⟩ := h
  rw [hs] at h1
  rw [hr] at h2
  rw [hk] at h3
  refine ⟨?_, ?_, ?_⟩
  · rw [hs]
    exact iff_of_false false_ne_true fun h => false_ne_true (h1.mpr (hold _ h))
  · rw [hr]
    exact iff_of_false false_ne_true fun h => false_ne_true (h2.mpr (hold _ h))
  · rw [hk]
    exact iff_of_false false_ne_true fun h =>
      false_ne_true (h3.mpr (h.imp (hold _) (hold _)))

end Order

/-! ### One row -/

section Row

variable {os : List ℕ} {s s' : State α} {o : ℕ}

theorem step_eq_none : step r moves garbage n o s = none ↔ Outside r.toColumn o := by
  unfold step Outside Column.Contains
  by_cases hnil : o = oidNil
  · rw [if_pos hnil]
    exact iff_of_false (by simp) fun h => h.1 hnil
  · rw [if_neg hnil]
    by_cases hout : o < r.hseqbase ∨ r.hseqbase + r.count ≤ o
    · rw [if_pos hout]
      exact iff_of_true rfl ⟨hnil, by omega⟩
    · rw [if_neg hout]
      exact iff_of_false (by simp) fun h => h.2 (by omega)

variable {p : Props} {vs : List α} {v : α}

theorem checkNil_iff (hn : p.nil = true ↔ ⊥ ∈ vs) (hnn : p.nonil = true ↔ ⊥ ∉ vs) :
    ((checkNil p v).nil = true ↔ ⊥ ∈ vs ++ [v]) ∧
      ((checkNil p v).nonil = true ↔ ⊥ ∉ vs ++ [v]) := by
  rw [mem_append, mem_singleton]
  unfold checkNil
  split_ifs with h
  · obtain rfl : v = ⊥ := atomCmp_eq_zero.mp h.2
    exact ⟨iff_of_true rfl (.inr rfl), iff_of_false nofun fun h => h (.inr rfl)⟩
  · -- either nil has been met before, or this value is not nil
    by_cases hmem : ⊥ ∈ vs
    · exact ⟨iff_of_true (hn.mpr hmem) (.inl hmem), hnn.trans (by simp [hmem])⟩
    · have hv : ⊥ ≠ v := fun he => h ⟨hnn.mpr hmem, atomCmp_eq_zero.mpr he.symm⟩
      rw [hn, hnn]
      simp [hv]

theorem checkNil_order (p : Props) (v : α) : (checkNil p v).tsorted = p.tsorted ∧
    (checkNil p v).trevsorted = p.trevsorted ∧ (checkNil p v).tkey = p.tkey := by
  unfold checkNil
  split_ifs <;> exact ⟨rfl, rfl, rfl⟩

theorem Shows.checkNil (h : Shows moves garbage vs p) :
    Shows moves garbage vs (checkNil p v) := by
  obtain ⟨hs, hr, hk⟩ := checkNil_order p v
  refine ⟨?_, ?_, ?_⟩
  · rw [hs]
    exact h.tsorted
  · rw [hr]
    exact h.trevsorted
  · rw [hk]
    exact h.tkey

theorem compared_facts (p : Props) (c : ℤ) :
    (compared p c).nil = p.nil ∧ (compared p c).nonil = p.nonil := by
  unfold compared
  split_ifs <;> exact ⟨rfl, rfl⟩

/-- The comparison that is made after the insertion of a value, which may have moved the heap. -/
theorem cmp_insert {w : α} (n : ℕ) (hw : vs.getLast? = some w) :
    (if moves n then (lastValue vs).moved else lastValue vs).cmp v (garbage n) =
      cmpAt moves garbage n w v := by
  unfold lastValue cmpAt
  rw [hw]
  split_ifs <;> rfl

theorem shows_insert (hshow : Shows moves garbage s.vals p) (hprev : s.prev = lastValue s.vals)
    (hlen : s.vals.length = n) :
    Shows moves garbage (s.vals ++ [v])
      (if (s.insert v (moves n)).prev ≠ .null ∧ (p.trevsorted || p.tsorted || p.tkey) = true then
        compared p ((s.insert v (moves n)).prev.cmp v (garbage n))
      else p) := by
  have hq : (s.insert v (moves n)).prev =
      if moves n then (lastValue s.vals).moved else lastValue s.vals := by
    rw [← hprev]
    rfl
  cases hw : s.vals.getLast? with
  | none =>
    -- there is no value before the first one
    have hvs : s.vals = [] := getLast?_eq_none_iff.mp hw
    have hnull : (s.insert v (moves n)).prev = .null := by
      rw [hq, hvs]
      split_ifs <;> rfl
    rw [if_neg fun h => h.1 hnull]
    rw [hvs] at hshow ⊢
    exact hshow.singleton
  | some w =>
    have hne : (s.insert v (moves n)).prev ≠ .null := by
      rw [hq]
      unfold lastValue
      rw [hw]
      split_ifs <;> nofun
    by_cases hflags : (p.trevsorted || p.tsorted || p.tkey) = true
    · rw [if_pos ⟨hne, hflags⟩, hq, cmp_insert n hw, ← hlen]
      exact hshow.compared hw
    · rw [if_neg fun h => hflags h.2]
      exact hshow.all_false (eq_false_of_not_eq_true hflags)

theorem inv_step (hinv : Inv r moves garbage os s)
    (hstep : step r moves garbage os.length o s = some s') :
    Inv r moves garbage (os ++ [o]) s' := by
  have hlen : s.vals.length = os.length := by rw [hinv.vals, length_map]
  unfold step at hstep
  by_cases hnil : o = oidNil
  · rw [if_pos hnil, some_inj] at hstep
    subst hstep
    have hfetch : fetch r.toColumn o = ⊥ := if_pos hnil
    have hmem : oidNil ∈ os ++ [o] := by simp [hnil]
    refine ⟨?_, ?_, ?_, fun _ => ⟨rfl, rfl, rfl⟩, fun h => absurd hmem h, fun h => absurd hmem h⟩
    · rw [map_append, map_singleton, hfetch, ← hinv.vals]
      rfl
    · exact iff_of_true rfl (mem_append_right _ (mem_singleton.mpr rfl))
    · exact iff_of_false false_ne_true fun h =>
        h (mem_append_right _ (mem_singleton.mpr rfl))
  · split_ifs at hstep with hout
    rw [some_inj] at hstep
    subst hstep
    have hfetch : fetch r.toColumn o = r.atOid o := if_neg hnil
    have hnilAt : oidNil ∈ os ++ [o] ↔ oidNil ∈ os := by simp [Ne.symm hnil]
    obtain ⟨h1, h2⟩ := checkNil_iff (v := r.atOid o) hinv.nil_iff hinv.nonil_iff
    refine ⟨?_, ?_, ?_, fun h => ?_, fun _ => ?_, fun h => ?_⟩
    · rw [map_append, map_singleton, hfetch, ← hinv.vals]
      rfl
    · refine Iff.trans ?_ h1
      split_ifs
      · rw [(compared_facts _ _).1]
        rfl
      · rfl
    · refine Iff.trans ?_ h2
      split_ifs
      · rw [(compared_facts _ _).2]
        rfl
      · rfl
    · -- no flag is left, so nothing is compared
      obtain ⟨hs, hr, hk⟩ := checkNil_order s.props (r.atOid o)
      obtain ⟨hs', hr', hk'⟩ := hinv.cleared (hnilAt.mp h)
      have hguard : ((checkNil s.props (r.atOid o)).trevsorted ||
          (checkNil s.props (r.atOid o)).tsorted ||
          (checkNil s.props (r.atOid o)).tkey) = false := by
        rw [hs, hr, hk, hs', hr', hk']
        rfl
      rw [if_neg fun hg => false_ne_true (hguard.symm.trans hg.2)]
      exact ⟨hs.trans hs', hr.trans hr', hk.trans hk'⟩
    · unfold lastValue
      simp [State.insert]
    · have hn : oidNil ∉ os := fun hmem => h (hnilAt.mpr hmem)
      exact shows_insert (hinv.order hn).checkNil (hinv.prev hn) hlen

end Row

/-! ### All rows

Since the memory that was freed may hold anything, only the outcomes of real comparisons count in
the end. -/

theorem inv_loop {done os : List ℕ} {s s' : State α} (hinv : Inv r moves garbage done s)
    (h : loop r moves garbage done.length os s = some s') :
    Inv r moves garbage (done ++ os) s' := by
  induction os generalizing done s with
  | nil =>
    obtain rfl : s = s' := some_inj.mp h
    rwa [append_nil]
  | cons o os ih =>
    obtain ⟨mid, hmid, hrest⟩ := bind_eq_some_iff.mp h
    have hinv' := ih (inv_step hinv hmid)
    rw [append_assoc, length_append] at hinv'
    exact hinv' hrest

theorem loop_eq_none {os : List ℕ} {s : State α} :
    loop r moves garbage n os s = none ↔ ∃ o ∈ os, Outside r.toColumn o := by
  induction os generalizing n s with
  | nil => exact iff_of_false nofun fun ⟨o, ho, _⟩ => absurd ho not_mem_nil
  | cons o os ih =>
    rw [loop, exists_mem_cons_iff, ← @step_eq_none _ _ r moves garbage n s o]
    cases hstep : step r moves garbage n o s with
    | none => exact iff_of_true rfl (.inl rfl)
    | some mid =>
      rw [bind_some, ih]
      exact (or_iff_right nofun).symm

/-- What the real comparisons showed holds if all outcomes did. -/
theorem Seen.keptBy (h : Seen moves garbage P vs) (hPR : ∀ w v : α, P (atomCmp w v) → R w v) :
    KeptBy moves R vs := by
  intro n w v hw hv hm
  have hP := h n w v hw hv
  unfold cmpAt at hP
  rw [hm] at hP
  exact hPR w v hP

/-- With the right garbage, the comparisons show what the real ones did. -/
theorem seen_of_keptBy {c : ℤ} (h : KeptBy moves R vs) (hRP : ∀ w v : α, R w v → P (atomCmp w v))
    (hc : P c) : Seen moves (fun _ => c) P vs := by
  intro n w v hw hv
  unfold cmpAt
  split_ifs with hm
  · exact hc
  · exact hRP w v (h n w v hw hv (eq_false_of_not_eq_true hm))

/-- **The flags of the loop are true whatever the freed memory holds** if and only if the real
comparisons determine them. -/
theorem order_iff (p : (ℕ → ℤ) → Props) (hp : ∀ garbage, Shows moves garbage vs (p garbage)) :
    (∀ garbage, ((p garbage).tsorted = true → vs.Pairwise (· ≤ ·)) ∧
      ((p garbage).trevsorted = true → vs.Pairwise (· ≥ ·)) ∧
      ((p garbage).tkey = true → vs.Nodup)) ↔ FlagsKept moves vs := by
  constructor
  · -- freed memory that compares as equal, less or greater keeps the flag in question
    intro h
    refine ⟨fun hk => ?_, fun hk => ?_, ?_⟩
    · refine (h fun _ => 0).1 ((hp _).tsorted.mpr (seen_of_keptBy hk ?_ le_rfl))
      exact fun w v hwv => not_lt.mp fun hc => not_le.mpr (atomCmp_pos.mp hc) hwv
    · refine (h fun _ => 0).2.1 ((hp _).trevsorted.mpr (seen_of_keptBy hk ?_ le_rfl))
      exact fun w v hwv => not_lt.mp fun hc => not_le.mpr (atomCmp_lt_zero.mp hc) hwv
    · rintro (hk | hk)
      · refine (h fun _ => -1).2.2 ((hp _).tkey.mpr (.inl (seen_of_keptBy hk ?_ (by decide))))
        exact fun w v hwv => atomCmp_lt_zero.mpr hwv
      · refine (h fun _ => 1).2.2 ((hp _).tkey.mpr (.inr (seen_of_keptBy hk ?_ (by decide))))
        exact fun w v hwv => atomCmp_pos.mpr hwv
  · intro h garbage
    refine ⟨fun hs => h.tsorted ?_, fun hs => h.trevsorted ?_, fun hk => h.tkey ?_⟩
    · exact ((hp garbage).tsorted.mp hs).keptBy fun w v hc =>
        not_lt.mp fun hlt => not_lt.mpr hc (atomCmp_pos.mpr hlt)
    · exact ((hp garbage).trevsorted.mp hs).keptBy fun w v hc =>
        not_lt.mp fun hlt => not_lt.mpr hc (atomCmp_lt_zero.mpr hlt)
    · refine ((hp garbage).tkey.mp hk).imp ?_ ?_
      · exact fun hs => hs.keptBy fun w v hc => atomCmp_lt_zero.mp hc
      · exact fun hs => hs.keptBy fun w v hc => atomCmp_pos.mp hc

end Loop

end Project

/-! ## The operation -/

section Operation

variable {r : ProjectColumn α} {l : OidColumn} {moved : ℕ → Bool}
  {garbage : ℕ → ℤ}

open Project

theorem isProjection_constant {n : ℕ} (h : l.tail.vals = replicate n oidNil) :
    IsProjection l r.toColumn (some ⟨l.hseqbase, (BATconstant α n).1, (BATconstant α n).2⟩) := by
  refine ⟨iff_of_false nofun ?_, ?_, ?_, ?_⟩
  · rintro ⟨o, ho, hne, -⟩
    rw [h] at ho
    exact hne (eq_of_mem_replicate ho)
  · rintro _ ⟨⟩
    rfl
  · rintro _ ⟨⟩
    rw [h, map_replicate]
    rfl
  · rintro _ ⟨⟩
    exact trueOfVals_BATconstant n

theorem isProjection_dense {s n : ℕ} (h : l.tail = .dense s n) :
    IsProjection l r.toColumn (BATproject r l moved garbage) := by
  have hlt := l.dense_lt s n h
  have hvals : l.tail.vals = range' s n := by rw [h]; rfl
  unfold BATproject
  rw [h]
  dsimp only
  by_cases hn : 0 < n
  · rw [if_pos hn]
    split_ifs with hout
    · refine ⟨iff_of_true rfl ?_, nofun, nofun, nofun⟩
      rw [hvals]
      -- one of the ends of the range is outside
      rcases hout with hlo | hhi
      · refine ⟨s, mem_range'_1.mpr ⟨le_rfl, by omega⟩, by omega, ?_⟩
        exact fun hc => not_le.mpr hlo hc.1
      · refine ⟨s + n - 1, mem_range'_1.mpr ⟨by omega, by omega⟩, by omega, ?_⟩
        intro hc
        have := hc.2
        omega
    · have hlo : s - r.hseqbase ≤ s + n - r.hseqbase := by omega
      have hhi : s + n - r.hseqbase ≤ r.count := by omega
      refine ⟨iff_of_false nofun ?_, ?_, ?_, ?_⟩
      · rintro ⟨o, ho, -, hnot⟩
        rw [hvals] at ho
        have ho := mem_range'_1.mp ho
        exact hnot ⟨by omega, by omega⟩
      · rintro _ ⟨⟩
        rfl
      · rintro _ ⟨⟩
        rw [hvals]
        unfold Project.BATslice
        refine ext_getElem (by simp; omega) fun i h1 h2 => ?_
        rw [getElem_map, getElem_map, getElem_range', getElem_range']
        rw [length_map, length_range'] at h2
        unfold fetch Column.atOid
        rw [if_neg (by omega)]
        congr 1
        omega
      · rintro _ ⟨⟩
        exact trueOfVals_BATslice hlo hhi
  · obtain rfl : n = 0 := by omega
    exact isProjection_constant hvals

section

variable {os : List ℕ} (h : l.tail = .oids os) (hne : os.length ≠ 0)

include h hne

theorem BATproject_oids : BATproject r l moved garbage =
      (loop r (fun n => r.varsized && moved n) garbage 0 os (start α)).map
        fun s => ⟨l.hseqbase, s.vals, s.props⟩ := by
  unfold BATproject
  rw [h]
  exact if_neg hne

/-- The flags about nil are true after the loop, and so are those about order if there is a nil
among the oids. -/
theorem isProjection_oids_iff {s : State α}
    (hs : loop r (fun n => r.varsized && moved n) garbage 0 os (start α) = some s) :
    IsProjection l r.toColumn (BATproject r l moved garbage) ↔
      (s.props.tsorted = true → s.vals.Pairwise (· ≤ ·)) ∧
      (s.props.trevsorted = true → s.vals.Pairwise (· ≥ ·)) ∧
      (s.props.tkey = true → s.vals.Nodup) := by
  have hinv := inv_loop inv_start hs
  have hvals : l.tail.vals = os := by rw [h]; rfl
  rw [BATproject_oids h hne, hs]
  constructor
  · intro hp
    have hflags := hp.props _ rfl
    exact ⟨hflags.tsorted, hflags.trevsorted, hflags.tkey⟩
  rintro ⟨h1, h2, h3⟩
  refine ⟨iff_of_false nofun ?_, ?_, ?_, ?_⟩
  · rw [hvals, ← @loop_eq_none _ _ r (fun n => r.varsized && moved n) garbage 0 os (start α), hs]
    nofun
  · rintro _ ⟨⟩
    rfl
  · rintro _ ⟨⟩
    rw [hvals]
    exact hinv.vals
  · rintro _ ⟨⟩
    exact ⟨h1, h2, h3, hinv.nil_iff.mp, hinv.nonil_iff.mp⟩

/-- The flags of an array of oids of `r` are right if the real comparisons determine them. -/
theorem forall_isProjection_oids :
    (∀ garbage, IsProjection l r.toColumn (BATproject r l moved garbage)) ↔
      ((∀ o ∈ os, o ≠ oidNil ∧ r.Contains o) →
        FlagsKept (fun n => r.varsized && moved n) (os.map r.atOid)) := by
  have hvals : l.tail.vals = os := by rw [h]; rfl
  by_cases hout : ∃ o ∈ os, Outside r.toColumn o
  · -- an oid outside of `r` lets the operation fail, as it should
    refine iff_of_true (fun garbage => ?_) fun hin => ?_
    · rw [BATproject_oids h hne, loop_eq_none.mpr hout]
      exact ⟨iff_of_true rfl (by rwa [hvals]), by simp, by simp, by simp⟩
    · obtain ⟨o, ho, -, hnot⟩ := hout
      exact absurd (hin o ho).2 hnot
  · have hsome : ∀ garbage, ∃ s,
        loop r (fun n => r.varsized && moved n) garbage 0 os (start α) = some s := fun garbage =>
      ne_none_iff_exists'.mp fun hnone => hout (loop_eq_none.mp hnone)
    choose st hst using hsome
    have hinv := fun garbage => inv_loop inv_start (hst garbage)
    have hiff := fun garbage => isProjection_oids_iff h hne (hst garbage)
    by_cases hnil : oidNil ∈ os
    · -- a nil has cleared the flags about order
      refine iff_of_true (fun garbage => (hiff garbage).mpr ?_) fun hin => ?_
      · obtain ⟨h1, h2, h3⟩ := (hinv garbage).cleared hnil
        rw [h1, h2, h3]
        simp
      · exact absurd rfl (hin oidNil hnil).1
    · have hin : ∀ o ∈ os, o ≠ oidNil ∧ r.Contains o := by
        intro o ho
        have hone : o ≠ oidNil := fun he => hnil (he ▸ ho)
        refine ⟨hone, ?_⟩
        by_contra hc
        exact hout ⟨o, ho, hone, hc⟩
      have hfetch : os.map (fetch r.toColumn) = os.map r.atOid :=
        map_congr_left fun o ho => if_neg (hin o ho).1
      have hval : ∀ garbage, (st garbage).vals = os.map r.atOid := fun garbage =>
        (hinv garbage).vals.trans hfetch
      have hshow : ∀ garbage, Shows (fun n => r.varsized && moved n) garbage (os.map r.atOid)
          (st garbage).props := fun garbage => hval garbage ▸ (hinv garbage).order hnil
      have horder := order_iff (fun garbage => (st garbage).props) hshow
      rw [forall_congr' hiff]
      simp only [hval]
      rw [horder]
      exact ⟨fun hk _ => hk, fun hk => hk hin⟩

end

/-- **When `BATproject` returns the projection with true flags**, whatever the memory that has been
freed holds. -/
theorem isProjection_iff (l : OidColumn) (r : ProjectColumn α) (moved : ℕ → Bool) :
    (∀ garbage, IsProjection l r.toColumn (BATproject r l moved garbage)) ↔
      ProjectExact l r moved := by
  unfold ProjectExact
  cases h : l.tail with
  | dense s n => exact iff_of_true (fun _ => isProjection_dense h) nofun
  | voidNil n =>
    refine iff_of_true (fun garbage => ?_) nofun
    have hvals : l.tail.vals = replicate n oidNil := by rw [h]; rfl
    have hres := isProjection_constant (r := r) hvals
    unfold BATproject
    rw [hvals, length_replicate, h]
    exact hres
  | oids os =>
    have hone : (∀ os', OidTail.oids os = .oids os' → (∀ o ∈ os', o ≠ oidNil ∧ r.Contains o) →
        FlagsKept (fun n => r.varsized && moved n) (os'.map r.atOid)) ↔
        ((∀ o ∈ os, o ≠ oidNil ∧ r.Contains o) →
          FlagsKept (fun n => r.varsized && moved n) (os.map r.atOid)) := by
      constructor
      · exact fun h => h os rfl
      · rintro h os' ⟨⟩
        exact h
    rw [hone]
    by_cases hne : os.length = 0
    · obtain rfl := length_eq_zero_iff.mp hne
      refine iff_of_true (fun garbage => ?_) fun _ => ⟨fun _ => .nil, fun _ => .nil,
          fun _ => .nil⟩
      have hvals : l.tail.vals = replicate 0 oidNil := by rw [h]; rfl
      have hres := isProjection_constant (r := r) hvals
      unfold BATproject
      rw [h]
      exact hres
    · exact forall_isProjection_oids h hne

end Operation

/-! ## Two long strings -/

/-- A column of strings without any flag. -/
def strColumn (vals : List Str) (hlen : vals.length < 2 ^ 63) : ProjectColumn Str where
  hdense := true
  hseqbase := 0
  ttype := 11
  first := 0
  count := vals.length
  capacity := vals.length
  val p := vals.getD p ⊥
  tsorted := false
  trevsorted := false
  tkey := false
  tnonil := false
  hash := none
  fits := by omega
  small := hlen
  oids_small := by omega
  sorted_true := nofun
  revsorted_true := nofun
  key_true := nofun
  nonil_true := nofun
  hash_shape := nofun
  dense := none
  dense_true := nofun
  varsized := true
  void_true := nofun

/-- The oids 0 and 1, in an array. -/
def zeroOne : OidColumn := ⟨0, .oids [0, 1], nofun⟩

/-- A string of 200,000 times the letter b, and one of the letter a. -/
def longStrings : List Str := [.repeated 98 200000 (by decide), .repeated 97 200000 (by decide)]

/-- The string of the second row does not fit into the heap.  If the heap is moved to make room for
it, and the freed memory compares as less, the result is said to be sorted. -/
theorem BATproject_longStrings :
    let r := strColumn longStrings (by decide)
    let res := BATproject r zeroOne (fun n => n == 1) fun _ => -1
    res = some ⟨0, longStrings, ⟨true, true, false, false, true⟩⟩ ∧
      ¬ longStrings.Pairwise (· ≤ ·) ∧ ¬ IsProjection zeroOne r.toColumn res := by
  have hres : BATproject (strColumn longStrings (by decide)) zeroOne (fun n => n == 1)
      (fun _ => -1) = some ⟨0, longStrings, ⟨true, true, false, false, true⟩⟩ := by
    rfl
  have hsorted : ¬ longStrings.Pairwise (· ≤ ·) := by decide +kernel
  refine ⟨hres, hsorted, fun h => hsorted ?_⟩
  exact (h.props _ hres).tsorted rfl

/-- A string that is not moved is compared. -/
example :
    let vals : List Str := [.repeated 98 1 (by decide), .repeated 97 1 (by decide)]
    BATproject (strColumn vals (by decide)) zeroOne (fun _ => false) (fun _ => -1) =
      some ⟨0, vals, ⟨true, false, true, false, true⟩⟩ := by
  rfl

end MonetInR.Gdk
