import MonetInR.Gdk.Sort.Qsort
import MonetInR.Lib.StableOrder

/-!
# The stable sort

`GDKssort` is timsort: it goes over the array once and cuts it into runs, ascending ones as they are
and descending ones turned around, and sorts further entries into a run that is too short.  Runs
wait on a stack and are merged so that their lengths stay balanced.  A merge copies the shorter run
to temporary memory and fills the array from the other end; while one of the runs keeps winning, it
gallops.

Heads and tails are arrays of items of a given width in bytes, and an entry is moved by the macro
`COPY_any`, several by `COPY_anyN`.  The temporary memory is on the stack or allocated, with
whatever it contains.  Sizes are positions in the array, so that the arithmetic does not overflow,
and memory can be allocated.

## Main definitions

* `copyAnyN`: the macro `COPY_anyN`
* `binarysort`, `reverseSlice`, `countRun`: making runs
* `Lo.loop`, `Hi.loop`: the two directions of merging
* `mergeAt`, `mergeCollapse`, `doSsort`, `GDKssort`
* `rowLe`, `Sorted`: rows compared by their heads, and a piece of an array in this order

## Main results

* `insertPivot_spec`, `binarysort_spec`, `reverseSlice_apply`
* `makeRun_spec`: the next run is sorted and has not lost the order of ties
-/

namespace MonetInR.Gdk.Ssort

open IntervalSearch StableOrder Function

/-! ## Items and rows

An array is a function from indexes to items.  The copying macro is modelled as it stands, with its
slip for items of 16 bytes, and temporary memory holds arbitrary items until it is written. -/

/-- A comparison of values all of which can be compared. -/
structure TotalComparison (α : Type*) extends Comparison α where
  nan_eq_false : ∀ a, nan a = false

/-- The comparison by a number. -/
def TotalComparison.ofKey {α : Type*} (key : α → ℕ) : TotalComparison α where
  le a b := decide (key a ≤ key b)
  lt a b := decide (key a < key b)
  eq a b := decide (key a = key b)
  nan _ := false
  lt_iff a b := by simpa using le_of_lt
  eq_iff a b := by simpa using le_antisymm_iff
  trans a b c := by simpa using le_trans
  total a b := by simpa using le_total _ _
  nan_false a b h := by simp at h
  nan_eq_false _ := rfl

/-- An item of `w` bytes. -/
abbrev Item (w : ℕ) := BitVec (8 * w)

/-- A head and the tail that goes with it.  The tail is empty if there are none. -/
abbrev Row (hs ts : ℕ) := Item hs × Item ts

/-- The first eight bytes of `s` and the others of `d`. -/
def lowHalf {w : ℕ} (s d : Item w) : Item w :=
  BitVec.ofNat _ (d.toNat / 2 ^ 64 * 2 ^ 64 + s.toNat % 2 ^ 64)

/-- `COPY_anyN(d, s, w, N)`.  For items of 16 bytes the loop over words runs while `i < (N < 2)`. -/
def copyAnyN {w : ℕ} (N : ℕ) (dst : ℕ → Item w) (d : ℕ) (src : ℕ → Item w) (s : ℕ) : ℕ → Item w :=
  if w = 16 then
    if N < 2 then update dst d (lowHalf (src s) (dst d)) else dst
  else blit dst d src s N

/-- Memory for copies of runs: what it holds, and its size in bytes. -/
structure Temp (w : ℕ) where
  cells : ℕ → Item w
  alloced : ℕ

/-- What is in memory before it is written to: in the arrays on the stack, and in allocated memory
for a number of items. -/
structure Garbage (hs ts : ℕ) where
  stackH : ℕ → Item hs
  stackT : ℕ → Item ts
  heapH : ℕ → ℕ → Item hs
  heapT : ℕ → ℕ → Item ts

/-- `merge_getmem`. -/
def Temp.getmem {w : ℕ} (heap : ℕ → ℕ → Item w) (need : ℕ) (t : Temp w) : Temp w :=
  if need * w ≤ t.alloced then t else ⟨heap need, need * w⟩

variable {hs ts : ℕ}

/-- Several rows, heads and tails each by `COPY_anyN`. -/
def copyRows (N : ℕ) (dst : ℕ → Row hs ts) (d : ℕ) (src : ℕ → Row hs ts) (s : ℕ) :
    ℕ → Row hs ts := fun i =>
  (copyAnyN N (fun j => (dst j).1) d (fun j => (src j).1) s i,
    copyAnyN N (fun j => (dst j).2) d (fun j => (src j).2) s i)

/-- A run that waits to be merged. -/
structure Slice where
  base : ℕ
  len : ℕ
  deriving DecidableEq

/-- The state of a sort.  The last run on the stack comes first. -/
structure MergeState (hs ts : ℕ) where
  b : ℕ → Row hs ts
  tempH : Temp hs
  tempT : Temp ts
  minGallop : ℕ
  pending : List Slice

/-- The rows in temporary memory. -/
def MergeState.a (ms : MergeState hs ts) : ℕ → Row hs ts := fun i =>
  (ms.tempH.cells i, ms.tempT.cells i)

variable (C : Comparison (Item hs))

/-! ## Making runs

A descending run is strictly descending, so that turning it around does not exchange ties.  A run
that is shorter than `minrun` is extended by binary insertion. -/

/-- Move the rows from `l` to `l + n - 1` up by one, starting with the last. -/
def slide (l : ℕ) : ℕ → (ℕ → Row hs ts) → ℕ → Row hs ts
  | 0, b => b
  | n + 1, b => slide l n (update b (l + n + 1) (b (l + n)))

/-- Sort the row at `start` into the sorted rows before it. -/
def insertPivot (lo start : ℕ) (b : ℕ → Row hs ts) : ℕ → Row hs ts :=
  let pivot := b start
  let l := bisect (fun p => !C.lt pivot.1 (b p).1) (start - lo) lo start
  update (slide l (start - l) b) l pivot

/-- The rounds of `binarysort`. -/
def binaryLoop (lo : ℕ) : ℕ → ℕ → (ℕ → Row hs ts) → ℕ → Row hs ts
  | 0, _, b => b
  | k + 1, start, b => binaryLoop lo k (start + 1) (insertPivot C lo start b)

/-- `binarysort`: sort `[lo, hi)`, of which `[lo, start)` is sorted. -/
def binarysort (lo hi start : ℕ) (b : ℕ → Row hs ts) : ℕ → Row hs ts :=
  let start := if lo = start then start + 1 else start
  binaryLoop C lo (hi - start) start b

/-- The loop of `reverse_slice`; both bounds are included. -/
def reverseLoop : ℕ → ℕ → ℕ → (ℕ → Row hs ts) → ℕ → Row hs ts
  | 0, _, _, b => b
  | k + 1, lo, hi, b =>
    if lo < hi then
      reverseLoop k (lo + 1) (hi - 1) (update (update b lo (b hi)) hi (b lo))
    else b

/-- `reverse_slice`. -/
def reverseSlice (lo hi : ℕ) (b : ℕ → Row hs ts) : ℕ → Row hs ts :=
  reverseLoop (hi - lo) lo (hi - 1) b

/-- The length of the run from `lo` on, and whether it is descending. -/
def countRun (lo hi : ℕ) (b : ℕ → Row hs ts) : ℕ × Bool :=
  if lo + 1 = hi then (1, false)
  else if C.lt (b (lo + 1)).1 (b lo).1 then
    (scanUp (fun i => C.lt (b i).1 (b (i - 1)).1) (lo + 2) (hi - (lo + 2)) - lo, true)
  else (scanUp (fun i => !C.lt (b i).1 (b (i - 1)).1) (lo + 2) (hi - (lo + 2)) - lo, false)

/-- The next run: its length, and the array in which it is ascending. -/
def makeRun (minrun lo hi : ℕ) (b : ℕ → Row hs ts) : ℕ × (ℕ → Row hs ts) :=
  let (n, descending) := countRun C lo hi b
  let b := if descending then reverseSlice lo (lo + n) b else b
  if n < minrun then
    let force := if hi - lo ≤ minrun then hi - lo else minrun
    (force, binarysort C lo (lo + force) (lo + n) b)
  else (n, b)

/-! ## Galloping -/

/-- `gallop_left`: the rows before `key`. -/
def gallopLeft (key : Item hs) (a : ℕ → Row hs ts) (n hint : ℕ) : ℕ :=
  gallop (fun i => C.lt (a i).1 key) n hint

/-- `gallop_right`: the rows that are not behind `key`. -/
def gallopRight (key : Item hs) (a : ℕ → Row hs ts) (n hint : ℕ) : ℕ :=
  gallop (fun i => !C.lt key (a i).1) n hint

/-- Whether the rows are taken one by one, with the number of times that each run has won in a row,
or in gallops. -/
inductive Phase
  | pairs (acount bcount : ℕ)
  | gallop

/-! ## Merging from the left -/

namespace Lo

/-- Where a merge from the left stands.  The first run is in temporary memory, with `na` rows from
`pa` on; the second one is in the array, with `nb` rows from `pb` on; the next row goes to
`dest`. -/
structure Cursor (hs ts : ℕ) where
  b : ℕ → Row hs ts
  dest : ℕ
  pa : ℕ
  na : ℕ
  pb : ℕ
  nb : ℕ

namespace Cursor

/-- Take a row of the second run. -/
def takeB (c : Cursor hs ts) : Cursor hs ts := { c with
    b := update c.b c.dest (c.b c.pb), dest := c.dest + 1, pb := c.pb + 1, nb := c.nb - 1 }

/-- Take a row of the first run. -/
def takeA (a : ℕ → Row hs ts) (c : Cursor hs ts) : Cursor hs ts := { c with
    b := update c.b c.dest (a c.pa), dest := c.dest + 1, pa := c.pa + 1, na := c.na - 1 }

/-- Take several rows of the second run, with `memmove`. -/
def takeManyB (k : ℕ) (c : Cursor hs ts) : Cursor hs ts := { c with
    b := blit c.b c.dest c.b c.pb k, dest := c.dest + k, pb := c.pb + k, nb := c.nb - k }

/-- Take several rows of the first run, with `COPY_anyN`. -/
def takeManyA (a : ℕ → Row hs ts) (k : ℕ) (c : Cursor hs ts) : Cursor hs ts := { c with
    b := copyRows k c.b c.dest a c.pa, dest := c.dest + k, pa := c.pa + k, na := c.na - k }

/-- The label `SucceedA`. -/
def succeedA (a : ℕ → Row hs ts) (c : Cursor hs ts) : ℕ → Row hs ts :=
  if c.na = 0 then c.b else copyRows c.na c.b c.dest a c.pa

/-- The label `CopyB`. -/
def copyB (a : ℕ → Row hs ts) (c : Cursor hs ts) : ℕ → Row hs ts :=
  update (blit c.b c.dest c.b c.pb c.nb) (c.dest + c.nb) (a c.pa)

end Cursor

/-- The loops of the merge, with the value of `min_gallop`. -/
def loop (a : ℕ → Row hs ts) : ℕ → Phase → ℕ → Cursor hs ts → Option ((ℕ → Row hs ts) × ℕ)
  | 0, _, _, _ => none
  | f + 1, .pairs acount bcount, minGallop, c =>
    if C.lt (c.b c.pb).1 (a c.pa).1 then
      let c := c.takeB
      if c.nb = 0 then some (c.succeedA a, minGallop)
      else if minGallop ≤ bcount + 1 then loop a f .gallop (minGallop + 1) c
      else loop a f (.pairs 0 (bcount + 1)) minGallop c
    else
      let c := c.takeA a
      if c.na = 1 then some (c.copyB a, minGallop)
      else if minGallop ≤ acount + 1 then loop a f .gallop (minGallop + 1) c
      else loop a f (.pairs (acount + 1) 0) minGallop c
  | f + 1, .gallop, minGallop, c =>
    let minGallop := if 1 < minGallop then minGallop - 1 else minGallop
    let acount := gallopRight C (c.b c.pb).1 (fun i => a (c.pa + i)) c.na 0
    let c := if acount = 0 then c else c.takeManyA a acount
    if acount ≠ 0 ∧ c.na = 1 then some (c.copyB a, minGallop)
    else if acount ≠ 0 ∧ c.na = 0 then some (c.succeedA a, minGallop)
    else
      let c := c.takeB
      if c.nb = 0 then some (c.succeedA a, minGallop)
      else
        let bcount := gallopLeft C (a c.pa).1 (fun i => c.b (c.pb + i)) c.nb 0
        let c := if bcount = 0 then c else c.takeManyB bcount
        if bcount ≠ 0 ∧ c.nb = 0 then some (c.succeedA a, minGallop)
        else
          let c := c.takeA a
          if c.na = 1 then some (c.copyB a, minGallop)
          else if 7 ≤ acount ∨ 7 ≤ bcount then loop a f .gallop minGallop c
          else loop a f (.pairs 0 0) (minGallop + 1) c

/-- The merge from the left, from the first row on, which belongs to the second run. -/
def merge (a : ℕ → Row hs ts) (minGallop : ℕ) (c : Cursor hs ts) : Option ((ℕ → Row hs ts) × ℕ) :=
  let c := c.takeB
  if c.nb = 0 then some (c.succeedA a, minGallop)
  else if c.na = 1 then some (c.copyB a, minGallop)
  else loop C a (c.na + c.nb) (.pairs 0 0) minGallop c

end Lo

/-! ## Merging from the right -/

namespace Hi

/-- Where a merge from the right stands.  The first run is in the array, with `na` rows that end
before `ea`; the second one is in temporary memory, with `nb` rows that end before `eb`; the next
row goes before `ed`.  The pointers of the source are one less. -/
structure Cursor (hs ts : ℕ) where
  b : ℕ → Row hs ts
  ed : ℕ
  ea : ℕ
  na : ℕ
  eb : ℕ
  nb : ℕ

namespace Cursor

/-- Take a row of the first run. -/
def takeA (c : Cursor hs ts) : Cursor hs ts := { c with
    b := update c.b (c.ed - 1) (c.b (c.ea - 1)), ed := c.ed - 1, ea := c.ea - 1,
    na := c.na - 1 }

/-- Take a row of the second run. -/
def takeB (a : ℕ → Row hs ts) (c : Cursor hs ts) : Cursor hs ts := { c with
    b := update c.b (c.ed - 1) (a (c.eb - 1)), ed := c.ed - 1, eb := c.eb - 1,
    nb := c.nb - 1 }

/-- Take several rows of the first run, with `memmove`. -/
def takeManyA (k : ℕ) (c : Cursor hs ts) : Cursor hs ts := { c with
    b := blit c.b (c.ed - k) c.b (c.ea - k) k, ed := c.ed - k, ea := c.ea - k, na := c.na - k }

/-- Take several rows of the second run, with `memmove`. -/
def takeManyB (a : ℕ → Row hs ts) (k : ℕ) (c : Cursor hs ts) : Cursor hs ts := { c with
    b := blit c.b (c.ed - k) a (c.eb - k) k, ed := c.ed - k, eb := c.eb - k, nb := c.nb - k }

/-- The label `SucceedB`. -/
def succeedB (a : ℕ → Row hs ts) (c : Cursor hs ts) : ℕ → Row hs ts :=
  if c.nb = 0 then c.b else copyRows c.nb c.b (c.ed - c.nb) a 0

/-- The label `CopyA`. -/
def copyA (a : ℕ → Row hs ts) (c : Cursor hs ts) : ℕ → Row hs ts :=
  update (blit c.b (c.ed - c.na) c.b (c.ea - c.na) c.na) (c.ed - c.na - 1) (a (c.eb - 1))

end Cursor

/-- The loops of the merge, with the value of `min_gallop`. -/
def loop (a : ℕ → Row hs ts) (basea : ℕ) :
    ℕ → Phase → ℕ → Cursor hs ts → Option ((ℕ → Row hs ts) × ℕ)
  | 0, _, _, _ => none
  | f + 1, .pairs acount bcount, minGallop, c =>
    if C.lt (a (c.eb - 1)).1 (c.b (c.ea - 1)).1 then
      let c := c.takeA
      if c.na = 0 then some (c.succeedB a, minGallop)
      else if minGallop ≤ acount + 1 then loop a basea f .gallop (minGallop + 1) c
      else loop a basea f (.pairs (acount + 1) 0) minGallop c
    else
      let c := c.takeB a
      if c.nb = 1 then some (c.copyA a, minGallop)
      else if minGallop ≤ bcount + 1 then loop a basea f .gallop (minGallop + 1) c
      else loop a basea f (.pairs 0 (bcount + 1)) minGallop c
  | f + 1, .gallop, minGallop, c =>
    let minGallop := if 1 < minGallop then minGallop - 1 else minGallop
    let acount := c.na - gallopRight C (a (c.eb - 1)).1 (fun i => c.b (basea + i)) c.na (c.na - 1)
    let c := if acount = 0 then c else c.takeManyA acount
    if acount ≠ 0 ∧ c.na = 0 then some (c.succeedB a, minGallop)
    else
      let c := c.takeB a
      if c.nb = 1 then some (c.copyA a, minGallop)
      else
        let bcount := c.nb - gallopLeft C (c.b (c.ea - 1)).1 a c.nb (c.nb - 1)
        let c := if bcount = 0 then c else c.takeManyB a bcount
        if bcount ≠ 0 ∧ c.nb = 1 then some (c.copyA a, minGallop)
        else if bcount ≠ 0 ∧ c.nb = 0 then some (c.succeedB a, minGallop)
        else
          let c := c.takeA
          if c.na = 0 then some (c.succeedB a, minGallop)
          else if 7 ≤ acount ∨ 7 ≤ bcount then loop a basea f .gallop minGallop c
          else loop a basea f (.pairs 0 0) (minGallop + 1) c

/-- The merge from the right, from the last row on, which belongs to the first run. -/
def merge (a : ℕ → Row hs ts) (basea minGallop : ℕ) (c : Cursor hs ts) :
    Option ((ℕ → Row hs ts) × ℕ) :=
  let c := c.takeA
  if c.na = 0 then some (c.succeedB a, minGallop)
  else if c.nb = 1 then some (c.copyA a, minGallop)
  else loop C a basea (c.na + c.nb) (.pairs 0 0) minGallop c

end Hi

/-! ## Merging two runs -/

variable (g : Garbage hs ts)

/-- Get memory for `n` rows and copy those from `s` on into it. -/
def MergeState.save (s n : ℕ) (ms : MergeState hs ts) : MergeState hs ts :=
  let tempH := ms.tempH.getmem g.heapH n
  let tempT := ms.tempT.getmem g.heapT n
  { ms with
    tempH := { tempH with cells := copyAnyN n tempH.cells 0 (fun j => (ms.b j).1) s }
    tempT := { tempT with cells := copyAnyN n tempT.cells 0 (fun j => (ms.b j).2) s } }

/-- The widths whose items `COPY_anyN` copies in a loop, with a counter that is an `int`. -/
def CountedWidth (w : ℕ) : Prop := w = 1 ∨ w = 2 ∨ w = 4 ∨ w = 8
  deriving Decidable

/-- The counter overflows in a copy of `n` rows. -/
def CountOverflows (hs ts n : ℕ) : Prop := 2 ^ 31 ≤ n ∧ (CountedWidth hs ∨ CountedWidth ts)
  deriving Decidable

/-- Leave out what is in place at both ends, and merge the rest with the shorter run in temporary
memory.  There is no result if the counter of the copy overflows; the copies of the merge itself are
not longer. -/
def mergeRuns (pa na pb nb : ℕ) (ms : MergeState hs ts) : Option (MergeState hs ts) :=
  let k := gallopRight C (ms.b pb).1 (fun i => ms.b (pa + i)) na 0
  let pa := pa + k
  let na := na - k
  if na = 0 then some ms
  else
    let nb := gallopLeft C (ms.b (pa + na - 1)).1 (fun i => ms.b (pb + i)) nb (nb - 1)
    if nb = 0 then some ms
    else if CountOverflows hs ts (min na nb) then none
    else if na ≤ nb then
      let ms := ms.save g pa na
      (Lo.merge C ms.a ms.minGallop ⟨ms.b, pa, 0, na, pb, nb⟩).map fun r =>
        { ms with b := r.1, minGallop := r.2 }
    else
      let ms := ms.save g pb nb
      (Hi.merge C ms.a pa ms.minGallop ⟨ms.b, pb + nb, pa + na, na, nb, nb⟩).map fun r =>
        { ms with b := r.1, minGallop := r.2 }

/-- `merge_at`: merge the last two runs of the stack, or the two before the last. -/
def mergeAt (third : Bool) (ms : MergeState hs ts) : Option (MergeState hs ts) :=
  match third, ms.pending with
  | false, y :: x :: rest =>
    mergeRuns C g x.base x.len y.base y.len { ms with pending := ⟨x.base, x.len + y.len⟩ :: rest }
  | true, z :: y :: x :: rest =>
    mergeRuns C g x.base x.len y.base y.len
      { ms with pending := z :: ⟨x.base, x.len + y.len⟩ :: rest }
  | _, _ => none

/-! ## The stack of runs

Which runs are merged depends on their lengths alone, so the choice is a function of the list of
lengths, the last run first. -/

/-- Which runs are merged to restore the balance of the lengths on the stack, if any. -/
def collapseChoice : List ℕ → Option Bool
  | z :: y :: x :: _ =>
    if x ≤ y + z then some (decide (x < z)) else if y ≤ z then some false else none
  | [z, y] => if y ≤ z then some false else none
  | _ => none

/-- Which runs are merged at the end. -/
def forceChoice : List ℕ → Option Bool
  | z :: _ :: x :: _ => some (decide (x < z))
  | [_, _] => some false
  | _ => none

/-- Merge runs as long as there is something to merge. -/
def mergeWhile (choice : List ℕ → Option Bool) : ℕ → MergeState hs ts → Option (MergeState hs ts)
  | 0, _ => none
  | f + 1, ms =>
    match choice (ms.pending.map Slice.len) with
    | none => some ms
    | some third => (mergeAt C g third ms).bind (mergeWhile choice f)

/-- `MAX_MERGE_PENDING`. -/
def maxMergePending : ℕ := 85

/-- March over the array: find the next run, push it and balance the stack. -/
def runLoop (minrun hi : ℕ) : ℕ → ℕ → MergeState hs ts → Option (MergeState hs ts)
  | 0, _, _ => none
  | f + 1, lo, ms =>
    let run := makeRun C minrun lo hi ms.b
    if ms.pending.length < maxMergePending then
      (mergeWhile C g collapseChoice (ms.pending.length + 1)
        { ms with b := run.2, pending := ⟨lo, run.1⟩ :: ms.pending }).bind fun ms =>
          if lo + run.1 < hi then runLoop minrun hi f (lo + run.1) ms else some ms
    else none

/-- `do_ssort`. -/
def doSsort (minrun hi : ℕ) (ms : MergeState hs ts) : Option (MergeState hs ts) :=
  (runLoop C g minrun hi hi 0 ms).bind fun ms =>
    mergeWhile C g forceChoice ms.pending.length ms

/-- The loop of `merge_compute_minrun`: whether any bit has been shifted off, and the rest. -/
def minrunLoop : ℕ → ℕ → ℕ → ℕ
  | 0, r, n => n + r
  | f + 1, r, n => if 16 ≤ n then minrunLoop f (r ||| (n &&& 1)) (n / 2) else n + r

/-- `merge_compute_minrun`. -/
def mergeComputeMinrun (n : ℕ) : ℕ := minrunLoop n 0 n

/-- `MERGESTATE_TEMP_SIZE`, with pointers of eight bytes. -/
def mergestateTempSize : ℕ := 256 * 8

/-- `GDKssort`, for rows whose heads and tails have the widths `hs` and `ts`. -/
def GDKssort (nitems : ℕ) (b : ℕ → Row hs ts) : Option (ℕ → Row hs ts) :=
  if 0 < hs ∧ hs ≤ 16 ∧ ts ≤ 16 then
    if nitems < 2 then some b
    else
      (doSsort C g (mergeComputeMinrun nitems) nitems
        ⟨b, ⟨g.stackH, mergestateTempSize⟩, ⟨g.stackT, mergestateTempSize⟩, 7, []⟩).map MergeState.b
  else none

/-! ## Rows

A row is compared by its head alone.  What a sort has to do to a piece of the array is the same for
insertion, for turning around and for merging, and `SortedPiece` says it once. -/

/-- Rows are compared by their heads. -/
def rowLe (C : TotalComparison (Item hs)) (x y : Row hs ts) : Bool := C.le x.1 y.1

variable (C : TotalComparison (Item hs))

theorem preordering_rowLe (ts : ℕ) : Preordering (rowLe C : Row hs ts → Row hs ts → Bool) where
  total a b := C.total a.1 b.1 (C.nan_eq_false _) (C.nan_eq_false _)
  trans h h' := C.trans _ _ _ h h'

/-- `ISLT` holds if the second row does not come before the first one. -/
theorem lt_eq_not_rowLe (x y : Row hs ts) : C.lt x.1 y.1 = !rowLe C y x := by
  rw [Bool.eq_iff_iff, C.lt_iff, Bool.not_eq_true']
  refine ⟨And.right, fun h => ⟨?_, h⟩⟩
  exact (preordering_rowLe C ts).le_of_not_le (a := y) (b := x) h

/-- The rows from `lo` to `hi` are in order. -/
def Sorted (b : ℕ → Row hs ts) (lo hi : ℕ) : Prop :=
  (slice b lo hi).Pairwise fun x y => rowLe C x y = true

/-- The piece from `lo` to `hi` has been sorted, with ties in their old order, and nothing else was
touched. -/
structure SortedPiece (b b' : ℕ → Row hs ts) (lo hi : ℕ) : Prop where
  order : SameOrder (rowLe C) (slice b lo hi) (slice b' lo hi)
  sorted : Sorted C b' lo hi
  frame : ∀ i, i < lo ∨ hi ≤ i → b' i = b i

variable {C}

variable {b : ℕ → Row hs ts} {lo hi start : ℕ}

theorem Sorted.rel {i j : ℕ} (h : Sorted C b lo hi) (h1 : lo ≤ i)
    (h2 : i ≤ j) (h3 : j < hi) : rowLe C (b i) (b j) = true := by
  rcases h2.eq_or_lt with rfl | hlt
  · exact (preordering_rowLe C ts).refl _
  · exact pairwise_slice_iff.mp h i j h1 hlt h3

/-! ## Binary insertion -/

theorem slide_apply (l n : ℕ) (b : ℕ → Row hs ts) (i : ℕ) :
    slide l n b i = if l < i ∧ i ≤ l + n then b (i - 1) else b i := by
  induction n generalizing b with
  | zero =>
    rw [slide, if_neg (by omega)]
  | succ n ih =>
    rw [slide, ih]
    by_cases hi : i = l + n + 1
    · rw [if_neg (by omega), if_pos (by omega), hi, update_self]
      rfl
    · by_cases hc : l < i ∧ i ≤ l + n
      · rw [if_pos hc, if_pos (by omega), update_of_ne (by omega)]
      · rw [if_neg hc, if_neg (by omega), update_of_ne hi]

/-- **The pivot goes behind all rows that do not come after it.** -/
theorem insertPivot_spec (hle : lo ≤ start) (hsorted : Sorted C b lo start) :
    SortedPiece C b (insertPivot C.toComparison lo start b) lo (start + 1) := by
  have hP := preordering_rowLe C ts
  set pivot := b start with hpivot
  have hdown : Downward (fun i => (!C.lt pivot.1 (b i).1) = true) lo start := by
    intro i j h1 h2 h3 h
    rw [lt_eq_not_rowLe, Bool.not_not] at h ⊢
    exact hP.trans (hsorted.rel h1 h2 h3) h
  have hb := boundary_bisect _ (start - lo) lo start le_rfl hle hdown
  set l := bisect (fun p => !C.lt pivot.1 (b p).1) (start - lo) lo start with hl
  have hbelow : ∀ x ∈ slice b lo l, rowLe C x pivot = true := by
    rw [forall_slice]
    intro i h1 h2
    have := hb.below i h1 h2
    rwa [lt_eq_not_rowLe, Bool.not_not] at this
  have habove : ∀ x ∈ slice b l start, rowLe C x pivot = false := by
    rw [forall_slice]
    intro i h1 h2
    have := hb.not_of_le hdown h1 h2
    rwa [lt_eq_not_rowLe, Bool.not_not, Bool.not_eq_true] at this
  have hb' : insertPivot C.toComparison lo start b =
      update (slide l (start - l) b) l pivot := rfl
  have hlo := hb.lo_le
  have hhi := hb.le_hi
  -- the rows in front of the pivot, the pivot, and those that have moved up
  have hslice : slice (insertPivot C.toComparison lo start b) lo (start + 1) =
      slice b lo l ++ ([pivot] ++ slice b l start) := by
    rw [hb', slice_append _ hlo (by omega), slice_cons _ (by omega : l < start + 1), update_self]
    congr 1
    · apply slice_congr
      intro i h1 h2
      rw [update_of_ne (by omega), slide_apply, if_neg (by omega)]
    congr 1
    have hshift := slice_shift (d := l + 1) (s := l) (k := start - l)
      (f := update (slide l (start - l) b) l pivot) (g := b) (by
        intro j hj
        rw [update_of_ne (by omega), slide_apply, if_pos (by omega)]
        congr 1
        omega)
    rwa [show l + 1 + (start - l) = start + 1 by omega,
      show l + (start - l) = start by omega] at hshift
  have hparts := hsorted
  rw [Sorted, slice_append b hlo hhi] at hparts
  have hmerge : IsMerge (rowLe C) (slice b lo l ++ slice b l start) [pivot]
      (slice b lo l ++ ([pivot] ++ slice b l start)) := by
    have hlast : IsMerge (rowLe C) (slice b l start) ([pivot] ++ [])
        ([pivot] ++ slice b l start) := by
      apply (IsMerge.of_nil_right (List.pairwise_append.mp hparts).2.1).right_first hP
        (List.pairwise_singleton _ _)
      intro y hy x hx
      rw [List.mem_singleton.mp hy]
      exact habove x hx
    refine hlast.left_first hP hparts fun x hx y hy => ?_
    rw [List.append_nil, List.mem_singleton] at hy
    rw [hy]
    exact hbelow x hx
  refine ⟨?_, ?_, fun i hi => ?_⟩
  · rw [hslice, slice_snoc b hle, slice_append b hlo hhi]
    exact hmerge.order
  · rw [Sorted, hslice]
    exact hmerge.sorted
  · rw [hb', update_of_ne (by omega), slide_apply, if_neg (by omega)]

/-- Sorting the first part of a piece and then the whole of it. -/
theorem SortedPiece.extend {b' b'' : ℕ → Row hs ts} {hi' : ℕ} (hle : hi ≤ hi')
    (hlo : lo ≤ hi) (h : SortedPiece C b b' lo hi) (h' : SortedPiece C b' b'' lo hi') :
    SortedPiece C b b'' lo hi' := by
  refine ⟨SameOrder.trans ?_ h'.order, h'.sorted, fun i hi => ?_⟩
  · rw [slice_append b hlo hle, slice_append b' hlo hle,
      slice_congr (f := b') (g := b) fun i h1 h2 => h.frame i (.inr h1)]
    exact h.order.append (.refl _)
  · rw [h'.frame i hi, h.frame i (by omega)]

theorem SortedPiece.of_sorted (h : Sorted C b lo hi) :
    SortedPiece C b b lo hi := ⟨.refl _, h, fun _ _ => rfl⟩

theorem binaryLoop_spec (k start : ℕ) (hle : lo ≤ start) (hsorted : Sorted C b lo start) :
    SortedPiece C b (binaryLoop C.toComparison lo k start b) lo (start + k) := by
  induction k generalizing start b with
  | zero => exact .of_sorted hsorted
  | succ k ih =>
    have hstep := insertPivot_spec hle hsorted
    have hrest := ih (start + 1) (by omega) hstep.sorted
    rw [show start + (k + 1) = start + 1 + k by omega]
    exact hstep.extend (by omega) (by omega) hrest

/-- **`binarysort` sorts a piece whose first part is sorted.** -/
theorem binarysort_spec (h1 : lo < start) (h2 : start ≤ hi) (hsorted : Sorted C b lo start) :
    SortedPiece C b (binarysort C.toComparison lo hi start b) lo hi := by
  have h := binaryLoop_spec (hi - start) start h1.le hsorted
  rw [Nat.add_sub_cancel' h2] at h
  rw [binarysort, if_neg h1.ne]
  exact h

/-! ## Turning a run around -/

theorem reverseLoop_apply (k lo hi : ℕ) (hk : hi - lo ≤ k) (b : ℕ → Row hs ts) (i : ℕ) :
    reverseLoop k lo hi b i = if lo ≤ i ∧ i ≤ hi then b (lo + hi - i) else b i := by
  induction k generalizing lo hi b with
  | zero =>
    rw [reverseLoop]
    split_ifs with h
    · congr 1
      omega
    · rfl
  | succ k ih =>
    rw [reverseLoop]
    by_cases hlt : lo < hi
    · rw [if_pos hlt, ih (lo + 1) (hi - 1) (by omega)]
      by_cases hin : lo + 1 ≤ i ∧ i ≤ hi - 1
      · rw [if_pos hin, if_pos (by omega), update_of_ne (by omega), update_of_ne (by omega)]
        congr 1
        omega
      rw [if_neg hin]
      by_cases h1 : i = hi
      · rw [h1, update_self, if_pos (by omega)]
        congr 1
        omega
      · rw [update_of_ne h1]
        by_cases h2 : i = lo
        · rw [h2, update_self, if_pos (by omega)]
          congr 1
          omega
        · rw [update_of_ne h2, if_neg (by omega)]
    · split_ifs with h
      · congr 1
        omega
      · rfl

/-- A strictly descending run may be turned around. -/
theorem reverseSlice_spec (hlt : lo < hi)
    (hdesc : ∀ i, lo < i → i < hi → rowLe C (b (i - 1)) (b i) = false) :
    SortedPiece C b (reverseSlice lo hi b) lo hi := by
  have hP := preordering_rowLe C ts
  have hall := rel_of_neighbours (R := fun x y => rowLe C x y = false)
    (fun h h' => hP.not_le_of_not_le_of_le h' (hP.le_of_not_le h) ) hdesc
  have happly : ∀ i, reverseSlice lo hi b i =
      if lo ≤ i ∧ i ≤ hi - 1 then b (lo + (hi - 1) - i) else b i :=
    reverseLoop_apply (hi - lo) lo (hi - 1) (by omega) b
  have hrev : slice (reverseSlice lo hi b) lo hi = (slice b lo hi).reverse :=
    slice_reverse fun i h1 h2 => by rw [happly, if_pos (by omega)]
  refine ⟨?_, ?_, fun i hi => ?_⟩
  · rw [hrev]
    exact sameOrder_reverse hP
      (pairwise_slice fun i j h1 h2 h3 => not_tied_of_not_le' (hall i j h1 h2 h3))
  · rw [Sorted, hrev, List.pairwise_reverse]
    exact pairwise_slice fun i j h1 h2 h3 => hP.le_of_not_le (hall i j h1 h2 h3)
  · rw [happly, if_neg (by omega)]

/-! ## The next run -/

theorem countRun_spec (hlt : lo < hi) (b : ℕ → Row hs ts) :
    let r := countRun C.toComparison lo hi b
    0 < r.1 ∧ lo + r.1 ≤ hi ∧
      (r.2 = true → ∀ i, lo < i → i < lo + r.1 → rowLe C (b (i - 1)) (b i) = false) ∧
      (r.2 = false → Sorted C b lo (lo + r.1)) := by
  have hP := preordering_rowLe C ts
  rw [countRun]
  by_cases hone : lo + 1 = hi
  · rw [if_pos hone]
    refine ⟨Nat.one_pos, hone.le, fun h => absurd h Bool.false_ne_true, fun _ => ?_⟩
    exact pairwise_slice fun i j h1 h2 h3 => by omega
  rw [if_neg hone]
  by_cases hdesc : C.lt (b (lo + 1)).1 (b lo).1 = true
  -- a strictly descending run
  · rw [if_pos hdesc]
    have hb := boundary_scanUp_sub (fun i => C.lt (b i).1 (b (i - 1)).1) (by omega : lo + 2 ≤ hi)
    have h1 := hb.lo_le
    have h2 := hb.le_hi
    refine ⟨by omega, by omega, fun _ i hi hi' => ?_, fun h => absurd h.symm Bool.false_ne_true⟩
    rw [← Bool.not_eq_true', ← lt_eq_not_rowLe]
    by_cases hi2 : i = lo + 1
    · rw [hi2]
      exact hdesc
    · exact hb.below i (by omega) (by omega)
  · rw [if_neg hdesc]
    have hb := boundary_scanUp_sub (fun i => !C.lt (b i).1 (b (i - 1)).1) (by omega : lo + 2 ≤ hi)
    have h1 := hb.lo_le
    have h2 := hb.le_hi
    refine ⟨by omega, by omega, fun h => absurd h Bool.false_ne_true, fun _ => ?_⟩
    apply pairwise_slice
    refine rel_of_neighbours (R := fun x y => rowLe C x y = true) hP.trans fun i hi hi' => ?_
    rw [← Bool.not_not (rowLe C (b (i - 1)) (b i)), ← lt_eq_not_rowLe]
    by_cases hi2 : i = lo + 1
    · rw [hi2, Bool.not_eq_true', Bool.eq_false_iff]
      exact hdesc
    · exact hb.below i (by omega) (by omega)

/-- **The next run is sorted, with ties in their old order.** -/
theorem makeRun_spec (minrun : ℕ) (hlt : lo < hi) (b : ℕ → Row hs ts) :
    let r := makeRun C.toComparison minrun lo hi b
    0 < r.1 ∧ lo + r.1 ≤ hi ∧ SortedPiece C b r.2 lo (lo + r.1) := by
  obtain ⟨hpos, hle, hdesc, hasc⟩ := countRun_spec (C := C) hlt b
  rw [makeRun]
  rcases hrun : countRun C.toComparison lo hi b with ⟨n, descending⟩
  rw [hrun] at hpos hle hdesc hasc
  dsimp only at hpos hle hdesc hasc ⊢
  -- a descending run is strictly so, and reversing it is stable
  have hturn : SortedPiece C b (if descending = true then reverseSlice lo (lo + n) b else b) lo
      (lo + n) := by
    cases descending with
    | true => exact reverseSlice_spec (by omega) (hdesc rfl)
    | false => exact .of_sorted (hasc rfl)
  by_cases hshort : n < minrun
  -- a short run is extended by insertion
  · rw [if_pos hshort]
    set force := if hi - lo ≤ minrun then hi - lo else minrun with hforce
    have hf : n ≤ force ∧ lo + force ≤ hi := by
      rw [hforce]
      split_ifs <;> omega
    refine ⟨by omega, hf.2, ?_⟩
    exact hturn.extend (by omega) (by omega) (binarysort_spec (by omega) (by omega) hturn.sorted)
  · rw [if_neg hshort]
    exact ⟨hpos, hle, hturn⟩

end MonetInR.Gdk.Ssort
