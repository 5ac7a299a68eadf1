import MonetInR.Gdk.Column
import MonetInR.Lib.IntervalSearch

/-!
# The join kernels

`mergejoin` and `hashjoin` both produce two aligned columns of oids.  The merge join runs over
the left rows and keeps a range of right rows; it needs the right column to be sorted in one of
the two directions, and uses a left column that is sorted as well to skip rows.  The hash join
probes a hash index on the right column for every left row.

The three switches are `nilMatches` (nils are equal to each other), `nilOnMiss` (a left row
without partner is paired with nil) and `semi` (a left row is paired at most once).

## Main definitions

* `binsearch`, `Side.searchFrom`, `Side.searchUpTo`: binary search over a cursor range
* `MergeJoin.iter`, `mergejoin`: one round of the merge loop, and the whole
* `binsearchcand`, `hashjoin`: the hash join
* `BATsubleftjoin`: the operator that chooses between the two
-/

namespace MonetInR.Gdk

open IntervalSearch

variable {α : Type*} [Atom α]

/-- The property flags a join keeps for one of its result columns. -/
structure Props where
  tkey : Bool
  tsorted : Bool
  trevsorted : Bool
  nil : Bool
  nonil : Bool
  deriving DecidableEq, Repr

/-- The two aligned result columns and their flags. -/
structure JoinResult where
  pairs : List (ℕ × ℕ)
  r1 : Props
  r2 : Props
  deriving DecidableEq, Repr

/-- Empty results with every flag set. -/
def joininitresults : JoinResult :=
  ⟨[], ⟨true, true, true, false, true⟩, ⟨true, true, true, false, true⟩⟩

section Params

/-- The checks on the arguments of a join, in order. -/
def joinparamcheck (l r : Column α) (sl sr : Option Candidates) (func : String) :
    Except String Unit :=
  if !l.hdense || !r.hdense then
    .error (func ++ ": inputs must have dense head.\n")
  else if l.ttype == typeVoid || r.ttype == typeVoid then
    .error (func ++ ": tail type must not be VOID.\n")
  else if l.ttype != r.ttype then
    .error (func ++ ": inputs not compatible.\n")
  else if sl.any (fun s => !s.hdense) || sr.any (fun s => !s.hdense) then
    .error (func ++ ": candidate lists must have dense head.\n")
  else if sl.any (fun s => !s.oidTail) || sr.any (fun s => !s.oidTail) then
    .error (func ++ ": candidate lists must have OID tail.\n")
  else if sl.any (fun s => !s.tsorted) || sr.any (fun s => !s.tsorted) then
    .error (func ++ ": candidate lists must be sorted.\n")
  else if sl.any (fun s => !s.tkey) || sr.any (fun s => !s.tkey) then
    .error (func ++ ": candidate lists must be unique.\n")
  else .ok ()

end Params

/-! ## Binary search -/

section Search

variable {α : Type*} [LinearOrder α]

/-- The comparison that ends the search: the value comes after `v`, or is equal to it and the
first such value is wanted. -/
def stopsAt (v : α) (reverse : ℤ) (last : Bool) (x : α) : Bool :=
  0 < reverse * atomCmp x v || (!last && reverse * atomCmp x v == 0)

/-- Binary search in `[lo, hi)` for the first value `> v` (`last`) or `≥ v` (not `last`). -/
def binsearch (val : ℕ → α) (lo hi : ℕ) (v : α) (reverse : ℤ) (last : Bool) : ℕ :=
  let hi := sub64 hi 1
  if stopsAt v reverse last (val lo) then lo
  else if !stopsAt v reverse last (val hi) then hi + 1
  else halve (fun mid => stopsAt v reverse last (val mid)) (hi - lo) lo hi

/-- Search the cursors from `cur + skip` to `hi`.  Over a candidate array the search is relative
to the current cursor. -/
def Side.searchFrom (s : Side α) (cur skip hi : ℕ) (v : α) (reverse : ℤ) (last : Bool) : ℕ :=
  if s.isCand then cur + binsearch (fun x => s.val (cur + x)) skip (hi - cur) v reverse last
  else binsearch s.val (cur + skip) hi v reverse last

/-- Search the cursors from `cur` to `hi - less`. -/
def Side.searchUpTo (s : Side α) (cur hi less : ℕ) (v : α) (reverse : ℤ) (last : Bool) : ℕ :=
  if s.isCand then cur + binsearch (fun x => s.val (cur + x)) 0 (hi - cur - less) v reverse last
  else binsearch s.val cur (hi - less) v reverse last

end Search

/-! ## Merge join -/

/-- `for (nl = n, scan = 4; nl > 0; scan++) nl >>= 1` -/
def scanWindow (n : ℕ) : ℕ := loop 64 n 4
where
  loop : ℕ → ℕ → ℕ → ℕ
    | 0, _, scan => scan
    | fuel + 1, nl, scan => if 0 < nl then loop fuel (nl >>> 1) (scan + 1) else scan

/-- What stays fixed during a merge join. -/
structure MergeJoin (α : Type*) where
  l : Side α
  r : Side α
  lscan : ℕ
  rscan : ℕ
  equalOrder : Bool
  lreverse : ℤ
  rreverse : ℤ
  nilMatches : Bool
  nilOnMiss : Bool
  semi : Bool

/-- The cursors of a merge join, the previous value (used when the left column is not sorted)
and the results so far. -/
structure MergeState (α : Type*) where
  li : ℕ
  rlo : ℕ
  rhi : ℕ
  prev : Option α
  res : JoinResult

namespace MergeJoin

variable (J : MergeJoin α)

/-- If the next right value is more than `lscan` rows away, skip left rows by binary search. -/
def gallop (li rlo : ℕ) : ℕ :=
  if !J.nilOnMiss && 0 < J.lscan then
    if J.lscan < J.l.hi - li ∧ J.lreverse * atomCmp (J.l.val (li + J.lscan)) (J.r.val rlo) < 0 then
      J.l.searchFrom li J.lscan J.l.hi (J.r.val rlo) J.lreverse false
    else li
  else li

/-- The cursor behind the left rows that are equal to the one at `li`. -/
def runEnd (li : ℕ) : ℕ :=
  scanUp (fun c => atomCmp (J.l.val li) (J.l.val c) = 0) (li + 1) (J.l.hi - (li + 1))

/-- Same scan order: move the lower right cursor to the first value not before `v`. -/
def advance (v : α) (rlo rhi : ℕ) : ℕ :=
  if J.lscan = 0 ∨ (J.rscan < rhi - rlo ∧ 0 < J.rreverse * atomCmp v (J.r.val (rlo + J.rscan))) then
    J.r.searchFrom rlo (if J.lscan = 0 then 0 else J.rscan) rhi v J.rreverse false
  else scanUp (fun c => 0 < J.rreverse * atomCmp v (J.r.val c)) rlo (rhi - rlo)

/-- Same scan order: the cursor behind the right values equal to `v`. -/
def pass (v : α) (rlo rhi : ℕ) : ℕ :=
  if J.rscan < rhi - rlo ∧ atomCmp v (J.r.val (rlo + J.rscan)) = 0 then
    J.r.searchFrom rlo J.rscan rhi v J.rreverse true
  else scanUp (fun c => atomCmp v (J.r.val c) = 0) rlo (rhi - rlo)

/-- Opposite scan order: move the upper right cursor down to the first value after `v`. -/
def retreat (v : α) (rlo rhi : ℕ) : ℕ :=
  if J.rscan < rhi - rlo ∧ J.rreverse * atomCmp v (J.r.val (rhi - J.rscan - 1)) < 0 then
    J.r.searchUpTo rlo rhi (if J.lscan = 0 then 0 else J.rscan) v J.rreverse true
  else scanDown (fun c => J.rreverse * atomCmp v (J.r.val c) < 0) rhi (rhi - rlo)

/-- Opposite scan order: the first cursor of the right values equal to `v`. -/
def passDown (v : α) (rlo rhi : ℕ) : ℕ :=
  if J.rscan < rhi - rlo ∧ atomCmp v (J.r.val (rhi - J.rscan - 1)) = 0 then
    J.r.searchUpTo rlo rhi J.rscan v J.rreverse false
  else scanDown (fun c => atomCmp v (J.r.val c) = 0) rhi (rhi - rlo)

/-- The right rows equal to `v`: the cursor range after it, and how many there are. -/
def matchRange (v : α) (rlo rhi : ℕ) : ℕ × ℕ × ℕ :=
  if J.equalOrder then
    let rlo := J.advance v rlo rhi
    let rlo' := J.pass v rlo rhi
    (rlo', rhi, rlo' - rlo)
  else
    let rhi := J.retreat v rlo rhi
    let rhi' := J.passDown v rlo rhi
    (rlo, rhi', rhi - rhi')

/-- The flags of the two results when `nl` left rows are paired with `nr` right ones each. -/
def maintainProps (res : JoinResult) (prev : Option α) (v : α) (nl nr : ℕ) : Props × Props :=
  let r1 := res.r1
  let r2 := res.r2
  let (r1, r2) := if 1 < nl then ({ r1 with trevsorted := false }, { r2 with tkey := false })
    else (r1, r2)
  let (r1, r2) :=
    if 1 < nr then
      ({ r1 with tkey := false },
        { r2 with trevsorted := false, tsorted := if 1 < nl then false else r2.tsorted })
    else (r1, r2)
  let r2 :=
    if J.lscan = 0 then
      match prev with
      | some p =>
        if J.rreverse * atomCmp p v < 0 then { r2 with trevsorted := false }
        else { r2 with tsorted := false }
      | none => r2
    else r2
  if 0 < res.pairs.length then
    ({ r1 with trevsorted := false },
      if J.equalOrder then { r2 with trevsorted := false } else { r2 with tsorted := false })
  else (r1, r2)

/-- The pairs of the left cursors `[li - nl, li)` with the right rows found. -/
def emit (li nl : ℕ) (right : List ℕ) : List (ℕ × ℕ) :=
  (List.range' (li - nl) nl).flatMap fun c => right.map fun o => (J.l.oid c, o)

/-- The oids of the right rows to pair with: all of the run, or one for a semijoin. -/
def rightOids (rlo rhi nr : ℕ) : List ℕ :=
  if J.equalOrder then (List.range' (rlo - nr) nr).map J.r.oid
  else (List.range' rhi nr).map J.r.oid

/-- One round of the loop.  The flag says that the loop is left. -/
def iter (st : MergeState α) : MergeState α × Bool :=
  -- an unsorted left column means that the right one is always searched completely
  let rlo := if J.lscan = 0 then J.r.lo else st.rlo
  let li := J.gallop st.li rlo
  let v := J.l.val li
  let li' := J.runEnd li
  let nl := li' - li
  if !J.nilMatches && atomCmp v ⊥ == 0 then
    ({ st with li := li', rlo := rlo }, false)
  else
    let (rlo', rhi', nr) := J.matchRange v rlo st.rhi
    if nr = 0 ∧ !J.nilOnMiss then
      ({ st with li := li', rlo := rlo', rhi := rhi' }, decide (0 < J.lscan ∧ rlo' = rhi'))
    else
      let insertNil := nr = 0
      let res :=
        if insertNil then
          { st.res with
            r2 := { st.res.r2 with nil := true, nonil := false, tsorted := false,
                                   trevsorted := false } }
        else st.res
      let nr' := if insertNil ∨ J.semi then 1 else nr
      let props := J.maintainProps res st.prev v nl nr'
      let right := if insertNil then [oidNil] else J.rightOids rlo' rhi' nr'
      ({ li := li', rlo := rlo', rhi := rhi'
         prev := if J.lscan = 0 then some v else st.prev
         res := ⟨res.pairs ++ J.emit li' nl right, props.1, props.2⟩ }, false)

/-- The loop over the left rows; every round moves the left cursor, so `n` rounds are enough
for `n` rows. -/
def loop : ℕ → MergeState α → MergeState α
  | 0, st => st
  | n + 1, st =>
    if st.li < J.l.hi then
      let (st', stop) := J.iter st
      if stop then st' else loop n st'
    else st

end MergeJoin

section Kernels

/-- Merge join of `l` and `r`, where `r` is sorted or reverse sorted. -/
def mergejoin (l r : Column α) (sl sr : Option Candidates) (nilMatches nilOnMiss semi : Bool)
    (res : JoinResult) : JoinResult :=
  let lc := CANDINIT l sl
  let rc := CANDINIT r sr
  if lc.start = lc.stop ∨ (!nilOnMiss ∧ rc.start = rc.stop) then res
  else
    let ls := l.side lc
    let rs := r.side rc
    let lsorted := l.tsorted || l.trevsorted
    let J : MergeJoin α :=
      { l := ls
        r := rs
        lscan := if lsorted then scanWindow (ls.hi - ls.lo) else 0
        rscan := scanWindow (rs.hi - rs.lo)
        equalOrder := if lsorted then l.tsorted == r.tsorted || l.trevsorted == r.trevsorted
          else true
        lreverse := if lsorted then (if l.tsorted then 1 else -1) else 1
        rreverse := if r.tsorted then 1 else -1
        nilMatches := nilMatches
        nilOnMiss := nilOnMiss
        semi := semi }
    -- if `l` is not sorted, the results are unique only if the opposite input is
    let res := if lsorted then res
      else { res with r1 := { res.r1 with tkey := r.tkey }, r2 := { res.r2 with tkey := l.tkey } }
    (J.loop (ls.hi - ls.lo) ⟨ls.lo, rs.lo, rs.hi, none, res⟩).res

end Kernels

/-! ## Hash join -/

/-- Binary search in a candidate list: is `v` one of `cand[lo], …, cand[hi - 1]`? -/
def binsearchcand (cand : ℕ → ℕ) (lo hi v : ℕ) : Bool :=
  let hi := sub64 hi 1
  if v < cand lo ∨ cand hi < v then false else loop (hi - lo + 1) lo hi
where
  /-- `while (hi > lo)`, testing the middle candidate -/
  loop : ℕ → ℕ → ℕ → Bool
    | 0, lo, _ => cand lo == v
    | n + 1, lo, hi =>
      if lo < hi then
        let mid := (lo + hi) / 2
        if cand mid = v then true
        else if cand mid < v then loop n (mid + 1) hi
        else loop n lo (mid - 1)
      else cand lo == v

/-- What stays fixed during a hash join: the left rows, each with its oid, its value and the hash of
the value, the probe of the right index that yields the right oids, and the switches. -/
structure HashJoin (α : Type*) where
  rows : List (ℕ × α × ℕ)
  probe : α × ℕ → List ℕ
  nilMatches : Bool
  nilOnMiss : Bool
  semi : Bool
  /-- The loop over a candidate array also clears `tkey` when it inserts a nil. -/
  missKey : Bool

namespace HashJoin

variable (J : HashJoin α)

/-- One left row. -/
def iter (res : JoinResult) (row : ℕ × α × ℕ) : JoinResult :=
  if !J.nilMatches && atomCmp row.2.1 ⊥ == 0 then res
  else
    let found := if J.semi then (J.probe row.2).take 1 else J.probe row.2
    let nr := found.length
    let (res, nr) :=
      if nr = 0 ∧ J.nilOnMiss then
        ({ res with
            pairs := res.pairs ++ [(row.1, oidNil)]
            r2 := { res.r2 with nil := true, nonil := false,
                                tkey := if J.missKey then false else res.r2.tkey } }, 1)
      else
        ({ res with
            pairs := res.pairs ++ found.map fun o => (row.1, o)
            r1 := if 1 < nr then { res.r1 with tkey := false } else res.r1 }, nr)
    if 0 < nr ∧ nr < res.pairs.length then
      { res with r1 := { res.r1 with trevsorted := false } }
    else res

def loop (res : JoinResult) : JoinResult := J.rows.foldl J.iter res

end HashJoin

section Kernels

/-- The value at a position counted from the first one, with its hash. -/
def Column.hashed (b : Column α) (i : ℕ) : α × ℕ := (b.value i, b.hashAt (b.first + i))

/-- The left rows of a hash join with their oids. -/
def hashRows (l : Column α) (c : CandRange) : List (ℕ × α × ℕ) :=
  match c.cand with
  | some cand =>
    (List.range c.ncand).map fun i => (cand i, l.hashed (sub64 (cand i) l.hseqbase))
  | none =>
    -- `lo = lstart - BUNfirst(l) + l->hseqbase`, counted up together with `lstart`
    (List.range (c.stop - c.start)).map fun i =>
      ((sub64 c.start l.first + l.hseqbase + i) % 2 ^ 64, l.hashed (c.start + i))

/-- The test of a right oid against the candidates. -/
def hashAccepts (c : CandRange) (ro : ℕ) : Bool :=
  match c.cand with
  | some cand => binsearchcand cand 0 c.ncand ro
  | none => !(ro < c.start || c.stop ≤ ro)

/-- The right oids found for a value with its hash. -/
def hashProbe (r : Column α) (c : CandRange) (mem : ℕ → ℕ) (v : α × ℕ) : List ℕ :=
  (hashOids r mem v.1 v.2).filter (hashAccepts c)

/-- Hash join of `l` and `r`. -/
def hashjoin (l r : Column α) (sl sr : Option Candidates) (mem : ℕ → ℕ)
    (nilMatches nilOnMiss semi : Bool) (res : JoinResult) : JoinResult :=
  let lc := CANDINIT l sl
  let rc := CANDINIT r sr
  -- if an input column is key, the opposite output column will be key
  let res := { res with
    r1 := { res.r1 with tkey := r.tkey }
    r2 := { res.r2 with tkey := l.tkey, tsorted := false, trevsorted := false } }
  if lc.start = lc.stop ∨ (!nilOnMiss ∧ rc.start = rc.stop) then res
  else
    let J : HashJoin α :=
      { rows := hashRows l lc
        probe := hashProbe r rc mem
        nilMatches := nilMatches
        nilOnMiss := nilOnMiss
        semi := semi
        missKey := lc.cand.isSome }
    let res := J.loop res
    if res.pairs.length ≤ 1 then
      { res with
        r1 := { res.r1 with tsorted := true, trevsorted := true, tkey := true }
        r2 := { res.r2 with tsorted := true, trevsorted := true, tkey := true } }
    else res

/-- Equi-join whose result is in the order of `l`.  `mem` is what the heap of a new hash index
holds. -/
def BATsubleftjoin (l r : Column α) (sl sr : Option Candidates) (mem : ℕ → ℕ) :
    Except String JoinResult := do
  joinparamcheck l r sl sr "BATsubleftjoin"
  if r.tsorted || r.trevsorted then
    return mergejoin l r sl sr false false false joininitresults
  else
    return hashjoin l r sl sr mem false false false joininitresults

end Kernels

end MonetInR.Gdk
