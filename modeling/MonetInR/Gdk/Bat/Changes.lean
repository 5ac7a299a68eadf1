import MonetInR.Gdk.Bat.Column
import MonetInR.Lib.Runs

/-!
# Updates of a BAT

The positions of a BAT form four regions: deleted but not yet committed as such
(`deleted` up to `first`), committed (`first` up to `inserted`), inserted since the last commit
(`inserted` up to `BUNlast`), and free space.  Deleting a committed BUN exchanges it with the first
one and moves `first` past it, so that it can be brought back; an inserted BUN is overwritten by
the last one.

An update is a sequence of a few kinds of changes: a dense `void` column is given its oids, one BUN
is deleted, added, or gets a new tail, or everything is deleted at once.  Which changes an update
makes depends on the BAT.  They are listed here, so that an invariant needs to be looked at for each
kind of change only.  What happens to a head is described as happening to the tail of the mirrored
BAT, which is how the kernel itself goes about it.

## Main definitions

* `Bat`: a BAT, `Bat.mirror`: the same BAT with head and tail exchanged
* `BUNins`, `BUNappend`, `BUNdelete`, `BUNinplace`, `BATclear`: the updates
* `BATcommit`, `BATundo`: the end of a transaction
* `Update`, `Bat.apply`: updates as data
* `Change`, `Bat.changes`: the changes an update makes

## Main results

* `trace_apply`: an update does what its changes do
* `BUNinsAux_ne_error`: a call of `BUNins` comes to an end
-/

namespace MonetInR.Gdk

open OidAtom Runs Option

variable {V : Type*} [OidAtom V]

/-- A BAT: head and tail column, the boundaries of the regions, and the property `set`. -/
structure Bat (V : Type*) where
  H : Col V
  T : Col V
  deleted : ℕ
  first : ℕ
  inserted : ℕ
  count : ℕ
  capacity : ℕ
  set : Bool

namespace Bat

/-- `BUNlast`: the position behind the last BUN. -/
def last (b : Bat V) : ℕ := b.first + b.count

/-- `BATmirror`: head and tail exchanged. -/
def mirror (b : Bat V) : Bat V := { b with H := b.T, T := b.H }

/-- The head and the tail value at a position. -/
def head (b : Bat V) (p : ℕ) : V := b.H.value b.first p
def tail (b : Bat V) (p : ℕ) : V := b.T.value b.first p

/-- The largest number of BUNs. -/
def bunMax : ℕ := 2 ^ 63 - 2

/-- Both columns are `void`, so that only the number of BUNs is stored. -/
def countonly (b : Bat V) : Bool := b.H.type == .void && b.T.type == .void

/-- `HASHdestroy`. -/
def HASHdestroy (b : Bat V) : Bat V :=
  { b with H := { b.H with hash := none }, T := { b.T with hash := none } }

/-- `BATsetcount`. -/
def BATsetcount (b : Bat V) (cnt : ℕ) : Bat V :=
  { b with count := cnt, capacity := if b.countonly then cnt else b.capacity }

/-- `BATgrows`: the capacity after the next extension. -/
def BATgrows (b : Bat V) : ℕ :=
  let cap := b.capacity
  let newcap :=
    if cap < 256 then 2 * 256
    else if cap < 10 * 256 then 4 * cap
    else if cap < 50 * 256 then 2 * cap
    else if cap * 12 / 10 ≤ bunMax then cap * 12 / 10
    else bunMax
  if newcap = cap then (if newcap ≤ bunMax - 10 then newcap + 10 else bunMax) else newcap

/-- `BATextend`, which gives up the hash indexes. -/
def BATextend (b : Bat V) (newcap : ℕ) : Bat V :=
  if newcap ≤ b.capacity then b else { b with capacity := newcap }.HASHdestroy

/-! ## Materialisation

A `void` column stores no oids.  They have to be written out before a BUN is stored that does not
continue the sequence.  The functions for tails are those for heads of the mirrored BAT. -/

/-- Give a dense `void` head its oids. -/
def BATmaterializeh (b : Bat V) : Bat V :=
  if b.H.voidDense then { b with H := b.H.materialize b.count }.HASHdestroy
  else b

/-- Give a dense `void` tail its oids. -/
def BATmaterializet (b : Bat V) : Bat V := b.mirror.BATmaterializeh.mirror

def BATmaterialize (b : Bat V) : Bat V := b.BATmaterializeh.BATmaterializet

/-- `void_materialize` for the head value `x`: a dense `void` head that `x` does not continue is
materialised; an empty one starts at `x`. -/
def voidMaterializeh (b : Bat V) (x : V) : Bat V :=
  match b.H.type, b.H.seq with
  | .void, some s =>
    if toOid x = none ∨ (0 < b.count ∧ toOid x ≠ some (s + b.count)) then b.BATmaterializeh
    else if b.count = 0 then { b with H := { b.H with seq := toOid x } }
    else b
  | _, _ => b

def voidMaterializet (b : Bat V) (x : V) : Bat V := (b.mirror.voidMaterializeh x).mirror

/-! ## Deletion

A committed BUN changes places with the first one and is left in front of the others, where an undo
finds it.  Any other BUN is overwritten by the last one. -/

/-- `BUNdelete_`.  Returns with the BAT the position that a loop over the BUNs goes on with. -/
def BUNdelete_ (b : Bat V) (p : ℕ) (force : Bool) : Bat V × ℕ :=
  let last := b.last - 1
  if p < b.inserted && !force then
    -- a committed BUN and the first one swap position
    let b :=
      if p = b.first then
        { b with H := b.H.delFirst b.first p last, T := b.T.delFirst b.first p last }
      else { b with H := b.H.delSwap b.first p last, T := b.T.delSwap b.first p last }
    ({ b with first := b.first + 1, count := b.count - 1 }, p + 1)
  else
    ({ b with
        H := b.H.delLast b.first p last, T := b.T.delLast b.first p last, count := b.count - 1 },
      p)

/-- Unless the last BUN goes for good, dense `void` columns must get their oids. -/
def deleteMaterializes (b : Bat V) (p : ℕ) (force : Bool) : Prop :=
  (b.H.voidDense ∨ b.T.voidDense) ∧ (p < b.inserted ∨ p ≠ b.last - 1) ∧ !force
  deriving Decidable

/-- Delete the BUN at position `p`. -/
def BUNdelete (b : Bat V) (p : ℕ) (force : Bool) : Bat V × ℕ :=
  let b := if b.deleteMaterializes p force then b.BATmaterialize else b
  b.BUNdelete_ p force

/-! ## Insertion

A column can be kept unique, as a whole or together with the other one.  The insertion then replaces
a BUN, for which it deletes a committed one and starts again. -/

/-- `BUNlocate`: a live BUN with a given head and tail. -/
def BUNlocate (b : Bat V) (h t : V) : Option ℕ := (List.range' b.first b.count).find? fun p =>
    atomCmp (b.head p) h = 0 && atomCmp (b.tail p) t = 0

/-- `bunfastins`: store a BUN behind the last one. -/
def bunfastins (b : Bat V) (h : V) (t : V) : Except String (Bat V) :=
  let p := b.last
  if p = bunMax ∨ b.count = bunMax then
    .error "bunfastins: too many elements to accomodate (INT_MAX)\n"
  else
    let b := if b.capacity < p + 1 then b.BATextend b.BATgrows else b
    .ok { b with H := b.H.put p h, T := b.T.put p t, count := b.count + 1 }

/-- Store a BUN, or only count it. -/
def store (b : Bat V) (h t : V) : Except String (Bat V) :=
  if b.countonly then .ok (b.BATsetcount (b.count + 1)) else b.bunfastins h t

/-- Put the BUN at position `p` into the hash indexes.  The head value is missing when a value is
appended to a `void` head. -/
def index (b : Bat V) (p : ℕ) (h : Option V) (t : V) : Bat V := { b with
    H := h.elim b.H (b.H.HASHins b.first b.count p)
    T := b.T.HASHins b.first b.count p t }

/-- Adjust the flags, store the BUN, adapt the hash indexes. -/
def addLast (b : Bat V) (h : Option V) (t : V) : Except String (Bat V) :=
  let b₁ := { b with
    H := b.H.setcolprops b.first b.count h, T := b.T.setcolprops b.first b.count (some t) }
  (b₁.store (h.getD ⊥) t).map fun b₂ => b₂.index b.last h t

/-- The part of `BUNinplace` for a BUN that has not been committed. -/
def replaceTail (b : Bat V) (p : ℕ) (t : V) : Bat V :=
  { b with T := b.T.replace b.first b.count p t }

/-- `BUNins`, which calls itself (through `BUNinplace`) after it has deleted a committed BUN with
the same head or tail.  Every such call has one BUN less to look at. -/
def BUNinsAux : ℕ → Bat V → V → V → Bool → Except String (Bat V)
  | 0, _, _, _, _ => .error ""
  | n + 1, b, h, t, force =>
    let b := (b.voidMaterializeh h).voidMaterializet t
    if b.set && (b.BUNlocate h t).isSome then .ok b
    else
      match b.H.fndBound b.first b.count h with
      | some p =>
        if b.inserted ≤ p || force then .ok (b.replaceTail p t)
        else BUNinsAux n (b.BUNdelete p force).1 h t force
      | none =>
        match b.T.fndBound b.first b.count t with
        | some p =>
          if b.inserted ≤ p || force then .ok (b.mirror.replaceTail p h).mirror
          else (BUNinsAux n (b.mirror.BUNdelete p force).1 t h force).map mirror
        | none =>
          if b.last = bunMax ∨ b.count = bunMax then .error "BUNins: bat too large\n"
          else b.addLast (some h) t

/-- Insert a BUN.  A column that is kept unique makes it replace the BUN with the same value. -/
def BUNins (b : Bat V) (h t : V) (force : Bool) : Except String (Bat V) :=
  BUNinsAux (b.count + 1) b h t force

/-- The number of an oid; `oid_nil` is larger than all others. -/
def oidNumber (v : V) : ℕ := (toOid v).getD (2 ^ 63)

/-- `MAXoid` of the heads. -/
def MAXoid (b : Bat V) : ℕ :=
  let o := oidNumber (b.head (b.last - 1))
  if !b.H.ordered then
    (List.range' b.first b.count).foldl (fun o p => max o (oidNumber (b.head p))) o
  else o

/-- The head of the next BUN that is appended to a column of oids. -/
def nextOid (b : Bat V) : V := ofOid (if b.count = 0 then 0 else b.MAXoid + 1)

/-- Append a tail value with the next oid as head. -/
def BUNappend (b : Bat V) (t : V) : Except String (Bat V) :=
  if b.H.type ≠ .void ∧ b.H.type ≠ .oid then
    .error "BUNappend: can only append to void and oid bats\n"
  else if (b.T.fndBound b.first b.count t).isSome then .ok b
  else if b.last = bunMax ∨ b.count = bunMax then .error "BUNappend: bat too large\n"
  else
    let h := if b.H.type = .oid then some b.nextOid else none
    (b.voidMaterializet t).addLast h t

/-- Replace the tail of the BUN at position `p`; if it has been committed, by deleting it and
inserting a new one. -/
def BUNinplace (b : Bat V) (p : ℕ) (h t : V) (force : Bool) : Except String (Bat V) :=
  if b.inserted ≤ p || force then .ok (b.replaceTail p t)
  else (b.BUNdelete p force).1.BUNins h t force

/-! ## Clearing -/

/-- `BATloopDEL(b, p, q) p = BUNdelete(b, p, FALSE)` -/
def deleteLoop : ℕ → Bat V → ℕ → ℕ → Bat V
  | 0, b, _, _ => b
  | n + 1, b, p, q =>
    if p < q then
      let (b', p') := b.BUNdelete p false
      deleteLoop n b' p' (min q b'.last)
    else b

/-- Free the values at `n` positions from `p` on. -/
def freeAll (c : Col V) (p n : ℕ) : Col V := (List.range' p n).foldl (fun c p => c.free p) c

/-- `BATclear` on a large BAT: all BUNs go at once, and inserted atoms are freed. -/
def clearAll (b : Bat V) (force : Bool) : Bat V :=
  let b := b.HASHdestroy
  let n := b.last - b.inserted
  let b := { b with H := freeAll b.H b.inserted n, T := freeAll b.T b.inserted n }
  let b := if force then { b with first := 0, deleted := 0, inserted := 0 }
    else { b with first := b.inserted }
  let b := b.BATsetcount 0
  { b with H := b.H.COLsettrivprop, T := b.T.COLsettrivprop }

/-- The BUNs of a small BAT are deleted one by one. -/
def clearsOneByOne (b : Bat V) (force : Bool) : Bool :=
  let voidbat := (b.H.type == .void && b.H.isDense) || (b.T.type == .void && b.T.isDense)
  !force && !voidbat && b.count < 20

/-- Delete all BUNs.  Committed ones can be brought back unless `force` is given. -/
def BATclear (b : Bat V) (force : Bool) : Bat V :=
  if b.clearsOneByOne force then deleteLoop b.count b b.first b.last else b.clearAll force

/-! ## Commit and undo

Both move the boundaries of the regions and free the atoms that are gone for good; the undo also
patches the indexes and clears flags.  Its loop over the inserted BUNs is skipped if nothing depends
on it. -/

/-- Deleted BUNs are forgotten, inserted ones stay. -/
def BATcommit (b : Bat V) : Bat V :=
  let n := b.first - b.deleted
  { b with
    H := freeAll b.H b.deleted n, T := freeAll b.T b.deleted n
    deleted := b.first, inserted := b.last }

/-- The inserted values leave the index and are freed. -/
def undoInserted (c : Col V) (first bunlast : ℕ) (ps : List ℕ) : Col V :=
  ps.foldl (fun c p => (c.hashdel first p (p < bunlast)).free p) c

/-- The deleted values come back into the index. -/
def undoDeleted (c : Col V) (first count : ℕ) (ps : List ℕ) : Col V :=
  ps.foldl (fun c p => c.HASHins first count p (c.value first p)) c

/-- The properties of a column into which deleted values come back. -/
def zapProps (c : Col V) : Col V :=
  let c := { c with sorted := false, revsorted := false }
  if c.key ≠ .no then { c with key := .no, dense := false } else c

/-- What `BATundo` does to a column: the values at the positions `ins` go, and the deleted ones
come back. -/
def undoCol (b : Bat V) (c : Col V) (ins : List ℕ) : Col V :=
  let bunlast := sub64 b.last 1
  let c₁ := undoInserted c b.first bunlast ins
  if b.deleted < b.first then
    undoDeleted (zapProps c₁) b.first b.count (List.range' b.deleted (b.first - b.deleted))
  else c₁

/-- A loop over the BUNs is needed: there is an index to patch or something to free. -/
def hasAccs (b : Bat V) : Bool :=
  b.H.hash.isSome || b.T.hash.isSome || b.H.atomDel.isSome || b.T.atomDel.isSome

/-- The positions of the inserted BUNs, if there is something to do for them. -/
def undoPositions (b : Bat V) : List ℕ :=
  let bunlast := sub64 b.last 1
  if b.inserted ≤ bunlast ∧ b.hasAccs then
    List.range' b.inserted (bunlast + 1 - b.inserted) else []

/-- Go back to the last commit.  There is no result if the loop over the inserted BUNs runs past
the end of the heaps. -/
def BATundo (b : Bat V) : Option (Bat V) :=
  let bunlast := sub64 b.last 1
  if b.inserted ≤ bunlast ∧ b.hasAccs ∧ b.capacity ≤ bunlast then none
  else
    some ({ b with
      H := b.undoCol b.H b.undoPositions, T := b.undoCol b.T b.undoPositions
      first := b.deleted }.BATsetcount b.inserted)

end Bat

/-! ## Updates as data -/

/-- The updates of a BAT. -/
inductive Update (V : Type*)
  | ins (h t : V) (force : Bool)
  | append (t : V)
  | delete (p : ℕ) (force : Bool)
  | inplace (p : ℕ) (h t : V) (force : Bool)
  | clear (force : Bool)

namespace Bat

/-- A position of a live BUN. -/
def Live (b : Bat V) (p : ℕ) : Prop := b.first ≤ p ∧ p < b.last
  deriving Decidable

/-- One update.  Positions must be those of live BUNs. -/
def apply (b : Bat V) : Update V → Except String (Bat V)
  | .ins h t force => b.BUNins h t force
  | .append t => b.BUNappend t
  | .delete p force => if b.Live p then .ok (b.BUNdelete p force).1 else .error ""
  | .inplace p h t force => if b.Live p then b.BUNinplace p h t force else .error ""
  | .clear force => .ok (b.BATclear force)

end Bat

/-! ## Changes

A change is given by what it does, as a relation, so that an invariant is proved by a case for each
kind of change.  How the code gets there is left to the updates. -/

/-- The kinds of changes. -/
inductive Change (V : Type*)
  /-- Head and tail are exchanged. -/
  | mirror
  /-- A dense `void` head gets its oids. -/
  | materialize
  /-- A dense `void` head without values starts at `x`. -/
  | seed (x : V)
  /-- The BUN at a position is deleted. -/
  | delete (p : ℕ) (force : Bool)
  /-- The BUN at a position gets another tail. -/
  | replace (p : ℕ) (t : V)
  /-- A BUN is added behind the last one. -/
  | add (h : Option V) (t : V)
  /-- All BUNs are deleted. -/
  | clear (force : Bool)

/-- The value `x` continues the oids of the column, if it is a dense `void` column. -/
def Col.Follows (c : Col V) (count : ℕ) (x : V) : Prop :=
  ∀ s, c.type = .void → c.seq = some s → toOid x = some (s + count)

namespace Bat

/-- What a change does. -/
def Changes (b : Bat V) : Change V → Bat V → Prop
  | .mirror, b' => b' = b.mirror
  | .materialize, b' => b.H.voidDense ∧ b' = b.BATmaterializeh
  | .seed x, b' =>
    b.H.voidDense ∧ b.count = 0 ∧ (toOid x).isSome ∧
      b' = { b with H := { b.H with seq := toOid x } }
  | .delete p force, b' =>
    b.Live p ∧ (p < b.inserted → force = false → ¬ b.H.voidDense ∧ ¬ b.T.voidDense) ∧
      b' = (b.BUNdelete_ p force).1
  | .replace p t, b' => b.Live p ∧ b' = b.replaceTail p t
  | .add h t, b' =>
    (h = none → b.H.type = .void) ∧ (∀ x, h = some x → b.H.Follows b.count x) ∧
      b.T.Follows b.count t ∧ b.addLast h t = .ok b'
  | .clear force, b' => b.clearsOneByOne force = false ∧ b' = b.clearAll force

/-! ## The changes of each update

These functions follow the code of the updates, branch by branch.  The BAT before each change is
kept with it, because what holds there is what the invariants need. -/

/-- `void_materialize` on the head. -/
def voidChanges (b : Bat V) (x : V) : List (Bat V × Change V) :=
  match b.H.type, b.H.seq with
  | .void, some s =>
    if toOid x = none ∨ (0 < b.count ∧ toOid x ≠ some (s + b.count)) then [(b, .materialize)]
    else if b.count = 0 then [(b, .seed x)]
    else []
  | _, _ => []

/-- Changes of the mirrored BAT that lead to `b'`. -/
def mirrored (b : Bat V) (tr : List (Bat V × Change V)) (b' : Bat V) : List (Bat V × Change V) :=
  (b, .mirror) :: tr ++ [(b', .mirror)]

/-- `BATmaterialize` -/
def materializeChanges (b : Bat V) : List (Bat V × Change V) :=
  let heads := fun b : Bat V => if b.H.voidDense then [(b, .materialize)] else []
  let b₁ := b.BATmaterializeh
  heads b ++ mirrored b₁ (heads b₁.mirror) b₁.mirror.BATmaterializeh

def deleteChanges (b : Bat V) (p : ℕ) (force : Bool) : List (Bat V × Change V) :=
  if b.deleteMaterializes p force then
    b.materializeChanges ++ [(b.BATmaterialize, .delete p force)]
  else [(b, .delete p force)]

/-- `void_materialize` on both columns. -/
def insMaterializeChanges (b : Bat V) (h t : V) : List (Bat V × Change V) :=
  let b₁ := b.voidMaterializeh h
  b.voidChanges h ++ mirrored b₁ (b₁.mirror.voidChanges t) (b₁.mirror.voidMaterializeh t)

/-- The result of a call for the mirrored BAT is mirrored. -/
def mirrorResult : Except String (Bat V) → List (Bat V × Change V)
  | .ok b => [(b, .mirror)]
  | .error _ => []

def insChanges : ℕ → Bat V → V → V → Bool → List (Bat V × Change V)
  | 0, _, _, _, _ => []
  | n + 1, b, h, t, force =>
    let b' := (b.voidMaterializeh h).voidMaterializet t
    b.insMaterializeChanges h t ++
    if b'.set && (b'.BUNlocate h t).isSome then []
    else
      match b'.H.fndBound b'.first b'.count h with
      | some p =>
        if b'.inserted ≤ p || force then [(b', .replace p t)]
        else b'.deleteChanges p force ++ insChanges n (b'.BUNdelete p force).1 h t force
      | none =>
        match b'.T.fndBound b'.first b'.count t with
        | some p =>
          if b'.inserted ≤ p || force then
            mirrored b' [(b'.mirror, .replace p h)] (b'.mirror.replaceTail p h)
          else
            let b₁ := (b'.mirror.BUNdelete p force).1
            (b', .mirror) :: b'.mirror.deleteChanges p force ++ insChanges n b₁ t h force ++
              mirrorResult (BUNinsAux n b₁ t h force)
        | none => [(b', .add (some h) t)]

def appendChanges (b : Bat V) (t : V) : List (Bat V × Change V) :=
  if (b.T.fndBound b.first b.count t).isSome then []
  else
    mirrored b (b.mirror.voidChanges t) (b.mirror.voidMaterializeh t) ++
      [(b.voidMaterializet t, .add (if b.H.type = .oid then some b.nextOid else none) t)]

def inplaceChanges (b : Bat V) (p : ℕ) (h t : V) (force : Bool) : List (Bat V × Change V) :=
  if b.inserted ≤ p || force then [(b, .replace p t)]
  else
    let b' := (b.BUNdelete p force).1
    b.deleteChanges p force ++ insChanges (b'.count + 1) b' h t force

def loopChanges : ℕ → Bat V → ℕ → ℕ → List (Bat V × Change V)
  | 0, _, _, _ => []
  | n + 1, b, p, q =>
    if p < q then
      let (b', p') := b.BUNdelete p false
      b.deleteChanges p false ++ loopChanges n b' p' (min q b'.last)
    else []

/-- **The changes an update makes**, each with the BAT before it. -/
def changes (b : Bat V) : Update V → List (Bat V × Change V)
  | .ins h t force => insChanges (b.count + 1) b h t force
  | .append t => b.appendChanges t
  | .delete p force => b.deleteChanges p force
  | .inplace p h t force => b.inplaceChanges p h t force
  | .clear force =>
    if b.clearsOneByOne force then loopChanges b.count b b.first b.last else [(b, .clear force)]

/-! ## What stays the same

Lemmas about the fields that an operation leaves alone. -/

variable {b b' : Bat V} {p : ℕ} {h t x v : V} {force : Bool} {c : Col V}

/-- Materialising the head leaves the BUNs where they are, and the kind of the tail. -/
theorem BATmaterializeh_frame (b : Bat V) :
    b.BATmaterializeh.first = b.first ∧ b.BATmaterializeh.count = b.count ∧
      b.BATmaterializeh.T.type = b.T.type ∧ b.BATmaterializeh.T.seq = b.T.seq ∧
      ¬ b.BATmaterializeh.H.voidDense := by
  unfold BATmaterializeh
  split_ifs with hv
  · refine ⟨rfl, rfl, rfl, rfl, fun h => ?_⟩
    obtain ⟨ht, hs⟩ := hv
    obtain ⟨s, hs⟩ := isSome_iff_exists.mp hs
    simp [HASHdestroy, Col.materialize, ht, hs, Col.voidDense] at h
  · exact ⟨rfl, rfl, rfl, rfl, hv⟩

theorem BATmaterialize_frame (b : Bat V) :
    b.BATmaterialize.first = b.first ∧ b.BATmaterialize.count = b.count ∧
      ¬ b.BATmaterialize.H.voidDense ∧ ¬ b.BATmaterialize.T.voidDense := by
  obtain ⟨h1, h2, -, -, h5⟩ := b.BATmaterializeh_frame
  obtain ⟨k₁, k₂, k₃, k₄, k₅⟩ := b.BATmaterializeh.mirror.BATmaterializeh_frame
  refine ⟨k₁.trans h1, k₂.trans h2, fun h => h5 ?_, k₅⟩
  exact ⟨k₃.symm.trans h.1, k₄ ▸ h.2⟩

theorem voidMaterializeh_cases (b : Bat V) (x : V) :
    b.H.Follows b.count x ∧ b.voidMaterializeh x = b ∧ b.voidChanges x = [] ∨
    b.H.voidDense ∧ b.voidMaterializeh x = b.BATmaterializeh ∧
      b.voidChanges x = [(b, .materialize)] ∨
    b.H.voidDense ∧ b.count = 0 ∧ (toOid x).isSome ∧
      b.voidMaterializeh x = { b with H := { b.H with seq := toOid x } } ∧
      b.voidChanges x = [(b, .seed x)] := by
  by_cases hv : b.H.voidDense
  · obtain ⟨ht, hs⟩ := id hv
    obtain ⟨s, hs⟩ := isSome_iff_exists.mp hs
    rw [voidChanges, voidMaterializeh]
    simp only [ht, hs]
    split_ifs with h1 h2
    · exact .inr (.inl ⟨hv, rfl, rfl⟩)
    · exact .inr (.inr ⟨hv, h2, isSome_iff_ne_none.mpr (not_or.mp h1).1, rfl, rfl⟩)
    · refine .inl ⟨fun s' _ hs' => ?_, rfl, rfl⟩
      rw [not_or, not_and, not_not] at h1
      rw [hs, some_inj] at hs'
      exact hs' ▸ h1.2 (Nat.pos_of_ne_zero h2)
  · have hseq : ∀ s, b.H.type = .void → b.H.seq ≠ some s :=
      fun s ht hs => hv ⟨ht, by rw [hs]; rfl⟩
    refine .inl ⟨fun s ht hs => absurd hs (hseq s ht), ?_⟩
    unfold voidMaterializeh voidChanges
    split
    · rename_i s ht hs
      exact absurd hs (hseq s ht)
    · exact ⟨rfl, rfl⟩

theorem voidMaterializeh_frame (b : Bat V) (x : V) :
    (b.voidMaterializeh x).first = b.first ∧ (b.voidMaterializeh x).count = b.count ∧
      (b.voidMaterializeh x).T.type = b.T.type ∧ (b.voidMaterializeh x).T.seq = b.T.seq := by
  rcases b.voidMaterializeh_cases x with ⟨-, h, -⟩ | ⟨-, h, -⟩ | ⟨-, -, -, h, -⟩
  · rw [h]
    exact ⟨rfl, rfl, rfl, rfl⟩
  · obtain ⟨h1, h2, h3, h4, -⟩ := b.BATmaterializeh_frame
    rw [h]
    exact ⟨h1, h2, h3, h4⟩
  · rw [h]
    exact ⟨rfl, rfl, rfl, rfl⟩

/-- After `void_materialize` the value continues the column. -/
theorem follows_voidMaterializeh (b : Bat V) (x : V) :
    (b.voidMaterializeh x).H.Follows (b.voidMaterializeh x).count x := by
  rcases b.voidMaterializeh_cases x with ⟨hf, h, -⟩ | ⟨-, h, -⟩ | ⟨-, hc, -, h, -⟩
  · rwa [h]
  · intro s ht hs
    rw [h] at ht hs
    exact absurd ⟨ht, by rw [hs]; rfl⟩ b.BATmaterializeh_frame.2.2.2.2
  · rw [h]
    intro s _ hs
    exact hc.symm ▸ hs

theorem follows_voidMaterializet {b : Bat V} {x : V} (hf : b.H.Follows b.count x) (t : V) :
    (b.voidMaterializet t).H.Follows (b.voidMaterializet t).count x ∧
      (b.voidMaterializet t).T.Follows (b.voidMaterializet t).count t := by
  refine ⟨?_, follows_voidMaterializeh b.mirror t⟩
  obtain ⟨-, h2, h3, h4⟩ := b.mirror.voidMaterializeh_frame t
  intro s ht hs
  rw [show (b.voidMaterializet t).count = b.count from h2]
  exact hf s (h3.symm.trans ht) (h4.symm.trans hs)

theorem HASHins_frame (c : Col V) (first count i : ℕ) (v : V) :
    ∃ hash, c.HASHins first count i v = { c with hash := hash } := by
  unfold Col.HASHins
  split
  · exact ⟨c.hash, rfl⟩
  · split_ifs
    · exact ⟨none, rfl⟩
    · exact ⟨_, rfl⟩

omit [OidAtom V] in
theorem put_of_void (hv : c.type = .void) (p : ℕ) (v : V) : c.put p v = c := by
  rw [Col.put, if_pos hv]

omit [OidAtom V] in
theorem lt_BATgrows (b : Bat V) (hc : b.capacity < bunMax) : b.capacity < b.BATgrows := by
  unfold BATgrows bunMax at *
  dsimp only
  split_ifs <;> omega

omit [OidAtom V] in
/-- Storing a BUN changes, apart from the heaps and the number of BUNs, at most the capacity; then
the indexes are given up. -/
theorem store_spec (hb : b.store h t = .ok b') : ∃ hH hT cap, b' = { b with
        H := { b.H.put b.last h with hash := hH }, T := { b.T.put b.last t with hash := hT }
        count := b.count + 1, capacity := cap } ∧
      (hH = none ∧ hT = none ∨ hH = b.H.hash ∧ hT = b.T.hash ∧
        (b.countonly = false → b.last ≤ bunMax → b.last < b.capacity ∧ cap = b.capacity)) := by
  unfold store at hb
  split_ifs at hb with hc
  · obtain rfl := Except.ok.inj hb
    have hc' : b.H.type = .void ∧ b.T.type = .void := by simpa [countonly] using hc
    refine ⟨b.H.hash, b.T.hash, (b.BATsetcount (b.count + 1)).capacity, ?_, .inr ⟨rfl, rfl, ?_⟩⟩
    · rw [put_of_void hc'.1, put_of_void hc'.2]
      rfl
    · exact fun h' => absurd (hc.symm.trans h') nofun
  · unfold bunfastins at hb
    dsimp only at hb
    split_ifs at hb with hmax hcap
    · obtain rfl := Except.ok.inj hb
      unfold BATextend
      split_ifs with hle
      · refine ⟨b.H.hash, b.T.hash, b.capacity, rfl, .inr ⟨rfl, rfl, fun _ hl => ?_⟩⟩
        -- there is always a larger capacity
        have hgrow := b.lt_BATgrows (by omega)
        omega
      · exact ⟨none, none, b.BATgrows, rfl, .inl ⟨rfl, rfl⟩⟩
    · obtain rfl := Except.ok.inj hb
      exact ⟨b.H.hash, b.T.hash, b.capacity, rfl, .inr ⟨rfl, rfl, fun _ _ => ⟨by omega, rfl⟩⟩⟩

/-- What an insertion leaves behind, apart from the indexes and the capacity. -/
theorem addLast_spec {h : Option V} (hb : b.addLast h t = .ok b') : ∃ hH hT cap, b' = { b with
      H := { (b.H.setcolprops b.first b.count h).put b.last (h.getD ⊥) with hash := hH }
      T := { (b.T.setcolprops b.first b.count (some t)).put b.last t with hash := hT }
      count := b.count + 1, capacity := cap } := by
  rcases hs : ({ b with
    H := b.H.setcolprops b.first b.count h
    T := b.T.setcolprops b.first b.count (some t) } : Bat V).store (h.getD ⊥) t with e | b₂
  · simp [addLast, hs, Except.map] at hb
  simp only [addLast, hs, Except.map, Except.ok.injEq] at hb
  obtain ⟨hH, hT, cap, hb2, -⟩ := store_spec hs
  obtain ⟨hT', hT''⟩ := HASHins_frame b₂.T b₂.first b₂.count b.last t
  have hH' : ∃ hH, h.elim b₂.H (b₂.H.HASHins b₂.first b₂.count b.last) =
      { b₂.H with hash := hH } := by
    cases h with
    | none => exact ⟨b₂.H.hash, rfl⟩
    | some x => exact HASHins_frame ..
  obtain ⟨hH', hH''⟩ := hH'
  refine ⟨hH', hT', cap, ?_⟩
  rw [← hb, index, hH'', hT'', hb2]
  rfl

/-! ## Updates as sequences of changes

The changes that are listed for an update lead from the BAT before it to the one after it.  From
here on updates are not looked at any more. -/

theorem trace_mirrored {tr : List (Bat V × Change V)} (ht : Trace Changes b.mirror tr b') :
    Trace Changes b (mirrored b tr b') b'.mirror :=
  .cons rfl (ht.snoc rfl)

theorem trace_voidChanges (b : Bat V) (x : V) :
    Trace Changes b (b.voidChanges x) (b.voidMaterializeh x) := by
  rcases b.voidMaterializeh_cases x with ⟨-, h1, h2⟩ | ⟨hv, h1, h2⟩ | ⟨hv, hc, hx, h1, h2⟩
  · rw [h1, h2]
    exact .nil b
  · rw [h1, h2]
    exact .single ⟨hv, rfl⟩
  · rw [h1, h2]
    exact .single ⟨hv, hc, hx, rfl⟩

theorem trace_materializeChanges (b : Bat V) :
    Trace Changes b b.materializeChanges b.BATmaterialize := by
  have hhead : ∀ b : Bat V, Trace Changes b (if b.H.voidDense then [(b, .materialize)] else [])
      b.BATmaterializeh := by
    intro b
    split_ifs with hv
    · exact .single ⟨hv, rfl⟩
    · rw [BATmaterializeh, if_neg hv]
      exact .nil b
  exact (hhead b).append (trace_mirrored (hhead _))

theorem trace_deleteChanges (hp : b.Live p) (force : Bool) :
    Trace Changes b (b.deleteChanges p force) (b.BUNdelete p force).1 := by
  unfold deleteChanges BUNdelete
  split_ifs with hm
  · obtain ⟨h1, h2, h3, h4⟩ := b.BATmaterialize_frame
    refine b.trace_materializeChanges.snoc ⟨?_, fun _ _ => ⟨h3, h4⟩, rfl⟩
    unfold Live last
    rwa [h1, h2]
  · refine .single ⟨hp, fun hc hf => not_or.mp fun hv => hm ⟨hv, .inl hc, ?_⟩, rfl⟩
    rw [hf]
    rfl

theorem trace_insMaterializeChanges (b : Bat V) (h t : V) :
    Trace Changes b (b.insMaterializeChanges h t) ((b.voidMaterializeh h).voidMaterializet t) :=
  (b.trace_voidChanges h).append (trace_mirrored (trace_voidChanges _ t))

theorem live_of_fndBound (hp : c.fndBound b.first b.count v = some p) : b.Live p := by
  unfold Col.fndBound at hp
  split_ifs at hp
  exact List.mem_range'_1.mp (List.mem_of_find?_eq_some hp)

theorem trace_insChanges (n : ℕ) (hb : BUNinsAux n b h t force = .ok b') :
    Trace Changes b (insChanges n b h t force) b' := by
  induction n generalizing b h t b' with
  | zero => simp [BUNinsAux] at hb
  | succ n ih =>
    have hm := b.trace_insMaterializeChanges h t
    have hf := follows_voidMaterializet (b.follows_voidMaterializeh h) t
    rw [BUNinsAux] at hb
    rw [insChanges]
    generalize (b.voidMaterializeh h).voidMaterializet t = b₁ at hb hm hf ⊢
    refine hm.append ?_
    by_cases hset : (b₁.set && (b₁.BUNlocate h t).isSome) = true
    · rw [if_pos hset] at hb ⊢
      obtain rfl := Except.ok.inj hb
      exact .nil _
    rw [if_neg hset] at hb ⊢
    rcases hfh : b₁.H.fndBound b₁.first b₁.count h with _ | p
    · rw [hfh] at hb
      rcases hft : b₁.T.fndBound b₁.first b₁.count t with _ | p
      · -- a new BUN
        simp only [hft] at hb ⊢
        split_ifs at hb with hmax
        exact .single ⟨by simp, fun x hx => some.inj hx ▸ hf.1, hf.2, hb⟩
      -- the BUN with the same tail gets another head
      have hp : b₁.mirror.Live p := live_of_fndBound hft
      simp only [hft] at hb ⊢
      split_ifs at hb ⊢ with hc
      · obtain rfl := Except.ok.inj hb
        exact trace_mirrored (.single ⟨hp, rfl⟩)
      · rcases hr : BUNinsAux n (b₁.mirror.BUNdelete p force).1 t h force with e | b₂
        · simp [hr, Except.map] at hb
        · rw [hr] at hb
          obtain rfl := Except.ok.inj hb
          exact ((Trace.cons rfl (trace_deleteChanges hp force)).append (ih hr)).snoc rfl
    · -- the BUN with the same head gets another tail
      have hp := live_of_fndBound hfh
      simp only [hfh] at hb ⊢
      split_ifs at hb ⊢ with hc
      · obtain rfl := Except.ok.inj hb
        exact .single ⟨hp, rfl⟩
      · exact (trace_deleteChanges hp force).append (ih hb)

theorem trace_appendChanges (hb : b.BUNappend t = .ok b') :
    Trace Changes b (b.appendChanges t) b' := by
  unfold BUNappend at hb
  rw [appendChanges]
  have htr := trace_mirrored (trace_voidChanges b.mirror t)
  have hft : (b.voidMaterializet t).T.Follows (b.voidMaterializet t).count t :=
    follows_voidMaterializeh b.mirror t
  have hhead : (b.voidMaterializet t).H.type = b.H.type := (b.mirror.voidMaterializeh_frame t).2.2.1
  by_cases hty : b.H.type ≠ .void ∧ b.H.type ≠ .oid
  · simp [if_pos hty] at hb
  split_ifs at hb ⊢ with hf ho hmax
  · obtain rfl := Except.ok.inj hb
    exact .nil b
  · have hadd : Changes (b.voidMaterializet t) (.add (some b.nextOid) t) b' := by
      refine ⟨by simp, fun x _ s ht _ => ?_, hft, hb⟩
      rw [hhead, ho] at ht
      exact absurd ht nofun
    exact htr.snoc hadd
  · -- the head is not touched when the tail is materialised
    have hv : b.H.type = .void := by
      by_contra hv
      exact hty ⟨hv, ho⟩
    have hadd : Changes (b.voidMaterializet t) (.add none t) b' :=
      ⟨fun _ => hhead.trans hv, nofun, hft, hb⟩
    exact htr.snoc hadd

theorem trace_inplaceChanges (hp : b.Live p) (hb : b.BUNinplace p h t force = .ok b') :
    Trace Changes b (b.inplaceChanges p h t force) b' := by
  unfold BUNinplace at hb
  unfold inplaceChanges
  split_ifs at hb ⊢ with hc
  · obtain rfl := Except.ok.inj hb
    exact .single ⟨hp, rfl⟩
  · exact (trace_deleteChanges hp force).append (trace_insChanges _ hb)

/-- When the first BUN is deleted, the loop goes on with the next one. -/
theorem BUNdelete_first (b : Bat V) (force : Bool) :
    (b.BUNdelete b.first force).2 = (b.BUNdelete b.first force).1.first := by
  have hstep : ∀ b : Bat V,
      (b.BUNdelete_ b.first force).2 = (b.BUNdelete_ b.first force).1.first := by
    intro b
    unfold BUNdelete_
    split_ifs <;> rfl
  unfold BUNdelete
  split_ifs
  · rw [← b.BATmaterialize_frame.1]
    exact hstep _
  · exact hstep b

theorem trace_loopChanges (n q : ℕ) (hq : q ≤ b.last) :
    Trace Changes b (loopChanges n b b.first q) (deleteLoop n b b.first q) := by
  induction n generalizing b q with
  | zero => exact .nil b
  | succ n ih =>
    rw [loopChanges, deleteLoop]
    split_ifs with hlt
    · dsimp only
      rw [BUNdelete_first]
      exact (trace_deleteChanges ⟨le_rfl, by omega⟩ false).append (ih _ (Nat.min_le_right _ _))
    · exact .nil b

/-- **An update does what its changes do.** -/
theorem trace_apply {u : Update V} (hb : b.apply u = .ok b') :
    Trace Changes b (b.changes u) b' := by
  cases u with
  | ins h t force => exact trace_insChanges _ hb
  | append t => exact trace_appendChanges hb
  | delete p force =>
    simp only [apply] at hb
    split_ifs at hb with hp
    obtain rfl := Except.ok.inj hb
    exact trace_deleteChanges hp force
  | inplace p h t force =>
    simp only [apply] at hb
    split_ifs at hb with hp
    exact trace_inplaceChanges hp hb
  | clear force =>
    obtain rfl := Except.ok.inj hb
    unfold changes BATclear
    dsimp only
    split_ifs with hc
    · exact trace_loopChanges _ _ le_rfl
    · exact .single ⟨by simpa using hc, rfl⟩

end Bat

end MonetInR.Gdk
