import Mathlib.Data.List.Basic
import MonetInR.Gdk.Heap.Extend

/-!
# The standard heap library

`malloc` and `free` for the values of variable size of a column, on a heap that is one piece of
memory.  The heap is divided into blocks; a block starts with its size, a free block goes on with
the address of the next free block, and what `HEAP_malloc` returns is the address behind the size.

The model is that of a build with words of eight bytes.  `mem` gives the word at an address that is
a multiple of eight; the fields of the heap header are kept apart from it.

## Main definitions

* `Heap.HEAP_initialize`, `Heap.HEAP_malloc`, `Heap.HEAP_free`, `Heap.HEAP_check`
-/

namespace MonetInR.Gdk

/-- A `size_t`. -/
def u64 (x : ℕ) : ℕ := x % 2 ^ 64

def sizeofHEADER : ℕ := 32

def sizeofCHUNK : ℕ := 16

def sizeofSizeT : ℕ := 8

def roundup_8 (x : ℕ) : ℕ := u64 (x + 7) / 8 * 8

def roundup_num (number alignment : ℕ) : ℕ :=
  let rval := u64 (number + alignment - 1)
  rval - rval % alignment

/-- A heap: its memory, the part of it in use, its size, and its header. -/
structure Heap where
  mem : ℕ → ℕ
  free : ℕ
  size : ℕ
  head : ℕ
  alignment : ℕ
  firstblock : ℕ

namespace Heap

/-- The size of a block. -/
def chunkSize (h : Heap) (block : ℕ) : ℕ := h.mem block

/-- The block behind a free block in the free list. -/
def chunkNext (h : Heap) (block : ℕ) : ℕ := h.mem (block + 8)

def setSize (h : Heap) (block size : ℕ) : Heap := { h with mem := Function.update h.mem block size }

def setNext (h : Heap) (block next : ℕ) : Heap :=
  { h with mem := Function.update h.mem (block + 8) next }

def HEAP_empty (h : Heap) (nprivate alignment : ℕ) : Heap :=
  let head := roundup_num (u64 (roundup_8 sizeofHEADER + roundup_8 nprivate)) alignment
  (({ h with head := head, alignment := alignment, firstblock := head } : Heap).setSize head
    (u64 (h.size + 2 ^ 64 - head))).setNext head 0

/-- The memory comes from `HEAPalloc` with any contents. -/
def HEAP_initialize (mem : ℕ → ℕ) (nbytes nprivate alignment : ℕ) : Heap :=
  let alignment := if alignment ≠ 8 then 4 else alignment
  let alignment := if alignment < sizeofSizeT then sizeofSizeT else alignment
  let total := u64 (100 + nbytes + nprivate + sizeofHEADER + sizeofCHUNK)
  let total := roundup_8 total
  HEAP_empty ⟨mem, total, total, 0, 0, 0⟩ nprivate alignment

/-! ## Allocation -/

/-- The bytes for a block with `nbytes` bytes of data. -/
def request (h : Heap) (nbytes : ℕ) : ℕ :=
  let nbytes := roundup_8 (u64 (nbytes + h.alignment))
  if nbytes < sizeofCHUNK then sizeofCHUNK else nbytes

/-- Walk the free list to the first block that is large enough: that block, or 0, and the two
blocks before it.  The result is `none` if the list is not ordered. -/
def findBlock (h : Heap) (nbytes : ℕ) : ℕ → ℕ → ℕ → ℕ → Option (ℕ × ℕ × ℕ)
  | 0, _, _, _ => none
  | fuel + 1, block, trail, ttrail =>
    if block = 0 then some (0, trail, ttrail)
    else if trail ≠ 0 ∧ block ≤ trail then none
    else if nbytes ≤ h.chunkSize block then some (block, trail, ttrail)
    else h.findBlock nbytes fuel (h.chunkNext block) block trail

/-- `HEAPextend`: whether there is memory for a larger heap is up to the system, which also decides
what is left of the heap if there is none. -/
def HEAPextend (h : Heap) (size : ℕ) (sys : Extend.System) : Except (Option Heap) Heap :=
  match sys.extend h.size size with
  | .ok n => .ok { h with size := n }
  | .error left => .error (left.map fun n => { h with size := n })

/-- Make the memory from `block` on a block. -/
def newBlock (h : Heap) (block newsize : ℕ) : Heap :=
  let h := ({ h with free := newsize } : Heap).setNext block 0
  h.setSize block (u64 (newsize + 2 ^ 64 - block))

/-- Glue the new block to the last block of the free list, if they are adjacent.  The result
includes the block to go on with and the block before it. -/
def glue (h : Heap) (block trail ttrail : ℕ) : Heap × ℕ × ℕ :=
  if trail ≠ 0 ∧ trail + h.chunkSize trail = block then
    let h := h.setSize trail (u64 (h.chunkSize trail + h.chunkSize block))
    (h.setNext trail (h.chunkNext block), trail, ttrail)
  else (h, block, trail)

/-- No block is large enough: enlarge the heap. -/
def grow (h : Heap) (nbytes trail ttrail : ℕ) (sys : Extend.System) :
    Except (Option Heap) (Heap × ℕ × ℕ) :=
  let newsize := roundup_8 (u64 (h.free + max h.free nbytes))
  let block := h.free
  (h.HEAPextend newsize sys).map fun h => (h.newBlock block newsize).glue block trail ttrail

/-- Split a block that is larger than needed in two. -/
def split (h : Heap) (nbytes block : ℕ) : Heap :=
  if u64 (nbytes + 2 * sizeofCHUNK) ≤ h.chunkSize block then
    let newblock := u64 (block + nbytes)
    let h := h.setSize newblock (u64 (h.chunkSize block + 2 ^ 64 - nbytes))
    let h := h.setNext newblock (h.chunkNext block)
    (h.setNext block newblock).setSize block nbytes
  else h

/-- Let the free list go on with `next` behind `trail`, the start of the list being 0. -/
def link (h : Heap) (trail next : ℕ) : Heap :=
  if trail = 0 then { h with head := next } else h.setNext trail next

/-- Allocate a block with `nbytes` bytes: the result is 0 if there is no memory, with what is left
of the heap then, and `none` if the free list is found to be corrupt.  `varshift` is
`GDK_VARSHIFT`. -/
def HEAP_malloc (h : Heap) (varshift nbytes : ℕ) (sys : Extend.System) :
    Option (Option Heap × ℕ) :=
  let nbytes := h.request nbytes
  match h.findBlock nbytes (h.free + 1) h.head 0 0 with
  | none => none
  | some (block, trail, ttrail) =>
    let found := if block = 0 then h.grow nbytes trail ttrail sys else .ok (h, block, trail)
    match found with
    | .error left => some (left, 0)
    | .ok (h, block, trail) =>
      let h := h.split nbytes block
      let h := h.link trail (h.chunkNext block)
      some (some h, (block + h.alignment) >>> varshift)

/-! ## Deallocation -/

/-- Walk the free list to the first block behind `block`: the block before it, and itself. -/
def findAfter (h : Heap) (block : ℕ) : ℕ → ℕ → ℕ → Option (ℕ × ℕ)
  | 0, _, _ => none
  | fuel + 1, after, before =>
    if after = 0 then some (before, 0)
    else if block < after then some (before, after)
    else h.findAfter block fuel (h.chunkNext after) after

/-- Unite a block with the free block behind it, or link it to that block. -/
def joinAfter (h : Heap) (block after : ℕ) : Heap :=
  if after ≠ 0 then
    if block + h.chunkSize block = after then
      let h := h.setSize block (u64 (h.chunkSize block + h.chunkSize after))
      h.setNext block (h.chunkNext after)
    else h.setNext block after
  else h.setNext block 0

/-- Unite a block with the free block before it, or link that block to it. -/
def joinBefore (h : Heap) (block before : ℕ) : Heap :=
  if before ≠ 0 then
    if before + h.chunkSize before = block then
      let h := h.setSize before (u64 (h.chunkSize before + h.chunkSize block))
      h.setNext before (h.chunkNext block)
    else h.setNext before block
  else { h with head := block }

/-- Free a block: `none` if the alignment or the free list is corrupt. -/
def HEAP_free (h : Heap) (varshift mem : ℕ) : Option Heap :=
  if h.alignment ≠ 8 ∧ h.alignment ≠ 4 then none
  else
    let block := (mem <<< varshift) - h.alignment
    (h.findAfter block (h.free + 1) h.head 0).map fun (before, after) =>
      (h.joinAfter block after).joinBefore block before

/-! ## Check -/

/-- Register the blocks of the free list in `freemask`, which has room for `nwords` words of 32
bits.  The result is `none` if an entry is corrupt or does not fit. -/
def checkFree (h : Heap) (alignshift nwords : ℕ) : ℕ → ℕ → (ℕ → Bool) → Option (ℕ → Bool)
  | 0, _, _ => none
  | fuel + 1, block, freemask =>
    if block = 0 then some freemask
    else if h.free < block then none
    else
      let idx := block >>> alignshift
      if idx >>> 5 < nwords then
        h.checkFree alignshift nwords fuel (h.chunkNext block) (Function.update freemask idx true)
      else none

/-- Walk the blocks, and take them out of `freemask`: the end of the last block and the mask. -/
def checkBlocks (h : Heap) (alignshift nwords : ℕ) : ℕ → ℕ → (ℕ → Bool) → Option (ℕ × (ℕ → Bool))
  | 0, _, _ => none
  | fuel + 1, block, freemask =>
    if block < h.free then
      let idx := block >>> alignshift
      if idx >>> 5 < nwords then
        h.checkBlocks alignshift nwords fuel (block + h.chunkSize block)
          (Function.update freemask idx false)
      else none
    else some (block, freemask)

/-- No block of the free list is left in `freemask`. -/
def checkLeft (h : Heap) (alignshift : ℕ) : ℕ → ℕ → (ℕ → Bool) → Bool
  | 0, _, _ => false
  | fuel + 1, block, freemask =>
    if block = 0 then true
    else if freemask (block >>> alignshift) then false
    else h.checkLeft alignshift fuel (h.chunkNext block) freemask

def HEAP_check (h : Heap) : Bool :=
  let nwords := (h.free - 1) >>> 7
  if h.alignment ≠ 8 ∧ h.alignment ≠ 4 then false
  else
    let alignshift := if h.alignment = 8 then 3 else 2
    let nwords := if h.alignment = 8 then nwords >>> 1 else nwords
    if h.head ≠ roundup_num h.head h.alignment then false
    else
      match h.checkFree alignshift (nwords + 1) (h.free + 1) h.head fun _ => false with
      | none => false
      | some freemask =>
        match h.checkBlocks alignshift (nwords + 1) (h.free + 1) h.firstblock freemask with
        | none => false
        | some (block, freemask) =>
          block = h.free && h.checkLeft alignshift (h.free + 1) h.head freemask

end Heap

end MonetInR.Gdk
