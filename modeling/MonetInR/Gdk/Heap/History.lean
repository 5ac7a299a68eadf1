import MonetInR.Gdk.Heap.Layout
import MonetInR.Lib.Runs

/-!
# Sequences of allocations and deallocations

In a history of a heap, blocks are allocated, those that are live are written to and freed.  A heap
that has to grow may be lost, and its blocks with it: `HEAPextend` frees the memory before it knows
that there is a larger piece.  Every history whose requests do not overflow and do not lose the heap
keeps it sound.

## Main definitions

* `HeapRun.Step`: an allocation, a deallocation of a live block, or a write to one
* `HeapRun.Sound`: the blocks tile the heap, the free ones form an ascending, coalesced list, and
  the others are the live ones

## Main results

* `HeapRun.heap_of_reaches`
-/

namespace MonetInR.Gdk

open BlockList LinkArray Runs Heap Extend List Option

/-- What can happen to a heap.  Whether it can grow is up to the system. -/
inductive HeapAction
  | malloc (nbytes : ℕ) (sys : Extend.System)
  | free (mem : ℕ)
  | write (addr word : ℕ)

/-- A heap, and the live blocks with the sizes that were requested. -/
structure HeapRun where
  heap : Heap
  live : List (ℕ × ℕ)

namespace HeapRun

variable {v : ℕ} {s s' : HeapRun} {bs : List Block} {x : ℕ × ℕ}

/-- The start of the block with a given address of its data. -/
def blockOf (v mem : ℕ) : ℕ := (mem <<< v) - 8

/-- The addresses of a block. -/
def Extent (v : ℕ) (h : Heap) (mem p : ℕ) : Prop :=
  blockOf v mem ≤ p ∧ p < blockOf v mem + h.chunkSize (blockOf v mem)

/-- A step.  A live block is written to behind its size, word by word.  There is no step from
`none`, which stands for a heap that is lost. -/
def Step (v : ℕ) : Option HeapRun → HeapAction → Option HeapRun → Prop
  | none, _, _ => False
  | some s, .malloc nbytes sys, s' => ∃ h mem, s.heap.HEAP_malloc v nbytes sys = some (h, mem) ∧
      s' = h.map fun h => ⟨h, if mem = 0 then s.live else (mem, nbytes) :: s.live⟩
  | some s, .free mem, s' => ∃ n h, (mem, n) ∈ s.live ∧ s.heap.HEAP_free v mem = some h ∧
      s' = some ⟨h, s.live.erase (mem, n)⟩
  | some s, .write addr word, s' => ∃ x ∈ s.live, 8 ∣ addr ∧ Extent v s.heap x.1 addr ∧
      addr ≠ blockOf v x.1 ∧
      s' = some { s with heap := { s.heap with mem := Function.update s.heap.mem addr word } }

/-- **The heap is sound**: its blocks `bs` fill it, the free ones form an ascending list in which
no two are adjacent, and the others are the live ones, with at least the requested sizes. -/
structure Sound (v : ℕ) (s : HeapRun) (bs : List Block) : Prop where
  tiles : Tiles s.heap.firstblock bs s.heap.free
  sizes : ∀ b ∈ bs, s.heap.chunkSize b.start = b.size
  chain : Chain s.heap.chunkNext 0 s.heap.head (freeList bs)
  ascending : (freeList bs).Pairwise (· < ·)
  coalesced : Coalesced bs
  live : (s.live.map fun x => blockOf v x.1).Perm ((used bs).map Block.start)
  large : ∀ x ∈ s.live, x.2 + 8 ≤ s.heap.chunkSize (blockOf v x.1)

/-- **The condition on a request**: it does not overflow, and the heap is not lost if it has to grow
for it.  The other actions have none. -/
def RequestFits : Option HeapRun → HeapAction → Prop
  | some s, .malloc nbytes sys => s.heap.Fits nbytes ∧ (s.heap.Full nbytes → ¬ sys.Loses)
  | _, _ => True

/-- What is known of the blocks throughout. -/
structure Laid (v : ℕ) (s : HeapRun) (bs : List Block) : Prop where
  layout : s.heap.Layout bs
  live : (s.live.map fun x => blockOf v x.1).Perm ((used bs).map Block.start)
  large : ∀ x ∈ s.live, x.2 + 8 ≤ s.heap.chunkSize (blockOf v x.1)

theorem Laid.sound (hs : s.Laid v bs) : s.Sound v bs where
  tiles := hs.layout.seg.tiles (by omega)
  sizes _ hb := hs.layout.seg.size_eq hb
  chain := hs.layout.seg.chain (by have := hs.layout.first; omega)
  ascending := hs.layout.seg.freeList_ascending (by omega)
  coalesced := hs.layout.coalesced
  live := hs.live
  large := hs.large

theorem Laid.block (hs : s.Laid v bs) (hx : x ∈ s.live) :
    ∃ b ∈ bs, b.free = false ∧ b.start = blockOf v x.1 ∧
      s.heap.chunkSize (blockOf v x.1) = b.size := by
  have hmem : blockOf v x.1 ∈ (used bs).map Block.start := hs.live.mem_iff.mp (mem_map_of_mem hx)
  obtain ⟨b, hb, heq⟩ := mem_map.mp hmem
  obtain ⟨hbs, hused⟩ := mem_filter.mp hb
  refine ⟨b, hbs, by simpa using hused, heq, ?_⟩
  rw [← heq]
  exact hs.layout.seg.size_eq hbs

theorem Laid.nodup (hs : s.Laid v bs) : (s.live.map fun x => blockOf v x.1).Nodup := by
  rw [hs.live.nodup_iff, List.Nodup, pairwise_map]
  refine (hs.layout.seg.pairwise.filter _).imp_of_mem fun {x y} hx _ hxy => ?_
  have := (hs.layout.seg.bounds (mem_of_mem_filter hx)).2.2
  omega

theorem Laid.disjoint (hs : s.Laid v bs) {y : ℕ × ℕ} (hx : x ∈ s.live) (hy : y ∈ s.live)
    (hne : blockOf v x.1 ≠ blockOf v y.1) (p : ℕ) :
    ¬ (Extent v s.heap x.1 p ∧ Extent v s.heap y.1 p) := by
  rintro ⟨hp, hp'⟩
  obtain ⟨b, hb, -, hbstart, hbsize⟩ := hs.block hx
  obtain ⟨c, hc, -, hcstart, hcsize⟩ := hs.block hy
  unfold Extent at hp hp'
  rcases hs.layout.seg.disjoint hb hc with rfl | hlt | hlt
  · exact hne (hbstart.symm.trans hcstart)
  · omega
  · omega

theorem blockOf_shift (hv : v ≤ 3) {b : ℕ} (hb : 8 ∣ b) : blockOf v ((b + 8) >>> v) = b := by
  have hdvd : 2 ^ v ∣ b + 8 := (Nat.pow_dvd_pow 2 hv).trans (Nat.dvd_add hb (Nat.dvd_refl 8))
  unfold blockOf
  rw [Nat.shiftRight_eq_div_pow, Nat.shiftLeft_eq, Nat.div_mul_cancel hdvd]
  omega

/-- The blocks of `live` are left alone. -/
def KeepsLive (v : ℕ) (h h' : Heap) (live : List (ℕ × ℕ)) : Prop :=
  ∀ x ∈ live, ∀ p, Extent v h x.1 p → h'.mem p = h.mem p

theorem Laid.keepsLive (hs : s.Laid v bs) {h' : Heap} (hkeeps : KeepsUsed s.heap h' bs) :
    KeepsLive v s.heap h' s.live := by
  intro x hx p hp
  obtain ⟨b, hb, hused, hstart, hsize⟩ := hs.block hx
  unfold Extent at hp
  rw [hsize, ← hstart] at hp
  exact hkeeps b hb hused p hp.1 hp.2

theorem KeepsLive.chunkSize {h h' : Heap} {live : List (ℕ × ℕ)} (hk : KeepsLive v h h' live)
    (hx : x ∈ live) (hpos : 0 < h.chunkSize (blockOf v x.1)) :
    h'.chunkSize (blockOf v x.1) = h.chunkSize (blockOf v x.1) :=
  hk x hx _ ⟨le_rfl, by omega⟩

/-- **An allocation**: unless there is no memory, the returned block does not overlap any live
block and is as large as requested; the live blocks are left alone. -/
theorem laid_malloc (hv : v ≤ 3) (hs : s.Laid v bs) {n : ℕ} {sys : Extend.System}
    (hfit : RequestFits (some s) (.malloc n sys)) :
    ∃ h mem, s.heap.HEAP_malloc v n sys = some (some h, mem) ∧ KeepsLive v s.heap h s.live ∧
      (¬ sys.Good ∧ mem = 0 ∧ h = s.heap ∨
        mem ≠ 0 ∧ (∃ bs', Laid v ⟨h, (mem, n) :: s.live⟩ bs') ∧
          ∀ x ∈ s.live, ∀ p, ¬ (Extent v h mem p ∧ Extent v h x.1 p)) := by
  rcases malloc_layout hs.layout hfit.1 v sys with ⟨hbad, hnone⟩ | ⟨hfull, hlost, -⟩ |
    ⟨h, pre, b, rest, hrun, hall⟩
  · exact ⟨s.heap, 0, hnone, fun _ _ _ _ => rfl, .inl ⟨hbad, rfl, rfl⟩⟩
  · exact absurd hlost (hfit.2 hfull)
  have hb : b ∈ pre ++ b :: rest := by simp
  -- shifting the address loses nothing, since blocks are aligned
  have hdvd := (hall.layout.seg.dvd hall.layout.first.2).2 b hb
  have hfirst := hall.layout.first.1
  have hbounds := hall.layout.seg.bounds hb
  have hblock : blockOf v ((b.start + 8) >>> v) = b.start := blockOf_shift hv hdvd
  have hne : (b.start + 8) >>> v ≠ 0 := by
    intro hzero
    rw [hzero, blockOf] at hblock
    omega
  have hkeeps := hs.keepsLive hall.keeps
  have hlaid : Laid v ⟨h, ((b.start + 8) >>> v, n) :: s.live⟩ (pre ++ b :: rest) := by
    refine ⟨hall.layout, ?_, forall_mem_cons.mpr ⟨?_, fun x hx => ?_⟩⟩
    · rw [used_append, used_cons_of_used hall.inUse, map_append, map_cons, hblock]
      refine List.Perm.trans (.cons _ ?_) perm_middle.symm
      rw [← map_append, hall.used]
      exact hs.live
    · rw [hblock, chunkSize, hall.layout.seg.size_eq hb]
      exact hall.large
    · have hlarge := hs.large x hx
      rw [hkeeps.chunkSize hx (by omega)]
      exact hlarge
  refine ⟨h, _, hrun, hkeeps, .inr ⟨hne, ⟨_, hlaid⟩, fun x hx => ?_⟩⟩
  have hdisjoint := hlaid.disjoint mem_cons_self (mem_cons_of_mem _ hx) fun heq =>
    (nodup_cons.mp hlaid.nodup).1 (mem_map.mpr ⟨x, hx, heq.symm⟩)
  exact hdisjoint

/-- **A deallocation** leaves the other live blocks alone. -/
theorem laid_free (hs : s.Laid v bs) (hx : x ∈ s.live) :
    ∃ h, s.heap.HEAP_free v x.1 = some h ∧ KeepsLive v s.heap h (s.live.erase x) ∧
      ∃ bs', Laid v ⟨h, s.live.erase x⟩ bs' := by
  obtain ⟨b, hb, hused, hstart, -⟩ := hs.block hx
  obtain ⟨pre, post, rfl⟩ := append_of_mem hb
  obtain ⟨h, bs', hrun, hlayout, hused', hkeeps⟩ := free_layout hs.layout hused hstart.symm
  -- the block that is freed belongs to no other allocation
  have hperm := (perm_cons_erase hx).map fun x : ℕ × ℕ => blockOf v x.1
  have hnodup := hs.nodup
  rw [hperm.nodup_iff, map_cons, nodup_cons] at hnodup
  have hkeepsLive : KeepsLive v s.heap h (s.live.erase x) := by
    intro y hy p hp
    obtain ⟨c, hc, hcused, hcstart, hcsize⟩ := hs.block (mem_of_mem_erase hy)
    unfold Extent at hp
    rw [hcsize, ← hcstart] at hp
    refine hkeeps c ?_ hcused p hp.1 hp.2
    simp only [mem_append, mem_cons] at hc ⊢
    rcases hc with hc | rfl | hc
    · exact .inl hc
    · refine absurd ?_ hnodup.1
      rw [← hstart, hcstart]
      exact mem_map_of_mem hy
    · exact .inr hc
  refine ⟨h, hrun, hkeepsLive, bs', hlayout, ?_, fun y hy => ?_⟩
  · have hlive := hs.live
    rw [used_append, used_cons_of_used hused, map_append] at hlive
    rw [hused', map_append]
    have hcons := (hperm.symm.trans hlive).trans perm_middle
    rw [hstart] at hcons
    exact hcons.cons_inv
  · have hlarge := hs.large y (mem_of_mem_erase hy)
    rw [hkeepsLive.chunkSize hy (by omega)]
    exact hlarge

theorem laid_write (hs : s.Laid v bs) (hx : x ∈ s.live) {addr : ℕ}
    (haddr : Extent v s.heap x.1 addr) (hne : addr ≠ blockOf v x.1) (word : ℕ) :
    Laid v { s with heap := { s.heap with mem := Function.update s.heap.mem addr word } } bs := by
  obtain ⟨b, hb, hused, hstart, hsize⟩ := hs.block hx
  unfold Extent at haddr
  rw [hsize, ← hstart] at haddr
  have hseg := hs.layout.seg.write (by omega) hb hused (p := addr) (by omega) haddr.2 word
  refine ⟨⟨hs.layout.first, hs.layout.small, hseg, hs.layout.coalesced, hs.layout.alignment,
    hs.layout.size⟩, hs.live, fun y hy => ?_⟩
  obtain ⟨c, hc, -, hcstart, hcsize⟩ := hs.block hy
  have hlarge := hs.large y hy
  rw [hcsize] at hlarge
  show y.2 + 8 ≤ Function.update s.heap.mem addr word (blockOf v y.1)
  rw [← hcstart, hseg.size_eq hc]
  exact hlarge

theorem laid_step (hv : v ≤ 3) {a : HeapAction} {x x' : Option HeapRun}
    (hs : ∃ s bs, x = some s ∧ s.Laid v bs) (hfit : RequestFits x a) (hstep : Step v x a x') :
    ∃ s bs, x' = some s ∧ s.Laid v bs := by
  obtain ⟨s, bs, rfl, hs⟩ := hs
  cases a with
  | malloc n sys =>
    obtain ⟨h, mem, hrun, rfl⟩ := hstep
    obtain ⟨h', mem', hrun', -, hcases⟩ := laid_malloc hv hs hfit
    obtain ⟨rfl, rfl⟩ := Prod.mk.inj (some.inj (hrun'.symm.trans hrun))
    rcases hcases with ⟨-, hzero, rfl⟩ | ⟨hne, ⟨bs', hlaid⟩, -⟩
    · rw [if_pos hzero]
      exact ⟨s, bs, rfl, hs⟩
    · rw [if_neg hne]
      exact ⟨_, bs', rfl, hlaid⟩
  | free mem =>
    obtain ⟨n, h, hx, hrun, rfl⟩ := hstep
    obtain ⟨h', hrun', -, bs', hlaid⟩ := laid_free hs hx
    obtain rfl := some.inj (hrun'.symm.trans hrun)
    exact ⟨_, bs', rfl, hlaid⟩
  | write addr word =>
    obtain ⟨x, hx, -, haddr, hne, rfl⟩ := hstep
    exact ⟨_, bs, rfl, laid_write hs hx haddr hne word⟩

/-- A new heap. -/
def start (mem : ℕ → ℕ) (nbytes nprivate alignment : ℕ) : HeapRun :=
  ⟨ HEAP_initialize mem nbytes nprivate alignment, []⟩

/-- **Every history keeps the heap sound** if no request overflows, nor the size of the new heap,
and none loses it.  The check accepts it; every further request of that kind returns a block that
overlaps no live block and has the requested size, or 0 if there is no memory; every live block can
be freed; and neither changes a live block. -/
theorem heap_of_reaches (hv : v ≤ 3) {mem : ℕ → ℕ} {nbytes nprivate alignment : ℕ}
    (hnew : nbytes + nprivate + 155 < 2 ^ 64) {x : Option HeapRun}
    (hr : Reaches (Step v) RequestFits (some (start mem nbytes nprivate alignment)) x) :
    ∃ s, x = some s ∧ (∃ bs, s.Sound v bs) ∧ s.heap.HEAP_check = true ∧
      (∀ n sys, RequestFits x (.malloc n sys) →
        ∃ h m, s.heap.HEAP_malloc v n sys = some (some h, m) ∧ KeepsLive v s.heap h s.live ∧
          (¬ sys.Good ∧ m = 0 ∨ n + 8 ≤ h.chunkSize (blockOf v m) ∧
            ∀ x ∈ s.live, ∀ p, ¬ (Extent v h m p ∧ Extent v h x.1 p))) ∧
      ∀ x ∈ s.live, ∃ h, s.heap.HEAP_free v x.1 = some h ∧
        KeepsLive v s.heap h (s.live.erase x) := by
  obtain ⟨b, hb, hlayout⟩ := initialize_layout hnew mem alignment
  have hstart : (start mem nbytes nprivate alignment).Laid v [b] := by
    refine ⟨hlayout, ?_, nofun⟩
    rw [used_cons_of_free hb]
    exact .nil
  have hinv : ∃ s bs, x = some s ∧ s.Laid v bs :=
    hr.invariant (fun _ _ _ => laid_step hv) ⟨_, _, rfl, hstart⟩
  obtain ⟨s, bs, rfl, hs⟩ := hinv
  refine ⟨s, rfl, ⟨bs, hs.sound⟩, HEAP_check_of_layout hs.layout, fun n sys hfit => ?_,
    fun x hx => ?_⟩
  · obtain ⟨h, m, hrun, hkeeps, hcases⟩ := laid_malloc hv hs hfit
    refine ⟨h, m, hrun, hkeeps, ?_⟩
    rcases hcases with ⟨hbad, hzero, -⟩ | ⟨-, ⟨bs', hlaid⟩, hdisjoint⟩
    · exact .inl ⟨hbad, hzero⟩
    · exact .inr ⟨hlaid.large _ mem_cons_self, hdisjoint⟩
  · obtain ⟨h, hrun, hkeeps, -⟩ := laid_free hs hx
    exact ⟨h, hrun, hkeeps⟩

/-- A new heap with one block from 32 to 152. -/
def smallHeap : HeapRun := start (fun _ => 0) 0 0 8

/-- The heap after a request that is granted. -/
def granted (h : Heap) (n : ℕ) : Heap := ((h.HEAP_malloc 0 n .grants).bind Prod.fst).getD h

theorem malloc_granted {h : Heap} {n m : ℕ}
    (hrun : (h.HEAP_malloc 0 n .grants).map (fun r => (r.1.isSome, r.2)) = some (true, m)) :
    h.HEAP_malloc 0 n .grants = some (some (granted h n), m) := by
  obtain ⟨⟨left, m'⟩, hmalloc, hpair⟩ := map_eq_some_iff.mp hrun
  obtain ⟨hsome, rfl⟩ := Prod.mk.inj hpair
  obtain ⟨h', rfl⟩ := isSome_iff_exists.mp hsome
  rw [granted, hmalloc]
  rfl

/-- **A history in which the heap grows**: a block of ten bytes is allocated, then one of 200, for
which there is no room, and then the first one is freed. -/
theorem heap_malloc_grow_free : ∃ s,
    Reaches (Step 0) RequestFits (some smallHeap) (some s) ∧ s.live = [(64, 200)] ∧
      smallHeap.heap.free = 152 ∧ s.heap.free = 360 ∧ s.heap.HEAP_check = true ∧
      ∃ bs, s.Sound 0 bs := by
  let h₁ := granted smallHeap.heap 10
  let h₂ := granted h₁ 200
  have hten : Step 0 (some smallHeap) (.malloc 10 .grants) (some ⟨h₁, [(40, 10)]⟩) :=
    ⟨some h₁, 40, malloc_granted (by decide), rfl⟩
  have hmore : Step 0 (some ⟨h₁, [(40, 10)]⟩) (.malloc 200 .grants)
      (some ⟨h₂, [(64, 200), (40, 10)]⟩) := ⟨some h₂, 64, malloc_granted (by decide), rfl⟩
  have hfree : (h₂.HEAP_free 0 40).map Heap.free = some 360 := by decide
  obtain ⟨h₃, hrun, hsize⟩ := map_eq_some_iff.mp hfree
  have hback : Step 0 (some ⟨h₂, [(64, 200), (40, 10)]⟩) (.free 40) (some ⟨h₃, [(64, 200)]⟩) :=
    ⟨10, h₃, by simp, hrun, rfl⟩
  have hfits : RequestFits (some smallHeap) (.malloc 10 .grants) ∧
      RequestFits (some ⟨h₁, [(40, 10)]⟩) (.malloc 200 .grants) :=
    ⟨⟨⟨by decide, fun _ => by decide⟩, fun _ => System.not_loses_grants⟩,
      ⟨by decide, fun _ => by decide⟩, fun _ => System.not_loses_grants⟩
  have hreach : Reaches (Step 0) RequestFits (some smallHeap) (some ⟨h₃, [(64, 200)]⟩) :=
    .tail (a := .free 40) (.tail (.tail .refl hfits.1 hten) hfits.2 hmore) trivial hback
  obtain ⟨s, heq, hsound, hcheck, -⟩ := heap_of_reaches (by decide) (by decide) hreach
  obtain rfl := some.inj heq
  exact ⟨_, hreach, rfl, by decide, hsize, hcheck, hsound⟩

/-- **A request that overflows** is answered with a block of 16 bytes. -/
theorem HEAP_malloc_overflow : smallHeap.heap.HEAP_check = true ∧
    ∃ h m, smallHeap.heap.HEAP_malloc 0 (2 ^ 64 - 1) .grants = some (some h, m) ∧ m = 40 ∧
      h.chunkSize (blockOf 0 m) = 16 ∧ ¬ 2 ^ 64 - 1 + 8 ≤ h.chunkSize (blockOf 0 m) := by
  have hsize : (granted smallHeap.heap (2 ^ 64 - 1)).chunkSize (blockOf 0 40) = 16 := by decide
  refine ⟨by decide, _, 40, malloc_granted (by decide), rfl, hsize, ?_⟩
  rw [hsize]
  decide

end HeapRun

end MonetInR.Gdk
