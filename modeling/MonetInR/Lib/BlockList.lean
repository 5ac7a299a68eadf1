import Mathlib.Data.List.Chain
import MonetInR.Lib.LinkArray

/-!
# An area of blocks with a free list

An area of memory is divided into blocks, one after the other.  The first word of a block is its
size; the second word of a free block is the address of the next free block, so that the free
blocks form a list in the order of their addresses.  Words have `w` bytes, and `mem` gives the word
at an address.

`Seg mem w a bs z f g` says that the blocks `bs` fill the area from `a` to `z`, that `f` is the
first free block from `a` on, and that `g` is the first one from `z` on.

## Main results

* `seg_append`: areas can be put together and taken apart
* `Seg.congr`: only the area itself matters
* `Seg.relink`: another free block behind the area is linked from its last free block
* `Seg.chain`, `Seg.pairwise`: the free list, and the order of the blocks
-/

namespace BlockList

open LinkArray List Function

/-- A block of the area. -/
structure Block where
  start : ℕ
  size : ℕ
  free : Bool

/-- The blocks `bs` from `a` to `z`. -/
def Seg (mem : ℕ → ℕ) (w : ℕ) : ℕ → List Block → ℕ → ℕ → ℕ → Prop
  | a, [], z, f, g => a = z ∧ f = g
  | a, b :: bs, z, f, g =>
    b.start = a ∧ 2 * w ≤ b.size ∧ w ∣ b.size ∧ mem a = b.size ∧ (b.free = true → f = a) ∧
      Seg mem w (a + b.size) bs z (if b.free then mem (a + w) else f) g

/-- The last free block, or `t` if there is none. -/
def lastFree (t : ℕ) (bs : List Block) : ℕ := bs.foldl (fun t b => if b.free then b.start else t) t

variable {mem mem' : ℕ → ℕ} {w a m z f g g' t p : ℕ} {bs xs ys : List Block} {b x y : Block}

section

variable (h : Seg mem w a bs z f g)

include h

theorem Seg.le : a ≤ z := by
  induction bs generalizing a f with
  | nil => exact h.1.le
  | cons b bs ih => exact (Nat.le_add_right _ _).trans (ih h.2.2.2.2.2)

theorem Seg.dvd (ha : w ∣ a) : w ∣ z ∧ ∀ b ∈ bs, w ∣ b.start := by
  induction bs generalizing a f with
  | nil => exact ⟨h.1 ▸ ha, nofun⟩
  | cons c bs ih =>
    obtain ⟨hstart, -, hdvd, -, -, hrest⟩ := h
    obtain ⟨hz, hbs⟩ := ih hrest (Nat.dvd_add ha hdvd)
    exact ⟨hz, forall_mem_cons.mpr ⟨hstart ▸ ha, hbs⟩⟩

end

/-- **Areas can be put together and taken apart.** -/
theorem seg_append : Seg mem w a (xs ++ ys) z f g ↔
    ∃ m e, Seg mem w a xs m f e ∧ Seg mem w m ys z e g := by
  induction xs generalizing a f with
  | nil =>
    constructor
    · exact fun h => ⟨a, f, ⟨rfl, rfl⟩, h⟩
    · rintro ⟨m, e, ⟨rfl, rfl⟩, h⟩
      exact h
  | cons b xs ih =>
    constructor
    · rintro ⟨h1, h2, h3, h4, h5, h⟩
      obtain ⟨m, e, hxs, hys⟩ := ih.mp h
      exact ⟨m, e, ⟨h1, h2, h3, h4, h5, hxs⟩, hys⟩
    · rintro ⟨m, e, ⟨h1, h2, h3, h4, h5, hxs⟩, hys⟩
      exact ⟨h1, h2, h3, h4, h5, ih.mpr ⟨m, e, hxs, hys⟩⟩

section

variable (h : Seg mem w a bs z f g)

include h

theorem Seg.bounds (hb : b ∈ bs) :
    a ≤ b.start ∧ b.start + b.size ≤ z ∧ 2 * w ≤ b.size := by
  obtain ⟨xs, ys, rfl⟩ := append_of_mem hb
  obtain ⟨m, e, hxs, rfl, hmin, -, -, -, hys⟩ := seg_append.mp h
  exact ⟨hxs.le, hys.le, hmin⟩

/-- Each block has its size in its first word. -/
theorem Seg.size_eq (hb : b ∈ bs) : mem b.start = b.size := by
  obtain ⟨xs, ys, rfl⟩ := append_of_mem hb
  obtain ⟨m, e, -, rfl, -, -, hsize, -⟩ := seg_append.mp h
  exact hsize

/-- The blocks are in order. -/
theorem Seg.pairwise : bs.Pairwise fun x y => x.start + x.size ≤ y.start := by
  induction bs generalizing a f with
  | nil => exact .nil
  | cons b bs ih =>
    obtain ⟨hstart, -, -, -, -, hrest⟩ := h
    refine pairwise_cons.mpr ⟨fun y hy => ?_, ih hrest⟩
    rw [hstart]
    exact (hrest.bounds hy).1

/-- Two blocks are the same, or one lies before the other. -/
theorem Seg.disjoint (hx : x ∈ bs) (hy : y ∈ bs) :
    x = y ∨ x.start + x.size ≤ y.start ∨ y.start + y.size ≤ x.start := by
  apply Pairwise.forall_of_forall_of_flip (fun _ _ => .inl rfl) _ _ hx hy
  · exact h.pairwise.imp fun hle => .inr (.inl hle)
  · exact h.pairwise.imp fun hle => .inr (.inr hle)

end

/-- **Only the area itself matters.** -/
theorem Seg.congr (hw : 0 < w) (h : Seg mem w a bs z f g)
    (heq : ∀ p, a ≤ p → p < z → mem' p = mem p) : Seg mem' w a bs z f g := by
  induction bs generalizing a f with
  | nil => exact h
  | cons b bs ih =>
    obtain ⟨hstart, hmin, hdvd, hsize, hfree, hrest⟩ := h
    have hz := hrest.le
    refine ⟨hstart, hmin, hdvd, ?_, hfree, ?_⟩
    · rw [heq a le_rfl (by omega), hsize]
    · rw [heq (a + w) (by omega) (by omega)]
      exact ih hrest fun p hp => heq p (by omega)

theorem Seg.update (hw : 0 < w) (h : Seg mem w a bs z f g) {v : ℕ} (hp : p < a ∨ z ≤ p) :
    Seg (update mem p v) w a bs z f g :=
  h.congr hw fun q hq hz => update_of_ne (by omega) _ _

/-! ## The last free block -/

theorem lastFree_cons (t : ℕ) (b : Block) (bs : List Block) :
    lastFree t (b :: bs) = lastFree (if b.free then b.start else t) bs := rfl

theorem lastFree_cases (t : ℕ) (bs : List Block) : (lastFree t bs = t ∧ ∀ b ∈ bs, b.free = false) ∨
      ∃ b ∈ bs, b.free = true ∧ lastFree t bs = b.start := by
  induction bs generalizing t with
  | nil => exact .inl ⟨rfl, nofun⟩
  | cons c bs ih =>
    rw [lastFree_cons]
    rcases ih (if c.free then c.start else t) with ⟨heq, hnone⟩ | ⟨b, hb, hfree, heq⟩
    · rw [heq]
      split_ifs with hc
      · exact .inr ⟨c, mem_cons_self, hc, rfl⟩
      · exact .inl ⟨rfl, forall_mem_cons.mpr ⟨Bool.not_eq_true _ ▸ hc, hnone⟩⟩
    · exact .inr ⟨b, mem_cons_of_mem _ hb, hfree, heq⟩

/-- Without free blocks the first free block behind the area can be any. -/
theorem Seg.of_allocated (h : Seg mem w a bs z f g) (hbs : ∀ b ∈ bs, b.free = false) (g' : ℕ) :
    f = g ∧ Seg mem w a bs z g' g' := by
  induction bs generalizing a f with
  | nil => exact ⟨h.2, h.1, rfl⟩
  | cons b bs ih =>
    obtain ⟨hstart, hmin, hdvd, hsize, -, hrest⟩ := h
    have hb := hbs b mem_cons_self
    rw [hb] at hrest
    obtain ⟨hfg, hrest'⟩ := ih hrest fun c hc => hbs c (mem_cons_of_mem _ hc)
    refine ⟨hfg, hstart, hmin, hdvd, hsize, fun h => ?_, ?_⟩
    · rw [hb] at h
      exact absurd h Bool.false_ne_true
    · rw [hb]
      exact hrest'

/-- **Another free block behind the area** is linked from the last free block in it. -/
theorem Seg.relink (hw : 0 < w) (h : Seg mem w a bs z f g) (hb : b ∈ bs) (hfree : b.free = true)
    (hlast : lastFree t bs = b.start) (ha : t < a) (g' : ℕ) :
    Seg (Function.update mem (b.start + w) g') w a bs z f g' := by
  induction bs generalizing a f t with
  | nil => exact absurd hb not_mem_nil
  | cons c bs ih =>
    obtain ⟨hstart, hmin, hdvd, hsize, hf, hrest⟩ := h
    rw [lastFree_cons] at hlast
    by_cases hin : b ∈ bs
    · have hbounds := hrest.bounds hin
      have hne : ∀ p, p < a + c.size →
          Function.update mem (b.start + w) g' p = mem p := fun p hp =>
        Function.update_of_ne (by omega) _ _
      refine ⟨hstart, hmin, hdvd, ?_, hf, ?_⟩
      · rw [hne a (by omega), hsize]
      · rw [hne (a + w) (by omega)]
        refine ih hrest hin hlast ?_
        split <;> omega
    · obtain rfl : b = c := (mem_cons.mp hb).resolve_right hin
      rw [hfree, if_pos rfl] at hlast
      -- nothing behind is free, or it would be the last one
      have hnone : ∀ x ∈ bs, x.free = false := by
        rcases lastFree_cases b.start bs with ⟨-, hnone⟩ | ⟨x, hx, -, heq⟩
        · exact hnone
        · have hx' := (hrest.bounds hx).1
          omega
      obtain ⟨-, hrest'⟩ := hrest.of_allocated hnone g'
      refine ⟨hstart, hmin, hdvd, ?_, hf, ?_⟩
      · rw [Function.update_of_ne (by omega), hsize]
      · rw [hfree, hstart, update_self]
        exact hrest'.update hw (.inl (by omega))

/-! ## The free list -/

/-- The addresses of the free blocks. -/
def freeList (bs : List Block) : List ℕ := (bs.filter Block.free).map Block.start

theorem freeList_cons (b : Block) (bs : List Block) :
    freeList (b :: bs) = if b.free then b.start :: freeList bs else freeList bs := by
  unfold freeList
  rw [filter_cons]
  split <;> rfl

/-- **The free blocks are linked** in the order of their addresses. -/
theorem Seg.chain (ha : 0 < a) (h : Seg mem w a bs z f 0) :
    Chain (fun p => mem (p + w)) 0 f (freeList bs) := by
  induction bs generalizing a f with
  | nil =>
    obtain rfl := h.2
    exact .nil
  | cons b bs ih =>
    obtain ⟨hstart, -, -, -, hf, hrest⟩ := h
    have hchain := ih (by omega) hrest
    rw [freeList_cons]
    by_cases hb : b.free = true
    · rw [if_pos hb] at hchain ⊢
      rw [hstart, hf hb]
      exact .cons (by omega) hchain
    · rw [if_neg hb] at hchain ⊢
      exact hchain

theorem Seg.freeList_ascending (hw : 0 < w) (h : Seg mem w a bs z f g) :
    (freeList bs).Pairwise (· < ·) := by
  unfold freeList
  rw [pairwise_map]
  refine (h.pairwise.filter _).imp_of_mem fun {x y} hx hy hxy => ?_
  have := (h.bounds (mem_of_mem_filter hx)).2.2
  omega

/-- The first free block from `a` on is one of the area, or the first one behind it. -/
theorem Seg.first_mem (h : Seg mem w a bs z f g) :
    f = g ∨ ∃ b ∈ bs, b.free = true ∧ b.start = f := by
  induction bs generalizing a f with
  | nil => exact .inl h.2
  | cons b bs ih =>
    obtain ⟨hstart, -, -, -, hf, hrest⟩ := h
    by_cases hb : b.free = true
    · exact .inr ⟨b, mem_cons_self, hb, hstart.trans (hf hb).symm⟩
    · rw [if_neg hb] at hrest
      rcases ih hrest with heq | ⟨c, hc, hfree⟩
      · exact .inl heq
      · exact .inr ⟨c, mem_cons_of_mem _ hc, hfree⟩

theorem Seg.first_le (h : Seg mem w a bs z f g) : f = g ∨ a ≤ f := by
  refine h.first_mem.imp_right ?_
  rintro ⟨b, hb, -, rfl⟩
  exact (h.bounds hb).1

theorem Seg.length_le (h : Seg mem w a bs z f g) : a + bs.length * (2 * w) ≤ z := by
  induction bs generalizing a f with
  | nil => simpa using h.1.le
  | cons b bs ih =>
    have hrest := ih h.2.2.2.2.2
    have hmin := h.2.1
    rw [length_cons, Nat.add_one_mul]
    omega

/-- A block that ends where the area ends is the last one. -/
theorem Seg.last_of_end (hw : 0 < w) (h : Seg mem w a bs z f g) (hb : b ∈ bs)
    (hend : b.start + b.size = z) : ∃ xs, bs = xs ++ [b] := by
  obtain ⟨xs, ys, rfl⟩ := append_of_mem hb
  obtain ⟨m, e, -, hstart, -, -, -, -, hys⟩ := seg_append.mp h
  have hlen := hys.length_le
  have hzero : ys.length * (2 * w) = 0 := by omega
  have hnil : ys.length = 0 := (Nat.mul_eq_zero.mp hzero).resolve_right (by omega)
  exact ⟨xs, by rw [length_eq_zero_iff.mp hnil]⟩

/-- The blocks follow each other without gaps from `a` to `z`. -/
def Tiles : ℕ → List Block → ℕ → Prop
  | a, [], z => a = z
  | a, b :: bs, z => b.start = a ∧ 0 < b.size ∧ Tiles (a + b.size) bs z

theorem Seg.tiles (hw : 0 < w) (h : Seg mem w a bs z f g) : Tiles a bs z := by
  induction bs generalizing a f with
  | nil => exact h.1
  | cons b bs ih =>
    obtain ⟨hstart, hmin, -, -, -, hrest⟩ := h
    exact ⟨hstart, by omega, ih hrest⟩

/-- The data of a block in use may be anything. -/
theorem Seg.write (hw : 0 < w) (h : Seg mem w a bs z f g) (hb : b ∈ bs) (hused : b.free = false)
    (hp : b.start < p) (hp' : p < b.start + b.size) (v : ℕ) :
    Seg (Function.update mem p v) w a bs z f g := by
  obtain ⟨xs, ys, rfl⟩ := append_of_mem hb
  obtain ⟨m, e, hxs, rfl, hmin, hdvd, hsize, -, hys⟩ := seg_append.mp h
  rw [hused] at hys
  refine seg_append.mpr
    ⟨b.start, e, hxs.update hw (.inr hp.le), rfl, hmin, hdvd, ?_, fun hf => ?_, ?_⟩
  · rw [update_of_ne hp.ne, hsize]
  · rw [hused] at hf
    exact absurd hf Bool.false_ne_true
  · rw [hused]
    exact hys.update hw (.inl hp')

/-! ## Neighbours -/

/-- No two free blocks are neighbours. -/
def Coalesced (bs : List Block) : Prop := bs.IsChain fun x y => ¬ (x.free = true ∧ y.free = true)

theorem coalesced_append : Coalesced (xs ++ ys) ↔ Coalesced xs ∧ Coalesced ys ∧
    ∀ x ∈ xs.getLast?, ∀ y ∈ ys.head?, ¬ (x.free = true ∧ y.free = true) := isChain_append

theorem coalesced_cons : Coalesced (b :: bs) ↔
    (∀ y ∈ bs.head?, ¬ (b.free = true ∧ y.free = true)) ∧ Coalesced bs := isChain_cons

/-- A block in use separates what is before it from what is behind it. -/
theorem coalesced_used (hb : b.free = false) :
    Coalesced (xs ++ b :: ys) ↔ Coalesced xs ∧ Coalesced ys := by
  rw [coalesced_append, coalesced_cons]
  constructor
  · exact fun h => ⟨h.1, h.2.1.2⟩
  · refine fun h => ⟨h.1, ⟨fun y _ hy => ?_, h.2⟩, fun x _ y hy hxy => ?_⟩
    · rw [hb] at hy
      exact absurd hy.1 Bool.false_ne_true
    · obtain rfl : b = y := by simpa using hy
      rw [hb] at hxy
      exact absurd hxy.2 Bool.false_ne_true

/-- A free block has no free neighbours. -/
theorem coalesced_free (hb : b.free = true) :
    Coalesced (xs ++ b :: ys) ↔ Coalesced xs ∧ Coalesced ys ∧
      (∀ x ∈ xs.getLast?, x.free = false) ∧ ∀ y ∈ ys.head?, y.free = false := by
  rw [coalesced_append, coalesced_cons]
  simp only [hb, true_and, Bool.not_eq_true, head?_cons, Option.mem_def, Option.some.injEq,
    forall_eq', and_true]
  tauto

end BlockList
