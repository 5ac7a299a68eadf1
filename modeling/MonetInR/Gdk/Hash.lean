import Mathlib.Data.List.Perm.Subperm
import MonetInR.Gdk.Atom
import MonetInR.Lib.LinkArray

/-!
# Bucket-chained hash index

A hash index of a column is two arrays in one heap: `Hash` holds the first position of each
bucket's collision chain and `Link` the position after each position.  Entries have 1, 2, 4 or 8
bytes, whichever is enough for the column's capacity, and the largest number of that width ends
a chain.

## Main definitions

* `Hash`, `HASHnew`, `HASHprobe`, `HASHinsAny`: the index and its basic operations
* `BAThash`: building the index, with the retry loop over ever larger masks
* `Hash.Indexes`: the index holds exactly the positions of a set, each in its own bucket's chain

## Main results

* `indexes_insAny`: what one insertion does
* `BAThash_indexes`: a freshly built index holds every position of the column
* `mem_hashLoop`: probing visits exactly the positions of a bucket that hold the value
-/

namespace MonetInR.Gdk

open LinkArray Function

variable {α : Type*} [Atom α] {i size c : ℕ}

/-- Subtraction of unsigned 64-bit numbers. -/
def sub64 (a b : ℕ) : ℕ := (a + 2 ^ 64 - b) % 2 ^ 64

theorem sub64_of_le {a b : ℕ} (h : b ≤ a) (ha : a < 2 ^ 64) : sub64 a b = a - b := by
  unfold sub64
  omega

/-- The index: number of links, largest bucket number, entry width, the number that ends a
chain, and the two arrays. -/
structure Hash where
  lim : ℕ
  mask : ℕ
  width : ℕ
  nil : ℕ
  hash : ℕ → ℕ
  link : ℕ → ℕ

/-- Bytes needed for an entry. -/
def HASHwidth (hashsize : ℕ) : ℕ :=
  if hashsize ≤ 0xFF then 1
  else if hashsize ≤ 0xFFFF then 2
  else if hashsize ≤ 0xFFFFFFFF then 4
  else 8

/-- The largest entry of a width (`BUN1_NONE`, …, `BUN8_NONE`). -/
def bunNone (width : ℕ) : ℕ := 2 ^ (8 * width) - 1

namespace Hash

/-- Storing keeps only the low `width` bytes. -/
def put (h : Hash) (i v : ℕ) : Hash := { h with hash := update h.hash i (v % 2 ^ (8 * h.width)) }

def putlink (h : Hash) (i v : ℕ) : Hash :=
  { h with link := update h.link i (v % 2 ^ (8 * h.width)) }

@[simp] theorem put_link (h : Hash) (i v : ℕ) : (h.put i v).link = h.link := rfl
@[simp] theorem putlink_nil (h : Hash) (i v : ℕ) : (h.putlink i v).nil = h.nil := rfl
@[simp] theorem putlink_mask (h : Hash) (i v : ℕ) : (h.putlink i v).mask = h.mask := rfl
@[simp] theorem putlink_width (h : Hash) (i v : ℕ) : (h.putlink i v).width = h.width := rfl
@[simp] theorem putlink_lim (h : Hash) (i v : ℕ) : (h.putlink i v).lim = h.lim := rfl
@[simp] theorem putlink_hash (h : Hash) (i v : ℕ) : (h.putlink i v).hash = h.hash := rfl

end Hash

/-- The number of buckets for `cnt` values: a power of two, at least 8. -/
def HASHmask (cnt : ℕ) : ℕ :=
  let m := grow 64 8
  if sub64 (m + m) cnt < 2 * sub64 cnt m % 2 ^ 64 then m + m else m
where
  /-- `while (m + m < cnt) m += m` -/
  grow : ℕ → ℕ → ℕ
    | 0, m => m
    | n + 1, m => if m + m < cnt then grow n (m + m) else m

/-- A fresh index whose buckets are all empty.  The links are whatever `mem` the heap holds. -/
def HASHnew (mem : ℕ → ℕ) (size mask : ℕ) : Hash :=
  let width := HASHwidth size
  { lim := size
    mask := mask - 1
    width := width
    nil := bunNone width
    hash := fun _ => bunNone width
    link := mem }

section Probe

/-- The bucket of a value. -/
def HASHprobe (h : Hash) (v : α) : ℕ := Atom.atomHash v &&& h.mask

theorem HASHprobe_le (h : Hash) (v : α) : HASHprobe h v ≤ h.mask := Nat.and_le_right

end Probe

/-- Put position `i` in front of the chain of bucket `c`. -/
def HASHinsAny (h : Hash) (i c : ℕ) : Hash := (h.putlink i (h.hash c)).put c i

/-! ## Building the index

`bucket h p` is the bucket that the value at position `p` selects in `h`; it depends on `h`
through the mask only. -/

/-- Insert the positions `r, …, r + n - 1` until more than `nslots` buckets are in use.  Returns
the index and the first position that was not inserted. -/
def startHash (bucket : ℕ → ℕ) : ℕ → Hash → ℕ → ℕ → Hash × ℕ
  | 0, h, r, _ => (h, r)
  | n + 1, h, r, nslots =>
    if h.hash (bucket r) = h.nil then
      if nslots = 0 then (h, r)
      else startHash bucket n (HASHinsAny h r (bucket r)) (r + 1) (nslots - 1)
    else startHash bucket n (HASHinsAny h r (bucket r)) (r + 1) nslots

/-- Insert the positions `p, …, p + n - 1`. -/
def finishHash (bucket : ℕ → ℕ) : ℕ → Hash → ℕ → Hash
  | 0, h, _ => h
  | n + 1, h, p => finishHash bucket n (HASHinsAny h p (bucket p)) (p + 1)

section Build

/-- What `BAThash` reads of a column: the region of live positions, the capacity, whether the
column is marked unique, the size of a value in bytes, and the hash of the value at each position.
A hash is taken of the bits of a value, and values that compare equal may differ in their bits. -/
structure HashInput where
  first : ℕ
  count : ℕ
  capacity : ℕ
  key : Bool
  size : ℕ
  hashAt : ℕ → ℕ
  fits : first + count ≤ capacity
  small : capacity < 2 ^ 63

namespace HashInput

variable (b : HashInput)

/-- `BUNlast`. -/
def last : ℕ := b.first + b.count

/-- The number of values the mask is chosen for. -/
def cnt : ℕ := if b.count = 0 then b.capacity else b.count

/-- The first mask tried. -/
def mask (masksize : ℕ) : ℕ :=
  let mask :=
    if 0 < masksize then HASHmask masksize
    else if b.size = 1 then 1 <<< 8
    else if b.size = 2 then 1 <<< 12
    else if b.key then HASHmask b.cnt
    else HASHmask (b.cnt >>> 6)
  if mask < 1024 then 1024 else mask

/-- The positions below this one are tried out before a mask is accepted: a quarter of the
column when the mask is found dynamically, none otherwise. -/
def tryout (masksize : ℕ) : ℕ :=
  if 0 < masksize ∨ b.size = 1 ∨ b.size = 2 ∨ b.key then b.first
  else min (b.first + (b.cnt >>> 2)) b.last

end HashInput

/-- The bucket of each position for a given largest bucket number. -/
def bucketOf (hashAt : ℕ → ℕ) (mask i : ℕ) : ℕ := hashAt i &&& mask

/-- One attempt with a given mask. -/
def tryMask (b : HashInput) (mem : ℕ → ℕ) (p mask : ℕ) : Hash × ℕ :=
  let h := HASHnew mem b.capacity mask
  startHash (bucketOf b.hashAt h.mask) (p - b.first) h b.first (mask >>> 3)

/-- `do … while (r < p && mask < cnt && (mask <<= 2))`; the mask grows in every round, so `cnt`
rounds are enough. -/
def retryMask (b : HashInput) (mem : ℕ → ℕ) (p : ℕ) : ℕ → ℕ → Hash × ℕ
  | 0, mask => tryMask b mem p mask
  | n + 1, mask =>
    let hr := tryMask b mem p mask
    if hr.2 < p ∧ mask < b.cnt then retryMask b mem p n (mask <<< 2) else hr

/-- Build the hash index of a column. -/
def BAThash (b : HashInput) (mem : ℕ → ℕ) (masksize : ℕ) : Hash :=
  let hr := retryMask b mem (b.tryout masksize) b.cnt (b.mask masksize)
  finishHash (bucketOf b.hashAt hr.1.mask) (b.last - hr.2) hr.1 hr.2

/-- The positions that `HASHloop` visits for a value with the hash `x`: the chain of its bucket,
without the positions at which `same`, the comparison with the value, finds another value. -/
def hashLoop (h : Hash) (same : ℕ → Bool) (x : ℕ) : List ℕ :=
  (walk h.link h.nil h.lim (h.hash (x &&& h.mask))).filter same

end Build

/-! ## What an index holds -/

/-- The index holds exactly the positions in `S`, position `i` in the chain of bucket
`bucket i`. -/
def Hash.Indexes (h : Hash) (S : ℕ → Prop) (bucket : ℕ → ℕ) : Prop :=
  ∀ c ≤ h.mask, ∃ l, Chain h.link h.nil (h.hash c) l ∧ ∀ i, i ∈ l ↔ S i ∧ bucket i = c

/-- The shape of an index that never changes: positions below `lim` can be stored, and differ
from the number that ends a chain. -/
structure Hash.Shape (h : Hash) : Prop where
  nil_eq : h.nil = bunNone h.width
  lim_le : h.lim ≤ h.nil
  hash_le : ∀ c, h.hash c ≤ h.nil

namespace Hash.Shape

variable {h : Hash}

theorem mod_of_le (hs : h.Shape) {x : ℕ} (hx : x ≤ h.nil) : x % 2 ^ (8 * h.width) = x := by
  have hpos : 0 < 2 ^ (8 * h.width) := Nat.two_pow_pos _
  rw [hs.nil_eq, bunNone] at hx
  exact Nat.mod_eq_of_lt (by omega)

theorem insAny (hs : h.Shape) (hi : i < h.lim) (c : ℕ) : (HASHinsAny h i c).Shape where
  nil_eq := hs.nil_eq
  lim_le := hs.lim_le
  hash_le d := by
    have hi' : i ≤ h.nil := le_trans hi.le hs.lim_le
    by_cases hd : d = c
    · subst hd
      simpa [HASHinsAny, Hash.put, hs.mod_of_le hi'] using hi'
    · simpa [HASHinsAny, Hash.put, update_of_ne hd] using hs.hash_le d

end Hash.Shape

theorem bunNone_HASHwidth (h : size < 2 ^ 63) : size ≤ bunNone (HASHwidth size) := by
  unfold HASHwidth bunNone
  split_ifs <;> omega

theorem shape_HASHnew (mem : ℕ → ℕ) (h : size < 2 ^ 63) (mask : ℕ) :
    (HASHnew mem size mask).Shape :=
  ⟨rfl, bunNone_HASHwidth h, fun _ => le_rfl⟩

theorem Hash.Indexes.congr {h : Hash} {S S' : ℕ → Prop} {bucket bucket' : ℕ → ℕ}
    (hx : h.Indexes S bucket) (hS : ∀ i, S i ↔ S' i) (hb : ∀ i, S i → bucket i = bucket' i) :
    h.Indexes S' bucket' := by
  intro c hc
  obtain ⟨l, hl, hmem⟩ := hx c hc
  refine ⟨l, hl, fun i => ?_⟩
  rw [hmem i, ← hS i]
  exact and_congr_right fun hi => by rw [hb i hi]

/-- One insertion puts a position in front of its bucket's chain, and leaves the other chains. -/
theorem chain_insAny {h : Hash} (hs : h.Shape) (hi : i < h.lim) (c₀ : ℕ) {l : List ℕ}
    (hl : Chain h.link h.nil (h.hash c) l) (hil : i ∉ l) :
    Chain (HASHinsAny h i c₀).link (HASHinsAny h i c₀).nil ((HASHinsAny h i c₀).hash c)
      (if c = c₀ then i :: l else l) := by
  have hi' : i ≤ h.nil := le_trans hi.le hs.lim_le
  have hlink : (HASHinsAny h i c₀).link = update h.link i (h.hash c₀) := by
    simp only [HASHinsAny, Hash.put_link, Hash.putlink, hs.mod_of_le (hs.hash_le _)]
  by_cases hc : c = c₀
  · have hhead : (HASHinsAny h i c₀).hash c = i := by
      simp [HASHinsAny, Hash.put, hc, hs.mod_of_le hi']
    rw [if_pos hc, hhead, hlink, ← hc]
    exact hl.push hil (by have := hs.lim_le; omega)
  · have hhead : (HASHinsAny h i c₀).hash c = h.hash c := by
      simp [HASHinsAny, Hash.put, update_of_ne hc]
    rw [if_neg hc, hhead]
    exact hl.update_of_notMem hil _

/-- One insertion adds one position, in front of its bucket's chain. -/
theorem indexes_insAny {h : Hash} {S : ℕ → Prop} {bucket : ℕ → ℕ} (hs : h.Shape)
    (hx : h.Indexes S bucket) (hi : i < h.lim) (hnew : ¬ S i) :
    (HASHinsAny h i (bucket i)).Indexes (fun j => S j ∨ j = i) bucket := by
  intro c hc
  obtain ⟨l, hl, hmem⟩ := hx c hc
  refine ⟨_, chain_insAny hs hi _ hl fun hm => hnew ((hmem i).mp hm).1, fun j => ?_⟩
  by_cases hci : c = bucket i
  · rw [if_pos hci, List.mem_cons, hmem j]
    constructor
    · rintro (rfl | ⟨hj, hb⟩)
      · exact ⟨Or.inr rfl, hci.symm⟩
      · exact ⟨Or.inl hj, hb⟩
    · rintro ⟨hj | rfl, hb⟩
      · exact .inr ⟨hj, hb⟩
      · exact .inl rfl
  · rw [if_neg hci, hmem j]
    constructor
    · rintro ⟨hj, hb⟩
      exact ⟨Or.inl hj, hb⟩
    · rintro ⟨hj | rfl, hb⟩
      · exact ⟨hj, hb⟩
      · exact absurd hb.symm hci

/-! ## A built index holds the whole column -/

/-- The index of a column prefix: the positions from `first` up to `r`, and room for `lim`. -/
structure Hash.Holds (h : Hash) (first r lim mask : ℕ) (bucket : ℕ → ℕ) : Prop where
  shape : h.Shape
  lim_eq : h.lim = lim
  mask_eq : h.mask = mask
  indexes : h.Indexes (fun i => first ≤ i ∧ i < r) bucket

section Build

variable {h : Hash} {first r lim mask p : ℕ} {bucket : ℕ → ℕ}

theorem Hash.Holds.insAny (hh : h.Holds first r lim mask bucket) (hf : first ≤ r) (hr : r < lim) :
    (HASHinsAny h r (bucket r)).Holds first (r + 1) lim mask bucket where
  shape := hh.shape.insAny (hh.lim_eq.symm ▸ hr) _
  lim_eq := hh.lim_eq
  mask_eq := hh.mask_eq
  indexes := by
    have hx := indexes_insAny hh.shape hh.indexes (hh.lim_eq.symm ▸ hr) (fun hc => by omega)
    exact hx.congr (fun i => by omega) (fun _ _ => rfl)

theorem startHash_holds (n nslots : ℕ) (hh : h.Holds first r lim mask bucket)
    (hf : first ≤ r) (hn : r + n ≤ lim) :
    (startHash bucket n h r nslots).1.Holds first (startHash bucket n h r nslots).2 lim mask
        bucket ∧
      first ≤ (startHash bucket n h r nslots).2 ∧ (startHash bucket n h r nslots).2 ≤ r + n := by
  induction n generalizing h r nslots with
  | zero => exact ⟨hh, hf, le_rfl⟩
  | succ n ih =>
    have hins := hh.insAny hf (by omega)
    rw [startHash]
    split_ifs with h1 h2
    · exact ⟨hh, hf, Nat.le_add_right _ _⟩
    · obtain ⟨h3, h4, h5⟩ := ih (nslots - 1) hins (by omega) (by omega)
      exact ⟨h3, h4, by omega⟩
    · obtain ⟨h3, h4, h5⟩ := ih nslots hins (by omega) (by omega)
      exact ⟨h3, h4, by omega⟩

theorem finishHash_holds (n : ℕ) (hh : h.Holds first r lim mask bucket) (hf : first ≤ r)
    (hn : r + n ≤ lim) : (finishHash bucket n h r).Holds first (r + n) lim mask bucket := by
  induction n generalizing h r with
  | zero => exact hh
  | succ n ih =>
    have hrec := ih (hh.insAny hf (by omega)) (by omega) (by omega)
    rwa [show r + 1 + n = r + (n + 1) by omega] at hrec

variable (b : HashInput) (mem : ℕ → ℕ) (masksize : ℕ)

theorem tryMask_holds (hp : b.first ≤ p) (hp' : p ≤ b.last) (mask : ℕ) :
    (tryMask b mem p mask).1.Holds b.first (tryMask b mem p mask).2 b.capacity (mask - 1)
        (bucketOf b.hashAt (mask - 1)) ∧
      b.first ≤ (tryMask b mem p mask).2 ∧ (tryMask b mem p mask).2 ≤ b.last := by
  have hnew : (HASHnew mem b.capacity mask).Holds b.first b.first b.capacity (mask - 1)
      (bucketOf b.hashAt (mask - 1)) :=
    ⟨shape_HASHnew mem b.small mask, rfl, rfl, fun _ _ => ⟨[], .nil, fun i => iff_of_false
      List.not_mem_nil (by omega)⟩⟩
  have hcap := b.fits
  have hlast : b.last = b.first + b.count := rfl
  obtain ⟨h1, h2, h3⟩ := startHash_holds (p - b.first) (mask >>> 3) hnew le_rfl (by omega)
  exact ⟨h1, h2, le_trans h3 (by omega)⟩

theorem retryMask_holds (hp : b.first ≤ p) (hp' : p ≤ b.last) (n mask : ℕ) :
    ∃ m, (retryMask b mem p n mask).1.Holds b.first (retryMask b mem p n mask).2 b.capacity m
        (bucketOf b.hashAt m) ∧
      b.first ≤ (retryMask b mem p n mask).2 ∧ (retryMask b mem p n mask).2 ≤ b.last := by
  induction n generalizing mask with
  | zero => exact ⟨_, tryMask_holds b mem hp hp' mask⟩
  | succ n ih =>
    rw [retryMask]
    split_ifs
    · exact ih _
    · exact ⟨_, tryMask_holds b mem hp hp' mask⟩

theorem HashInput.tryout_bounds : b.first ≤ b.tryout masksize ∧ b.tryout masksize ≤ b.last := by
  unfold HashInput.tryout HashInput.last
  split_ifs <;> omega

/-- **A freshly built index holds every live position**, each in the chain of the bucket its hash
selects. -/
theorem BAThash_indexes :
    (BAThash b mem masksize).Shape ∧ (BAThash b mem masksize).lim = b.capacity ∧
      (BAThash b mem masksize).Indexes (fun i => b.first ≤ i ∧ i < b.last)
        (bucketOf b.hashAt (BAThash b mem masksize).mask) := by
  obtain ⟨hp, hp'⟩ := b.tryout_bounds masksize
  obtain ⟨m, hh, hf, hl⟩ := retryMask_holds b mem hp hp' b.cnt (b.mask masksize)
  have hcap : b.last ≤ b.capacity := b.fits
  have hfin := finishHash_holds (b.last - (retryMask b mem (b.tryout masksize) b.cnt
    (b.mask masksize)).2) hh hf (by omega)
  rw [Nat.add_sub_cancel' hl] at hfin
  -- the buckets used while building are those of the finished index: the mask stays
  rw [← hh.mask_eq] at hfin
  change (BAThash b mem masksize).Holds _ _ _ _ _ at hfin
  refine ⟨hfin.shape, hfin.lim_eq, ?_⟩
  rw [hfin.mask_eq]
  exact hfin.indexes

theorem finishHash_mask (n p : ℕ) (h : Hash) : (finishHash bucket n h p).mask = h.mask := by
  induction n generalizing h p with
  | zero => rfl
  | succ n ih => exact ih (p + 1) _

theorem BAThash_mask {masksize : ℕ} (hm : 0 < masksize) :
    (BAThash b mem masksize).mask = b.mask masksize - 1 := by
  have htryout : b.tryout masksize = b.first := if_pos (.inl hm)
  have hempty : ∀ mask, tryMask b mem b.first mask = (HASHnew mem b.capacity mask, b.first) := by
    intro mask
    rw [tryMask, Nat.sub_self]
    rfl
  have hretry : ∀ n mask, retryMask b mem b.first n mask = tryMask b mem b.first mask := by
    intro n mask
    cases n with
    | zero => rfl
    | succ n => exact if_neg fun h => absurd h.1 (by rw [hempty]; exact lt_irrefl _)
  rw [BAThash, finishHash_mask, htryout, hretry, hempty]
  rfl

end Build

/-! ## Probing -/

section HashLoop

variable {h : Hash} {S : ℕ → Prop} {hashAt : ℕ → ℕ}

/-- Walking the chain of a bucket visits exactly the positions in it, each once. -/
theorem Hash.Indexes.walk_spec {bucket : ℕ → ℕ} (hx : h.Indexes S bucket)
    (hS : ∀ i, S i → i < h.lim) (hc : c ≤ h.mask) :
    (walk h.link h.nil h.lim (h.hash c)).Nodup ∧
      ∀ p, p ∈ walk h.link h.nil h.lim (h.hash c) ↔ S p ∧ bucket p = c := by
  obtain ⟨l, hl, hmem⟩ := hx c hc
  have hlen : l.length ≤ h.lim := by
    have hsub : l ⊆ List.range h.lim := fun i hi => List.mem_range.mpr (hS i ((hmem i).mp hi).1)
    simpa using (hl.nodup.subperm hsub).length_le
  rw [hl.walk_eq hlen]
  exact ⟨hl.nodup, hmem⟩

/-- **Probing a valid index visits exactly the positions in the bucket of the hash at which the
comparison finds the value**, each once. -/
theorem mem_hashLoop (hx : h.Indexes S (bucketOf hashAt h.mask)) (hS : ∀ i, S i → i < h.lim)
    (same : ℕ → Bool) (x : ℕ) : (hashLoop h same x).Nodup ∧
      ∀ p, p ∈ hashLoop h same x ↔ S p ∧ hashAt p &&& h.mask = x &&& h.mask ∧ same p = true := by
  obtain ⟨hnd, hmem⟩ := hx.walk_spec hS (c := x &&& h.mask) Nat.and_le_right
  refine ⟨hnd.filter _, fun p => ?_⟩
  rw [hashLoop, List.mem_filter, hmem p, and_assoc]
  rfl

/-- **A lookup in a new index visits, each once, the positions at which the comparison finds the
value and the hash agrees with that of the value up to the mask.**  A position with an equal value
that has other bits, as -0.0 for 0.0, is visited only if its hash happens to agree. -/
theorem mem_hashLoop_BAThash (b : HashInput) (mem : ℕ → ℕ) (masksize : ℕ) (same : ℕ → Bool)
    (x : ℕ) :
    let h := BAThash b mem masksize
    (hashLoop h same x).Nodup ∧ ∀ p, p ∈ hashLoop h same x ↔
      (b.first ≤ p ∧ p < b.last) ∧ b.hashAt p &&& h.mask = x &&& h.mask ∧ same p = true := by
  obtain ⟨-, hlim, hx⟩ := BAThash_indexes b mem masksize
  exact mem_hashLoop hx (fun i hi => hlim ▸ hi.2.trans_le b.fits) same x

end HashLoop

end MonetInR.Gdk
