import Mathlib.Tactic.Ring
import MonetInR.Gdk.Heap.Alloc
import MonetInR.Lib.BlockList

/-!
# The layout of a heap

The blocks of a heap, free or not, fill it from the first block to the end; the free ones are
linked in the order of their addresses, and no two of them are neighbours.  `HEAP_malloc` and
`HEAP_free` keep this layout and do not touch the blocks that are in use.

## Main results

* `Heap.malloc_layout`: allocation takes one block from the free ones, or grows the heap
* `Heap.free_layout`: deallocation makes one block free
* `Heap.HEAP_check_of_layout`: `HEAP_check` accepts the layout
-/

namespace MonetInR.Gdk

open BlockList LinkArray List Function

theorem u64_of_lt {x : ℕ} (h : x < 2 ^ 64) : u64 x = x := Nat.mod_eq_of_lt h

theorem roundup_8_spec {x : ℕ} (h : x + 7 < 2 ^ 64) :
    x ≤ roundup_8 x ∧ roundup_8 x < x + 8 ∧ 8 ∣ roundup_8 x := by
  unfold roundup_8
  rw [u64_of_lt h]
  omega

theorem roundup_num_of_dvd {x : ℕ} (h : x + 8 < 2 ^ 64) (hd : 8 ∣ x) : roundup_num x 8 = x := by
  unfold roundup_num
  rw [u64_of_lt (by omega)]
  dsimp only
  omega

namespace Heap

variable {h h' : Heap} {nb a block s z f g t u fuel n p : ℕ} {bs pre post : List Block} {b : Block}

/-! ## Headers -/

theorem header_size (h : Heap) (p s n : ℕ) : ((h.setSize p s).setNext p n).chunkSize p = s :=
  (update_of_ne (by omega) _ _).trans (update_self ..)

theorem header_next (h : Heap) (p s n : ℕ) : ((h.setSize p s).setNext p n).chunkNext p = n :=
  update_self ..

theorem header_same (h : Heap) (p s n : ℕ) {q : ℕ} (hq : q < p ∨ p + 16 ≤ q) :
    ((h.setSize p s).setNext p n).mem q = h.mem q :=
  (update_of_ne (by omega) _ _).trans (update_of_ne (by omega) _ _)

/-! ## The free list

The search walks the free blocks in the order of their addresses, and remembers the last two it has
passed.  The second one is needed to glue a new block to the end. -/

/-- The last free block and the one before it, or `t` and `u`. -/
def trails : ℕ × ℕ → List Block → ℕ × ℕ
  | t, [] => t
  | t, b :: bs => trails (if b.free then (b.start, t.1) else t) bs

theorem trails_fst (t : ℕ × ℕ) (bs : List Block) : (trails t bs).1 = lastFree t.1 bs := by
  induction bs generalizing t with
  | nil => rfl
  | cons b bs ih =>
    rw [trails, ih, lastFree_cons]
    split <;> rfl

theorem trails_concat (t : ℕ × ℕ) (bs : List Block) (hb : b.free = true) :
    trails t (bs ++ [b]) = (b.start, lastFree t.1 bs) := by
  induction bs generalizing t with
  | nil => simp only [nil_append, trails, hb]; rfl
  | cons c bs ih =>
    rw [cons_append, trails, ih, lastFree_cons]
    split <;> rfl

/-- **The search for a block** finds a free one that is large enough, with its predecessor, or
ends at the last free block. -/
theorem findBlock_spec (nb u : ℕ) (hs : Seg h.mem 8 a bs z f 0) (ht : t < a)
    (hfuel : bs.length < fuel) :
    (∃ pre b post, bs = pre ++ b :: post ∧ b.free = true ∧ nb ≤ b.size ∧
      h.findBlock nb fuel f t u = some (b.start, trails (t, u) pre)) ∨
    h.findBlock nb fuel f t u = some (0, trails (t, u) bs) := by
  induction bs generalizing a f t u fuel with
  | nil =>
    obtain _ | fuel := fuel
    · omega
    obtain rfl := hs.2
    right
    rfl
  | cons b bs ih =>
    obtain _ | fuel := fuel
    · omega
    obtain ⟨hstart, hmin, -, hsize, hf, hrest⟩ := hs
    by_cases hb : b.free = true
    · rw [hf hb, if_pos hb] at *
      have hstep : h.findBlock nb (fuel + 1) a t u =
          if nb ≤ b.size then some (a, t, u) else h.findBlock nb fuel (h.mem (a + 8)) a t := by
        rw [findBlock, if_neg (by omega), if_neg (by omega), chunkSize, hsize, chunkNext]
      rw [hstep]
      by_cases hle : nb ≤ b.size
      · left
        refine ⟨[], b, bs, rfl, hb, hle, ?_⟩
        rw [if_pos hle, hstart]
        rfl
      · rw [if_neg hle]
        refine (ih t hrest (t := a) (by omega) (Nat.lt_of_succ_lt_succ hfuel)).imp ?_
          fun hfound => ?_
        · rintro ⟨pre, c, post, rfl, hc, hle', hfound⟩
          refine ⟨b :: pre, c, post, rfl, hc, hle', ?_⟩
          rw [hfound, trails, if_pos hb, hstart]
        · rw [hfound, trails, if_pos hb, hstart]
    -- a block in use is not in the list
    · rw [if_neg hb] at hrest
      refine (ih u hrest (t := t) (by omega) (Nat.lt_of_succ_lt hfuel)).imp ?_ fun hfound => ?_
      · rintro ⟨pre, c, post, rfl, hc, hle', hfound⟩
        refine ⟨b :: pre, c, post, rfl, hc, hle', ?_⟩
        rw [hfound, trails, if_neg hb]
      · rw [hfound, trails, if_neg hb]

/-- **The search for the neighbours** of a block that is in use. -/
theorem findAfter_spec (hpre : Seg h.mem 8 a pre block f g) (hg : g = 0 ∨ block < g)
    (ht : t < a) (ha : 0 < a) (hfuel : pre.length < fuel) :
    h.findAfter block fuel f t = some (lastFree t pre, g) := by
  induction pre generalizing a f t fuel with
  | nil =>
    obtain _ | fuel := fuel
    · omega
    obtain rfl := hpre.2
    rw [findAfter]
    rcases hg with rfl | hg
    · rfl
    · rw [if_neg (by omega), if_pos hg]
      rfl
  | cons b bs ih =>
    obtain _ | fuel := fuel
    · omega
    obtain ⟨hstart, hmin, -, hsize, hf, hrest⟩ := hpre
    have hle := hrest.le
    rw [lastFree_cons]
    by_cases hb : b.free = true
    · rw [if_pos hb] at hrest ⊢
      rw [hf hb, findAfter, if_neg (by omega), if_neg (by omega), hstart]
      exact ih hrest (by omega) (by omega) (by simpa using hfuel)
    · rw [if_neg hb] at hrest ⊢
      exact ih hrest (by omega) (by omega) (Nat.lt_of_succ_lt hfuel)

/-! ## Links

A change of a link lies in the header of a free block, or of the heap itself. -/

/-- What a change of the free list before `block` leaves alone: everything from `block` on, and
every block in use before it. -/
structure KeepsBefore (h h' : Heap) (pre : List Block) (block : ℕ) : Prop where
  behind : ∀ p, block ≤ p → h'.mem p = h.mem p
  used : ∀ x ∈ pre, x.free = false → ∀ p, x.start ≤ p → p < x.start + x.size → h'.mem p = h.mem p

theorem link_frame (h : Heap) (trail g : ℕ) :
    (h.link trail g).free = h.free ∧ (h.link trail g).size = h.size ∧
      (h.link trail g).alignment = h.alignment ∧ (h.link trail g).firstblock = h.firstblock := by
  unfold link
  split <;> exact ⟨rfl, rfl, rfl, rfl⟩

theorem seg_link (hpre : Seg h.mem 8 a pre block h.head g) (ha : 0 < a) (g' : ℕ) :
    Seg (h.link (lastFree 0 pre) g').mem 8 a pre block (h.link (lastFree 0 pre) g').head g' ∧
      KeepsBefore h (h.link (lastFree 0 pre) g') pre block := by
  rcases lastFree_cases 0 pre with ⟨heq, hnone⟩ | ⟨c, hc, hfree, heq⟩
  · rw [heq]
    exact ⟨(hpre.of_allocated hnone g').2, fun _ _ => rfl, fun _ _ _ _ _ _ => rfl⟩
  have hbounds := hpre.bounds hc
  rw [heq, link, if_neg (by omega)]
  refine ⟨hpre.relink (by omega) hc hfree heq ha g', fun p hp => ?_, fun x hx hused p hp hp' => ?_⟩
  · exact update_of_ne (by omega) _ _
  · apply update_of_ne
    rcases hpre.disjoint hx hc with rfl | hlt | hlt
    · rw [hfree] at hused
      exact absurd hused nofun
    · omega
    · omega

/-! ## Allocation

A block is found first, or made at the end of the heap.  From then on both cases are the same: the
block is split, and it is taken out of the free list. -/

/-- A block that is found to be large enough, between the blocks `pre` and `post`.  The free list
need not lead to it yet. -/
structure Found (h : Heap) (pre : List Block) (block : ℕ) (post : List Block) : Prop where
  first : 32 ≤ h.firstblock
  small : h.free < 2 ^ 64
  pre : ∃ g, Seg h.mem 8 h.firstblock pre block h.head g
  size : 2 * 8 ≤ h.chunkSize block ∧ 8 ∣ h.chunkSize block
  post : Seg h.mem 8 (block + h.chunkSize block) post h.free (h.chunkNext block) 0

/-- The layout of a heap. -/
structure Layout (h : Heap) (bs : List Block) : Prop where
  first : 32 ≤ h.firstblock ∧ 8 ∣ h.firstblock
  small : h.free < 2 ^ 64
  seg : Seg h.mem 8 h.firstblock bs h.free h.head 0
  coalesced : Coalesced bs
  alignment : h.alignment = 8
  size : h.size = h.free

/-- The blocks in use are left alone. -/
def KeepsUsed (h h' : Heap) (bs : List Block) : Prop :=
  ∀ x ∈ bs, x.free = false → ∀ p, x.start ≤ p → p < x.start + x.size → h'.mem p = h.mem p

theorem KeepsUsed.trans {h'' : Heap} (h1 : KeepsUsed h h' bs) (h2 : KeepsUsed h' h'' bs) :
    KeepsUsed h h'' bs :=
  fun x hx hused p hp hp' => (h2 x hx hused p hp hp').trans (h1 x hx hused p hp hp')

/-- The blocks in use. -/
def used (bs : List Block) : List Block := bs.filter fun b => !b.free

theorem used_append (xs ys : List Block) : used (xs ++ ys) = used xs ++ used ys := filter_append ..

theorem used_cons_of_free (hb : b.free = true) (bs : List Block) : used (b :: bs) = used bs := by
  simp [used, hb]

theorem used_cons_of_used (hb : b.free = false) (bs : List Block) :
    used (b :: bs) = b :: used bs := by
  simp [used, hb]

/-- Only the blocks in use matter. -/
theorem KeepsUsed.congr {bs' : List Block} (hk : KeepsUsed h h' bs) (hu : used bs' = used bs) :
    KeepsUsed h h' bs' := by
  intro x hx hused
  have hmem : x ∈ used bs' := mem_filter.mpr ⟨hx, by rw [hused]; rfl⟩
  rw [hu] at hmem
  exact hk x (mem_of_mem_filter hmem) hused

/-- A change of one block leaves the blocks around it alone. -/
theorem keepsUsed_append {f' g' : ℕ} (hpre : Seg h.mem 8 a pre block f g)
    (hpost : Seg h.mem 8 s post z f' g') (hsame : ∀ p, p < block ∨ s ≤ p → h'.mem p = h.mem p) :
    KeepsUsed h h' (pre ++ post) := by
  intro x hx _ p hp hp'
  apply hsame
  rcases mem_append.mp hx with hx | hx
  · have hend := (hpre.bounds hx).2.1
    exact .inl (by omega)
  · have hstart := (hpost.bounds hx).1
    exact .inr (by omega)

/-- A block that is found in a heap whose other blocks are as they should be. -/
structure Placed (h : Heap) (pre : List Block) (block : ℕ) (post : List Block) : Prop where
  found : Found h pre block post
  dvd : 8 ∣ h.firstblock
  alignment : h.alignment = 8
  full : h.size = h.free
  before : Coalesced pre
  behind : Coalesced post
  next : ∀ c ∈ post.head?, c.free = false

section

variable (hf : Found h pre block post)

include hf

theorem Found.bounds : 32 ≤ block ∧ block + h.chunkSize block ≤ h.free := by
  obtain ⟨g, hpre⟩ := hf.pre
  exact ⟨hf.first.trans hpre.le, hf.post.le⟩

theorem split_mem (hmin : 2 * 8 ≤ nb) (hle : nb + 32 ≤ h.chunkSize block) :
    ∃ m, h.split nb block = { h with mem := m } ∧ m block = nb ∧ m (block + 8) = block + nb ∧
      m (block + nb) = h.chunkSize block - nb ∧ m (block + nb + 8) = h.chunkNext block ∧
      ∀ p, p < block ∨ block + h.chunkSize block ≤ p → m p = h.mem p := by
  obtain ⟨h1, h2⟩ := hf.bounds
  have hsmall := hf.small
  have hsub : u64 (h.chunkSize block + 2 ^ 64 - nb) = h.chunkSize block - nb := by
    unfold u64
    omega
  have hnext : ({ h with mem := update h.mem (block + nb) (h.chunkSize block - nb) } :
      Heap).chunkNext block = h.chunkNext block := update_of_ne (by omega) _ _
  refine ⟨update (update (update (update h.mem (block + nb)
    (h.chunkSize block - nb)) (block + nb + 8) (h.chunkNext block)) (block + 8) (block + nb))
    block nb, ?_, update_self .., ?_, ?_, ?_, fun p hp => ?_⟩
  · unfold split
    rw [u64_of_lt (by unfold sizeofCHUNK; omega), if_pos (by unfold sizeofCHUNK; omega),
      u64_of_lt (by omega), hsub]
    simp only [setSize, setNext]
    rw [hnext]
  · rw [update_of_ne (by omega), update_self]
  · rw [update_of_ne (by omega), update_of_ne (by omega), update_of_ne (by omega), update_self]
  · rw [update_of_ne (by omega), update_of_ne (by omega), update_self]
  · rw [update_of_ne (by omega), update_of_ne (by omega),
      update_of_ne (by omega), update_of_ne (by omega)]

/-- **Splitting** leaves a block that is large enough, and maybe a free one behind it. -/
theorem split_spec (hle : nb ≤ h.chunkSize block) (hmin : 2 * 8 ≤ nb) (hdvd : 8 ∣ nb) :
    ∃ rest, Found (h.split nb block) pre block rest ∧ nb ≤ (h.split nb block).chunkSize block ∧
      (rest = post ∨ ∃ c : Block, c.free = true ∧ rest = c :: post) ∧
      (∃ m, h.split nb block = { h with mem := m }) ∧
      (∀ p, p < block ∨ block + h.chunkSize block ≤ p → (h.split nb block).mem p = h.mem p) := by
  obtain ⟨h1, h2⟩ := hf.bounds
  obtain ⟨hfirst, hsmall, ⟨g, hpre⟩, ⟨hsize, hdvds⟩, hpost⟩ := id hf
  by_cases hsplit : nb + 32 ≤ h.chunkSize block
  · obtain ⟨m, heq, hblock, hnext, hrest, hlink, hsame⟩ := split_mem hf hmin hsplit
    rw [heq]
    refine ⟨⟨block + nb, h.chunkSize block - nb, true⟩ :: post, ⟨hfirst, hsmall, ⟨g, ?_⟩, ?_, ?_⟩,
      hblock.ge, .inr ⟨_, rfl, rfl⟩, ⟨m, rfl⟩, hsame⟩
    · exact hpre.congr (by omega) fun p _ hp => hsame p (.inl hp)
    · show 2 * 8 ≤ m block ∧ 8 ∣ m block
      rw [hblock]
      exact ⟨hmin, hdvd⟩
    · show Seg m 8 (block + m block) _ h.free (m (block + 8)) 0
      rw [hblock, hnext]
      refine ⟨rfl, by dsimp only; omega, Nat.dvd_sub hdvds hdvd, hrest, fun _ => rfl, ?_⟩
      rw [hlink]
      rw [show block + nb + (h.chunkSize block - nb) = block + h.chunkSize block by omega]
      exact hpost.congr (by omega) fun p hp _ => hsame p (.inr hp)
  · have hno : h.split nb block = h := by
      unfold split
      rw [u64_of_lt (by unfold sizeofCHUNK; omega)]
      exact if_neg (by unfold sizeofCHUNK; omega)
    rw [hno]
    exact ⟨post, hf, hle, .inl rfl, ⟨_, rfl⟩, fun _ _ => rfl⟩

/-- A block that has been found becomes a block of the layout, free or in use. -/
theorem layout_link (hdvd : 8 ∣ h.firstblock) (halign : h.alignment = 8) (hsize : h.size = h.free)
    {free : Bool} (hn : n = if free then block else h.chunkNext block)
    (hc : Coalesced (pre ++ ⟨block, h.chunkSize block, free⟩ :: post)) :
    (h.link (lastFree 0 pre) n).Layout (pre ++ ⟨block, h.chunkSize block, free⟩ :: post) ∧
      KeepsUsed h (h.link (lastFree 0 pre) n) (pre ++ post) := by
  obtain ⟨hfirst, hsmall, ⟨g, hpre⟩, ⟨hmin, hdvds⟩, hpost⟩ := hf
  obtain ⟨hlink, hbehind, hused⟩ := seg_link hpre (by omega) n
  obtain ⟨k₁, k₂, k₃, k₄⟩ := link_frame h (lastFree 0 pre) n
  refine ⟨⟨?_, ?_, ?_, hc, k₃.trans halign, ?_⟩, ?_⟩
  · rw [k₄]
    exact ⟨hfirst, hdvd⟩
  · rw [k₁]
    exact hsmall
  · have hnext : (if free then (h.link (lastFree 0 pre) n).mem (block + 8) else n) =
        h.chunkNext block := by
      cases free
      · exact hn
      · exact hbehind _ (by omega)
    rw [k₁, k₄, seg_append]
    refine ⟨block, n, hlink, rfl, hmin, hdvds, hbehind block le_rfl, fun hb => ?_, ?_⟩
    · obtain rfl : free = true := hb
      exact hn
    · rw [hnext]
      exact hpost.congr (by omega) fun p hp _ => hbehind p (by omega)
  · rw [k₁, k₂, hsize]
  · intro x hx hxused p hp hp'
    rcases mem_append.mp hx with hx | hx
    · exact hused x hx hxused p hp hp'
    · have hstart := (hpost.bounds hx).1
      exact hbehind p (by omega)

end

/-- **A block that has been found is taken.** -/
theorem take_spec (hf : Placed h pre block post) (hle : nb ≤ h.chunkSize block) (hmin : 2 * 8 ≤ nb)
    (hdvd : 8 ∣ nb) :
    ∃ b rest, Layout ((h.split nb block).link (lastFree 0 pre) ((h.split nb block).chunkNext block))
        (pre ++ b :: rest) ∧ b.start = block ∧ nb ≤ b.size ∧ b.free = false ∧
      used rest = used post ∧
      KeepsUsed h ((h.split nb block).link (lastFree 0 pre) ((h.split nb block).chunkNext block))
        (pre ++ post) := by
  obtain ⟨rest, hf', hle', hrest, ⟨m, heq⟩, hsame⟩ := split_spec hf.found hle hmin hdvd
  -- the rest that is split off is free, and what follows it is not
  have hc : Coalesced (pre ++ ⟨block, (h.split nb block).chunkSize block, false⟩ :: rest) := by
    refine (coalesced_used rfl).mpr ⟨hf.before, ?_⟩
    rcases hrest with rfl | ⟨c, -, rfl⟩
    · exact hf.behind
    · refine coalesced_cons.mpr ⟨fun y hy hcy => ?_, hf.behind⟩
      rw [hf.next y hy] at hcy
      exact absurd hcy.2 Bool.false_ne_true
  have hused : used rest = used post := by
    rcases hrest with rfl | ⟨c, hfree, rfl⟩
    · rfl
    · exact used_cons_of_free hfree post
  obtain ⟨hlayout, hkeeps⟩ := layout_link hf' (heq ▸ hf.dvd) (heq ▸ hf.alignment) (heq ▸ hf.full)
    rfl hc
  obtain ⟨g, hpre⟩ := hf.found.pre
  refine ⟨_, rest, hlayout, rfl, hle', rfl, hused, ?_⟩
  refine (keepsUsed_append hpre hf.found.post hsame).trans (hkeeps.congr ?_)
  rw [used_append, used_append, hused]

theorem newsize_spec (hl : h.Layout bs) (hfit : h.free + max h.free nb + 7 < 2 ^ 64) :
    ∃ n, roundup_8 (u64 (h.free + max h.free nb)) = h.free + n ∧ nb ≤ n ∧ 8 ∣ n ∧ 0 < n ∧
      h.free + n < 2 ^ 64 := by
  have hpos : 32 ≤ h.free := hl.first.1.trans hl.seg.le
  have hdvd := (hl.seg.dvd hl.first.2).1
  obtain ⟨h1, h2, h3⟩ := roundup_8_spec (x := h.free + max h.free nb) (by omega)
  rw [u64_of_lt (by omega)]
  exact ⟨roundup_8 (h.free + max h.free nb) - h.free, by omega, by omega, Nat.dvd_sub h3 hdvd,
    by omega, by omega⟩

/-- The heap with a new block at its end, which is not yet in the free list. -/
def grown (h : Heap) (n : ℕ) : Heap :=
  { h with mem := update (update h.mem (h.free + 8) 0) h.free n,
           size := h.free + n, free := h.free + n }

theorem grown_size (h : Heap) (n : ℕ) : (h.grown n).chunkSize h.free = n := update_self ..

theorem grown_next (h : Heap) (n : ℕ) : (h.grown n).chunkNext h.free = 0 :=
  (update_of_ne (by omega) _ _).trans (update_self ..)

theorem grown_of_lt (h : Heap) (n : ℕ) (hp : p < h.free) : (h.grown n).mem p = h.mem p :=
  (update_of_ne (by omega) _ _).trans (update_of_ne (by omega) _ _)

/-- What becomes of a heap that is to grow by `n` bytes. -/
theorem grow_cases (hsize : h.size = h.free)
    (hn : roundup_8 (u64 (h.free + max h.free nb)) = h.free + n)
    (hsmall : h.free + n < 2 ^ 64) (t u : ℕ) (sys : Extend.System) :
    h.grow nb t u sys = .ok ((h.grown n).glue h.free t u) ∨
      ¬ sys.Good ∧ h.grow nb t u sys = .error (some h) ∨
      sys.Loses ∧ h.grow nb t u sys = .error none := by
  have hsub : u64 (h.free + n + 2 ^ 64 - h.free) = n := by
    unfold u64
    omega
  have hextend := sys.extend_cases h.size (h.free + n)
  rw [max_eq_right (by omega)] at hextend
  unfold grow newBlock HEAPextend
  dsimp only
  rw [hn]
  rcases hextend with hok | ⟨hbad, hleft⟩ | ⟨hlost, hnone⟩
  · left
    rw [hok]
    dsimp only [Except.map]
    rw [hsub]
    rfl
  · refine .inr (.inl ⟨hbad, ?_⟩)
    rw [hleft]
    rfl
  · refine .inr (.inr ⟨hlost, ?_⟩)
    rw [hnone]
    rfl

theorem glue_eq (ht : t < h.free) (hglue : t ≠ 0 ∧ t + (h.grown n).chunkSize t = h.free) (u : ℕ) :
    (h.grown n).glue h.free t u =
      (((h.grown n).setSize t (u64 ((h.grown n).chunkSize t + n))).setNext t 0, t, u) := by
  have hnext : ((h.grown n).setSize t (u64 ((h.grown n).chunkSize t + n))).chunkNext h.free = 0 :=
    (update_of_ne (by omega) _ _).trans (grown_next h n)
  unfold glue
  rw [if_pos hglue]
  dsimp only
  rw [grown_size, hnext]

theorem found_grown (hl : h.Layout bs) (hdvd : 8 ∣ n) (hmin : 2 * 8 ≤ n)
    (hsmall : h.free + n < 2 ^ 64) : Found (h.grown n) bs h.free [] := by
  refine ⟨hl.first.1, hsmall, ⟨0, ?_⟩, ?_, ?_⟩
  · exact hl.seg.congr (by omega) fun p _ hp => grown_of_lt h n hp
  · rw [grown_size]
    exact ⟨hmin, hdvd⟩
  · rw [grown_size, grown_next]
    exact ⟨rfl, rfl⟩

/-- **Growing** gives a block at the end of the heap, behind all blocks or all but the last one. -/
theorem grown_spec (hl : h.Layout bs) (hle : nb ≤ n) (hdvd : 8 ∣ n) (hsmall : h.free + n < 2 ^ 64)
    (hmin : 2 * 8 ≤ nb) :
    ∃ h' block pre, (h.grown n).glue h.free (trails (0, 0) bs).1 (trails (0, 0) bs).2 =
        (h', block, lastFree 0 pre) ∧
      Found h' pre block [] ∧ nb ≤ h'.chunkSize block ∧
      (pre = bs ∨ ∃ c : Block, c.free = true ∧ bs = pre ++ [c]) ∧ KeepsUsed h h' bs ∧
      h'.firstblock = h.firstblock ∧ h'.alignment = h.alignment ∧ h'.size = h'.free := by
  have hfound := found_grown hl hdvd (by omega) hsmall
  have hlast : lastFree 0 bs < h.free := by
    have hfirst := hl.first.1.trans hl.seg.le
    rcases lastFree_cases 0 bs with ⟨heq, -⟩ | ⟨c, hc, -, heq⟩
    · omega
    · have hc := hl.seg.bounds hc
      omega
  rw [trails_fst]
  by_cases hglue : lastFree 0 bs ≠ 0 ∧
      lastFree 0 bs + (h.grown n).chunkSize (lastFree 0 bs) = h.free
  · -- the last block is free, and the new one is glued to it
    rw [glue_eq hlast hglue]
    rcases lastFree_cases 0 bs with ⟨heq, -⟩ | ⟨c, hc, hcfree, heq⟩
    · exact absurd heq hglue.1
    rw [heq] at hglue ⊢
    have hcsize : (h.grown n).chunkSize c.start = c.size := by
      rw [chunkSize, grown_of_lt h n (by omega), hl.seg.size_eq hc]
    rw [hcsize] at hglue ⊢
    obtain ⟨pre, rfl⟩ := hl.seg.last_of_end (by omega) hc hglue.2
    rw [u64_of_lt (by omega), trails_concat _ _ hcfree]
    obtain ⟨m, e, hpre, hcstart, -, hcdvd, -⟩ := seg_append.mp hl.seg
    obtain rfl := hcstart
    have hsame : ∀ p, p < c.start →
        (((h.grown n).setSize c.start (c.size + n)).setNext c.start 0).mem p = h.mem p := by
      intro p hp
      exact (header_same _ _ _ _ (.inl hp)).trans (grown_of_lt h n (by omega))
    refine ⟨_, c.start, pre, rfl, ⟨hl.first.1, hsmall, ⟨e, ?_⟩, ?_, ?_⟩, ?_, .inr ⟨c, hcfree, rfl⟩,
      fun x hx hused p hp hp' => ?_, rfl, rfl, rfl⟩
    · exact hpre.congr (by omega) fun p _ hp => hsame p hp
    · rw [header_size]
      exact ⟨by omega, Nat.dvd_add hcdvd hdvd⟩
    · rw [header_size, header_next]
      exact ⟨show c.start + (c.size + n) = h.free + n by omega, rfl⟩
    · rw [header_size]
      omega
    · rcases mem_append.mp hx with hx | hx
      · have hend := (hpre.bounds hx).2.1
        exact hsame p (by omega)
      · obtain rfl := mem_singleton.mp hx
        rw [hcfree] at hused
        exact absurd hused nofun
  · rw [glue, if_neg hglue]
    refine ⟨h.grown n, h.free, bs, rfl, hfound, ?_, .inl rfl, fun x hx _ p hp hp' => ?_, rfl, rfl,
      rfl⟩
    · rw [grown_size]
      exact hle
    · have hend := (hl.seg.bounds hx).2.1
      exact grown_of_lt h n (by omega)

/-- No free block is large enough for a request. -/
def Full (h : Heap) (nbytes : ℕ) : Prop :=
  (h.findBlock (h.request nbytes) (h.free + 1) h.head 0 0).map Prod.fst = some 0

/-- **When a request does not overflow**: neither does the size of the block nor that of a heap
that grows for it. -/
def Fits (h : Heap) (nbytes : ℕ) : Prop :=
  nbytes + 15 < 2 ^ 64 ∧ (h.Full nbytes → h.free + max h.free (h.request nbytes) + 7 < 2 ^ 64)

theorem request_spec (halign : h.alignment = 8) (hn : n + 15 < 2 ^ 64) :
    n + 8 ≤ h.request n ∧ 2 * 8 ≤ h.request n ∧ 8 ∣ h.request n := by
  obtain ⟨h1, -, h3⟩ := roundup_8_spec (x := n + 8) (by omega)
  unfold request sizeofCHUNK
  rw [halign, u64_of_lt (by omega)]
  dsimp only
  split <;> omega

/-- What an allocation achieves: a block behind the blocks `pre` is in use from now on. -/
structure Allocates (h h' : Heap) (bs pre : List Block) (b : Block) (rest : List Block) (n : ℕ) :
    Prop where
  layout : h'.Layout (pre ++ b :: rest)
  inUse : b.free = false
  large : n + 8 ≤ b.size
  used : used pre ++ used rest = used bs
  keeps : KeepsUsed h h' bs

/-- From a block that has been found to the end of `HEAP_malloc`. -/
theorem allocates_of_placed {h0 : Heap} (hl : h0.Layout bs) (hf : Placed h pre block post)
    (hn : n + 15 < 2 ^ 64) (hle : h0.request n ≤ h.chunkSize block)
    (hused : used (pre ++ post) = used bs) (hkeeps : KeepsUsed h0 h bs) :
    ∃ b rest, b.start = block ∧ Allocates h0 ((h.split (h0.request n) block).link (lastFree 0 pre)
      ((h.split (h0.request n) block).chunkNext block)) bs pre b rest n := by
  obtain ⟨k₁, k₂, k₃⟩ := request_spec hl.alignment hn
  obtain ⟨b, rest, hlayout, hstart, hlarge, hfree, hrest, hkeeps'⟩ := take_spec hf hle k₂ k₃
  refine ⟨b, rest, hstart, hlayout, hfree, by omega, ?_, hkeeps.trans (hkeeps'.congr hused.symm)⟩
  rw [hrest, ← used_append, hused]

/-- The end of `HEAP_malloc`, once a block has been found. -/
def finish (nb : ℕ) : Heap × ℕ × ℕ → Heap
  | (h', block, trail) => (h'.split nb block).link trail ((h'.split nb block).chunkNext block)

/-- The answer to a request, once a block has been found or the heap has failed to grow. -/
def answer (h : Heap) (v nb : ℕ) : Except (Option Heap) (Heap × ℕ × ℕ) → Option Heap × ℕ
  | .error left => (left, 0)
  | .ok r => (some (finish nb r), (r.2.1 + h.alignment) >>> v)

theorem HEAP_malloc_eq
    (hfind : h.findBlock (h.request n) (h.free + 1) h.head 0 0 = some (block, t, u)) (v : ℕ)
    (sys : Extend.System) {r : Except (Option Heap) (Heap × ℕ × ℕ)}
    (hr : (if block = 0 then h.grow (h.request n) t u sys else .ok (h, block, t)) = r)
    (halign : ∀ x, r = .ok x → (finish (h.request n) x).alignment = h.alignment) :
    h.HEAP_malloc v n sys = some (h.answer v (h.request n) r) := by
  unfold HEAP_malloc
  dsimp only
  rw [hfind]
  dsimp only
  rw [hr]
  cases r with
  | error left => rfl
  | ok x =>
    have halign := halign x rfl
    dsimp only [answer, finish] at halign ⊢
    rw [halign]

/-- **Allocation** returns a block that was free or is new, and keeps the layout.  If the heap has
to grow and cannot, it is left as it was, or it is lost. -/
theorem malloc_layout (hl : h.Layout bs) (hfit : h.Fits n) (v : ℕ) (sys : Extend.System) :
    (¬ sys.Good ∧ h.HEAP_malloc v n sys = some (some h, 0)) ∨
      (h.Full n ∧ sys.Loses ∧ h.HEAP_malloc v n sys = some (none, 0)) ∨
      ∃ h' pre b rest, h.HEAP_malloc v n sys = some (some h', (b.start + 8) >>> v) ∧
        Allocates h h' bs pre b rest n := by
  have hlen : bs.length < h.free + 1 := by
    have := hl.seg.length_le
    omega
  have hfirst := hl.first.1
  have hmin := (request_spec hl.alignment hfit.1).2.1
  rcases findBlock_spec (h.request n) 0 hl.seg (t := 0) (by omega) hlen with
    ⟨pre, b, post, rfl, hb, hle, hfound⟩ | hnone
  -- a free block is large enough
  · right; right
    obtain ⟨m, e, hpre, rfl, hbmin, hdvd, hsize, hlink, hpost⟩ := seg_append.mp hl.seg
    rw [hb] at hpost
    obtain ⟨hcpre, hcpost, -, hnext⟩ := (coalesced_free hb).mp hl.coalesced
    have hf : Found h pre b.start post := by
      refine ⟨hfirst, hl.small, ⟨e, hpre⟩, ?_, ?_⟩
      · rw [chunkSize, hsize]
        exact ⟨hbmin, hdvd⟩
      · rw [chunkSize, hsize]
        exact hpost
    have hused : used (pre ++ post) = used (pre ++ b :: post) := by
      rw [used_append, used_append, used_cons_of_free hb]
    obtain ⟨b', rest, hstart, hall⟩ := allocates_of_placed hl
      ⟨hf, hl.first.2, hl.alignment, hl.size, hcpre, hcpost, hnext⟩ hfit.1
      (by rwa [chunkSize, hsize]) hused fun _ _ _ _ _ _ => rfl
    have hne : b.start ≠ 0 := by
      have := hf.bounds
      omega
    refine ⟨_, pre, b', rest, ?_, hall⟩
    rw [HEAP_malloc_eq hfound v sys (if_neg hne), answer, finish, trails_fst, hl.alignment, hstart]
    rintro x hx
    obtain rfl := Except.ok.inj hx
    rw [finish, trails_fst, hl.alignment]
    exact hall.layout.alignment
  -- no block is: the heap has to grow
  · have hfull : h.Full n := by rw [Full, hnone, Option.map_some]
    obtain ⟨m, hm, hle, hdvd, hpos, hsmall⟩ := newsize_spec hl (hfit.2 hfull)
    rcases grow_cases hl.size hm hsmall (trails (0, 0) bs).1 (trails (0, 0) bs).2 sys with
      hgrow | ⟨hbad, hgrow⟩ | ⟨hlost, hgrow⟩
    -- the new block may have been glued to the last one
    · right; right
      obtain ⟨h', block, pre, hglue, hf, hle, hpre, hkeeps, k₁, k₂, k₃⟩ :=
        grown_spec hl hle hdvd hsmall hmin
      rw [hglue] at hgrow
      have hcpre : Coalesced pre := by
        rcases hpre with rfl | ⟨c, -, rfl⟩
        · exact hl.coalesced
        · exact (coalesced_append.mp hl.coalesced).1
      have hused : used (pre ++ []) = used bs := by
        rcases hpre with rfl | ⟨c, hc, rfl⟩
        · rw [append_nil]
        · rw [used_append, used_append, used_cons_of_free hc]
      obtain ⟨b', rest, hstart, hall⟩ := allocates_of_placed hl
        ⟨hf, k₁ ▸ hl.first.2, k₂.trans hl.alignment, k₃, hcpre, .nil, nofun⟩ hfit.1 hle hused hkeeps
      refine ⟨_, pre, b', rest, ?_, hall⟩
      rw [HEAP_malloc_eq hnone v sys ((if_pos rfl).trans hgrow), answer, finish, hl.alignment,
        hstart]
      rintro x hx
      obtain rfl := Except.ok.inj hx
      rw [finish, hl.alignment]
      exact hall.layout.alignment
    · exact .inl ⟨hbad, HEAP_malloc_eq hnone v sys ((if_pos rfl).trans hgrow) nofun⟩
    · exact .inr (.inl ⟨hfull, hlost, HEAP_malloc_eq hnone v sys ((if_pos rfl).trans hgrow) nofun⟩)

/-! ## Deallocation

The block is joined with what is free behind it, and then with what is free before it.  In between,
the layout is whole but for the one block. -/

theorem joinAfter_of_ne (hne : ¬ (g ≠ 0 ∧ block + h.chunkSize block = g)) :
    h.joinAfter block g = h.setNext block g := by
  unfold joinAfter
  by_cases hg : g = 0
  · rw [if_neg (not_not.mpr hg), hg]
  · rw [if_pos hg, if_neg fun heq => hne ⟨hg, heq⟩]

/-- **The block behind**: after this step the block is linked to what is free behind it. -/
theorem joinAfter_spec (hfirst : 32 ≤ h.firstblock) (hsmall : h.free < 2 ^ 64)
    (hpre : Seg h.mem 8 h.firstblock pre block h.head g) (hsize : 2 * 8 ≤ h.chunkSize block)
    (hdvd : 8 ∣ h.chunkSize block)
    (hpost : Seg h.mem 8 (block + h.chunkSize block) post h.free g 0) (hcpost : Coalesced post) :
    ∃ rest, Found (h.joinAfter block g) pre block rest ∧
      (rest = post ∨ ∃ c : Block, c.free = true ∧ post = c :: rest) ∧
      (∀ c ∈ rest.head?, c.free = false) ∧ (∃ m, h.joinAfter block g = { h with mem := m }) ∧
      (∀ p, p < block ∨ block + 16 ≤ p → (h.joinAfter block g).mem p = h.mem p) := by
  by_cases hunite : g ≠ 0 ∧ block + h.chunkSize block = g
  · obtain ⟨hg, heq⟩ := hunite
    -- the free block that comes next is the next block
    cases post with
    | nil => exact absurd hpost.2 hg
    | cons c rest =>
      obtain ⟨hstart, hcmin, hcdvd, hcsize, -, hrest⟩ := hpost
      have hcfree : c.free = true := by
        by_contra hc
        rw [if_neg hc] at hrest
        have := hrest.first_le
        omega
      rw [if_pos hcfree] at hrest
      have hend := hrest.le
      have hgsize : h.chunkSize g = c.size := by rw [← heq, chunkSize, hcsize]
      have hnext : (h.setSize block (h.chunkSize block + c.size)).chunkNext g =
          h.mem (block + h.chunkSize block + 8) := by
        rw [heq]
        exact update_of_ne (by omega) _ _
      have hjoin : h.joinAfter block g = (h.setSize block (h.chunkSize block + c.size)).setNext
          block (h.mem (block + h.chunkSize block + 8)) := by
        unfold joinAfter
        rw [if_pos hg, if_pos heq, hgsize, u64_of_lt (by omega)]
        dsimp only
        rw [hnext]
      rw [hjoin]
      refine ⟨rest, ⟨hfirst, hsmall, ⟨g, ?_⟩, ?_, ?_⟩, .inr ⟨c, hcfree, rfl⟩, ?_, ⟨_, rfl⟩,
        fun p hp => header_same h _ _ _ hp⟩
      · exact hpre.congr (by omega) fun p _ hp => header_same h _ _ _ (.inl hp)
      · rw [header_size]
        exact ⟨by omega, Nat.dvd_add hdvd hcdvd⟩
      · rw [header_size, header_next, ← Nat.add_assoc]
        exact hrest.congr (by omega) fun p hp _ => header_same h _ _ _ (.inr (by omega))
      · exact fun y hy => by simpa [hcfree] using (coalesced_cons.mp hcpost).1 y hy
  · rw [joinAfter_of_ne hunite]
    have hsize' : (h.setNext block g).chunkSize block = h.chunkSize block :=
      update_of_ne (by omega) _ _
    have hnext' : (h.setNext block g).chunkNext block = g := update_self ..
    have hsame : ∀ p, p < block ∨ block + 16 ≤ p → (h.setNext block g).mem p = h.mem p :=
      fun p hp => update_of_ne (by omega) _ _
    refine ⟨post, ⟨hfirst, hsmall, ⟨g, ?_⟩, ?_, ?_⟩, .inl rfl, ?_, ⟨_, rfl⟩, hsame⟩
    · exact hpre.congr (by omega) fun p _ hp => hsame p (.inl hp)
    · rw [hsize']
      exact ⟨hsize, hdvd⟩
    · rw [hsize', hnext']
      exact hpost.congr (by omega) fun p hp _ => hsame p (.inr (by omega))
    · -- a free block there would have been united with this one
      intro c hc
      by_contra hcfree
      rw [Bool.not_eq_false] at hcfree
      cases post with
      | nil => exact absurd hc nofun
      | cons d rest =>
        obtain rfl : d = c := by simpa using hc
        obtain ⟨-, -, -, -, hf, -⟩ := hpost
        have := hf hcfree
        omega

theorem joinBefore_of_ne (hne : ¬ (t ≠ 0 ∧ t + h.chunkSize t = block)) :
    h.joinBefore block t = h.link t block := by
  unfold joinBefore link
  by_cases ht : t = 0
  · rw [if_neg (not_not.mpr ht), if_pos ht]
  · rw [if_pos ht, if_neg ht, if_neg fun heq => hne ⟨ht, heq⟩]

/-- A block that is adjacent to the free block before it becomes a part of that block. -/
theorem layout_unite {c : Block} (hf : Placed h (pre ++ [c]) block post) (hc : c.free = true) :
    ((h.setSize c.start (c.size + h.chunkSize block)).setNext c.start (h.chunkNext block)).Layout
        (pre ++ ⟨c.start, c.size + h.chunkSize block, true⟩ :: post) ∧
      KeepsUsed h ((h.setSize c.start (c.size + h.chunkSize block)).setNext c.start
        (h.chunkNext block)) (pre ++ post) := by
  obtain ⟨⟨hfirst, hsmall, ⟨g, hpre⟩, ⟨hmin, hdvds⟩, hpost⟩, hdvd, halign, hsize, hcpre, hcpost,
    hnext⟩ := hf
  obtain ⟨m, e, hpre, rfl, hcmin, hcdvd, hcsize, hlink, hend, -⟩ := seg_append.mp hpre
  obtain rfl := hlink hc
  obtain ⟨hcpre, -, hlast, -⟩ := (coalesced_free hc).mp hcpre
  refine ⟨⟨⟨hfirst, hdvd⟩, hsmall, ?_, ?_, halign, hsize⟩, ?_⟩
  · rw [seg_append]
    refine ⟨c.start, c.start, ?_, rfl, by dsimp only; omega, Nat.dvd_add hcdvd hdvds,
      header_size .., fun _ => rfl, ?_⟩
    · exact hpre.congr (by omega) fun p _ hp => header_same h _ _ _ (.inl hp)
    · show Seg _ 8 (c.start + (c.size + h.chunkSize block)) post h.free
        (Heap.chunkNext ((h.setSize c.start _).setNext c.start _) c.start) 0
      rw [header_next, ← Nat.add_assoc, hend]
      exact hpost.congr (by omega) fun p hp _ => header_same h _ _ _ (.inr (by omega))
  · exact (coalesced_free rfl).mpr ⟨hcpre, hcpost, hlast, hnext⟩
  · exact keepsUsed_append hpre hpost fun p hp => header_same h _ _ _ (by omega)

/-- **The block before**: the block becomes free, or part of the block before it if that is. -/
theorem joinBefore_spec (hf : Placed h pre block post) :
    ∃ bs', (h.joinBefore block (lastFree 0 pre)).Layout bs' ∧ used bs' = used (pre ++ post) ∧
      KeepsUsed h (h.joinBefore block (lastFree 0 pre)) (pre ++ post) := by
  obtain ⟨g, hpre⟩ := hf.found.pre
  have hbounds := hf.found.bounds
  have hsmall := hf.found.small
  have hfirst := hf.found.first
  by_cases hunite : lastFree 0 pre ≠ 0 ∧ lastFree 0 pre + h.chunkSize (lastFree 0 pre) = block
  -- the block before is free and ends where this one starts
  · rcases lastFree_cases 0 pre with ⟨heq, -⟩ | ⟨c, hc, hcfree, heq⟩
    · exact absurd heq hunite.1
    have hcsize : h.chunkSize c.start = c.size := hpre.size_eq hc
    rw [heq, hcsize] at hunite
    obtain ⟨xs, rfl⟩ := hpre.last_of_end (by omega) hc hunite.2
    have hjoin : h.joinBefore block (lastFree 0 (xs ++ [c])) =
        (h.setSize c.start (c.size + h.chunkSize block)).setNext c.start (h.chunkNext block) := by
      have hnext' : (h.setSize c.start (c.size + h.chunkSize block)).chunkNext block =
          h.chunkNext block := update_of_ne (by omega) _ _
      unfold joinBefore
      rw [heq, if_pos hunite.1, hcsize, if_pos hunite.2, u64_of_lt (by omega)]
      dsimp only
      rw [hnext']
    obtain ⟨hlayout, hkeeps⟩ := layout_unite hf hcfree
    have hused : used (xs ++ [c] ++ post) = used (xs ++ post) := by simp [used, hcfree]
    rw [hjoin, hused]
    refine ⟨_, hlayout, ?_, hkeeps.congr hused⟩
    rw [used_append, used_append, used_cons_of_free rfl]
  · rw [joinBefore_of_ne hunite]
    -- a free block right before this one would have been united with it
    have hlast : ∀ c ∈ pre.getLast?, c.free = false := by
      intro c hc
      by_contra hcfree
      rw [Bool.not_eq_false] at hcfree
      obtain ⟨xs, rfl⟩ := getLast?_eq_some_iff.mp hc
      obtain ⟨m, e, hxs, rfl, -, -, hcsize, -, hend, -⟩ := seg_append.mp hpre
      have hxs := hxs.le
      have heq : lastFree 0 (xs ++ [c]) = c.start := by
        rw [← trails_fst (0, 0), trails_concat _ _ hcfree]
      rw [heq, chunkSize, hcsize] at hunite
      exact hunite ⟨by omega, hend⟩
    obtain ⟨hlayout, hkeeps⟩ := layout_link hf.found hf.dvd hf.alignment hf.full rfl
      ((coalesced_free rfl).mpr ⟨hf.before, hf.behind, hlast, hf.next⟩)
    refine ⟨_, hlayout, ?_, hkeeps⟩
    rw [used_append, used_append, used_cons_of_free rfl]

/-- **Deallocation** makes one block free and keeps the layout. -/
theorem free_layout (hl : h.Layout (pre ++ b :: post)) (hb : b.free = false) {v m : ℕ}
    (hm : (m <<< v) - 8 = b.start) :
    ∃ h' bs', h.HEAP_free v m = some h' ∧ h'.Layout bs' ∧ used bs' = used pre ++ used post ∧
      KeepsUsed h h' (pre ++ post) := by
  have hfirst := hl.first
  have hlen := hl.seg.length_le
  obtain ⟨_, g, hpre, rfl, hmin, hdvd, hsize, -, hpost⟩ := seg_append.mp hl.seg
  rw [hb, if_neg Bool.false_ne_true] at hpost
  obtain ⟨hcpre, hcpost⟩ := (coalesced_used hb).mp hl.coalesced
  have hafter : g = 0 ∨ b.start < g := by
    have := hpost.first_le
    omega
  have hshift : (m <<< v) - h.alignment = b.start := by rw [hl.alignment, hm]
  have hfind : h.findAfter b.start (h.free + 1) h.head 0 = some (lastFree 0 pre, g) := by
    refine findAfter_spec hpre hafter (by omega) (by omega) ?_
    rw [length_append] at hlen
    omega
  rw [← hsize] at hmin hdvd hpost
  obtain ⟨rest, hf, hrest, hnext, ⟨m', hm'⟩, hsame⟩ :=
    joinAfter_spec hfirst.1 hl.small hpre hmin hdvd hpost hcpost
  -- if the block behind was free, it is now part of this one
  have hcrest : Coalesced rest := by
    rcases hrest with rfl | ⟨c, -, rfl⟩
    · exact hcpost
    · exact (coalesced_cons.mp hcpost).2
  have hused : used rest = used post := by
    rcases hrest with rfl | ⟨c, hc, rfl⟩
    · rfl
    · exact (used_cons_of_free hc rest).symm
  obtain ⟨bs', hlayout, hused', hkeeps⟩ := joinBefore_spec ⟨hf, hm' ▸ hfirst.2, hm' ▸ hl.alignment,
    hm' ▸ hl.size, hcpre, hcrest, hnext⟩
  refine ⟨_, bs', ?_, hlayout, by rw [hused', used_append, hused], ?_⟩
  · unfold HEAP_free
    rw [if_neg fun hne => hne.1 hl.alignment, hshift]
    dsimp only
    rw [hfind]
    rfl
  · refine (keepsUsed_append hpre hpost fun p hp => hsame p (by omega)).trans (hkeeps.congr ?_)
    rw [used_append, used_append, hused]

/-! ## The check

`HEAP_check` marks the blocks of the free list, unmarks the blocks it meets on a walk over the heap,
and looks for free blocks that are still marked. -/

theorem idx_lt {free : ℕ} (hp : p < free) : (p >>> 3) >>> 5 < ((free - 1) >>> 7) >>> 1 + 1 := by
  omega

theorem checkFree_spec (hs : Seg h.mem 8 a bs z f 0) (ha : 0 < a) (hz : z ≤ h.free)
    (hfuel : bs.length < fuel) (freemask : ℕ → Bool) :
    ∃ m, h.checkFree 3 (((h.free - 1) >>> 7) >>> 1 + 1) fuel f freemask = some m := by
  induction bs generalizing a f fuel freemask with
  | nil =>
    obtain _ | fuel := fuel
    · omega
    obtain rfl := hs.2
    exact ⟨freemask, if_pos rfl⟩
  | cons b bs ih =>
    obtain _ | fuel := fuel
    · omega
    obtain ⟨-, hmin, -, -, hf, hrest⟩ := hs
    have hle := hrest.le
    by_cases hb : b.free = true
    · rw [if_pos hb] at hrest
      rw [hf hb, checkFree, if_neg (by omega), if_neg (by omega)]
      rw [if_pos (idx_lt (by omega))]
      exact ih hrest (by omega) (by simpa using hfuel) _
    · rw [if_neg hb] at hrest
      exact ih hrest (by omega) (Nat.lt_of_succ_lt hfuel) freemask

theorem checkBlocks_spec (hs : Seg h.mem 8 a bs h.free f g) (hfuel : bs.length < fuel)
    (freemask : ℕ → Bool) :
    ∃ m, h.checkBlocks 3 (((h.free - 1) >>> 7) >>> 1 + 1) fuel a freemask = some (h.free, m) ∧
      (∀ i, freemask i = false → m i = false) ∧ ∀ b ∈ bs, m (b.start >>> 3) = false := by
  induction bs generalizing a f fuel freemask with
  | nil =>
    obtain _ | fuel := fuel
    · omega
    refine ⟨freemask, ?_, fun _ hi => hi, nofun⟩
    rw [checkBlocks, if_neg (by rw [hs.1]; omega), hs.1]
  | cons b bs ih =>
    obtain _ | fuel := fuel
    · omega
    obtain ⟨hstart, hmin, -, hsize, -, hrest⟩ := hs
    have hle := hrest.le
    obtain ⟨m, hrun, hmask, hbs⟩ := ih hrest (by simpa using hfuel)
      (update freemask (a >>> 3) false)
    refine ⟨m, ?_, fun i hi => hmask i ?_, forall_mem_cons.mpr ⟨hmask _ ?_, hbs⟩⟩
    · rw [checkBlocks, if_pos (by omega)]
      rw [if_pos (idx_lt (by omega)), chunkSize, hsize]
      exact hrun
    · by_cases hia : i = a >>> 3
      · rw [hia, update_self]
      · rw [update_of_ne hia, hi]
    · rw [hstart, update_self]

theorem checkLeft_spec (hs : Seg h.mem 8 a bs z f 0) (ha : 0 < a) (hfuel : bs.length < fuel)
    {freemask : ℕ → Bool} (hmask : ∀ b ∈ bs, freemask (b.start >>> 3) = false) :
    h.checkLeft 3 fuel f freemask = true := by
  induction bs generalizing a f fuel with
  | nil =>
    obtain _ | fuel := fuel
    · omega
    obtain rfl := hs.2
    exact if_pos rfl
  | cons b bs ih =>
    obtain _ | fuel := fuel
    · omega
    obtain ⟨hstart, -, -, -, hf, hrest⟩ := hs
    obtain ⟨hb', hbs⟩ := forall_mem_cons.mp hmask
    by_cases hb : b.free = true
    · rw [if_pos hb] at hrest
      rw [hf hb, checkLeft, if_neg (by omega), ← hstart, hb', hstart]
      exact ih hrest (by omega) (by simpa using hfuel) hbs
    · rw [if_neg hb] at hrest
      exact ih hrest (by omega) (Nat.lt_of_succ_lt hfuel) hbs

/-- **The check accepts the layout.** -/
theorem HEAP_check_of_layout (hl : h.Layout bs) : h.HEAP_check = true := by
  have hfirst := hl.first
  have hlen : bs.length < h.free + 1 := by
    have := hl.seg.length_le
    omega
  have hhead : roundup_num h.head 8 = h.head := by
    have hsmall := hl.small
    rcases hl.seg.first_mem with heq | ⟨c, hc, -, heq⟩
    · rw [heq]
      rfl
    · have hend := (hl.seg.bounds hc).2
      have hdvd := (hl.seg.dvd hfirst.2).2 c hc
      rw [← heq]
      exact roundup_num_of_dvd (by omega) hdvd
  obtain ⟨m, hm⟩ := checkFree_spec hl.seg (by omega) le_rfl hlen fun _ => false
  obtain ⟨m', hm', -, hbs⟩ := checkBlocks_spec hl.seg hlen m
  have hleft := checkLeft_spec hl.seg (by omega) hlen hbs
  unfold HEAP_check
  dsimp only
  rw [if_pos hl.alignment, if_pos hl.alignment, hl.alignment, hhead, if_neg (not_not.mpr rfl), hm]
  dsimp only
  rw [hm']
  dsimp only
  rw [hleft, decide_eq_true rfl]
  rfl

/-! ## A new heap -/

theorem initialize_layout {nbytes nprivate : ℕ} (hfit : nbytes + nprivate + 155 < 2 ^ 64)
    (mem : ℕ → ℕ) (alignment : ℕ) :
    ∃ b, b.free = true ∧ ( HEAP_initialize mem nbytes nprivate alignment).Layout [b] := by
  obtain ⟨p₁, p₂, p₃⟩ := roundup_8_spec (x := nprivate) (by omega)
  obtain ⟨q₁, q₂, q₃⟩ := roundup_8_spec (x := 100 + nbytes + nprivate + 32 + 16) (by omega)
  -- every alignment ends up as 8
  have halign : (if (if alignment ≠ 8 then 4 else alignment) < sizeofSizeT then sizeofSizeT
      else (if alignment ≠ 8 then 4 else alignment)) = 8 := by
    unfold sizeofSizeT
    by_cases h8 : alignment = 8
    · simp [h8]
    · simp [h8]
  -- the header and the private part are followed by a single free block
  have hhead : roundup_num (u64 (roundup_8 sizeofHEADER + roundup_8 nprivate)) 8 =
      32 + roundup_8 nprivate := by
    have h32 : roundup_8 sizeofHEADER = 32 := by decide
    rw [u64_of_lt (by omega)]
    exact roundup_num_of_dvd (by omega) (Nat.dvd_add (by decide) p₃)
  have htotal : roundup_8 (u64 (100 + nbytes + nprivate + sizeofHEADER + sizeofCHUNK)) =
      roundup_8 (100 + nbytes + nprivate + 32 + 16) := by
    rw [u64_of_lt (by unfold sizeofHEADER sizeofCHUNK; omega)]
    rfl
  unfold HEAP_initialize HEAP_empty
  dsimp only
  rw [halign, hhead, htotal]
  generalize roundup_8 (100 + nbytes + nprivate + 32 + 16) = total at *
  generalize roundup_8 nprivate = priv at *
  have hsub : u64 (total + 2 ^ 64 - (32 + priv)) = total - (32 + priv) := by
    unfold u64
    omega
  rw [hsub]
  refine ⟨⟨32 + priv, total - (32 + priv), true⟩, rfl, ⟨Nat.le_add_right _ _, ?_⟩, ?_, ?_, ?_, rfl,
    rfl⟩
  · exact Nat.dvd_add (by decide) p₃
  · show total < 2 ^ 64
    omega
  · refine ⟨rfl, by dsimp only; omega, ?_, header_size .., fun _ => rfl, ?_⟩
    · exact Nat.dvd_sub q₃ (Nat.dvd_add (by decide) p₃)
    · exact ⟨show 32 + priv + (total - (32 + priv)) = total by omega, header_next ..⟩
  · exact isChain_singleton _

end Heap

end MonetInR.Gdk
