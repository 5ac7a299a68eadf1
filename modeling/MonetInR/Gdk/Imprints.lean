import Mathlib.Data.List.Range
import Mathlib.Data.Nat.Bitwise
import Mathlib.Data.Nat.Find
import Mathlib.Order.Lattice

/-!
# Imprints

An imprint has a mask for every page of 64 bytes of a column, with a bit for every bin that has a
value on the page.  `imprints_create` stores the masks run by run: an entry of the dictionary says
how many pages share one mask, or how many masks follow for one page each.  An entry for several
masks is split when the last of them turns out to repeat.

The counter of an entry has 24 bits.  Before a mask is added to an entry, the counter of the entry
behind it is tested, which has not been written yet, so that the counter can overflow.

## Main definitions

* `imprintsCreate`, `Encoder.addPage`: the encoder, and what it does with one page
* `expand`: the masks that a dictionary stands for
* `NoOverflow`: no counter overflows
* `Fits`: all masks and entries lie in the blocks that were allocated for them
* `getbin`: the search for the bin of a value

## Main results

* `imprints_expand_iff`: the masks are those of the pages unless a counter overflows
* `imprints_room_iff`: all writes stay inside the blocks unless there is a page more than was
  allocated for, no page repeats, and the blocks have no spare room
* `getbin_eq_findGreatest`: every search finds the bin of a number
-/

namespace MonetInR.Gdk.Imprints

open List Nat

/-- `IMPS_MAX_CNT`. -/
def maxCnt : ℕ := 2 ^ 24 - 1

/-- An entry of the dictionary. -/
structure Entry where
  cnt : ℕ
  repeats : Bool

/-- The variables of `imprints_create` after the first page: the entries before the last one, the
last one, the masks, and the mask of the last page. -/
structure Encoder where
  done : List Entry
  last : Entry
  imps : List ℕ
  prvmask : ℕ

/-- The first page.  Its mask is not 0, so it does not repeat the initial `prvmask`. -/
def first (mask : ℕ) : Encoder := ⟨[], ⟨1, false⟩, [mask], mask⟩

section Encoder

variable (unwritten : ℕ → ℕ)

namespace Encoder

/-- Same mask as previous and enough count to add. -/
def Merges (e : Encoder) (mask : ℕ) : Prop := e.prvmask = mask ∧ e.last.cnt < maxCnt - 1
  deriving Decidable

/-- A new mask goes to the last entry.  The counter in the test is that of the entry behind it,
which is what the memory held before (`unwritten`). -/
def Joins (e : Encoder) : Prop :=
  e.last.repeats = false ∧ unwritten (e.done.length + 1) < maxCnt - 1
  deriving Decidable

/-- Encode the mask of the next page. -/
def addPage (e : Encoder) (mask : ℕ) : Encoder :=
  if e.Merges mask then
    if e.last.repeats = false ∧ 1 < e.last.cnt then
      -- uncompress last
      { e with done := e.done ++ [⟨e.last.cnt - 1, false⟩], last := ⟨2, true⟩ }
    else { e with last := ⟨e.last.cnt + 1, true⟩ }
  else if e.Joins unwritten then
    ⟨e.done, ⟨(e.last.cnt + 1) % 2 ^ 24, false⟩, e.imps ++ [mask], mask⟩
  else ⟨e.done ++ [e.last], ⟨1, false⟩, e.imps ++ [mask], mask⟩

/-- The counter of the last entry overflows with the next page. -/
def Overflows (e : Encoder) (mask : ℕ) : Prop :=
  ¬ e.Merges mask ∧ e.Joins unwritten ∧ maxCnt ≤ e.last.cnt

/-- No counter overflows while some pages are added. -/
def NoOverflow (e : Encoder) : List ℕ → Prop
  | [] => True
  | mask :: masks => ¬ e.Overflows unwritten mask ∧ NoOverflow (e.addPage unwritten mask) masks

/-- `dictcnt` and `impcnt`: the numbers of entries and of masks that have been written. -/
def dictcnt (e : Encoder) : ℕ := e.done.length + 1
def impcnt (e : Encoder) : ℕ := e.imps.length

end Encoder

/-- Encode the masks of all pages. -/
def encode : List ℕ → Encoder
  | [] => first 0
  | mask :: masks => masks.foldl (Encoder.addPage unwritten) (first mask)

/-- No counter overflows. -/
def NoOverflow : List ℕ → Prop
  | [] => True
  | mask :: masks => (first mask).NoOverflow unwritten masks

end Encoder

/-- The masks that some entries stand for. -/
def expandEntries : List Entry → List ℕ → List ℕ
  | [], _ => []
  | h :: hs, imps =>
    if h.repeats then replicate h.cnt (imps.headD 0) ++ expandEntries hs (imps.drop 1)
    else imps.take h.cnt ++ expandEntries hs (imps.drop h.cnt)

/-- The masks that a dictionary stands for. -/
def expand (e : Encoder) : List ℕ := expandEntries (e.done ++ [e.last]) e.imps

/-! ## Pages

The loop over the values collects the mask of a page, and hands it over when the next page begins.
The mask of the last page is left. -/

section Pages

variable (bin : ℕ → ℕ) (rpp n : ℕ)

/-- The loop over the values: `bin i` is the bin of value `i`, and there are `rpp` values on a
page.  The state is the masks of the complete pages and that of the page being read. -/
def scan (st : List ℕ × ℕ) (i : ℕ) : List ℕ × ℕ :=
  let st := if i % rpp = 0 ∧ 0 < i then (st.1 ++ [st.2], 0) else st
  (st.1, st.2 ||| 1 <<< bin i)

/-- The masks in the order in which they are encoded, with the one that is left at the end. -/
def scanned : List ℕ :=
  let st := (range n).foldl (scan bin rpp) ([], 0)
  st.1 ++ [st.2]

/-- **`imprints_create`** for the first `n` values of a column. -/
def imprintsCreate (unwritten : ℕ → ℕ) : Encoder := encode unwritten (scanned bin rpp n)

/-- The number of pages. -/
def pages : ℕ := (n + rpp - 1) / rpp

/-- One mask per page in order, each the set of bins of the values on the page. -/
def Describes (masks : List ℕ) : Prop := masks.length = pages rpp n ∧ ∀ p < pages rpp n, ∀ k,
    (masks.getD p 0).testBit k = true ↔ ∃ i < n, i / rpp = p ∧ bin i = k

/-- The mask of page `p`. -/
def pageMask (p : ℕ) : ℕ :=
  ((range n).filter (· / rpp = p)).foldl (fun mask i => mask ||| 1 <<< bin i) 0

theorem pageMask_succ (p : ℕ) : pageMask bin rpp (n + 1) p =
    if n / rpp = p then pageMask bin rpp n p ||| 1 <<< bin n else pageMask bin rpp n p := by
  unfold pageMask
  rw [range_succ]
  split_ifs with h <;> simp [h]

theorem testBit_pageMask (p k : ℕ) :
    (pageMask bin rpp n p).testBit k = true ↔ ∃ i < n, i / rpp = p ∧ bin i = k := by
  induction n with
  | zero => simp [pageMask]
  | succ n ih =>
    have hs : (∃ i < n + 1, i / rpp = p ∧ bin i = k) ↔
        (∃ i < n, i / rpp = p ∧ bin i = k) ∨ n / rpp = p ∧ bin n = k := by
      simp only [Nat.lt_succ_iff_lt_or_eq, or_and_right, exists_or, exists_eq_left]
    rw [pageMask_succ, hs]
    split_ifs with h
    · simp [ih, h, one_shiftLeft, testBit_two_pow]
    · simp [ih, h]

variable {rpp}

theorem scan_range : (range (n + 1)).foldl (scan bin rpp) ([], 0) =
      ((range (n / rpp)).map (pageMask bin rpp (n + 1)),
        pageMask bin rpp (n + 1) (n / rpp)) := by
  induction n with
  | zero =>
    rw [pageMask_succ]
    simp [scan, pageMask]
  | succ n ih =>
    have hd : (n + 1) / rpp = n / rpp + if rpp ∣ n + 1 then 1 else 0 := Nat.succ_div
    have hmap : ∀ q ≤ (n + 1) / rpp, (range q).map (pageMask bin rpp (n + 1 + 1)) =
        (range q).map (pageMask bin rpp (n + 1)) := by
      refine fun q hq => map_congr_left fun p hp => ?_
      rw [pageMask_succ, if_neg]
      have := mem_range.mp hp
      omega
    rw [range_succ, foldl_append, ih, hmap _ le_rfl, pageMask_succ bin rpp (n + 1)]
    by_cases hz : rpp ∣ n + 1
    · -- a new page, which has no value yet
      have hempty : pageMask bin rpp (n + 1) (n / rpp + 1) = 0 := by
        refine eq_of_testBit_eq fun k => ?_
        rw [zero_testBit, ← Bool.not_eq_true, testBit_pageMask]
        rintro ⟨i, hi, hp, -⟩
        have := Nat.div_le_div_right (c := rpp) (Nat.lt_succ_iff.mp hi)
        omega
      simp [scan, hd, hz, hempty, range_succ, mod_eq_zero_of_dvd hz]
    · have hm : (n + 1) % rpp ≠ 0 := fun h => hz (dvd_of_mod_eq_zero h)
      simp [scan, hd, hz, hm]

theorem scanned_eq (hr : 0 < rpp) (hn : 0 < n) :
    scanned bin rpp n = (range (pages rpp n)).map (pageMask bin rpp n) := by
  obtain ⟨n, rfl⟩ := exists_eq_succ_of_ne_zero hn.ne'
  have hp : pages rpp (n + 1) = n / rpp + 1 := by
    rw [pages, show n + 1 + rpp - 1 = n + rpp by omega, add_div_right n hr]
  simp only [scanned, scan_range bin n, hp]
  rw [range_succ, map_append, map_singleton]

/-- The masks of the pages are the only list that describes the column. -/
theorem describes_iff (masks : List ℕ) :
    Describes bin rpp n masks ↔ masks = (range (pages rpp n)).map (pageMask bin rpp n) := by
  constructor
  · rintro ⟨hl, hb⟩
    refine ext_getElem (by simp [hl]) fun p hp _ => eq_of_testBit_eq fun k => ?_
    have := hb p (hl ▸ hp) k
    rw [← testBit_pageMask, getD_eq_getElem _ _ hp] at this
    simpa using Bool.eq_iff_iff.mpr this
  · rintro rfl
    refine ⟨by simp, fun p hp k => ?_⟩
    rw [getD_eq_getElem _ _ (by simpa using hp)]
    simpa using testBit_pageMask bin rpp n p k

end Pages

/-! ## Expansion

The number of pages that the dictionary stands for is at most the sum of the counters.  A counter
that overflows loses pages for good, so a dictionary that stands for all pages has had no overflow.
-/

/-- The number of masks that some entries use. -/
def used (hs : List Entry) : ℕ := (hs.map fun h => if h.repeats then 1 else h.cnt).sum

theorem expandEntries_append (hs ks : List Entry) (a b : List ℕ) (ha : used hs = a.length) :
    expandEntries (hs ++ ks) (a ++ b) = expandEntries hs a ++ expandEntries ks b := by
  induction hs generalizing a with
  | nil =>
    obtain rfl : a = [] := length_eq_zero_iff.mp (by simpa [used] using ha.symm)
    simp [expandEntries]
  | cons h hs ih =>
    have hu : used (h :: hs) = (if h.repeats then 1 else h.cnt) + used hs := by simp [used]
    by_cases hr : h.repeats = true
    · rw [hu, if_pos hr, add_comm] at ha
      obtain ⟨x, a, rfl⟩ := exists_cons_of_length_eq_add_one ha.symm
      have := ih a (by simpa using ha)
      simp [expandEntries, hr, this]
    · have hc : h.cnt ≤ a.length := by simp [← ha, hu, hr]
      have := ih (a.drop h.cnt) (by simp [← ha, hu, hr])
      simp [expandEntries, hr, take_append_of_le_length hc, drop_append_of_le_length hc, this]

namespace Encoder

variable (unwritten : ℕ → ℕ)

/-- The dictionary stands for the masks of `ps`, the last of which is `x`; the last entry uses `mid`
and `x`. -/
def Encodes (e : Encoder) (ps : List ℕ) : Prop :=
  ∃ pre mid x, e.imps = pre ++ (mid ++ [x]) ∧ used e.done = pre.length ∧ e.prvmask = x ∧
    (if e.last.repeats then mid = [] else e.last.cnt = mid.length + 1) ∧
    ps = expandEntries e.done pre ++ expandEntries [e.last] (mid ++ [x])

variable {e : Encoder} {ps : List ℕ} {mask : ℕ}

theorem Encodes.expand_eq (h : e.Encodes ps) : expand e = ps := by
  obtain ⟨pre, mid, x, hi, hu, -, -, rfl⟩ := h
  rw [expand, hi, expandEntries_append _ _ _ _ hu]

theorem Encodes.addPage (h : e.Encodes ps) (ho : ¬ e.Overflows unwritten mask) :
    (e.addPage unwritten mask).Encodes (ps ++ [mask]) := by
  obtain ⟨pre, mid, x, hi, hu, hx, hl, rfl⟩ := h
  unfold Encoder.addPage
  split_ifs with hm hc hj
  · -- the entry is split before its last mask
    obtain rfl : x = mask := hx.symm.trans hm.1
    simp only [hc.1, Bool.false_eq_true, if_false] at hl
    refine ⟨pre ++ mid, [], x, by simp [hi], by simp [used, ← hu, hl], hx, by simp, ?_⟩
    rw [expandEntries_append _ _ _ _ hu]
    simp [expandEntries, hc.1, hl, take_of_length_le]
  · obtain rfl : x = mask := hx.symm.trans hm.1
    refine ⟨pre, mid, x, hi, hu, hx, ?_, ?_⟩ <;> cases hr : e.last.repeats <;>
      simp only [hr, Bool.false_eq_true, if_false, if_true, true_and] at hl hc ⊢
    · exact length_eq_zero_iff.mp (by omega)
    · exact hl
    · obtain rfl : mid = [] := length_eq_zero_iff.mp (by omega)
      simp [expandEntries, hl]
    · simp [expandEntries, hr, hl, replicate_succ']
  · -- the counter does not overflow
    have hlt : e.last.cnt < maxCnt := not_le.mp fun h => ho ⟨hm, hj, h⟩
    have hmod : (e.last.cnt + 1) % 2 ^ 24 = e.last.cnt + 1 :=
      mod_eq_of_lt (by unfold maxCnt at hlt; omega)
    simp only [hj.1, Bool.false_eq_true, if_false] at hl
    rw [hmod]
    refine ⟨pre, mid ++ [x], mask, by simp [hi], hu, rfl, by simp [hl], ?_⟩
    simp [expandEntries, hj.1, hl, take_of_length_le]
  · refine ⟨pre ++ (mid ++ [x]), [], mask, by simp [hi], ?_, rfl, by simp, ?_⟩
    · cases hr : e.last.repeats <;> simp [hr] at hl <;> simp [used, ← hu, hr, hl]
    · rw [expandEntries_append _ _ _ _ hu]
      simp [expandEntries]

/-- The sum of the counters. -/
def total (e : Encoder) : ℕ := ((e.done ++ [e.last]).map Entry.cnt).sum

theorem length_expand_le (e : Encoder) : (expand e).length ≤ e.total := by
  unfold expand total
  generalize e.done ++ [e.last] = hs, e.imps = imps
  induction hs generalizing imps with
  | nil => simp [expandEntries]
  | cons h hs ih =>
    have h1 := ih imps.tail
    have h2 := ih (imps.drop h.cnt)
    unfold expandEntries
    split_ifs <;> simp <;> omega

theorem total_addPage_le (e : Encoder) (mask : ℕ) :
    (e.addPage unwritten mask).total ≤ e.total + 1 := by
  unfold Encoder.addPage
  split_ifs <;> simp [total] <;> omega

theorem length_expand_lt {k : ℕ} (h : e.total < k) (masks : List ℕ) :
    (expand (masks.foldl (Encoder.addPage unwritten) e)).length < k + masks.length := by
  induction masks generalizing e k with
  | nil => exact (length_expand_le e).trans_lt h
  | cons mask masks ih =>
    have := @ih (e.addPage unwritten mask) (k + 1)
      ((total_addPage_le unwritten e mask).trans_lt (by omega))
    simpa [add_assoc, add_comm 1] using this

theorem total_of_overflows (h : e.Overflows unwritten mask) :
    (e.addPage unwritten mask).total ≤ e.total := by
  obtain ⟨hm, hj, hc⟩ := h
  unfold Encoder.addPage
  rw [if_neg hm, if_pos hj]
  unfold maxCnt at hc
  simp [total]
  omega

theorem expand_foldl_iff (h : e.Encodes ps) (ht : e.total ≤ ps.length) (masks : List ℕ) :
    expand (masks.foldl (Encoder.addPage unwritten) e) = ps ++ masks ↔
      e.NoOverflow unwritten masks := by
  induction masks generalizing e ps with
  | nil => simpa [Encoder.NoOverflow] using h.expand_eq
  | cons mask masks ih =>
    unfold Encoder.NoOverflow
    by_cases ho : e.Overflows unwritten mask
    · refine iff_of_false (fun he => ?_) fun hn => hn.1 ho
      have := length_expand_lt unwritten
        ((total_of_overflows unwritten ho).trans_lt (lt_succ_of_le ht)) masks
      rw [← foldl_cons, he] at this
      simp at this
      omega
    · have ht' := (total_addPage_le unwritten e mask).trans (succ_le_succ ht)
      have := ih (h.addPage unwritten ho) (by simpa using ht')
      simpa [ho] using this

end Encoder

variable {masks : List ℕ}

theorem expand_encode_iff (unwritten : ℕ → ℕ) (h : masks ≠ []) :
    expand (encode unwritten masks) = masks ↔ NoOverflow unwritten masks := by
  obtain ⟨mask, masks, rfl⟩ := exists_cons_of_ne_nil h
  have he : (first mask).Encodes [mask] := ⟨[], [], mask, rfl, rfl, rfl, rfl, rfl⟩
  exact Encoder.expand_foldl_iff unwritten he le_rfl masks

variable (bin : ℕ → ℕ) {rpp n : ℕ}

theorem describes_expand_iff (hr : 0 < rpp) (hn : 0 < n) (unwritten : ℕ → ℕ) :
    Describes bin rpp n (expand (imprintsCreate bin rpp n unwritten)) ↔
      NoOverflow unwritten ((range (pages rpp n)).map (pageMask bin rpp n)) := by
  rw [describes_iff, ← scanned_eq bin n hr hn]
  exact expand_encode_iff unwritten (by simp [scanned])

/-- **The dictionary stands for the masks of the pages** if and only if there is a page and no
counter overflows.  For an empty column there is still one mask. -/
theorem imprints_expand_iff (hr : 0 < rpp) (unwritten : ℕ → ℕ) :
    Describes bin rpp n (expand (imprintsCreate bin rpp n unwritten)) ↔
      0 < n ∧ NoOverflow unwritten ((range (pages rpp n)).map (pageMask bin rpp n)) := by
  rcases n.eq_zero_or_pos with rfl | hn
  · refine iff_of_false (fun h => ?_) fun h => h.1.false
    have h₁ : 1 = (0 + rpp - 1) / rpp := h.1
    rw [div_eq_of_lt (by omega)] at h₁
    exact one_ne_zero h₁
  · simp [describes_expand_iff bin hr hn, hn]

/-- Two pages of `bte` values. -/
theorem imprints_expand_twoPages : Describes (· / 64) 64 65
    (expand (imprintsCreate (· / 64) 64 65 fun _ => 0)) :=
  (imprints_expand_iff (· / 64) (by decide) fun _ => 0).mpr
    ⟨by decide, fun h => absurd h.2.2 (by decide), trivial⟩

/-! ## Pages that all differ from the one before -/

namespace Encoder

variable {unwritten : ℕ → ℕ}

variable {e : Encoder}

/-- If the memory was zeroed, the last entry gets all the masks. -/
theorem not_noOverflow (hz : ∀ k, unwritten k < maxCnt - 1) {masks : List ℕ}
    (hr : e.last.repeats = false) (hc : e.last.cnt ≤ maxCnt)
    (hl : maxCnt < e.last.cnt + masks.length)
    (hd : List.IsChain (· ≠ ·) (e.prvmask :: masks)) : ¬ e.NoOverflow unwritten masks := by
  induction masks generalizing e with
  | nil => exact absurd hl (by simpa using hc)
  | cons mask masks ih =>
    rw [isChain_cons_cons] at hd
    have hm : ¬ e.Merges mask := fun h => hd.1 h.1
    have hj : e.Joins unwritten := ⟨hr, hz _⟩
    rintro ⟨ho, hn⟩
    have hlt : e.last.cnt < maxCnt := not_le.mp fun h => ho ⟨hm, hj, h⟩
    have hmod : (e.last.cnt + 1) % 2 ^ 24 = e.last.cnt + 1 :=
      mod_eq_of_lt (by unfold maxCnt at hlt; omega)
    rw [Encoder.addPage, if_neg hm, if_pos hj, hmod] at hn
    exact @ih ⟨e.done, ⟨e.last.cnt + 1, false⟩, e.imps ++ [mask], mask⟩ rfl hlt
      (by simpa [add_assoc, add_comm 1] using hl) hd.2 hn

/-- No page repeats the mask before it, or the counter has run out. -/
def NoneMerges (unwritten : ℕ → ℕ) (e : Encoder) : List ℕ → Prop
  | [] => True
  | mask :: masks => ¬ e.Merges mask ∧ NoneMerges unwritten (e.addPage unwritten mask) masks

theorem addPage_of_not_merges (unwritten : ℕ → ℕ) {mask : ℕ} (hm : ¬ e.Merges mask) :
    (e.addPage unwritten mask).prvmask = mask ∧ (e.addPage unwritten mask).last.repeats = false ∧
      (e.addPage unwritten mask).impcnt = e.impcnt + 1 ∧
      (e.addPage unwritten mask).last.cnt ≤ e.last.cnt + 1 := by
  rw [Encoder.addPage, if_neg hm]
  split_ifs
  · simp [impcnt, Nat.mod_le]
  · simp [impcnt]

/-- There are at most as many masks as pages, and as many only if none repeats. -/
theorem impcnt_foldl (unwritten : ℕ → ℕ) (e : Encoder) (masks : List ℕ) :
    (masks.foldl (addPage unwritten) e).impcnt ≤ e.impcnt + masks.length ∧
      ((masks.foldl (addPage unwritten) e).impcnt = e.impcnt + masks.length ↔
        e.NoneMerges unwritten masks) := by
  induction masks generalizing e with
  | nil => exact ⟨le_rfl, iff_of_true rfl trivial⟩
  | cons mask masks ih =>
    obtain ⟨hle, hiff⟩ := ih (e.addPage unwritten mask)
    rw [foldl_cons, length_cons, NoneMerges]
    by_cases hm : e.Merges mask
    · have himp : (e.addPage unwritten mask).impcnt = e.impcnt := by
        rw [Encoder.addPage, if_pos hm]
        split_ifs <;> rfl
      refine ⟨by omega, iff_of_false (by omega) fun h => h.1 hm⟩
    · obtain ⟨-, -, himp, -⟩ := addPage_of_not_merges unwritten hm
      rw [← hiff]
      exact ⟨by omega, by simp only [hm, not_false_eq_true, true_and]; omega⟩

theorem noneMerges_iff_isChain {masks : List ℕ} (hc : e.last.cnt + masks.length < maxCnt) :
    e.NoneMerges unwritten masks ↔ List.IsChain (· ≠ ·) (e.prvmask :: masks) := by
  induction masks generalizing e with
  | nil => exact iff_of_true trivial (isChain_singleton _)
  | cons mask masks ih =>
    rw [length_cons] at hc
    have hm : ¬ e.Merges mask ↔ e.prvmask ≠ mask :=
      not_congr ⟨fun h => h.1, fun h => ⟨h, by omega⟩⟩
    rw [NoneMerges, isChain_cons_cons, hm]
    refine and_congr_right fun hne => ?_
    obtain ⟨hp, -, -, hcnt⟩ := addPage_of_not_merges unwritten (hm.mpr hne)
    rw [ih (by omega), hp]

/-- If no page repeats, every page has an entry of its own exactly if none joins the last one. -/
theorem dictcnt_foldl {masks : List ℕ} (hm : e.NoneMerges unwritten masks)
    (hr : e.last.repeats = false) :
    (masks.foldl (addPage unwritten) e).dictcnt ≤ e.dictcnt + masks.length ∧
      ((masks.foldl (addPage unwritten) e).dictcnt = e.dictcnt + masks.length ↔
        ∀ k < masks.length, maxCnt - 1 ≤ unwritten (e.dictcnt + k)) := by
  induction masks generalizing e with
  | nil => exact ⟨le_rfl, iff_of_true rfl fun k hk => absurd hk (Nat.not_lt_zero k)⟩
  | cons mask masks ih =>
    obtain ⟨hm, hrest⟩ := hm
    obtain ⟨hle, hiff⟩ := ih hrest (addPage_of_not_merges unwritten hm).2.1
    rw [foldl_cons, length_cons]
    by_cases hj : e.Joins unwritten
    -- the mask joins the last entry, and one entry is missing for good
    · have hdict : (e.addPage unwritten mask).dictcnt = e.dictcnt := by
        rw [Encoder.addPage, if_neg hm, if_pos hj]
        rfl
      refine ⟨by omega, iff_of_false (by omega) fun h => ?_⟩
      exact (h 0 (Nat.succ_pos _)).not_gt hj.2
    · have hdict : (e.addPage unwritten mask).dictcnt = e.dictcnt + 1 := by
        rw [Encoder.addPage, if_neg hm, if_neg hj]
        simp [dictcnt]
      have hzero : maxCnt - 1 ≤ unwritten e.dictcnt := not_lt.mp fun h => hj ⟨hr, h⟩
      refine ⟨by omega, ?_⟩
      rw [hdict] at hiff
      rw [show e.dictcnt + (masks.length + 1) = e.dictcnt + 1 + masks.length by omega, hiff]
      constructor
      · rintro h (_ | k) hk
        · exact hzero
        · rw [show e.dictcnt + (k + 1) = e.dictcnt + 1 + k by omega]
          exact h k (by omega)
      · intro h k hk
        rw [show e.dictcnt + 1 + k = e.dictcnt + (k + 1) by omega]
        exact h (k + 1) (by omega)

/-- There is a mask for every entry, and for every page that an entry counts without repeating. -/
def Room (e : Encoder) (k : ℕ) : Prop :=
  e.dictcnt ≤ e.impcnt ∧ (e.last.repeats = false → e.done.length + e.last.cnt ≤ e.impcnt) ∧
    e.impcnt ≤ k

theorem Room.foldl {k : ℕ} (h : e.Room k) (masks : List ℕ) :
    (masks.foldl (addPage unwritten) e).Room (k + masks.length) := by
  induction masks generalizing e k with
  | nil => exact h
  | cons mask masks ih =>
    have hs : (e.addPage unwritten mask).Room (k + 1) := by
      unfold Room dictcnt impcnt at h ⊢
      unfold Encoder.addPage
      split_ifs with hm hc hj
      · have := h.2.1 hc.1
        simp
        omega
      · simp
        omega
      · have := h.2.1 hj.1
        simp
        omega
      · simp
        omega
    simpa [add_assoc, add_comm 1] using ih hs

end Encoder

theorem not_noOverflow_of_isChain (hl : maxCnt < masks.length)
    (hd : List.IsChain (· ≠ ·) masks) : ¬ NoOverflow (fun _ => 0) masks := by
  cases masks with
  | nil => exact absurd hl (by simp)
  | cons mask masks =>
    rw [length_cons, add_comm] at hl
    exact Encoder.not_noOverflow (fun _ => by decide) rfl (show 1 ≤ maxCnt by decide) hl hd

theorem room_encode (unwritten : ℕ → ℕ) (mask : ℕ) (masks : List ℕ) :
    (encode unwritten (mask :: masks)).Room (mask :: masks).length := by
  have h : (first mask).Room 1 := ⟨le_rfl, fun _ => le_rfl, le_rfl⟩
  rw [length_cons, add_comm]
  exact h.foldl masks

/-- A column in which the bin changes with every page. -/
theorem isChain_alternating (hr : 0 < rpp) : List.IsChain (· ≠ ·)
    ((range (pages rpp n)).map (pageMask (· / rpp % 2) rpp n)) := by
  rw [isChain_map, isChain_range]
  intro p hp heq
  have hlt : p * rpp < n := by
    have := (le_div_iff_mul_le hr).mp (show p + 1 ≤ (n + rpp - 1) / rpp by
      unfold pages at hp; omega)
    rw [add_mul] at this
    omega
  have hset := (testBit_pageMask (· / rpp % 2) rpp n p (p % 2)).mpr
    ⟨p * rpp, hlt, Nat.mul_div_cancel p hr, by simp [Nat.mul_div_cancel p hr]⟩
  rw [heq, testBit_pageMask] at hset
  omega

/-- A gigabyte of `bte` values whose bin changes with every page. -/
theorem imprints_expand_gigabyte : ¬ Describes (· / 64 % 2) 64 (2 ^ 30)
    (expand (imprintsCreate (· / 64 % 2) 64 (2 ^ 30) fun _ => 0)) := by
  rw [describes_expand_iff _ (by decide) (by decide)]
  refine not_noOverflow_of_isChain ?_ (isChain_alternating (by decide))
  rw [length_map, length_range]
  decide

/-! ## Room

`BATimprints` asks for one mask and one entry for each full page of the heap.  Rounding decides
whether the mask of a page that is not full still fits. -/

/-- The items that `BATimprints` asks for, in the heap of the masks and in that of the dictionary,
for a column with a heap of `size` bytes.  (`HEAPalloc` asks for one at least.) -/
def nitems (size : ℕ) : ℕ := max 1 (size / 64)

/-- `sizeof(cchdc_t)`. -/
def entrySize : ℕ := 4

/-- `GDKmallocmax`: blocks are rounded up to a multiple of eight bytes.  (The header that R gets in
front of a block is one itself.) -/
def mallocmax (size : ℕ) : ℕ := (size + 7) / 8 * 8

/-- **All masks and entries lie in their blocks.**  The masks have `bytes` bytes each, and `block`
says how large a block is that has been asked for: `mallocmax`, or more for a mapped heap. -/
def Fits (block : ℕ → ℕ) (size bytes : ℕ) (e : Encoder) : Prop :=
  e.impcnt * bytes ≤ block (nitems size * bytes) ∧
    e.dictcnt * entrySize ≤ block (nitems size * entrySize)

instance (block : ℕ → ℕ) (size bytes : ℕ) (e : Encoder) : Decidable (Fits block size bytes e) :=
  inferInstanceAs (Decidable (_ ∧ _))

/-- No page of the column repeats the one before it. -/
def NoneRepeats (unwritten : ℕ → ℕ) : List ℕ → Prop
  | [] => True
  | mask :: masks => (first mask).NoneMerges unwritten masks

/-- In a column of less than a gigabyte no counter runs out, so that a page repeats the one before
it exactly if it has the same mask. -/
theorem noneRepeats_iff_isChain (unwritten : ℕ → ℕ) (hl : masks.length < maxCnt) :
    NoneRepeats unwritten masks ↔ List.IsChain (· ≠ ·) masks := by
  cases masks with
  | nil => exact iff_of_true trivial isChain_nil
  | cons mask masks =>
    rw [length_cons, Nat.add_comm] at hl
    exact Encoder.noneMerges_iff_isChain hl

/-- The values reach at most one page further than was asked for. -/
theorem pages_le_succ_nitems {size width : ℕ} (hw : width ∣ 64) (hsize : n * width ≤ size) :
    pages (64 / width) n ≤ nitems size + 1 := by
  obtain ⟨rpp, hrpp⟩ := hw
  have hwidth : 0 < width := Nat.pos_of_ne_zero fun h => by simp [h] at hrpp
  have hpos : 0 < rpp := Nat.pos_of_ne_zero fun h => by simp [h] at hrpp
  have hdiv : n / rpp ≤ size / 64 := by
    rw [hrpp, ← Nat.div_div_eq_div_mul]
    exact Nat.div_le_div_right ((Nat.le_div_iff_mul_le hwidth).mpr hsize)
  rw [hrpp, Nat.mul_div_cancel_left rpp hwidth, pages, nitems]
  have hround : (n + rpp - 1) / rpp ≤ n / rpp + 1 := by
    rw [← Nat.add_div_right n hpos]
    exact Nat.div_le_div_right (Nat.sub_le _ _)
  omega

/-- A value as the comparisons of the code meet it.  A `flt` or `dbl` can be NaN, of which no
comparison is true. -/
inductive Searched (α : Type*)
  | number (x : α)
  | nan

section Bins

variable {α : Type*} [LinearOrder α]

/-- `X >= border`. -/
def Searched.ge : Searched α → α → Bool
  | number x, border => border ≤ x
  | nan, _ => false

/-- `X < border`. -/
def Searched.lt : Searched α → α → Bool
  | number x, border => x < border
  | nan, _ => false

variable (bins : ℕ → α) (v : Searched α)

/-- All searches have one tree.  Below a node are the `2 ^ (k + 1)` bins from `lo` on, and only the
last leaf looks at both of its bins.  What is found is left in `z`. -/
def getbin : Bool → ℕ → ℕ → ℕ → ℕ
  | last, 0, lo, _ => if last && v.ge (bins (lo + 1)) then lo + 1 else lo
  | last, k + 1, lo, z =>
    let mid := lo + 2 ^ (k + 1)
    -- `right`, `check` and `left`
    let z := if v.ge (bins mid) then getbin last k mid z else z
    let z := if v.ge (bins (mid - 1)) && v.lt (bins mid) then mid - 1 else z
    if v.lt (bins (mid - 1)) then getbin false k lo z else z

def GETBIN8 : ℕ → ℕ := getbin bins v true 2 0
def GETBIN16 : ℕ → ℕ := getbin bins v true 3 0
def GETBIN32 : ℕ → ℕ := getbin bins v true 4 0
def GETBIN64 : ℕ → ℕ := getbin bins v true 5 0

variable {bins} {x : α} {n : ℕ} (hbins : ∀ i j, i ≤ j → j < n → bins i ≤ bins j)

include hbins

theorem getbin_spec (k : ℕ) : ∀ (last : Bool) (lo z : ℕ), lo + 2 ^ (k + 1) ≤ n →
    (lo ≠ 0 → bins lo ≤ x) → (last = false → x < bins (lo + 2 ^ (k + 1) - 1)) →
    let r := getbin bins (.number x) last k lo z
    r < lo + 2 ^ (k + 1) ∧ (r ≠ 0 → bins r ≤ x) ∧
      ∀ i, r < i → i < lo + 2 ^ (k + 1) → x < bins i := by
  induction k with
  | zero =>
    intro last lo z hn hlo hlast
    dsimp only [getbin, Searched.ge]
    simp only [Bool.and_eq_true, decide_eq_true_eq]
    split_ifs with h
    · exact ⟨by omega, fun _ => h.2, fun i h1 h2 => by omega⟩
    · refine ⟨by omega, hlo, fun i h1 h2 => ?_⟩
      obtain rfl : i = lo + 1 := by omega
      cases last with
      | false => exact hlast rfl
      | true => exact not_le.mp fun hle => h ⟨rfl, hle⟩
  | succ k ih =>
    intro last lo z hn hlo hlast
    have hpow : lo + 2 ^ (k + 1 + 1) = lo + 2 ^ (k + 1) + 2 ^ (k + 1) := by
      rw [pow_succ 2 (k + 1)]
      omega
    have hpos := Nat.two_pow_pos (k + 1)
    rw [hpow] at hn hlast ⊢
    dsimp only [getbin, Searched.ge, Searched.lt]
    simp only [Bool.and_eq_true, decide_eq_true_eq]
    rcases le_or_gt (bins (lo + 2 ^ (k + 1))) x with hmid | hmid
    · have hbelow := (hbins (lo + 2 ^ (k + 1) - 1) _ (sub_le _ _) (by omega)).trans hmid
      rw [if_neg hbelow.not_gt, if_neg fun h => hmid.not_gt h.2, if_pos hmid]
      exact ih last _ z hn (fun _ => hmid) hlast
    -- the borders of the right half are above the value
    have hright : ∀ i, lo + 2 ^ (k + 1) ≤ i → i < lo + 2 ^ (k + 1) + 2 ^ (k + 1) → x < bins i :=
      fun i h1 h2 => hmid.trans_le (hbins _ i h1 (by omega))
    rcases le_or_gt (bins (lo + 2 ^ (k + 1) - 1)) x with hbelow | hbelow
    · rw [if_neg hbelow.not_gt, if_pos ⟨hbelow, hmid⟩]
      exact ⟨by omega, fun _ => hbelow, fun i h1 => hright i (by omega)⟩
    · rw [if_pos hbelow]
      obtain ⟨hlt, hle, hgt⟩ := ih false lo _ (by omega) hlo fun _ => hbelow
      refine ⟨by omega, hle, fun i h1 h2 => ?_⟩
      rcases lt_or_ge i (lo + 2 ^ (k + 1)) with h | h
      · exact hgt i h1 h
      · exact hright i h h2

/-- **Every search for a number returns the greatest bin whose border is not above it**, or 0. -/
theorem getbin_eq_findGreatest (GETBIN : (ℕ → α) → Searched α → ℕ → ℕ)
    (hmem : (n, GETBIN) ∈ [(8, GETBIN8), (16, GETBIN16), (32, GETBIN32), (64, GETBIN64)]) (z : ℕ) :
    GETBIN bins (.number x) z = findGreatest (fun i => bins i ≤ x) (n - 1) := by
  obtain ⟨k, rfl, rfl⟩ : ∃ k, n = 2 ^ (k + 1) ∧ GETBIN = fun bins v => getbin bins v true k 0 := by
    simp only [mem_cons, Prod.mk.injEq, not_mem_nil, or_false] at hmem
    rcases hmem with h | h | h | h
    exacts [⟨2, h⟩, ⟨3, h⟩, ⟨4, h⟩, ⟨5, h⟩]
  obtain ⟨hlt, hle, hgt⟩ := getbin_spec hbins k true 0 z (zero_add _).le (absurd rfl) nofun
  rw [zero_add] at hlt hgt
  refine (findGreatest_eq_iff.mpr ⟨le_sub_one_of_lt hlt, hle, fun i h1 h2 => ?_⟩).symm
  exact (hgt i h1 (by omega)).not_ge

end Bins

theorem getbin_tens : GETBIN8 (10 * ·) (.number 25) 0 = 2 :=
  (getbin_eq_findGreatest (fun _ _ h _ => mul_le_mul_left 10 h) GETBIN8 mem_cons_self 0).trans
    (by decide)

/-- **A search for NaN finds nothing**: the bin stays that of the value before it, here 5, whatever
is thought of as the bin of NaN. -/
theorem getbin_nan : GETBIN8 (10 * ·) (.nan : Searched ℕ) 5 = 5 ∧
    findGreatest (fun i => Searched.nan.ge (10 * i)) 7 = 0 ∧
    findGreatest (fun i => !Searched.nan.lt (10 * i)) 7 = 7 := by
  decide

end MonetInR.Gdk.Imprints
