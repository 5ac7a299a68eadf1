import MonetInR.Lib.IntervalSearch
import MonetInR.Gdk.Bat.Column

/-!
# What the property flags of a column say

The flags of a column are statements about the list of its values.  Each update of a column
changes this list in a simple way, and adjusts the flags after a look at a few values; this
module shows that the adjusted flags are true of the new list.

## Main definitions

* `Col.live`: the values of a column
* `Col.Sound`: the flags of a column are true of a list of values

## Main results

* `sound_setcolprops`, `sound_delFirst`, `sound_delSwap`, `sound_delLast`, `sound_replace`,
  `sound_materialize`: the flags stay true
-/

namespace MonetInR.Gdk

open IntervalSearch OidAtom List Function

namespace Col

variable {V : Type*} [OidAtom V] {c : Col V} {first count p : ℕ} {l : List V} {x z : V}

/-- The values of a column. -/
def live (c : Col V) (first count : ℕ) : List V := slice (c.value first) first (first + count)

/-- The flags of a column are true of the values `l`. -/
structure Sound (c : Col V) (l : List V) : Prop where
  sorted : c.sorted = true → l.Pairwise (· ≤ ·)
  revsorted : c.revsorted = true → l.Pairwise (· ≥ ·)
  key : c.key ≠ .no → l.Nodup
  /-- A dense column holds the oids from its sequence base on. -/
  dense : ∀ s, c.isDense = true → c.seq = some s → l = slice ofOid s (s + l.length)
  /-- Only columns of oids are flagged as dense. -/
  dense_oid : c.dense = true → c.type = .void ∨ c.type = .oid
  nil : c.nil = true → ⊥ ∈ l
  nonil : c.nonil = true → ⊥ ∉ l

/-- The flags of `c'` for order and uniqueness say at most what those of `c` say. -/
structure Weaker (c' c : Col V) : Prop where
  type : c'.type = c.type
  seq : c'.seq = c.seq
  key : c'.key ≠ .no → c.key ≠ .no
  sorted : c'.sorted = true → c.sorted = true
  revsorted : c'.revsorted = true → c.revsorted = true
  dense : c'.dense = true → c.dense = true

/-! ## Values -/

theorem value_of_ne_void (h : c.type ≠ .void) (first p : ℕ) : c.value first p = c.heap p := by
  unfold value
  split
  · exact absurd ‹_› h
  · rfl

variable {s last q n : ℕ} {a b : List V} {R : V → V → Prop}

theorem value_void_some (h : c.type = .void) (hs : c.seq = some s) (first p : ℕ) :
    c.value first p = ofOid (s + p - first) := by
  simp only [value, h, hs]

theorem value_void_none (h : c.type = .void) (hs : c.seq = none) (first p : ℕ) :
    c.value first p = ⊥ := by
  simp only [value, h, hs]

theorem pairwise_oids (s n : ℕ) : (slice (ofOid (V := V)) s n).Pairwise (· < ·) :=
  pairwise_slice fun i j _ hij _ => ofOid_lt i j hij

theorem bot_notMem_oids (s n : ℕ) : (⊥ : V) ∉ slice ofOid s n := by
  intro h
  obtain ⟨i, -, -, hi⟩ := mem_slice.mp h
  exact (bot_lt_ofOid i).ne' hi

theorem live_void_some (h : c.type = .void) (hs : c.seq = some s) (first count : ℕ) :
    c.live first count = slice ofOid s (s + count) := by
  rw [live, slice, slice, Nat.add_sub_cancel_left, Nat.add_sub_cancel_left,
    range'_eq_map_range, range'_eq_map_range, map_map, map_map]
  refine map_congr_left fun i _ => ?_
  rw [comp_apply, comp_apply, value_void_some h hs]
  congr 1
  omega

theorem live_void_none (h : c.type = .void) (hs : c.seq = none) (first count : ℕ) :
    c.live first count = replicate count ⊥ := by
  rw [live, eq_replicate_iff]
  refine ⟨by simp, fun v hv => ?_⟩
  obtain ⟨i, -, rfl⟩ := mem_map.mp hv
  exact value_void_none h hs first i

theorem length_live (c : Col V) (first count : ℕ) : (c.live first count).length = count := by
  rw [live, length_slice, Nat.add_sub_cancel_left]

/-! ## Flags -/

theorem Sound.frame (h : c.Sound l) (hash : Option Hash) (heap : ℕ → V) :
    { c with hash := hash, heap := heap }.Sound l :=
  ⟨h.sorted, h.revsorted, h.key, h.dense, h.dense_oid, h.nil, h.nonil⟩

theorem Sound.weaken {c' : Col V} (h : c.Sound l) (hw : c'.Weaker c)
    (hnil : c'.nil = true → c.nil = true) (hnonil : c'.nonil = true → c.nonil = true) :
    c'.Sound l := by
  refine ⟨fun h' => h.sorted (hw.sorted h'), fun h' => h.revsorted (hw.revsorted h'),
    fun h' => h.key (hw.key h'), fun s hd hs => ?_, fun h' => ?_, fun h' => h.nil (hnil h'),
    fun h' => h.nonil (hnonil h')⟩
  · refine h.dense s ?_ (hw.seq ▸ hs)
    simp only [isDense, isVoid, Bool.and_eq_true, Bool.or_eq_true, hw.type, hw.seq] at hd ⊢
    exact ⟨hd.1.imp (fun h' => ⟨hw.dense h'.1, hw.sorted h'.2⟩) id, hd.2⟩
  · rw [hw.type]
    exact h.dense_oid (hw.dense h')

theorem sound_void_some (ht : c.type = .void) (hs : c.seq = some s) (first : ℕ)
    (hrev : c.revsorted = true → count ≤ 1) (hnil : c.nil = false) :
    c.Sound (c.live first count) := by
  have hl := live_void_some ht hs first count
  have hasc := pairwise_oids (V := V) s (s + count)
  refine ⟨fun _ => hl ▸ hasc.imp le_of_lt, fun h => ?_, fun _ => hl ▸ hasc.imp ne_of_lt,
    fun s' _ hs' => ?_, fun _ => .inl ht, fun h => by simp [hnil] at h,
    fun _ => hl ▸ bot_notMem_oids s _⟩
  · have hlen := length_live c first count
    rcases hll : c.live first count with _ | ⟨a, _ | ⟨b, l⟩⟩
    · exact .nil
    · exact pairwise_singleton _ _
    · rw [hll] at hlen
      simp only [length_cons] at hlen
      have := hrev h
      omega
  · rw [hs, Option.some_inj] at hs'
    rw [length_live, hl, hs']

theorem sound_void_none (ht : c.type = .void) (hs : c.seq = none) (first : ℕ)
    (hkey : c.key ≠ .no → count ≤ 1) (hnil : c.nil = true → 0 < count)
    (hnonil : c.nonil = true → count = 0) : c.Sound (c.live first count) := by
  have hl := live_void_none ht hs first count
  refine ⟨fun _ => hl ▸ pairwise_replicate.mpr (.inr le_rfl),
    fun _ => hl ▸ pairwise_replicate.mpr (.inr le_rfl), fun h => ?_,
    fun s _ hs' => by simp [hs] at hs', fun _ => .inl ht, fun h => ?_, fun h => ?_⟩
  · rw [hl, nodup_replicate]
    exact hkey h
  · rw [hl, mem_replicate]
    exact ⟨(hnil h).ne', rfl⟩
  · rw [hl, hnonil h]
    exact not_mem_nil

/-- A dense `void` column has no nils. -/
theorem Sound.void_some (h : c.Sound (c.live first count)) (ht : c.type = .void)
    (hs : c.seq = some s) : c.nil = false := by
  by_contra hn
  have hmem := h.nil (by simpa using hn)
  rw [live_void_some ht hs] at hmem
  exact bot_notMem_oids s _ hmem

/-! ## A value is added

The new value is compared with the last one only.  This is enough because the flags say that the
values before are in order. -/

/-- Adding to a `void` column, which then holds one more value. -/
theorem sound_setcolprops_void (h : c.Sound (c.live first count)) (ht : c.type = .void)
    (x : Option V) :
    (c.setcolprops first count x).Sound ((c.setcolprops first count x).live first (count + 1)) := by
  by_cases hc : count = 0
  -- the first value decides where the sequence starts, or that all values are nil
  · subst hc
    set seq := x.elim c.seq toOid with hseq
    have hdef : c.setcolprops first 0 x = { c with
          sorted := true, revsorted := true, key := c.key.orYes
          seq := seq, nil := seq.isNone, nonil := seq.isSome } := by
      simp only [setcolprops, if_true, ht, ColType.linear, hseq]
    rw [hdef]
    rcases hs : seq with _ | s
    · apply sound_void_none
      · exact ht
      · rfl
      · exact fun _ => le_refl _
      · exact fun _ => Nat.one_pos
      · simp
    · apply sound_void_some
      · exact ht
      · rfl
      · exact fun _ => le_refl _
      · rfl
  -- later values follow the sequence; only the flags that one value satisfies go
  · rcases hs : c.seq with _ | s
    · have hdef : c.setcolprops first count x =
          { c with key := .no, nil := true, nonil := false } := by
        simp only [setcolprops, if_neg hc, ht, hs]
      rw [hdef]
      apply sound_void_none
      · exact ht
      · exact hs
      · simp
      · exact fun _ => Nat.succ_pos _
      · simp
    · have hdef : c.setcolprops first count x =
          { c with revsorted := false, nil := false, nonil := true } := by
        simp only [setcolprops, if_neg hc, ht, hs]
      rw [hdef]
      apply sound_void_some
      · exact ht
      · exact hs
      · simp
      · rfl

theorem sound_setcolprops_first (h : c.Sound (c.live first 0)) (ht : c.type ≠ .void) (x : V) :
    (c.setcolprops first 0 (some x)).Sound [x] := by
  have hnil : ∀ {b : Bool}, b = decide (atomCmp x ⊥ = 0) → (b = true ↔ x = ⊥) := by
    rintro b rfl
    rw [decide_eq_true_iff, atomCmp_eq_zero]
  rcases hty : c.type with _ | _ | lin
  · exact absurd hty ht
  -- an oid column is dense from its first value on, unless this is nil
  · have hdef : c.setcolprops first 0 (some x) = { c with
          sorted := true, revsorted := true, key := c.key.orYes
          nil := decide (atomCmp x ⊥ = 0), nonil := !decide (atomCmp x ⊥ = 0)
          dense := !decide (atomCmp x ⊥ = 0), seq := toOid x } := by
      simp only [setcolprops, if_true, hty, ColType.linear, Option.getD_some]
    rw [hdef]
    refine ⟨fun _ => pairwise_singleton _ _, fun _ => pairwise_singleton _ _,
      fun _ => nodup_singleton _, fun s _ hs => ?_, fun _ => .inr hty, fun hn => ?_, ?_⟩
    · rw [length_singleton, slice_snoc ofOid (le_refl s), slice_eq_nil ofOid (le_refl s),
        nil_append, ofOid_toOid x s hs]
    · rw [(hnil rfl).mp hn]
      exact mem_singleton_self _
    · intro hn hmem
      obtain rfl := mem_singleton.mp hmem
      simp at hn
  · have hdef : c.setcolprops first 0 (some x) = { c with
          sorted := lin, revsorted := lin, key := c.key.orYes
          nil := decide (atomCmp x ⊥ = 0), nonil := !decide (atomCmp x ⊥ = 0) } := by
      simp only [setcolprops, if_true, hty, ColType.linear, Option.getD_some]
    -- the source leaves `dense` as it is, which only oid columns have
    have hdense : c.dense = false := by
      by_contra hd
      rcases h.dense_oid (by simpa using hd) with h' | h' <;> simp [hty] at h'
    rw [hdef]
    refine ⟨fun _ => pairwise_singleton _ _, fun _ => pairwise_singleton _ _,
      fun _ => nodup_singleton _, fun s hd => ?_, fun hd => ?_, fun hn => ?_, ?_⟩
    · simp [isDense, isVoid, hdense, hty] at hd
    · simp [hdense] at hd
    · rw [(hnil rfl).mp hn]
      exact mem_singleton_self _
    · intro hn hmem
      obtain rfl := mem_singleton.mp hmem
      simp at hn

theorem isSucc_ofOid : isSucc (ofOid n : V) x = true ↔ x = ofOid (n + 1) := by
  unfold isSucc
  rw [toOid_ofOid]
  rcases hx : toOid x with _ | m
  · simp only [Bool.false_eq_true, false_iff]
    rintro rfl
    simp [toOid_ofOid] at hx
  · simp only [beq_iff_eq]
    constructor
    · rintro rfl
      exact (ofOid_toOid x _ hx).symm
    · rintro rfl
      simpa [toOid_ofOid] using hx.symm

omit [OidAtom V] in
/-- What the last value of an ordered list is related to bounds the list. -/
theorem pairwise_snoc {r : V → V → Prop} [IsTrans V r] {l : List V} {a : V}
    (h : (l ++ [a]).Pairwise r) (hx : r a x) : (l ++ [a] ++ [x]).Pairwise r := by
  rw [pairwise_append]
  refine ⟨h, pairwise_singleton _ _, fun b hb y hy => ?_⟩
  obtain rfl := mem_singleton.mp hy
  rcases mem_append.mp hb with hb | hb
  · exact IsTrans.trans _ _ _ ((pairwise_append.mp h).2.2 b hb a (mem_singleton_self a)) hx
  · obtain rfl := mem_singleton.mp hb
    exact hx

/-- A new value is not among the old ones if it is beyond the end of an ordered list. -/
theorem notMem_of_ordered {l : List V} {a : V} (hne : a ≠ x)
    (h : ((l ++ [a]).Pairwise (· ≤ ·) ∧ a ≤ x) ∨ ((l ++ [a]).Pairwise (· ≥ ·) ∧ x ≤ a) ∨ l = []) :
    x ∉ l ++ [a] := by
  intro hmem
  rcases mem_append.mp hmem with hm | hm
  · rcases h with ⟨hs, hle⟩ | ⟨hs, hle⟩ | rfl
    · have := (pairwise_append.mp hs).2.2 x hm a (mem_singleton_self a)
      exact hne (le_antisymm hle this)
    · have := (pairwise_append.mp hs).2.2 x hm a (mem_singleton_self a)
      exact hne (le_antisymm this hle)
    · exact not_mem_nil hm
  · exact hne (mem_singleton.mp hm).symm

theorem sound_setcolprops_next (h : c.Sound (c.live first count)) (ht : c.type ≠ .void)
    (hc : count ≠ 0) (hkey : c.key = .bound → x ∉ c.live first count) :
    (c.setcolprops first count (some x)).Sound (c.live first count ++ [x]) := by
  obtain ⟨n, rfl⟩ : ∃ n, count = n + 1 := ⟨count - 1, by omega⟩
  have hsnoc : c.live first (n + 1) = c.live first n ++ [c.value first (first + n)] :=
    slice_snoc _ (Nat.le_add_right _ _)
  have hpos : first + (n + 1) - 1 = first + n := by omega
  have hlen := length_live c first n
  unfold setcolprops
  simp only [if_neg hc, Option.getD_some, hpos]
  set prv := c.value first (first + n) with hprv
  rw [hsnoc] at h hkey ⊢
  refine ⟨fun hs => ?_, fun hs => ?_, fun hk => ?_, fun s hd hs => ?_, fun hd => ?_, fun hn => ?_,
    fun hn => ?_⟩
  · simp only [Bool.and_eq_true, Bool.not_eq_true', decide_eq_false_iff_not, atomCmp_pos,
      not_lt] at hs
    exact pairwise_snoc (h.sorted hs.1) hs.2
  · simp only [Bool.and_eq_true, Bool.not_eq_true', decide_eq_false_iff_not, atomCmp_lt_zero,
      not_lt] at hs
    exact pairwise_snoc (h.revsorted hs.1) hs.2
  -- uniqueness is kept only if the value is beyond the end of an ordered column
  · by_cases hcond : c.key = .yes ∧ (atomCmp prv x = 0 ∨ (1 < n + 1 ∧ ((c.sorted ∧
        0 < atomCmp prv x) ∨ (c.revsorted ∧ atomCmp prv x < 0) ∨ (!c.sorted ∧ !c.revsorted))))
    · rw [if_pos hcond] at hk
      exact absurd rfl hk
    rw [if_neg hcond] at hk
    have hnot : x ∉ c.live first n ++ [prv] := by
      rcases hkk : c.key with _ | _ | _
      · exact absurd hkk hk
      · simp only [hkk, true_and, not_or, atomCmp_eq_zero, atomCmp_pos, atomCmp_lt_zero] at hcond
        refine notMem_of_ordered hcond.1 ?_
        by_cases hn : n = 0
        · exact .inr (.inr (eq_nil_of_length_eq_zero (hlen.trans hn)))
        have hcase := hcond.2
        simp only [not_and, not_or, not_lt] at hcase
        obtain ⟨h1, h2, h3⟩ := hcase (by omega)
        cases hs : c.sorted with
        | true => exact .inl ⟨h.sorted hs, h1 hs⟩
        | false =>
          have hr : c.revsorted = true := by simpa [hs] using h3
          exact .inr (.inl ⟨h.revsorted hr, h2 hr⟩)
      · exact hkey hkk
    exact nodup_append_comm.mp (nodup_cons.mpr ⟨hnot, h.key hk⟩)
  -- density is kept only if the value is the next oid
  · have hd' : c.isDense = true ∧ isSucc prv x = true := by
      simp only [isDense, isVoid, Bool.and_eq_true, Bool.or_eq_true, beq_iff_eq, ht, or_false,
        Bool.not_eq_true', Bool.or_eq_false_iff, Bool.not_eq_false'] at hd ⊢
      exact ⟨⟨⟨hd.1.1.1, hd.1.2.1⟩, hd.2⟩, hd.1.1.2.2⟩
    have hl := h.dense s hd'.1 hs
    rw [length_append, length_singleton, hlen, ← Nat.add_assoc,
      slice_snoc _ (Nat.le_add_right _ _)] at hl
    have hprv' : prv = ofOid (s + n) := (append_inj' hl rfl).2 |> cons.inj |>.1
    rw [hprv', isSucc_ofOid] at hd'
    rw [length_append, length_append, length_singleton, length_singleton, hlen,
      hl, hd'.2, ← Nat.add_assoc, ← Nat.add_assoc, slice_snoc _ (by omega),
      slice_snoc _ (Nat.le_add_right _ _)]
  · simp only [Bool.and_eq_true] at hd
    exact h.dense_oid hd.1
  · simp only [Bool.or_eq_true, decide_eq_true_eq, atomCmp_eq_zero] at hn
    rcases hn with hn | rfl
    · exact mem_append_left _ (h.nil hn)
    · exact mem_append_right _ (mem_singleton_self _)
  · simp only [Bool.and_eq_true, Bool.not_eq_true', decide_eq_false_iff_not, atomCmp_eq_zero] at hn
    intro hmem
    rcases mem_append.mp hmem with hm | hm
    · exact h.nonil hn.1 hm
    · exact hn.2 (mem_singleton.mp hm).symm

/-- **The flags stay true when a value is added.**  A column that is kept unique must not hold
the value yet. -/
theorem sound_setcolprops (h : c.Sound (c.live first count)) (ht : c.type ≠ .void)
    (hkey : c.key = .bound → x ∉ c.live first count) :
    (c.setcolprops first count (some x)).Sound (c.live first count ++ [x]) := by
  by_cases hc : count = 0
  · subst hc
    have hnil : c.live first 0 = [] := slice_eq_nil _ le_rfl
    rw [hnil]
    exact sound_setcolprops_first h ht x
  · exact sound_setcolprops_next h ht hc hkey

/-! ## A value is deleted

What is true of all values survives the loss of one, but the flag for nils need not.  A value that
takes the place of a deleted one is compared only with the value behind it. -/

/-- **The flags stay true when the first value is discarded**, except that a flag for nils may be
left without a nil. -/
theorem sound_delFirst {p : ℕ} (h : c.Sound (x :: l)) (hnil : c.nil = true → ⊥ ∈ l) :
    (c.delFirst first p last).Sound l := by
  have hsub : l.Sublist (x :: l) := sublist_cons_self x l
  have hdense : ∀ s, c.isDense = true → c.seq = some s →
      l = slice ofOid (s + 1) (s + 1 + l.length) := by
    intro s hd hs
    have hl := h.dense s hd hs
    rw [length_cons, slice_cons ofOid (by omega)] at hl
    have htail := (cons.inj hl).2
    rwa [show s + (l.length + 1) = s + 1 + l.length by omega] at htail
  rw [delFirst]
  split_ifs with hc
  · refine ⟨fun hs => (h.sorted hs).sublist hsub, fun hs => (h.revsorted hs).sublist hsub,
      fun hk => (h.key hk).sublist hsub, fun s _ hs => ?_, h.dense_oid, hnil,
      fun hn hm => h.nonil hn (mem_cons_of_mem x hm)⟩
    obtain ⟨s', hs', rfl⟩ := Option.map_eq_some_iff.mp hs
    exact hdense s' hc hs'
  · exact ⟨fun hs => (h.sorted hs).sublist hsub, fun hs => (h.revsorted hs).sublist hsub,
      fun hk => (h.key hk).sublist hsub, fun s hd' => absurd hd' hc, h.dense_oid, hnil,
      fun hn hm => h.nonil hn (mem_cons_of_mem x hm)⟩

/-- **The flags stay true when a value is exchanged with the first one and discarded.** -/
theorem sound_delSwap {p : ℕ} {l' : List V} (h : c.Sound l) (hperm : l.Perm (x :: l'))
    (ht : c.type ≠ .void ∨ c.seq = none) (hnil : c.nil = true → ⊥ ∈ l') :
    (c.delSwap first p last).Sound l' := by
  refine ⟨by simp [delSwap], by simp [delSwap], fun hk => ?_, fun s hd hs => ?_, by simp [delSwap],
    hnil, fun hn hm => ?_⟩
  · exact (hperm.nodup_iff.mp (h.key hk)).of_cons
  · rcases ht with ht | ht
    · simp [delSwap, isDense, isVoid, accMove, hashdel, ht] at hd
    · simp [delSwap, accMove, hashdel, ht] at hs
  · exact h.nonil hn (hperm.mem_iff.mpr (mem_cons_of_mem x hm))

omit [OidAtom V] in
theorem free_heap_of_ne (hq : q ≠ p) : (c.free p).heap q = c.heap q := by
  unfold free
  dsimp only
  split_ifs
  · rfl
  · cases c.atomDel with
    | none => rfl
    | some del => exact update_of_ne hq _ _

theorem Sound.dropLast (h : c.Sound (l ++ [x])) (hnil : c.nil = true → ⊥ ∈ l) : c.Sound l := by
  have hpre : l.Sublist (l ++ [x]) := sublist_append_left l [x]
  refine ⟨fun hs => (h.sorted hs).sublist hpre, fun hs => (h.revsorted hs).sublist hpre,
    fun hk => (h.key hk).sublist hpre, fun s hd hs => ?_, h.dense_oid, hnil,
    fun hn hm => h.nonil hn (mem_append_left _ hm)⟩
  have hl := h.dense s hd hs
  rw [length_append, length_singleton, ← Nat.add_assoc, slice_snoc _ (Nat.le_add_right _ _)] at hl
  exact (append_inj' hl rfl).1

/-- **The flags stay true when the last value is deleted.** -/
theorem sound_delLast_last (h : c.Sound (l ++ [x])) (hnil : c.nil = true → ⊥ ∈ l) :
    (c.delLast first last last).Sound l := by
  rw [delLast, if_neg (by simp)]
  exact (h.dropLast hnil).frame _ _

omit [OidAtom V] in
/-- An element between two others takes the place of another one in an ordered list. -/
theorem pairwise_replace (htrans : ∀ u v w, R u v → R v w → R u w) {t : V}
    (h : (a ++ x :: b).Pairwise R) (ha : ∀ a' y, a = a' ++ [y] → R y t)
    (hb : ∀ y b', b = y :: b' → R t y) : (a ++ t :: b).Pairwise R := by
  obtain ⟨h1, hxb, hab⟩ := pairwise_append.mp h
  have h2 := (pairwise_cons.mp hxb).2
  have hat : ∀ u ∈ a, R u t := by
    intro u hu
    rcases eq_nil_or_concat a with rfl | ⟨a', y, rfl⟩
    · exact absurd hu not_mem_nil
    · have hy := ha a' y (concat_eq_append ..)
      rw [concat_eq_append] at hu h1
      rcases mem_append.mp hu with hu | hu
      · exact htrans _ _ _ ((pairwise_append.mp h1).2.2 u hu y (mem_singleton_self y)) hy
      · rwa [mem_singleton.mp hu]
  refine pairwise_append.mpr ⟨h1, pairwise_cons.mpr ⟨fun v hv => ?_, h2⟩, fun u hu v hv => ?_⟩
  · rcases b with _ | ⟨y, b⟩
    · exact absurd hv not_mem_nil
    · have hy := hb y b rfl
      rcases mem_cons.mp hv with rfl | hv
      · exact hy
      · exact htrans _ _ _ hy ((pairwise_cons.mp h2).1 v hv)
  · rcases mem_cons.mp hv with rfl | hv
    · exact hat u hu
    · exact hab u hu v (mem_cons_of_mem x hv)

omit [OidAtom V] in
/-- The last element takes the place of another one in an ordered list. -/
theorem pairwise_replace_last (htrans : ∀ u v w, R u v → R v w → R u w)
    (h : (a ++ x :: (b ++ [z])).Pairwise R) (hz : ∀ y b', b = y :: b' → R z y) :
    (a ++ z :: b).Pairwise R := by
  refine pairwise_replace (x := x) htrans (h.sublist (by simp)) ?_ hz
  rintro a' y rfl
  exact (pairwise_append.mp h).2.2 y (by simp) z (by simp)

theorem accMove_heap (ht : c.type ≠ .void) (first k p : ℕ) (next : Bool) :
    (c.accMove first k p next).heap = update (update c.heap k (c.heap p)) p (c.heap k) :=
  if_neg ht

/-- The values after the last one has taken the place of another one. -/
theorem delLast_heap (ht : c.type ≠ .void) (hp : p ≠ last) (hq : q ≠ last) :
    (((c.free p).hashdel first p (p < last)).accMove first last p false).heap q =
      if q = p then c.heap last else c.heap q := by
  have hty : ((c.free p).hashdel first p (p < last)).type ≠ .void := ht
  rw [accMove_heap hty]
  split_ifs with h
  · subst h
    rw [update_self]
    exact free_heap_of_ne (Ne.symm hp)
  · rw [update_of_ne h, update_of_ne hq]
    exact free_heap_of_ne h

/-- The flags after the last value has taken the place of another one. -/
theorem delLast_flags (first : ℕ) (ht : c.type ≠ .void) (hp : p ≠ last) :
    ((c.delLast first p last).sorted = true →
      c.sorted = true ∧ (p + 1 < last → c.heap last ≤ c.heap (p + 1))) ∧
    ((c.delLast first p last).revsorted = true →
      c.revsorted = true ∧ (p + 1 < last → c.heap (p + 1) ≤ c.heap last)) ∧
    ((c.delLast first p last).dense = true → c.dense = true ∧ c.sorted = false) ∧
    (c.delLast first p last).type = c.type ∧ (c.delLast first p last).key = c.key ∧
    (c.delLast first p last).nil = c.nil ∧ (c.delLast first p last).nonil = c.nonil := by
  set c₁ := ((c.free p).hashdel first p (p < last)).accMove first last p false with hc1
  have hty : c₁.type ≠ .void := ht
  -- the source compares the value moved with the one behind its new place
  have hval : p + 1 < last → c₁.value first p = c.heap last ∧
      c₁.value first (p + 1) = c.heap (p + 1) := by
    intro hlt
    rw [value_of_ne_void hty, value_of_ne_void hty, delLast_heap ht hp (by omega),
      delLast_heap ht hp (by omega), if_pos rfl, if_neg (by omega)]
    exact ⟨rfl, rfl⟩
  have hdef : c.delLast first p last = { c₁ with
        sorted := c₁.sorted && !(p + 1 < last &&
          0 < atomCmp (c₁.value first p) (c₁.value first (p + 1)))
        dense := if c₁.sorted then false else c₁.dense
        revsorted := c₁.revsorted && !(p + 1 < last &&
          atomCmp (c₁.value first p) (c₁.value first (p + 1)) < 0) } := by
    rw [delLast, if_pos hp]
  have hsort : c₁.sorted = c.sorted := rfl
  rw [hdef]
  refine ⟨fun hs => ?_, fun hs => ?_, fun hd => ?_, rfl, rfl, rfl, rfl⟩
  · simp only [Bool.and_eq_true, Bool.not_eq_true', Bool.and_eq_false_iff,
      decide_eq_false_iff_not, atomCmp_pos, not_lt] at hs
    refine ⟨hs.1, fun hlt => ?_⟩
    rw [← (hval hlt).1, ← (hval hlt).2]
    exact hs.2.resolve_left (by omega)
  · simp only [Bool.and_eq_true, Bool.not_eq_true', Bool.and_eq_false_iff,
      decide_eq_false_iff_not, atomCmp_lt_zero, not_lt] at hs
    refine ⟨hs.1, fun hlt => ?_⟩
    rw [← (hval hlt).1, ← (hval hlt).2]
    exact hs.2.resolve_left (by omega)
  · rw [hsort] at hd
    split_ifs at hd with hs
    exact ⟨hd, by simpa using hs⟩

/-- **The flags stay true when the last value takes the place of a deleted one.** -/
theorem sound_delLast_swap (ht : c.type ≠ .void) (hp : p ≠ last)
    (h : c.Sound (a ++ x :: (b ++ [z]))) (hz : c.heap last = z)
    (hb : ∀ y b', b = y :: b' → p + 1 < last ∧ c.heap (p + 1) = y)
    (hnil : c.nil = true → ⊥ ∈ a ++ z :: b) : (c.delLast first p last).Sound (a ++ z :: b) := by
  obtain ⟨hs, hr, hd, hty, hk, hn, hnn⟩ := delLast_flags first ht hp
  have hperm : (a ++ x :: (b ++ [z])).Perm (x :: (a ++ z :: b)) := by
    refine perm_middle.trans (List.Perm.cons x (List.Perm.append_left a ?_))
    exact perm_append_singleton z b
  refine ⟨fun hs' => ?_, fun hr' => ?_, fun hk' => ?_, fun s hd' => ?_, fun hd' => ?_, ?_, ?_⟩
  · obtain ⟨h1, h2⟩ := hs hs'
    refine pairwise_replace_last (fun _ _ _ h h' => h.trans h') (h.sorted h1) fun y b' hb' => ?_
    obtain ⟨hlt, hy⟩ := hb y b' hb'
    rw [← hz, ← hy]
    exact h2 hlt
  · obtain ⟨h1, h2⟩ := hr hr'
    refine pairwise_replace_last (fun _ _ _ h h' => h'.trans h) (h.revsorted h1) fun y b' hb' => ?_
    obtain ⟨hlt, hy⟩ := hb y b' hb'
    rw [← hz, ← hy]
    exact h2 hlt
  · rw [hk] at hk'
    exact (hperm.nodup_iff.mp (h.key hk')).of_cons
  · -- a dense column is sorted, and is then no longer flagged as dense
    simp only [isDense, isVoid, Bool.and_eq_true, Bool.or_eq_true, beq_iff_eq, hty, ht,
      or_false] at hd'
    have h1 := (hd hd'.1.1).2
    have h2 := (hs hd'.1.2).1
    simp [h1] at h2
  · rw [hty]
    exact h.dense_oid (hd hd').1
  · rw [hn]
    exact hnil
  · rw [hnn]
    exact fun h' hm => h.nonil h' (hperm.mem_iff.mpr (mem_cons_of_mem x hm))

/-! ## A value is replaced

The neighbours of the new value are looked at. -/

/-- The surroundings of position `p` in a column with the values `a`, `x`, `b`. -/
structure Around (c : Col V) (first last p : ℕ) (a : List V) (x : V) (b : List V) : Prop where
  value : c.heap p = x
  prv : ∀ a' y, a = a' ++ [y] → first < p ∧ c.heap (p - 1) = y
  nxt : ∀ y b', b = y :: b' → p < last ∧ c.heap (p + 1) = y
  prv_nil : a = [] → p = first
  nxt_nil : b = [] → p = last

theorem replaceValue_heap (ht : c.type ≠ .void) (first : ℕ) (t : V) (hq : q ≠ p) :
    (c.replaceValue first last p t).heap q = c.heap q := by
  have hheap : (c.replaceValue first last p t).heap = update c.heap p t := if_neg ht
  rw [hheap, update_of_ne hq]

variable {last : ℕ} {t : V}

section

variable (ht : c.type ≠ .void)

include ht

theorem breaksOrder_eq_false : c.breaksOrder first last p t = false ↔
    (first < p → c.heap (p - 1) ≤ t) ∧ (p < last → t ≤ c.heap (p + 1)) := by
  simp only [breaksOrder, value_of_ne_void ht, Bool.or_eq_false_iff, Bool.and_eq_false_iff,
    decide_eq_false_iff_not, atomCmp_lt_zero, atomCmp_pos]
  rw [← imp_iff_not_or, ← imp_iff_not_or, not_lt, not_lt]

theorem breaksRevorder_eq_false : c.breaksRevorder first last p t = false ↔
    (first < p → t ≤ c.heap (p - 1)) ∧ (p < last → c.heap (p + 1) ≤ t) := by
  simp only [breaksRevorder, value_of_ne_void ht, Bool.or_eq_false_iff, Bool.and_eq_false_iff,
    decide_eq_false_iff_not, atomCmp_lt_zero, atomCmp_pos]
  rw [← imp_iff_not_or, ← imp_iff_not_or, not_lt, not_lt]

theorem breaksDense_eq_false : c.breaksDense first last p t = false ↔
    (first < p → isSucc (c.heap (p - 1)) t = true) ∧
      (p < last → isSucc t (c.heap (p + 1)) = true) := by
  simp only [breaksDense, value_of_ne_void ht, Bool.or_eq_false_iff, Bool.and_eq_false_iff,
    decide_eq_false_iff_not, Bool.not_eq_false', ← imp_iff_not_or]

theorem neighbours_replaceValue (first last p : ℕ) (t : V) :
    (first < p → (c.replaceValue first last p t).heap (p - 1) = c.heap (p - 1)) ∧
      (c.replaceValue first last p t).heap (p + 1) = c.heap (p + 1) :=
  ⟨fun _ => replaceValue_heap ht _ _ (by omega), replaceValue_heap ht _ _ (by omega)⟩

theorem replace_sorted (h : (c.replace first count p t).sorted = true) :
    c.sorted = true ∧ (first < p → c.heap (p - 1) ≤ t) ∧
      (p < first + count - 1 → t ≤ c.heap (p + 1)) := by
  obtain ⟨hprv, hnxt⟩ := neighbours_replaceValue ht first (first + count - 1) p t
  set c₁ := c.replaceValue first (first + count - 1) p t with hc1
  have ht1 : c₁.type ≠ .void := ht
  have h' : (c₁.sorted && !(c₁.ordered && c₁.breaksOrder first (first + count - 1) p t)) = true := h
  rw [Bool.and_eq_true, ordered] at h'
  have hs : c₁.sorted = true := h'.1
  have hb : c₁.breaksOrder first (first + count - 1) p t = false := by simpa [hs] using h'.2
  rw [breaksOrder_eq_false ht1, hnxt] at hb
  exact ⟨hs, fun hp => hprv hp ▸ hb.1 hp, hb.2⟩

theorem replace_revsorted (h : (c.replace first count p t).revsorted = true) :
    c.revsorted = true ∧ (first < p → t ≤ c.heap (p - 1)) ∧
      (p < first + count - 1 → c.heap (p + 1) ≤ t) := by
  obtain ⟨hprv, hnxt⟩ := neighbours_replaceValue ht first (first + count - 1) p t
  set c₁ := (c.replaceValue first (first + count - 1) p t).replaceOrder first (first + count - 1) p
    t with hc1
  have ht1 : c₁.type ≠ .void := ht
  have h' : (c₁.revsorted && !(c₁.revordered &&
      c₁.breaksRevorder first (first + count - 1) p t)) = true := h
  rw [Bool.and_eq_true, revordered] at h'
  have hs : c₁.revsorted = true := h'.1
  have hb : c₁.breaksRevorder first (first + count - 1) p t = false := by simpa [hs] using h'.2
  rw [breaksRevorder_eq_false ht1] at hb
  exact ⟨hs, fun hp => hprv hp ▸ hb.1 hp, fun hp => hnxt ▸ hb.2 hp⟩

theorem replace_dense (hd : (c.replace first count p t).dense = true)
    (hs : (c.replace first count p t).sorted = true) :
    c.dense = true ∧ (first < p → isSucc (c.heap (p - 1)) t = true) ∧
      (p < first + count - 1 → isSucc t (c.heap (p + 1)) = true) ∧
      (c.replace first count p t).seq =
        if first < p ∨ p < first + count - 1 then c.seq else toOid t := by
  obtain ⟨hprv, hnxt⟩ := neighbours_replaceValue ht first (first + count - 1) p t
  set c₁ := c.replaceValue first (first + count - 1) p t with hc1
  have ht1 : c₁.type ≠ .void := ht
  have hs' : (c₁.sorted && !(c₁.ordered && c₁.breaksOrder first (first + count - 1) p t)) = true :=
    hs
  have hsort : c₁.sorted = true := (Bool.and_eq_true _ _ ▸ hs').1
  have hord : c₁.ordered = true := by simp [ordered, hsort]
  have hb : c₁.breaksOrder first (first + count - 1) p t = false := by
    simpa [hsort, hord] using hs'
  have hd' : (c₁.replaceOrder first (first + count - 1) p t).dense = true :=
    (Bool.and_eq_true _ _ ▸ hd).1
  -- with the order intact, `replaceOrder` only looks at whether the oids still count up
  have hdef : c₁.replaceOrder first (first + count - 1) p t = { c₁ with
        dense := c₁.dense && !(c₁.dense && c₁.breaksDense first (first + count - 1) p t)
        seq := if c₁.dense && !c₁.breaksDense first (first + count - 1) p t &&
          !(first < p || p < first + count - 1) then toOid t else c₁.seq } := by
    have hv : (c₁.type != .void) = true := by simpa using ht1
    simp [replaceOrder, hord, hb, hv]
  have hseq : (c.replace first count p t).seq =
      (c₁.replaceOrder first (first + count - 1) p t).seq := rfl
  rw [hdef] at hd' hseq
  have hdense : c₁.dense = true := (Bool.and_eq_true _ _ ▸ hd').1
  have hbd : c₁.breaksDense first (first + count - 1) p t = false := by
    simpa [hdense] using hd'
  rw [hseq]
  simp only [hdense, hbd]
  rw [breaksDense_eq_false ht1, hnxt] at hbd
  refine ⟨hdense, fun hp => hprv hp ▸ hbd.1 hp, hbd.2, ?_⟩
  by_cases hp : first < p ∨ p < first + count - 1
  · rw [if_pos hp, if_neg]
    · rfl
    · intro h
      simp only [Bool.not_false, Bool.true_and, Bool.not_eq_true', Bool.or_eq_false_iff,
        decide_eq_false_iff_not] at h
      exact hp.elim h.1 h.2
  · rw [if_neg hp, if_pos]
    simp only [Bool.not_false, Bool.true_and, Bool.not_eq_true', Bool.or_eq_false_iff,
      decide_eq_false_iff_not]
    exact not_or.mp hp

end

theorem eq_of_isSucc_ofOid (h : isSucc t (ofOid (n + 1) : V) = true) : t = ofOid n := by
  unfold isSucc at h
  rw [toOid_ofOid] at h
  rcases ht : toOid t with _ | m
  · simp [ht] at h
  · simp only [ht, beq_iff_eq, Nat.add_right_cancel_iff] at h
    rw [← ofOid_toOid t m ht, h]

theorem dense_parts (hl : a ++ x :: b = slice ofOid s (s + (a ++ x :: b).length)) :
    a = slice ofOid s (s + a.length) ∧ x = ofOid (s + a.length) ∧
      b = slice ofOid (s + a.length + 1) (s + a.length + 1 + b.length) := by
  rw [length_append, length_cons, slice_append ofOid (Nat.le_add_right s a.length) (by omega)] at hl
  obtain ⟨h1, h2⟩ := append_inj hl (by rw [length_slice]; omega)
  rw [slice_cons ofOid (by omega)] at h2
  obtain ⟨h3, h4⟩ := cons.inj h2
  refine ⟨h1, h3, ?_⟩
  rwa [show s + (a.length + (b.length + 1)) = s + a.length + 1 + b.length by omega] at h4

/-- In a dense list a value that fits between its neighbours is the one that was there. -/
theorem eq_of_dense (hl : a ++ x :: b = slice ofOid s (s + (a ++ x :: b).length))
    (ha : ∀ a' y, a = a' ++ [y] → isSucc y t = true) (hb : ∀ y b', b = y :: b' → isSucc t y = true)
    (hne : a ≠ [] ∨ b ≠ []) : t = x := by
  obtain ⟨h1, h2, h3⟩ := dense_parts hl
  rcases eq_nil_or_concat a with rfl | ⟨a', y, rfl⟩
  · rcases b with _ | ⟨y, b⟩
    · simp at hne
    · rw [length_cons, slice_cons ofOid (by omega)] at h3
      have hy := (cons.inj h3).1
      have := hb y b rfl
      rw [hy] at this
      rw [h2]
      exact eq_of_isSucc_ofOid this
  · rw [concat_eq_append] at h1 h2 ha
    rw [length_append, length_singleton, ← Nat.add_assoc, slice_snoc _ (Nat.le_add_right _ _)] at h1
    have hy := (cons.inj (append_inj' h1 rfl).2).1
    have := ha a' y rfl
    rw [hy, isSucc_ofOid] at this
    rw [this, h2, length_append, length_singleton, Nat.add_assoc]

/-- **The flags stay true when a value is replaced.**  A column that is kept unique must not hold
the value elsewhere. -/
theorem sound_replace (ht : c.type ≠ .void) (h : c.Sound (a ++ x :: b))
    (hp : c.Around first (first + count - 1) p a x b) (hc : count = a.length + 1 + b.length)
    (hkey : c.key = .bound → t ∉ a ++ b) : (c.replace first count p t).Sound (a ++ t :: b) := by
  have hty : (c.replace first count p t).type = c.type := rfl
  refine ⟨fun hs => ?_, fun hs => ?_, fun hk => ?_, fun s hd hs => ?_, fun hd => ?_, fun hn => ?_,
    fun hn => ?_⟩
  · obtain ⟨h1, h2, h3⟩ := replace_sorted ht hs
    refine pairwise_replace (fun _ _ _ h h' => h.trans h') (h.sorted h1) ?_ ?_
    · intro a' y ha
      obtain ⟨hlt, rfl⟩ := hp.prv a' y ha
      exact h2 hlt
    · intro y b' hb
      obtain ⟨hlt, rfl⟩ := hp.nxt y b' hb
      exact h3 hlt
  · obtain ⟨h1, h2, h3⟩ := replace_revsorted ht hs
    refine pairwise_replace (fun _ _ _ h h' => h'.trans h) (h.revsorted h1) ?_ ?_
    · intro a' y ha
      obtain ⟨hlt, rfl⟩ := hp.prv a' y ha
      exact h2 hlt
    · intro y b' hb
      obtain ⟨hlt, rfl⟩ := hp.nxt y b' hb
      exact h3 hlt
  · have hk' : (if c.type != .void && c.key == .yes && decide (1 < count) then KeyProp.no
        else c.key) ≠ .no := hk
    split_ifs at hk' with hu
    · exact absurd rfl hk'
    have hnd := h.key hk'
    rcases hkk : c.key with _ | _ | _
    · exact absurd hkk hk'
    · -- there is no other value
      have hone : ¬ 1 < count := by simpa [hkk, ht] using hu
      obtain rfl : a = [] := eq_nil_of_length_eq_zero (by omega)
      obtain rfl : b = [] := eq_nil_of_length_eq_zero (by omega)
      exact nodup_singleton _
    · have hab : (a ++ b).Nodup := hnd.sublist (List.Sublist.append_left (sublist_cons_self x b) a)
      exact nodup_middle.mpr (nodup_cons.mpr ⟨hkey hkk, hab⟩)
  · have hd' : (c.replace first count p t).dense = true ∧
        (c.replace first count p t).sorted = true := by
      simpa [isDense, isVoid, hty, ht, hs] using hd
    obtain ⟨h1, h2, h3, h4⟩ := replace_dense ht hd'.1 hd'.2
    have hsort := (replace_sorted ht hd'.2).1
    by_cases hne : a ≠ [] ∨ b ≠ []
    · have hin : first < p ∨ p < first + count - 1 := by
        rcases hne with hne | hne
        · obtain ⟨a', y, ha⟩ := (eq_nil_or_concat a).resolve_left hne
          exact .inl (hp.prv a' y (ha.trans (concat_eq_append ..))).1
        · obtain ⟨y, b', hb⟩ := exists_cons_of_ne_nil hne
          exact .inr (hp.nxt y b' hb).1
      rw [h4, if_pos hin] at hs
      have hl := h.dense s (by simp [isDense, isVoid, h1, hsort, hs]) hs
      have htx := eq_of_dense hl (fun a' y ha => (hp.prv a' y ha).2 ▸ h2 (hp.prv a' y ha).1)
        (fun y b' hb => (hp.nxt y b' hb).2 ▸ h3 (hp.nxt y b' hb).1) hne
      rwa [htx]
    · rw [not_or, not_not, not_not] at hne
      obtain ⟨rfl, rfl⟩ := hne
      have h5 := hp.prv_nil rfl
      have h6 := hp.nxt_nil rfl
      rw [h4, if_neg (by omega)] at hs
      rw [nil_append, length_singleton, slice_snoc ofOid (le_refl s),
        slice_eq_nil ofOid (le_refl s), nil_append, ofOid_toOid t s hs]
  · have hd' := (Bool.and_eq_true _ _ ▸ hd).1
    exact h.dense_oid (Bool.and_eq_true _ _ ▸ hd').1
  · have hn' : (c.nil && !(decide (atomCmp (c.value first p) ⊥ = 0) && decide (atomCmp t ⊥ ≠ 0))) =
        true := hn
    rw [value_of_ne_void ht, hp.value] at hn'
    simp only [Bool.and_eq_true, Bool.not_eq_true', Bool.and_eq_false_iff, decide_eq_false_iff_not,
      atomCmp_eq_zero, not_not] at hn'
    have hmem := h.nil hn'.1
    simp only [mem_append, mem_cons] at hmem ⊢
    rcases hmem with hm | hm | hm
    · exact .inl hm
    · rcases hn'.2 with h' | h'
      · exact absurd hm.symm h'
      · exact .inr (.inl h'.symm)
    · exact .inr (.inr hm)
  · have hn' : (c.nonil && decide (atomCmp t ⊥ ≠ 0)) = true := hn
    simp only [Bool.and_eq_true, decide_eq_true_eq, ne_eq, atomCmp_eq_zero] at hn'
    intro hmem
    simp only [mem_append, mem_cons] at hmem
    rcases hmem with hm | hm | hm
    · exact h.nonil hn'.1 (mem_append_left _ hm)
    · exact hn'.2 hm.symm
    · exact h.nonil hn'.1 (mem_append_right _ (mem_cons_of_mem _ hm))

end Col

end MonetInR.Gdk
