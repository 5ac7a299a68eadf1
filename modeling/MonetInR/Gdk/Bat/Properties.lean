import MonetInR.Gdk.Bat.Flags
import MonetInR.Gdk.Bat.Changes

/-!
# Property flags under updates

## Main definitions

* `Bat.FlagsTrue`: the property flags of both columns are true
* `Bat.KeepsFlags`: the condition under which a change keeps them so

## Main results

* `flagsTrue_of_reaches`: the flags are true after every sequence of updates whose changes meet
  the condition
* `BUNdelete_leaves_nil`: a column whose only nil has been deleted is still said to have one
-/

namespace MonetInR.Gdk

open IntervalSearch OidAtom Runs List Function Option Col

variable {V : Type*} [OidAtom V]

/-! ## Columns

For each update of a column: which list of values it leaves, and that the flags are true of that
list. -/

namespace Col

variable {c c' : Col V} {first count p q : ℕ} {x t : V}

theorem value_congr (ht : c'.type = c.type) (hs : c.type = .void → c'.seq = c.seq)
    (hh : c.type ≠ .void → c'.heap = c.heap) (first : ℕ) : c'.value first = c.value first := by
  funext p
  by_cases hv : c.type = .void
  · simp only [value, ht, hv, hs hv]
  · rw [value_of_ne_void hv, value_of_ne_void (ht ▸ hv), hh hv]

omit [OidAtom V] in
theorem type_or_seq (hv : ¬ c.voidDense) :
    c.type ≠ .void ∨ (c.type = .void ∧ c.seq = none) := by
  by_cases ht : c.type = .void
  · exact .inr ⟨ht, not_isSome_iff_eq_none.mp fun hs => hv ⟨ht, hs⟩⟩
  · exact .inl ht

theorem live_zero (c : Col V) (first : ℕ) : c.live first 0 = [] := slice_eq_nil _ le_rfl

theorem live_succ (c : Col V) (first count : ℕ) :
    c.live first (count + 1) = c.live first count ++ [c.value first (first + count)] := by
  rw [live, ← Nat.add_assoc, slice_snoc _ (Nat.le_add_right _ _)]
  rfl

/-- If the column is said to have nils, one of them is not at position `p`. -/
def NilStays (c : Col V) (first count p : ℕ) : Prop :=
  c.nil = true → ∃ q, first ≤ q ∧ q < first + count ∧ q ≠ p ∧ c.value first q = ⊥

section

variable (hv : ¬ c.voidDense)

include hv

/-- Only the oids of a dense `void` column depend on where the column starts. -/
theorem value_first (first first' : ℕ) : c.value first = c.value first' := by
  funext p
  rcases type_or_seq hv with ht | ⟨ht, hs⟩
  · rw [value_of_ne_void ht, value_of_ne_void ht]
  · rw [value_void_none ht hs, value_void_none ht hs]

theorem delFirst_value (first p last : ℕ) :
    (c.delFirst first p last).value (first + 1) = c.value first := by
  rw [← value_first hv (first + 1) first]
  refine value_congr ?_ (fun ht => ?_) (fun _ => ?_) _
  · rw [delFirst]
    split_ifs <;> rfl
  · -- a `void` column of nils is not dense
    have hs := ((type_or_seq hv).resolve_left (not_not.mpr ht)).2
    have hd : (c.hashdel first p (p < last)).isDense = false := by
      simp [isDense, hashdel, hs]
    rw [delFirst, hd]
    rfl
  · rw [delFirst]
    split_ifs <;> rfl

theorem accMove_value (first k p : ℕ) (next : Bool) (i : ℕ) :
    (c.accMove first k p next).value first i =
      if i = p then c.value first k else if i = k then c.value first p else c.value first i := by
  have hty : (c.accMove first k p next).type = c.type := rfl
  rcases type_or_seq hv with ht | ⟨ht, hs⟩
  · rw [value_of_ne_void (hty ▸ ht), accMove_heap ht, value_of_ne_void ht, value_of_ne_void ht,
      value_of_ne_void ht, update_apply, update_apply]
  · have hs' : (c.accMove first k p next).seq = none := hs
    rw [value_void_none (hty.trans ht) hs', value_void_none ht hs, value_void_none ht hs,
      value_void_none ht hs, ite_self, ite_self]

/-- The values behind the first one after it has been exchanged with a later one. -/
theorem delSwap_value (p last : ℕ) (hq : q ≠ first) :
    (c.delSwap first p last).value (first + 1) q =
      if q = p then c.value first first else c.value first q := by
  have hv' : ¬ (c.delSwap first p last).voidDense := hv
  have hmove := accMove_value (c := c.hashdel first p (p < last)) hv first first p (first < last) q
  rw [if_neg hq] at hmove
  rw [value_first hv' (first + 1) first]
  exact hmove

/-- The values of a column from which a committed one has been taken. -/
theorem delSwap_live (hp : first < p) (hp' : p < first + count) (last : ℕ) :
    (c.delSwap first p last).live (first + 1) (count - 1) =
      slice (c.value first) (first + 1) p ++ c.value first first ::
        slice (c.value first) (p + 1) (first + count) := by
  rw [live, show first + 1 + (count - 1) = first + count by omega,
    slice_of_eq_off (f := c.value first) (p := p) (by omega) hp' fun i h1 _ h2 => ?_]
  · rw [delSwap_value hv p last (by omega), if_pos rfl]
  · rw [delSwap_value hv p last (by omega), if_neg h2]

end

theorem delLast_frame (c : Col V) (first p last : ℕ) :
    (c.delLast first p last).type = c.type ∧ (c.delLast first p last).seq = c.seq := by
  rw [delLast]
  split_ifs <;> exact ⟨rfl, rfl⟩

theorem delLast_weaker (c : Col V) (first p last : ℕ) : (c.delLast first p last).Weaker c ∧
    (c.delLast first p last).nil = c.nil ∧ (c.delLast first p last).nonil = c.nonil := by
  rw [delLast]
  split_ifs with hp
  · refine ⟨⟨rfl, rfl, id, fun hs => (Bool.and_eq_true _ _ ▸ hs).1,
      fun hs => (Bool.and_eq_true _ _ ▸ hs).1, fun hd => ?_⟩, rfl, rfl⟩
    dsimp only at hd
    split_ifs at hd
    exact hd
  · exact ⟨⟨rfl, rfl, id, id, id, id⟩, rfl, rfl⟩

/-- A replaced value gives a new sequence base only if it is the only one. -/
theorem replace_weaker (count : ℕ) (t : V) (h : c.type = .void ∨ first < p) :
    (c.replace first count p t).Weaker c := by
  refine ⟨rfl, ?_, fun hk h' => hk ?_, ?_, ?_, ?_⟩
  · rcases h with h | h <;> simp [replace, replaceKey, replaceRevorder, replaceOrder, replaceValue,
      put, hashdel, h]
  all_goals simp only [replace, replaceKey, replaceRevorder, replaceOrder, replaceValue, put,
    hashdel, Bool.and_eq_true]
  · rw [h', ite_self]
  · exact fun h => h.1
  · exact fun h => h.1
  · exact fun h => h.1.1

/-- The values before the last one after it has taken the place of a deleted one. -/
theorem delLast_value (ht : c.type ≠ .void) (first p : ℕ) {last : ℕ} (hq : q ≠ last) :
    (c.delLast first p last).value first q =
      if q = p then c.value first last else c.value first q := by
  have hty := (c.delLast_frame first p last).1
  rw [value_of_ne_void (hty ▸ ht), value_of_ne_void ht, value_of_ne_void ht]
  by_cases hp : p = last
  · have hheap : (c.delLast first p last).heap = (c.free p).heap := by
      rw [delLast, if_neg (not_not.mpr hp)]
      rfl
    have hqp : q ≠ p := hp ▸ hq
    rw [hheap, if_neg hqp, free_heap_of_ne hqp]
  · rw [← delLast_heap ht hp hq, delLast, if_pos hp]

theorem replace_value (ht : c.type ≠ .void) (first count p q : ℕ) (t : V) :
    (c.replace first count p t).value first q = if q = p then t else c.value first q := by
  have hty : (c.replace first count p t).type = c.type := rfl
  have hheap : (c.replace first count p t).heap = update c.heap p t := if_neg ht
  rw [value_of_ne_void (hty ▸ ht), value_of_ne_void ht, hheap, update_apply]

theorem setcolprops_frame (c : Col V) (first count : ℕ) (x : Option V) :
    (c.setcolprops first count x).type = c.type ∧ (c.setcolprops first count x).heap = c.heap ∧
      (c.setcolprops first count x).atomDel = c.atomDel ∧
      (c.setcolprops first count x).hash = c.hash := by
  unfold setcolprops
  by_cases hc : count = 0
  · simp only [if_pos hc]
    split <;> exact ⟨rfl, rfl, rfl, rfl⟩
  · simp only [if_neg hc]
    split
    · split <;> exact ⟨rfl, rfl, rfl, rfl⟩
    · exact ⟨rfl, rfl, rfl, rfl⟩

theorem materialize_of_voidDense (hv : c.voidDense) (count : ℕ) :
    ∃ s, c.type = .void ∧ c.seq = some s ∧ c.materialize count = { c with
      type := .oid, dense := true, hash := none
      heap := fun p => if p < count then ofOid (s + p) else c.heap p } := by
  obtain ⟨ht, hs⟩ := hv
  obtain ⟨s, hs⟩ := isSome_iff_exists.mp hs
  refine ⟨s, ht, hs, ?_⟩
  simp only [materialize, ht, hs]

/-- A dense `void` column that starts at position 0 keeps its values when it gets its oids. -/
theorem materialize_value (hv : c.voidDense) (hp : p < count) :
    (c.materialize count).value 0 p = c.value 0 p := by
  obtain ⟨s, ht, hs, hdef⟩ := materialize_of_voidDense hv count
  rw [hdef, value_void_some ht hs]
  exact if_pos hp

theorem materialize_live (hv : c.voidDense) (hf : first = 0 ∨ count = 0) :
    (c.materialize count).live first count = c.live first count := by
  rcases hf with rfl | rfl
  · exact slice_congr fun i _ hi => materialize_value hv (by omega)
  · rw [live_zero, live_zero]

section

variable (h : c.Sound (c.live first count))

include h

theorem flags_delFirst (hv : ¬ c.voidDense) (hc : 0 < count) (last : ℕ)
    (hnil : c.NilStays first count first) :
    (c.delFirst first first last).Sound
      ((c.delFirst first first last).live (first + 1) (count - 1)) := by
  rw [live, delFirst_value hv, show first + 1 + (count - 1) = first + count by omega]
  rw [live, slice_cons _ (by omega)] at h
  refine sound_delFirst h fun hn => ?_
  obtain ⟨q, h1, h2, h3, h4⟩ := hnil hn
  exact mem_slice.mpr ⟨q, by omega, h2, h4⟩

theorem flags_delSwap (hv : ¬ c.voidDense) (hp : first < p) (hp' : p < first + count) (last : ℕ)
    (hnil : c.NilStays first count p) :
    (c.delSwap first p last).Sound ((c.delSwap first p last).live (first + 1) (count - 1)) := by
  rw [delSwap_live hv hp hp']
  have hsplit : c.live first count = c.value first first ::
      (slice (c.value first) (first + 1) p ++ c.value first p ::
        slice (c.value first) (p + 1) (first + count)) := by
    rw [live, slice_cons _ (by omega), slice_split (p := p) (by omega) hp']
  refine sound_delSwap (x := c.value first p) h ?_ ?_ fun hn => ?_
  · rw [hsplit]
    refine (List.Perm.cons _ perm_middle).trans ?_
    refine (List.Perm.swap _ _ _).trans (List.Perm.cons _ ?_)
    exact perm_middle.symm
  · exact (type_or_seq hv).imp_right And.right
  · obtain ⟨q, h1, h2, h3, h4⟩ := hnil hn
    rw [mem_append, mem_cons, mem_slice, mem_slice]
    rcases lt_trichotomy q p with hq | hq | hq
    · by_cases hf : q = first
      · exact .inr (.inl (hf ▸ h4.symm))
      · exact .inl ⟨q, by omega, hq, h4⟩
    · exact absurd hq h3
    · exact .inr (.inr ⟨q, by omega, h2, h4⟩)

theorem flags_delLast_void (ht : c.type = .void) (hp : first ≤ p) (hp' : p < first + count)
    (last : ℕ) (hnil : c.NilStays first count p) :
    (c.delLast first p last).Sound ((c.delLast first p last).live first (count - 1)) := by
  obtain ⟨hty, hseq⟩ := c.delLast_frame first p last
  have hval : (c.delLast first p last).value first = c.value first :=
    value_congr hty (fun _ => hseq) (fun hv => absurd ht hv) first
  obtain ⟨n, rfl⟩ := Nat.exists_eq_succ_of_ne_zero (show count ≠ 0 by omega)
  have hlive : (c.delLast first p last).live first (n + 1 - 1) = c.live first n := by
    rw [live, hval]
    rfl
  have hbot : c.nil = true → ⊥ ∈ c.live first n := by
    intro hn
    rcases hs : c.seq with _ | s
    · -- there is another value, and all values are nil
      obtain ⟨q, h1, h2, h3, -⟩ := hnil hn
      rw [live_void_none ht hs, mem_replicate]
      exact ⟨by omega, rfl⟩
    · rw [h.void_some ht hs] at hn
      exact absurd hn Bool.false_ne_true
  rw [hlive]
  rw [live_succ] at h
  obtain ⟨hw, hn, hnn⟩ := c.delLast_weaker first p last
  exact (h.dropLast hbot).weaken hw (fun h' => hn ▸ h') (fun h' => hnn ▸ h')

theorem flags_delLast (hp : first ≤ p) (hp' : p < first + count) (hnil : c.NilStays first count p) :
    (c.delLast first p (first + count - 1)).Sound
      ((c.delLast first p (first + count - 1)).live first (count - 1)) := by
  by_cases ht : c.type = .void
  · exact flags_delLast_void h ht hp hp' _ hnil
  obtain ⟨n, rfl⟩ := Nat.exists_eq_succ_of_ne_zero (show count ≠ 0 by omega)
  rw [Nat.succ_eq_add_one, Nat.add_sub_cancel, show first + (n + 1) - 1 = first + n by omega]
  rw [live_succ] at h
  have hmem : ∀ q, first ≤ q → q < first + (n + 1) → q ≠ first + n → q < first + n := by omega
  by_cases hl : p = first + n
  -- the last value itself is deleted
  · subst hl
    have hlive : (c.delLast first (first + n) (first + n)).live first n = c.live first n :=
      slice_congr fun i _ hi => by rw [delLast_value ht _ _ hi.ne, if_neg hi.ne]
    rw [hlive]
    refine sound_delLast_last h fun hn => ?_
    obtain ⟨q, h1, h2, h3, h4⟩ := hnil hn
    exact mem_slice.mpr ⟨q, h1, hmem q h1 h2 h3, h4⟩
  -- the last value takes the place of the deleted one
  · have hpn : p < first + n := by omega
    have hlive : (c.delLast first p (first + n)).live first n =
        slice (c.value first) first p ++ c.value first (first + n) ::
          slice (c.value first) (p + 1) (first + n) := by
      rw [live, slice_of_eq_off (f := c.value first) (p := p) hp hpn fun i _ h2 h3 => ?_]
      · rw [delLast_value ht _ _ hl, if_pos rfl]
      · rw [delLast_value ht _ _ h2.ne, if_neg h3]
    have hsplit : c.live first n ++ [c.value first (first + n)] =
        slice (c.value first) first p ++ c.value first p ::
          (slice (c.value first) (p + 1) (first + n) ++ [c.value first (first + n)]) := by
      rw [live, slice_split (p := p) hp hpn, append_assoc, cons_append]
    rw [hlive]
    rw [hsplit] at h
    refine sound_delLast_swap ht hl h (value_of_ne_void ht _ _).symm (fun y b' hb => ?_)
      fun hn => ?_
    · by_cases hlt : p + 1 < first + n
      · rw [slice_cons _ hlt] at hb
        exact ⟨hlt, (value_of_ne_void ht first _).symm.trans (cons.inj hb).1⟩
      · rw [slice_eq_nil _ (by omega)] at hb
        exact absurd hb (cons_ne_nil _ _).symm
    · obtain ⟨q, h1, h2, h3, h4⟩ := hnil hn
      rw [mem_append, mem_cons, mem_slice, mem_slice]
      rcases lt_trichotomy q p with hq | hq | hq
      · exact .inl ⟨q, h1, hq, h4⟩
      · exact absurd hq h3
      · by_cases hqn : q = first + n
        · exact .inr (.inl (hqn ▸ h4.symm))
        · exact .inr (.inr ⟨q, by omega, by omega, h4⟩)

theorem flags_replace_void (ht : c.type = .void) (p : ℕ) (t : V) :
    (c.replace first count p t).Sound ((c.replace first count p t).live first count) := by
  have hw : (c.replace first count p t).Weaker c := replace_weaker count t (.inl ht)
  have hval : (c.replace first count p t).live first count = c.live first count := by
    rw [live, value_congr hw.type (fun _ => hw.seq) (fun hv => absurd ht hv)]
    rfl
  rw [hval]
  exact h.weaken hw (fun hn => (Bool.and_eq_true _ _ ▸ hn).1)
    fun hn => (Bool.and_eq_true _ _ ▸ hn).1

theorem flags_replace (hp : first ≤ p) (hp' : p < first + count)
    (hkey : c.type ≠ .void → c.key = .bound →
      ∀ q, first ≤ q → q < first + count → q ≠ p → c.value first q ≠ t) :
    (c.replace first count p t).Sound ((c.replace first count p t).live first count) := by
  by_cases ht : c.type = .void
  · exact flags_replace_void h ht p t
  have hlive : (c.replace first count p t).live first count =
      slice (c.value first) first p ++ t :: slice (c.value first) (p + 1) (first + count) := by
    rw [live, slice_of_eq_off (f := c.value first) (p := p) hp hp' fun i _ _ h3 => ?_]
    · rw [replace_value ht, if_pos rfl]
    · rw [replace_value ht, if_neg h3]
  rw [hlive]
  rw [live, slice_split (p := p) hp hp'] at h
  refine sound_replace ht h ⟨(value_of_ne_void ht _ _).symm, fun a' y ha => ?_, fun y b' hb => ?_,
    fun ha => ?_, fun hb => ?_⟩ ?_ fun hk hm => ?_
  -- the source looks at the value before `p` if there is one
  · have hlt : first < p := by
      by_contra hle
      rw [slice_eq_nil _ (by omega)] at ha
      exact absurd ha.symm (append_ne_nil_of_right_ne_nil _ (cons_ne_nil _ _))
    have hsnoc : slice (c.value first) first (p - 1 + 1) =
        slice (c.value first) first (p - 1) ++ [c.value first (p - 1)] := slice_snoc _ (by omega)
    rw [Nat.sub_add_cancel (by omega), ha] at hsnoc
    have hy := (cons.inj (append_inj' hsnoc rfl).2).1
    exact ⟨hlt, hy ▸ (value_of_ne_void ht _ _).symm⟩
  -- and at the value behind it
  · have hlt : p + 1 < first + count := by
      by_contra hle
      rw [slice_eq_nil _ (by omega)] at hb
      exact absurd hb.symm (cons_ne_nil _ _)
    rw [slice_cons _ hlt] at hb
    exact ⟨by omega, (cons.inj hb).1 ▸ (value_of_ne_void ht _ _).symm⟩
  · have := slice_eq_nil_iff.mp ha
    omega
  · have := slice_eq_nil_iff.mp hb
    omega
  · rw [length_slice, length_slice]
    omega
  -- a key column must not hold the new value anywhere else
  · rw [mem_append, mem_slice, mem_slice] at hm
    rcases hm with ⟨q, h1, h2, h3⟩ | ⟨q, h1, h2, h3⟩
    · exact hkey ht hk q h1 (by omega) (by omega) h3
    · exact hkey ht hk q (by omega) h2 (by omega) h3

/-- Adding a value adjusts the flags and stores the value; what happens to the index does not
matter here. -/
theorem flags_add {x : Option V} (hx : x = none → c.type = .void)
    (hkey : c.key = .bound → ∀ y, x = some y → y ∉ c.live first count) (hash : Option Hash) :
    let c' := { (c.setcolprops first count x).put (first + count) (x.getD ⊥) with hash := hash }
    c'.Sound (c'.live first (count + 1)) := by
  intro c'
  obtain ⟨hty, hheap, -, -⟩ := c.setcolprops_frame first count x
  by_cases ht : c.type = .void
  · have hval : c'.value first = (c.setcolprops first count x).value first := by
      apply value_congr
      · rfl
      · exact fun _ => rfl
      · exact fun hv => absurd (hty.trans ht) hv
    have hs := sound_setcolprops_void h ht x
    rw [live, ← hval] at hs
    exact hs.frame _ _
  · rcases x with _ | y
    · exact absurd (hx rfl) ht
    have hty' : c'.type ≠ .void := fun h' => ht (hty.symm.trans h')
    have hheap' : c'.heap = update c.heap (first + count) y := by
      rw [← hheap]
      exact if_neg hty'
    have hlive : c'.live first (count + 1) = c.live first count ++ [y] := by
      rw [live_succ, value_of_ne_void hty', hheap', update_self]
      congr 1
      refine slice_congr fun i _ hi => ?_
      rw [value_of_ne_void hty', value_of_ne_void ht, hheap', update_of_ne hi.ne]
    rw [hlive]
    exact (sound_setcolprops h ht fun hk => hkey hk y rfl).frame _ _

theorem flags_materialize (hv : c.voidDense) (hf : first = 0 ∨ count = 0) :
    (c.materialize count).Sound ((c.materialize count).live first count) := by
  rw [materialize_live hv hf]
  obtain ⟨s, ht, hs, hdef⟩ := materialize_of_voidDense hv count
  rw [hdef]
  refine ⟨h.sorted, h.revsorted, h.key, fun s' _ hs' => ?_, fun _ => .inr rfl, h.nil, h.nonil⟩
  exact h.dense s' (by simp [isDense, isVoid, ht, hs]) hs'

end

theorem flags_seed (h : c.Sound (c.live first 0)) (ht : c.type = .void) (seq : Option ℕ) :
    { c with seq := seq }.Sound ({ c with seq := seq }.live first 0) := by
  rw [live_zero] at h ⊢
  refine ⟨h.sorted, h.revsorted, h.key, fun s _ _ => ?_, fun _ => .inl ht, h.nil, h.nonil⟩
  exact (slice_eq_nil _ (le_refl s)).symm

omit [OidAtom V] in
theorem COLsettrivprop_frame (c : Col V) : c.COLsettrivprop.type = c.type ∧
    (c.COLsettrivprop.dense = true → c.dense = true ∨ c.type = .void) ∧
    (c.COLsettrivprop.nil = true → c.nil = true ∧ c.type = .void) ∧
    c.COLsettrivprop.hash = c.hash := by
  rcases hty : c.type with _ | _ | lin
  · rcases hs : c.seq with _ | s
    · simp [COLsettrivprop, hty, hs, ColType.linear]
    · simp [COLsettrivprop, hty, hs, ColType.linear]
  · simp [COLsettrivprop, hty, ColType.linear]
  · cases lin <;> simp [COLsettrivprop, hty, ColType.linear]

/-- **The flags of a column without values are true**, unless it is a `void` column that is said
to have nils. -/
theorem flags_settrivprop (hd : c.dense = true → c.type = .void ∨ c.type = .oid)
    (hnil : c.type = .void → c.nil = false) (first : ℕ) :
    c.COLsettrivprop.Sound (c.COLsettrivprop.live first 0) := by
  obtain ⟨h1, h2, h3, -⟩ := c.COLsettrivprop_frame
  rw [live_zero]
  refine ⟨fun _ => .nil, fun _ => .nil, fun _ => .nil, fun s _ _ => ?_, fun hd' => ?_, fun hn => ?_,
    fun _ => not_mem_nil⟩
  · exact (slice_eq_nil _ (le_refl s)).symm
  · rw [h1]
    exact (h2 hd').elim hd .inl
  · obtain ⟨hn', ht⟩ := h3 hn
    rw [hnil ht] at hn'
    exact absurd hn' Bool.false_ne_true

end Col

/-! ## BATs -/

namespace Bat

variable {b b' : Bat V} {p : ℕ} {t : V} {force : Bool} {e : Change V}
  {c : Col V} (n : ℕ)

/-- The property flags of both columns are true. -/
def FlagsTrue (b : Bat V) : Prop :=
  b.H.Sound (b.H.live b.first b.count) ∧ b.T.Sound (b.T.live b.first b.count)

/-- Values that may be added: neither column that is kept unique holds its value yet, except that
the head may be the next oid. -/
def Fresh (b : Bat V) (h : Option V) (t : V) : Prop :=
  (b.H.key = .bound → ∀ x, h = some x → x = b.nextOid ∨ ∀ p, b.Live p → b.head p ≠ x) ∧
    (b.T.key = .bound → ∀ p, b.Live p → b.tail p ≠ t)

/-- **When a change keeps the flags true.**
* Oids are written out from position 0 on, so the column must start there.
* The flag `nil` is not looked at by a deletion, so that a nil must stay if it is set.
* A column that is kept unique must not be given a value it already has.
* When all BUNs are deleted at once, `nil` stays set on a `void` column of nils. -/
def KeepsFlags (b : Bat V) : Change V → Prop
  | .materialize => b.first = 0 ∨ b.count = 0
  | .delete p _ => b.H.NilStays b.first b.count p ∧ b.T.NilStays b.first b.count p
  | .replace p t => b.T.type ≠ .void → b.T.key = .bound → ∀ q, b.Live q → q ≠ p → b.tail q ≠ t
  | .clear _ => (b.H.type = .void → b.H.seq = none → b.H.nil = false) ∧
      (b.T.type = .void → b.T.seq = none → b.T.nil = false)
  | _ => True

/-- The condition together with what the search before an insertion makes sure of. -/
def KeepsFlagsChecked (b : Bat V) : Change V → Prop
  | .add h t => b.Fresh h t
  | e => b.KeepsFlags e

/-! ### One change

Both columns are changed together, so that the lemmas about columns are used twice. -/

omit [OidAtom V] in
theorem freeAll_frame (c : Col V) (p n : ℕ) : ∃ heap, freeAll c p n = { c with heap := heap } := by
  unfold freeAll
  induction n generalizing c p with
  | zero => exact ⟨c.heap, rfl⟩
  | succ n ih =>
    obtain ⟨heap, hh⟩ := ih (c.free p) (p + 1)
    exact ⟨heap, hh⟩

theorem le_foldl_max (f : ℕ → ℕ) (l : List ℕ) (o : ℕ) : o ≤ l.foldl (fun o p => max o (f p)) o ∧
      ∀ p ∈ l, f p ≤ l.foldl (fun o p => max o (f p)) o := by
  induction l generalizing o with
  | nil => simp
  | cons p l ih =>
    obtain ⟨h1, h2⟩ := ih (max o (f p))
    refine ⟨(le_max_left _ _).trans h1, fun q hq => ?_⟩
    rcases mem_cons.mp hq with rfl | hq
    · exact (le_max_right _ _).trans h1
    · exact h2 q hq

theorem pairwise_of_ordered {first count : ℕ} (h : c.Sound (c.live first count))
    (ho : c.ordered = true) : (c.live first count).Pairwise (· ≤ ·) := by
  rcases Bool.or_eq_true _ _ ▸ ho with ht | hs
  · rw [beq_iff_eq] at ht
    rcases hs : c.seq with _ | s
    · rw [live_void_none ht hs]
      exact pairwise_replicate.mpr (.inr le_rfl)
    · rw [live_void_some ht hs]
      exact (pairwise_oids s _).imp le_of_lt
  · exact h.sorted hs

theorem lt_ofOid_succ (w : V) : w < ofOid (oidNumber w + 1) := by
  unfold oidNumber
  rcases hw : toOid w with _ | m
  · exact lt_ofOid w _ hw
  · rw [← ofOid_toOid w m hw]
    exact ofOid_lt m _ (Nat.lt_add_one m)

section

variable (hb : b.FlagsTrue)

include hb

theorem flagsTrue_BUNdelete_ (hp : b.Live p)
    (hv : p < b.inserted → force = false → ¬ b.H.voidDense ∧ ¬ b.T.voidDense)
    (hk : b.KeepsFlags (.delete p force)) : (b.BUNdelete_ p force).1.FlagsTrue := by
  obtain ⟨hp1, hp2⟩ := hp
  obtain ⟨hH, hT⟩ := hb
  obtain ⟨hnH, hnT⟩ := hk
  unfold BUNdelete_
  split_ifs with hc hf
  · obtain ⟨hvH, hvT⟩ := hv (by simp_all) (by simp_all)
    subst hf
    have hpos : 0 < b.count := by
      unfold last at hp2
      omega
    exact ⟨flags_delFirst hH hvH hpos _ hnH, flags_delFirst hT hvT hpos _ hnT⟩
  · obtain ⟨hvH, hvT⟩ := hv (by simp_all) (by simp_all)
    have hlt : b.first < p := lt_of_le_of_ne hp1 (Ne.symm hf)
    exact ⟨flags_delSwap hH hvH hlt hp2 _ hnH, flags_delSwap hT hvT hlt hp2 _ hnT⟩
  · exact ⟨flags_delLast hH hp1 hp2 hnH, flags_delLast hT hp1 hp2 hnT⟩

/-- The next oid is a new one, if the flag for the order of the heads is true. -/
theorem nextOid_notMem : b.nextOid ∉ b.H.live b.first b.count := by
  intro hm
  obtain ⟨q, h1, h2, h3⟩ := mem_slice.mp hm
  obtain ⟨n, hn⟩ : ∃ n, b.count = n + 1 := Nat.exists_eq_succ_of_ne_zero (by omega)
  have hnext : b.nextOid = ofOid (b.MAXoid + 1) := by
    rw [nextOid, if_neg (by omega)]
  rw [hnext] at hm h3
  by_cases ho : b.H.ordered = true
  · -- the last head is the largest one
    have hmax : b.MAXoid = oidNumber (b.head (b.last - 1)) := by
      simp [MAXoid, ho]
    have hsorted := pairwise_of_ordered hb.1 ho
    have hlast : b.last - 1 = b.first + n := by
      unfold last
      omega
    rw [hn, live_succ] at hsorted hm
    have hlt := lt_ofOid_succ (b.head (b.last - 1))
    rw [← hmax, hlast] at hlt
    rcases mem_append.mp hm with hm | hm
    · have := (pairwise_append.mp hsorted).2.2 _ hm _ (mem_singleton_self _)
      exact absurd hlt (not_lt.mpr this)
    · exact hlt.ne' (mem_singleton.mp hm)
  · have hle := (le_foldl_max (fun p => oidNumber (b.head p)) (range' b.first b.count)
      (oidNumber (b.head (b.last - 1)))).2 q (mem_range'_1.mpr ⟨h1, h2⟩)
    have hmax : b.MAXoid = (range' b.first b.count).foldl
        (fun o p => max o (oidNumber (b.head p))) (oidNumber (b.head (b.last - 1))) := by
      simp [MAXoid, ho]
    rw [head, h3, oidNumber, toOid_ofOid, getD_some] at hle
    omega

theorem flagsTrue_addLast {h : Option V} (hh : h = none → b.H.type = .void) (hf : b.Fresh h t)
    (ha : b.addLast h t = .ok b') : b'.FlagsTrue := by
  obtain ⟨hH, hT, cap, rfl⟩ := addLast_spec ha
  constructor
  · apply flags_add hb.1 hh
    intro hk y hy hm
    rcases hf.1 hk y hy with rfl | hne
    · exact nextOid_notMem hb hm
    · obtain ⟨q, h1, h2, h3⟩ := mem_slice.mp hm
      exact hne q ⟨h1, h2⟩ h3
  · apply flags_add (x := some t) hb.2 (by simp)
    rintro hk y hy hm
    obtain rfl := some.inj hy
    obtain ⟨q, h1, h2, h3⟩ := mem_slice.mp hm
    exact hf.2 hk q ⟨h1, h2⟩ h3

theorem flagsTrue_clearAll (hk : b.KeepsFlags (.clear force)) : (b.clearAll force).FlagsTrue := by
  have hcol : ∀ (c : Col V) (p n first : ℕ), c.Sound (c.live b.first b.count) →
      (c.type = .void → c.seq = none → c.nil = false) →
      (freeAll { c with hash := none } p n).COLsettrivprop.Sound
        ((freeAll { c with hash := none } p n).COLsettrivprop.live first 0) := by
    intro c p n first hc hn
    obtain ⟨heap, hh⟩ := freeAll_frame { c with hash := none } p n
    rw [hh]
    apply flags_settrivprop
    · exact hc.dense_oid
    · intro ht
      rcases hs : c.seq with _ | s
      · exact hn ht hs
      · exact hc.void_some ht hs
  cases force
  · exact ⟨hcol _ _ _ _ hb.1 hk.1, hcol _ _ _ _ hb.2 hk.2⟩
  · exact ⟨hcol _ _ _ _ hb.1 hk.1, hcol _ _ _ _ hb.2 hk.2⟩

/-- **One change keeps the flags true.** -/
theorem flagsTrue_change (hk : b.KeepsFlagsChecked e) (he : b.Changes e b') : b'.FlagsTrue := by
  cases e with
  | mirror =>
    obtain rfl := he
    exact ⟨hb.2, hb.1⟩
  | materialize =>
    obtain ⟨hv, rfl⟩ := he
    rw [BATmaterializeh, if_pos hv]
    exact ⟨(flags_materialize hb.1 hv hk).frame _ _, hb.2.frame _ _⟩
  | seed x =>
    obtain ⟨hv, hc, -, rfl⟩ := he
    obtain ⟨hH, hT⟩ := hb
    rw [hc] at hH
    refine ⟨?_, hT⟩
    rw [hc]
    exact flags_seed hH hv.1 _
  | delete p force =>
    obtain ⟨hp, hv, rfl⟩ := he
    exact flagsTrue_BUNdelete_ hb hp hv hk
  | replace p t =>
    obtain ⟨hp, rfl⟩ := he
    refine ⟨hb.1, flags_replace hb.2 hp.1 hp.2 fun ht hk' q h1 h2 h3 => ?_⟩
    exact hk ht hk' q ⟨h1, h2⟩ h3
  | add h t =>
    obtain ⟨hh, -, -, he⟩ := he
    exact flagsTrue_addLast hb hh hk he
  | clear force =>
    obtain ⟨-, rfl⟩ := he
    exact flagsTrue_clearAll hb hk

end

/-! ### The search before an insertion

An insertion searches a column that is kept unique before it adds a value, so that no condition on
the value is needed. -/

/-- A property of the added BUNs in a list of changes. -/
def AddsFresh (l : List (Bat V × Change V)) : Prop := ∀ b h t, (b, Change.add h t) ∈ l → b.Fresh h t

theorem addsFresh_append {l l' : List (Bat V × Change V)} (h : AddsFresh l) (h' : AddsFresh l') :
    AddsFresh (l ++ l') := by
  intro b x t hm
  exact (mem_append.mp hm).elim (h b x t) (h' b x t)

theorem addsFresh_nil : AddsFresh ([] : List (Bat V × Change V)) :=
  fun _ _ _ hm => absurd hm not_mem_nil

theorem addsFresh_singleton (b : Bat V) (he : ∀ h t, e ≠ .add h t) : AddsFresh [(b, e)] := by
  intro b' h t hm
  simp only [mem_singleton, Prod.mk.injEq] at hm
  exact absurd hm.2.symm (he h t)

theorem addsFresh_voidChanges (b : Bat V) (x : V) : AddsFresh (b.voidChanges x) := by
  intro b' h t hm
  unfold voidChanges at hm
  split at hm
  · split_ifs at hm <;> simp at hm
  · simp at hm

theorem addsFresh_mirrored {l : List (Bat V × Change V)} (h : AddsFresh l) (b b' : Bat V) :
    AddsFresh (mirrored b l b') := by
  intro b₁ x t hm
  simp only [mirrored, mem_cons, Prod.mk.injEq, reduceCtorEq, and_false,
    false_or, mem_append, not_mem_nil, or_false] at hm
  exact h b₁ x t hm

theorem addsFresh_deleteChanges (b : Bat V) (p : ℕ) (force : Bool) :
    AddsFresh (b.deleteChanges p force) := by
  have hhead : ∀ b : Bat V,
      AddsFresh (if b.H.voidDense then [(b, Change.materialize)] else []) := by
    intro b
    split_ifs
    · exact addsFresh_singleton b nofun
    · exact addsFresh_nil
  have hdel : ∀ b : Bat V, AddsFresh [(b, Change.delete p force)] :=
    fun b => addsFresh_singleton b nofun
  unfold deleteChanges
  split_ifs
  · exact addsFresh_append (addsFresh_append (hhead b) (addsFresh_mirrored (hhead _) _ _)) (hdel _)
  · exact hdel b

theorem ne_of_fndBound_eq_none {v : V} (hf : c.fndBound b.first b.count v = none)
    (hk : c.key = .bound) (hp : b.Live p) : c.value b.first p ≠ v := by
  rw [fndBound, if_pos hk, Col.BUNfnd, find?_eq_none] at hf
  have := hf p (mem_range'_1.mpr hp)
  simpa using this

theorem addsFresh_insChanges (b : Bat V) (h t : V) (force : Bool) :
    AddsFresh (insChanges n b h t force) := by
  induction n generalizing b h t with
  | zero => exact addsFresh_nil
  | succ n ih =>
    refine addsFresh_append (addsFresh_append (addsFresh_voidChanges b h)
      (addsFresh_mirrored (addsFresh_voidChanges _ t) _ _)) ?_
    generalize (b.voidMaterializeh h).voidMaterializet t = b₁
    split_ifs with hset
    · exact addsFresh_nil
    rcases hfh : b₁.H.fndBound b₁.first b₁.count h with _ | p
    · rcases hft : b₁.T.fndBound b₁.first b₁.count t with _ | p
      · intro b' x t' hm
        simp only [mem_singleton] at hm
        obtain ⟨rfl, rfl, rfl⟩ := hm
        refine ⟨fun hk x hx => .inr fun p hp => ?_, fun hk p hp => ?_⟩
        · obtain rfl := some.inj hx
          exact ne_of_fndBound_eq_none hfh hk hp
        · exact ne_of_fndBound_eq_none hft hk hp
      · dsimp only
        split_ifs
        · exact addsFresh_mirrored (addsFresh_singleton _ nofun) _ _
        · refine addsFresh_append (addsFresh_append ?_ (ih _ _ _)) ?_
          · intro b' x t' hm
            exact addsFresh_deleteChanges _ _ _ b' x t' (by simpa using hm)
          · intro b' x t' hm
            unfold mirrorResult at hm
            split at hm <;> simp at hm
    · dsimp only
      split_ifs
      · exact addsFresh_singleton _ nofun
      · exact addsFresh_append (addsFresh_deleteChanges _ _ _) (ih _ _ _)

/-- The heads after `void_materialize`, which does not change their values. -/
theorem voidMaterializeh_head {x : V} (hk : ∀ y ∈ b.voidChanges x, KeepsFlags y.1 y.2) :
    (b.voidMaterializeh x).H.key = b.H.key ∧
      ∀ p, b.Live p → (b.voidMaterializeh x).head p = b.head p := by
  rcases b.voidMaterializeh_cases x with ⟨-, h1, -⟩ | ⟨hv, h1, h2⟩ | ⟨-, hc, -, h1, -⟩
  · rw [h1]
    exact ⟨rfl, fun _ _ => rfl⟩
  · have hf : b.first = 0 ∨ b.count = 0 := hk (b, .materialize) (by rw [h2]; simp)
    rw [h1, BATmaterializeh, if_pos hv]
    constructor
    · obtain ⟨s, -, -, hdef⟩ := materialize_of_voidDense hv b.count
      simp only [HASHdestroy, hdef]
    · intro p hp
      unfold Live last at hp
      have hf : b.first = 0 := hf.resolve_right (by omega)
      have hval : (b.H.materialize b.count).value 0 p = b.H.value 0 p :=
        materialize_value hv (by omega)
      rw [← hf] at hval
      exact hval
  · rw [h1]
    refine ⟨rfl, fun p hp => ?_⟩
    unfold Live last at hp
    omega

theorem voidMaterializeh_nextOid (b : Bat V) (x : V) :
    (b.mirror.voidMaterializeh x).mirror.nextOid = b.nextOid := by
  rcases b.mirror.voidMaterializeh_cases x with ⟨-, h, -⟩ | ⟨hv, h, -⟩ | ⟨-, -, -, h, -⟩
  · rw [h]
    rfl
  · rw [h, BATmaterializeh, if_pos hv]
    rfl
  · rw [h]
    rfl

theorem addsFresh_appendChanges (hk : ∀ x ∈ b.appendChanges t, KeepsFlags x.1 x.2) :
    AddsFresh (b.appendChanges t) := by
  unfold appendChanges at hk ⊢
  by_cases hf : (b.T.fndBound b.first b.count t).isSome = true
  · rw [if_pos hf]
    exact addsFresh_nil
  rw [if_neg hf] at hk ⊢
  obtain ⟨hkey, htail⟩ := voidMaterializeh_head (b := b.mirror) (x := t) fun y hy => hk y (by
    simp [mirrored, hy])
  obtain ⟨h1, h2, -⟩ := b.mirror.voidMaterializeh_frame t
  refine addsFresh_append (addsFresh_mirrored (addsFresh_voidChanges _ t) _ _) ?_
  rintro b' x t' hm
  simp only [mem_singleton, Prod.mk.injEq, Change.add.injEq] at hm
  obtain ⟨rfl, rfl, ht'⟩ := hm
  refine ⟨fun _ y hy => .inl ?_, fun hk' p hp => ?_⟩
  · -- the head is the next oid, which does not depend on the tails
    split_ifs at hy
    exact (some.inj hy).symm.trans (b.voidMaterializeh_nextOid t).symm
  · have hp' : b.mirror.Live p := by
      unfold Live last at hp ⊢
      rwa [← h1, ← h2]
    have hne := ne_of_fndBound_eq_none (not_isSome_iff_eq_none.mp hf) (hkey.symm.trans hk') hp'
    rw [ht']
    exact fun h' => hne ((htail p hp').symm.trans h')

theorem addsFresh_loopChanges (b : Bat V) (p q : ℕ) : AddsFresh (loopChanges n b p q) := by
  induction n generalizing b p q with
  | zero => exact addsFresh_nil
  | succ n ih =>
    rw [loopChanges]
    split_ifs
    · exact addsFresh_append (addsFresh_deleteChanges b p false) (ih _ _ _)
    · exact addsFresh_nil

theorem addsFresh_changes {u : Update V} (hk : ∀ x ∈ b.changes u, KeepsFlags x.1 x.2) :
    AddsFresh (b.changes u) := by
  cases u with
  | ins h t force => exact addsFresh_insChanges _ b h t force
  | append t => exact addsFresh_appendChanges hk
  | delete p force => exact addsFresh_deleteChanges b p force
  | inplace p h t force =>
    rw [changes, inplaceChanges]
    split_ifs
    · exact addsFresh_singleton _ nofun
    · exact addsFresh_append (addsFresh_deleteChanges b p force)
        (addsFresh_insChanges _ _ h t force)
  | clear force =>
    rw [changes]
    split_ifs
    · exact addsFresh_loopChanges _ b _ _
    · exact addsFresh_singleton _ nofun

/-! ### Sequences of updates -/

/-- Every change that an update makes keeps the flags true. -/
def StepKeepsFlags (b : Bat V) (u : Update V) : Prop := ∀ x ∈ b.changes u, KeepsFlags x.1 x.2

/-- **The flags are true after every sequence of updates** whose changes meet the condition. -/
theorem flagsTrue_of_reaches
    (hr : Reaches (fun b u b' => b.apply u = .ok b') StepKeepsFlags b b') (hb : b.FlagsTrue) :
    b'.FlagsTrue := by
  have hchange : ∀ (b : Bat V) (e : Change V) (b' : Bat V),
      b.FlagsTrue → b.KeepsFlagsChecked e → b.Changes e b' → b'.FlagsTrue :=
    fun _ _ _ => flagsTrue_change
  have hstep : ∀ (b : Bat V) (u : Update V) (b' : Bat V),
      b.FlagsTrue → b.StepKeepsFlags u → b.apply u = .ok b' → b'.FlagsTrue := by
    intro b u b' hb hk hu
    refine (trace_apply hu).invariant hchange ?_ hb
    rintro ⟨b₁, e⟩ hm
    cases e with
    | add h t => exact addsFresh_changes hk b₁ h t hm
    | _ => exact hk _ hm
  exact hr.invariant hstep hb

/-- The oids 5 and nil, which have not been committed, with a `void` head. -/
def fiveNil : Bat OidVal where
  H := ⟨.void, some 0, true, false, .yes, true, false, true, fun _ => ⊥, none, none⟩
  T := ⟨.oid, none, false, false, .no, false, true, false, fun p => if p = 0 then ofOid 5 else ⊥,
    none, none⟩
  deleted := 0
  first := 0
  inserted := 0
  count := 2
  capacity := 256
  set := false

theorem flagsTrue_fiveNil : fiveNil.FlagsTrue := by
  constructor
  · exact sound_void_some rfl rfl 0 (by decide) rfl
  · refine ⟨by decide, by decide, by decide, fun s hd => ?_, by decide, fun _ => ?_, by decide⟩
    · exact absurd hd (by decide)
    · exact mem_slice.mpr ⟨1, by decide, by decide, rfl⟩

/-- A run that deletes the value 5: the nil is still there, and so is the flag. -/
theorem flagsTrue_delete_five : ∃ b', fiveNil.apply (.delete 0 false) = .ok b' ∧
    b'.T.nil = true ∧ b'.FlagsTrue := by
  have hrun : fiveNil.apply (.delete 0 false) = .ok (fiveNil.BUNdelete 0 false).1 := rfl
  refine ⟨_, hrun, rfl, flagsTrue_of_reaches (.tail .refl ?_ hrun) flagsTrue_fiveNil⟩
  have hchanges : fiveNil.changes (.delete 0 false) =
      [(fiveNil, .materialize), (fiveNil.BATmaterializeh, .mirror),
        (fiveNil.BATmaterializeh.mirror, .mirror), (fiveNil.BATmaterialize, .delete 0 false)] := rfl
  intro x hx
  rw [hchanges] at hx
  simp only [mem_cons, not_mem_nil, or_false] at hx
  rcases hx with rfl | rfl | rfl | rfl
  · exact .inl rfl
  · trivial
  · trivial
  · exact ⟨fun hn => absurd hn (by decide), fun _ => ⟨1, by decide, by decide, by decide, rfl⟩⟩

/-- **The last nil is deleted and the flag stays**: what is left is the value 5. -/
theorem BUNdelete_leaves_nil : fiveNil.FlagsTrue ∧ ∃ b', fiveNil.apply (.delete 1 false) = .ok b' ∧
    b'.T.live b'.first b'.count = [ofOid 5] ∧ b'.T.nil = true ∧ ¬ b'.FlagsTrue := by
  refine ⟨flagsTrue_fiveNil, _, rfl, rfl, rfl, fun h => ?_⟩
  have hmem : (⊥ : OidVal) ∈ [(ofOid 5 : OidVal)] := h.2.nil rfl
  exact (bot_lt_ofOid 5).ne (mem_singleton.mp hmem)

end Bat

end MonetInR.Gdk
