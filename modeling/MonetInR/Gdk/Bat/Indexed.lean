import MonetInR.Gdk.Bat.Properties

/-!
# Hash indexes under updates

Every update patches the hash indexes of a BAT.  The indexed positions must be the live ones, each
in the chain of the bucket that its current value selects.

## Main definitions

* `Col.Tracked`: the index of a column, if there is one, holds the positions of a set, each in the
  chain of its value's bucket
* `Bat.HashesTrue`: the indexes of both columns hold the live positions
* `Bat.KeepsHashes`: the condition under which a change keeps them so

## Main results

* `hashValid_of_reaches`: the indexes are right after every sequence of updates, index
  constructions, commits and undos that meet the condition
* `BUNdelete_loops_chain`: deleting a value that is freed before it is looked up makes a chain
  cyclic
-/

namespace MonetInR.Gdk

open IntervalSearch OidAtom Runs LinkArray Function Col

variable {V : Type*} [OidAtom V] {hash : Option Hash}

/-! ## Columns

An update of a column patches its index or drops it.  The lemmas follow the steps of an update, each
with the set of positions that the index holds after it. -/

namespace Col

variable {c c' : Col V} {first count p q i : ℕ} {S S' : ℕ → Prop} {v : V} (next : Bool) (n : ℕ)

/-- The index of the column, if there is one, holds the positions in `S`. -/
def Tracked (c : Col V) (first : ℕ) (S : ℕ → Prop) : Prop :=
  ∀ h, c.hash = some h → h.Tracks S fun i => HASHprobe h (c.value first i)

theorem Tracked.congr {first' : ℕ} (ht : c.Tracked first S) (hh : c'.hash = c.hash)
    (hS : ∀ i, S i ↔ S' i) (hv : ∀ i, S i → c'.value first' i = c.value first i) :
    c'.Tracked first' S' := by
  intro h hc
  refine (ht h (hh ▸ hc)).congr hS fun i hi => ?_
  rw [hv i hi]

theorem tracked_none (hh : c.hash = none) (first : ℕ) (S : ℕ → Prop) : c.Tracked first S := by
  intro h hc
  rw [hh] at hc
  exact absurd hc nofun

theorem HASHprobe_congr {h h' : Hash} (hm : h.mask = h'.mask) (v : V) :
    HASHprobe h v = HASHprobe h' v := by
  rw [HASHprobe, HASHprobe, hm]

/-- The index of `c'`, if there is one, is a patched index of `c`. -/
def HashFrom (c' c : Col V) : Prop :=
  ∀ h, c'.hash = some h → ∃ h₀, c.hash = some h₀ ∧ h.lim = h₀.lim

omit [OidAtom V] in
theorem HashFrom.of_eq (hh : c'.hash = c.hash) : c'.HashFrom c := fun h hc => ⟨h, hh ▸ hc, rfl⟩

omit [OidAtom V] in
theorem HashFrom.trans {c'' : Col V} (h1 : c''.HashFrom c') (h2 : c'.HashFrom c) :
    c''.HashFrom c := by
  intro h hc
  obtain ⟨h', hh', hl'⟩ := h1 h hc
  obtain ⟨h0, hh0, hl0⟩ := h2 h' hh'
  exact ⟨h0, hh0, hl'.trans hl0⟩

theorem hashFrom_hashdel (c : Col V) (first p : ℕ) (next : Bool) :
    (c.hashdel first p next).HashFrom c := by
  intro h hc
  obtain ⟨h0, hh0, rfl⟩ := Option.map_eq_some_iff.mp hc
  exact ⟨h0, hh0, HASHdel_lim ..⟩

theorem hashFrom_accMove (c : Col V) (first k p : ℕ) (next : Bool) :
    (c.accMove first k p next).HashFrom c := by
  intro h hc
  obtain ⟨h0, hh0, rfl⟩ := Option.map_eq_some_iff.mp hc
  exact ⟨h0, hh0, HASHmove_lim ..⟩

theorem hashFrom_HASHins (c : Col V) (first count p : ℕ) (v : V) :
    (c.HASHins first count p v).HashFrom c := by
  unfold HASHins
  split
  · exact HashFrom.of_eq rfl
  · rename_i h0 hh0
    split_ifs
    · exact fun h hh => absurd hh nofun
    · intro h hh
      obtain rfl := Option.some.inj hh
      exact ⟨h0, hh0, rfl⟩

theorem hashFrom_delFirst (c : Col V) (first p last : ℕ) : (c.delFirst first p last).HashFrom c :=
     by
  refine HashFrom.trans (HashFrom.of_eq ?_) (hashFrom_hashdel c first p (p < last))
  rw [delFirst]
  split_ifs <;> rfl

theorem hashFrom_delSwap (c : Col V) (first p last : ℕ) : (c.delSwap first p last).HashFrom c :=
  HashFrom.trans (HashFrom.of_eq rfl)
    ((hashFrom_accMove (c.hashdel first p (p < last)) first first p (first < last)).trans
      (hashFrom_hashdel c first p (p < last)))

theorem hashFrom_delLast (c : Col V) (first p last : ℕ) : (c.delLast first p last).HashFrom c := by
  have hdel : ((c.free p).hashdel first p (p < last)).HashFrom c :=
    (hashFrom_hashdel _ first p _).trans (HashFrom.of_eq rfl)
  by_cases hp : p = last
  · rw [delLast, if_neg (not_not.mpr hp)]
    exact hdel
  · refine HashFrom.trans (HashFrom.of_eq ?_) ((hashFrom_accMove _ first last p false).trans hdel)
    rw [delLast, if_pos hp]

theorem hashFrom_replace (c : Col V) (first count p : ℕ) (v : V) :
    (c.replace first count p v).HashFrom c := by
  intro h hc
  obtain ⟨h1, hh1, rfl⟩ := Option.map_eq_some_iff.mp hc
  obtain ⟨h0, hh0, hl⟩ := hashFrom_hashdel c first p (p < first + count - 1) h1 hh1
  exact ⟨h0, hh0, hl⟩

theorem tracked_hashdel (ht : c.Tracked first S) (hp : S p) (hnext : next = true → S (p + 1)) :
    (c.hashdel first p next).Tracked first (fun k => S k ∧ k ≠ p) ∧
      ∀ h, (c.hashdel first p next).hash = some h → h.link p = h.nil := by
  have hcase : ∀ h, (c.hashdel first p next).hash = some h → ∃ h0, c.hash = some h0 ∧
      h = HASHdel h0 p (HASHprobe h0 (c.value first p)) next := by
    intro h hc
    obtain ⟨h0, hh0, rfl⟩ := Option.map_eq_some_iff.mp hc
    exact ⟨h0, hh0, rfl⟩
  constructor
  · intro h hc
    obtain ⟨h0, hh0, rfl⟩ := hcase h hc
    refine (tracks_HASHdel (ht h0 hh0) hp fun hn => .inl (hnext hn)).congr (fun _ => Iff.rfl) ?_
    exact fun i _ => HASHprobe_congr (HASHdel_mask ..).symm _
  · intro h hc
    obtain ⟨h0, hh0, rfl⟩ := hcase h hc
    exact HASHdel_link (ht h0 hh0).shape ..

/-- Position `p` takes the place of position `k`, whose value it gets. -/
theorem tracked_accMove {k : ℕ} (ht : c.Tracked first S) (hk : S k) (hp : ¬ S p)
    (hlim : ∀ h, c.hash = some h → p < h.lim) (hv : ¬ c.voidDense)
    (hnext : ∀ h, c.hash = some h → next = true → S (k + 1) ∨ h.link (k + 1) ≠ k) :
    (c.accMove first k p next).Tracked first (fun i => (S i ∧ i ≠ k) ∨ i = p) := by
  intro h hc
  obtain ⟨h0, hh0, rfl⟩ := Option.map_eq_some_iff.mp hc
  refine tracks_HASHmove (ht h0 hh0) hk hp (hlim h0 hh0) (hnext h0 hh0) ?_ ?_
  · rw [accMove_value hv, if_pos rfl]
    exact HASHprobe_congr (HASHmove_mask ..) _
  · intro i hi hik
    have hip : i ≠ p := fun he => hp (he ▸ hi)
    rw [accMove_value hv, if_neg hip, if_neg hik]
    exact HASHprobe_congr (HASHmove_mask ..) _

/-- Putting a position into the index, which may be given up instead. -/
theorem tracked_HASHins (ht : c.Tracked first S) (hp : ¬ S p)
    (hlim : ∀ h, c.hash = some h → p < h.lim) (hv : c.value first p = v) (count : ℕ) :
    (c.HASHins first count p v).Tracked first (fun i => S i ∨ i = p) := by
  unfold HASHins
  split
  · rename_i hc
    exact tracked_none hc _ _
  rename_i h0 hh0
  split_ifs
  · exact tracked_none rfl _ _
  · intro h hc
    obtain rfl := Option.some.inj hc
    have := tracks_insAny (ht h0 hh0) (hlim h0 hh0) (HASHprobe_le _ _) hp
    rw [hv] at this
    exact this

/-! ### The updates of a column

Here the set is that of the live positions.  A deletion takes a position out before the first live
position or the end moves. -/

/-- The live positions. -/
def InRegion (first count i : ℕ) : Prop := first ≤ i ∧ i < first + count

section

variable (ht : c.Tracked first (InRegion first count))

include ht

/-- A live position leaves the index. -/
theorem tracked_hashdel_live (hp : first ≤ p)
    (hp' : p < first + count) :
    (c.hashdel first p (p < first + count - 1)).Tracked first
        (fun k => InRegion first count k ∧ k ≠ p) ∧
      ∀ h, (c.hashdel first p (p < first + count - 1)).hash = some h →
        p < h.lim ∧ h.link p = h.nil := by
  have hnext : decide (p < first + count - 1) = true → InRegion first count (p + 1) := by
    intro hn
    have := of_decide_eq_true hn
    exact ⟨by omega, by omega⟩
  obtain ⟨hdel, hlink⟩ := tracked_hashdel _ ht ⟨hp, hp'⟩ hnext
  refine ⟨hdel, fun h hc => ⟨?_, hlink h hc⟩⟩
  obtain ⟨h0, hh0, hlim⟩ := hashFrom_hashdel _ _ _ _ h hc
  exact hlim ▸ (ht h0 hh0).lt_lim p ⟨hp, hp'⟩

theorem tracked_delFirst (hv : ¬ c.voidDense)
    (hc : 0 < count) :
    (c.delFirst first first (first + count - 1)).Tracked (first + 1)
      (InRegion (first + 1) (count - 1)) := by
  refine (tracked_hashdel_live ht (le_refl first) (by omega)).1.congr ?_ (fun i => ?_) fun i _ => ?_
  · rw [delFirst]
    split_ifs <;> rfl
  · unfold InRegion
    omega
  · rw [delFirst_value hv]
    rfl

theorem tracked_delSwap (hv : ¬ c.voidDense)
    (hp : first < p) (hp' : p < first + count) :
    (c.delSwap first p (first + count - 1)).Tracked (first + 1)
      (InRegion (first + 1) (count - 1)) := by
  obtain ⟨hdel, hout⟩ := tracked_hashdel_live ht hp.le hp'
  have hv' : ¬ (c.hashdel first p (p < first + count - 1)).voidDense := hv
  have hmove := tracked_accMove (k := first) (p := p) (first < first + count - 1) hdel
    ⟨⟨le_rfl, by omega⟩, hp.ne⟩ (fun h => h.2 rfl) (fun h hc => (hout h hc).1) hv' ?_
  · refine hmove.congr rfl (fun i => ?_) fun i _ => ?_
    · unfold InRegion
      omega
    · have hv'' : ¬ ((c.hashdel first p (p < first + count - 1)).accMove first first p
          (first < first + count - 1)).voidDense := hv
      exact congrFun (value_first hv'' (first + 1) first) i
  · intro h hc hn
    by_cases hfp : first + 1 = p
    · -- the position behind the first one has just left the index
      right
      rw [hfp, (hout h hc).2]
      exact ((hdel h hc).ne_nil ⟨⟨le_rfl, by omega⟩, hp.ne⟩).symm
    · exact .inl ⟨⟨by omega, by omega⟩, hfp⟩

end

/-- The value that a position reads as after it has been freed selects the same bucket. -/
def FreeKeepsBucket (c : Col V) (first p : ℕ) : Prop := ∀ h, c.hash = some h →
    HASHprobe h ((c.free p).value first p) = HASHprobe h (c.value first p)

theorem free_value (c : Col V) (first : ℕ) (hi : i ≠ p) :
    (c.free p).value first i = c.value first i := by
  have hty : (c.free p).type = c.type := rfl
  by_cases hv : c.type = .void
  · rw [value_congr hty (fun _ => rfl) (fun h' => absurd hv h')]
  · rw [value_of_ne_void (hty ▸ hv), value_of_ne_void hv, free_heap_of_ne hi]

theorem tracked_free (ht : c.Tracked first S) (hp : c.FreeKeepsBucket first p) :
    (c.free p).Tracked first S := by
  intro h hc
  refine (ht h hc).congr (fun _ => Iff.rfl) fun i _ => ?_
  by_cases hi : i = p
  · rw [hi, hp h hc]
  · rw [free_value c first hi]

theorem put_value (first p : ℕ) (v : V) (hi : i ≠ p) :
    (c.put p v).value first i = c.value first i := by
  have hty : (c.put p v).type = c.type := rfl
  by_cases hv : c.type = .void
  · rw [value_congr hty (fun _ => rfl) (fun h' => absurd hv h')]
  · have hheap : (c.put p v).heap = update c.heap p v := if_neg hv
    rw [value_of_ne_void (hty ▸ hv), value_of_ne_void hv, hheap, update_of_ne hi]

theorem replace_value_eq (c : Col V) (first count p : ℕ) (v : V) :
    (c.replace first count p v).value first =
      (c.replaceValue first (first + count - 1) p v).value first := by
  apply value_congr
  · rfl
  · intro ht
    have ht' : c.type = .void := ht
    simp [replace, replaceKey, replaceRevorder, replaceOrder, replaceValue, put, hashdel, ht']
  · exact fun _ => rfl

theorem setcolprops_seq (hc : count ≠ 0) (c : Col V) (first : ℕ) (x : Option V)
    (ht : c.type = .void) : (c.setcolprops first count x).seq = c.seq := by
  rcases hs : c.seq with _ | s
  · simp only [setcolprops, if_neg hc, ht, hs]
  · simp only [setcolprops, if_neg hc, ht, hs]

theorem add_value (c : Col V) (hi : InRegion first count i) (x : Option V) (v : V)
    (hash : Option Hash) :
    { (c.setcolprops first count x).put (first + count) v with hash := hash }.value first i =
      c.value first i := by
  obtain ⟨hty, hheap, -, -⟩ := c.setcolprops_frame first count x
  have hput := put_value (c := c.setcolprops first count x) first (first + count) v hi.2.ne
  have hset : (c.setcolprops first count x).value first = c.value first := by
    refine value_congr hty (fun ht => setcolprops_seq ?_ c first x ht) (fun _ => hheap) first
    unfold InRegion at hi
    omega
  rw [← hset]
  exact hput

/-- The added value is stored, or continues a dense `void` column. -/
theorem add_value_last (hf : c.Follows count v) (hv : c.type = .void → c.seq.isSome)
    (hash : Option Hash) :
    { (c.setcolprops first count (some v)).put (first + count) v with hash := hash }.value first
      (first + count) = v := by
  obtain ⟨hty, -, -, -⟩ := c.setcolprops_frame first count (some v)
  set c' : Col V :=
    { (c.setcolprops first count (some v)).put (first + count) v with hash := hash } with hc'
  by_cases ht : c.type = .void
  · obtain ⟨s, hs⟩ := Option.isSome_iff_exists.mp (hv ht)
    have hfs := hf s ht hs
    have hseq : c'.seq = some s := by
      show (c.setcolprops first count (some v)).seq = some s
      by_cases hc : count = 0
      · subst hc
        simp only [setcolprops, if_true, ht, Option.elim_some, hfs, Nat.add_zero]
      · rw [setcolprops_seq hc c first _ ht, hs]
    have hty' : c'.type = .void := hty.trans ht
    rw [value_void_some hty' hseq, ← ofOid_toOid v _ hfs]
    congr 1
    omega
  · have hty' : c'.type ≠ .void := fun h' => ht (hty.symm.trans h')
    have hheap' : c'.heap = update (c.setcolprops first count (some v)).heap
        (first + count) v := if_neg hty'
    rw [value_of_ne_void hty', hheap', update_self]

section

variable (ht : c.Tracked first (InRegion first count))

include ht

theorem tracked_delLast (hp : first ≤ p) (hp' : p < first + count)
    (hfree : c.FreeKeepsBucket first p) (hv : c.hash.isSome → c.voidDense → p = first + count - 1) :
    (c.delLast first p (first + count - 1)).Tracked first (InRegion first (count - 1)) := by
  obtain ⟨hdel, hout⟩ := tracked_hashdel_live (tracked_free ht hfree) hp hp'
  rcases hh : c.hash with _ | h0
  · refine tracked_none ?_ _ _
    rw [delLast]
    split_ifs
    · simp [accMove, hashdel, free, hh]
    · simp [hashdel, free, hh]
  -- the last value is deleted, or takes the place of the deleted one
  by_cases hl : p = first + count - 1
  · refine hdel.congr ?_ (fun i => ?_) fun i _ => ?_
    · rw [delLast, if_neg (not_not.mpr hl)]
    · unfold InRegion
      omega
    · rw [delLast, if_neg (not_not.mpr hl)]
  · have hv' : ¬ ((c.free p).hashdel first p (p < first + count - 1)).voidDense :=
      fun h' => hl (hv (by rw [hh]; rfl) h')
    have hmove := tracked_accMove (k := first + count - 1) (p := p) false hdel
      ⟨⟨by omega, by omega⟩, Ne.symm hl⟩ (fun h => h.2 rfl) (fun h hc => (hout h hc).1) hv'
      (fun _ _ h' => absurd h' Bool.false_ne_true)
    refine hmove.congr ?_ (fun i => ?_) fun i _ => ?_
    · rw [delLast, if_pos hl]
    · unfold InRegion
      omega
    · rw [delLast, if_pos hl]
      rfl

theorem tracked_replace (hp : first ≤ p) (hp' : p < first + count) (v : V) :
    (c.replace first count p v).Tracked first (InRegion first count) := by
  -- the position leaves the index, gets the new value, and comes back
  obtain ⟨hdel, hout⟩ := tracked_hashdel_live ht hp hp'
  have hput : ((c.hashdel first p (p < first + count - 1)).put p v).Tracked first
      (fun k => InRegion first count k ∧ k ≠ p) :=
    hdel.congr rfl (fun _ => Iff.rfl) fun i hi => put_value first p v hi.2
  intro h hc
  obtain ⟨h1, hh1, rfl⟩ := Option.map_eq_some_iff.mp hc
  have hins := tracks_insAny (hput h1 hh1) (hout h1 hh1).1 (HASHprobe_le _ _) fun h => h.2 rfl
  refine hins.congr (fun i => ?_) fun i _ => ?_
  · unfold InRegion
    omega
  · rw [replace_value_eq]
    rfl

/-- **A value is added**, after which the index has it too, or there is no index any more. -/
theorem tracked_add (hf : c.Follows count v) (hv : c.hash.isSome → c.type = .void → c.seq.isSome)
    (hh : hash = c.hash ∧ (∀ h, c.hash = some h → first + count < h.lim) ∨ hash = none) :
    ({ (c.setcolprops first count (some v)).put (first + count) v with hash := hash }.HASHins first
      (count + 1) (first + count) v).Tracked first (InRegion first (count + 1)) := by
  rcases hc : hash with _ | h
  · refine tracked_none ?_ _ _
    rfl
  rcases hh with ⟨hh, hlim⟩ | hh
  · have hsome : c.hash.isSome := by
      rw [← hh, hc]
      rfl
    have hold : { (c.setcolprops first count (some v)).put (first + count) v with
        hash := some h }.Tracked first (InRegion first count) :=
      ht.congr (hc.symm.trans hh) (fun _ => Iff.rfl) fun i hi => add_value c hi _ _ _
    have hnew := tracked_HASHins hold (p := first + count) (v := v) (fun hp => ?_)
      (fun h' hh' => hlim h' ?_) (add_value_last hf (hv hsome) _) (count + 1)
    · refine hnew.congr rfl (fun i => ?_) fun _ _ => rfl
      unfold InRegion
      omega
    · unfold InRegion at hp
      omega
    · rw [← hh, hc]
      exact hh'
  · rw [hh] at hc
    exact absurd hc nofun

end

/-! ### The undo of a column

Inserted positions leave the index one by one, and the deleted ones come back. -/

/-- The positions from `p` on leave the index one by one; those below `lo` stay. -/
theorem tracked_undoInserted {lo : ℕ} (hlo : lo ≤ p)
    (ht : c.Tracked first (fun i => (first ≤ i ∧ i < lo) ∨ (p ≤ i ∧ i < p + n))) :
    (Bat.undoInserted c first (p + n - 1) (List.range' p n)).Tracked first
      (fun i => first ≤ i ∧ i < lo) := by
  induction n generalizing c p with
  | zero =>
    refine ht.congr rfl (fun i => ?_) fun _ _ => rfl
    omega
  | succ n ih =>
    have hdel := (tracked_hashdel (p := p) (p < p + (n + 1) - 1) ht (.inr ⟨le_rfl, by omega⟩)
      fun hn => .inr ⟨by omega, by
        have := of_decide_eq_true hn
        omega⟩).1
    have hrest : ((c.hashdel first p (p < p + (n + 1) - 1)).free p).Tracked first
        (fun i => (first ≤ i ∧ i < lo) ∨ (p + 1 ≤ i ∧ i < p + 1 + n)) := by
      refine hdel.congr rfl (fun i => ?_) fun i hi => free_value _ _ hi.2
      omega
    have := ih (by omega) hrest
    rwa [show p + 1 + n - 1 = p + (n + 1) - 1 by omega] at this

theorem tracked_undoDeleted (hS : ∀ i, S i → i < p ∨ p + n ≤ i)
    (hlim : ∀ h, c.hash = some h → p + n ≤ h.lim) (ht : c.Tracked first S) (count : ℕ) :
    (Bat.undoDeleted c first count (List.range' p n)).Tracked first
      (fun i => S i ∨ (p ≤ i ∧ i < p + n)) := by
  induction n generalizing c p S with
  | zero =>
    refine ht.congr rfl (fun i => ?_) fun _ _ => rfl
    exact ⟨.inl, fun hi => hi.resolve_right fun h => by omega⟩
  | succ n ih =>
    have hp : ¬ S p := fun hp => by
      have := hS p hp
      omega
    have hins := tracked_HASHins ht hp (fun h hh => by
      have := hlim h hh
      omega) rfl count
    have hS' : ∀ i, S i ∨ i = p → i < p + 1 ∨ p + 1 + n ≤ i := by
      rintro i (hi | rfl)
      · have := hS i hi
        omega
      · omega
    have hlim' : ∀ h, (c.HASHins first count p (c.value first p)).hash = some h →
        p + 1 + n ≤ h.lim := by
      intro h hh
      obtain ⟨h0, hh0, hl⟩ := hashFrom_HASHins c first count p (c.value first p) h hh
      have := hlim h0 hh0
      omega
    refine (ih hS' hlim' hins).congr rfl (fun i => ?_) fun _ _ => rfl
    rw [or_assoc]
    refine or_congr_right ?_
    omega

end Col

/-! ## BATs

Both columns have to be right.  The lemmas about one column are applied to the head and to the tail,
which is the head of the mirror. -/

/-- The index of a column holds the live positions, and has room for as many as the column. -/
structure Col.Indexed (c : Col V) (b : Bat V) : Prop where
  tracked : c.Tracked b.first (Col.InRegion b.first b.count)
  seq : c.hash.isSome → c.type = .void → c.seq.isSome
  lim : ∀ h, c.hash = some h →
    b.last ≤ h.lim ∧ h.lim ≤ Bat.bunMax ∧ (b.countonly = false → h.lim = b.capacity)

namespace Bat

variable {b b' : Bat V} {p : ℕ} {t : V} {c : Col V} {h : Option V}

/-- The indexes of both columns are right, and the regions are where they should be. -/
structure HashesTrue (b : Bat V) : Prop where
  head : b.H.Indexed b
  tail : b.T.Indexed b
  deleted_le : b.deleted ≤ b.first
  first_le : b.first ≤ b.inserted

/-- When a value that is not committed may be deleted from an indexed column: freeing it first
must not change its bucket, and in a dense `void` column, whose values do not move, it must be
the last one. -/
def DropsIndexed (b : Bat V) (c : Col V) (p : ℕ) : Prop :=
  c.FreeKeepsBucket b.first p ∧ (c.hash.isSome → c.voidDense → p = b.last - 1)

/-- **When a change keeps the indexes right.**
* See `DropsIndexed` for deletions.
* A value that is appended to a `void` head does not get into the head's index.
* On a BAT of two `void` columns the room for positions in the index does not grow. -/
def KeepsHashes (b : Bat V) : Change V → Prop
  | .delete p force => (b.inserted ≤ p ∨ force = true) → b.DropsIndexed b.H p ∧ b.DropsIndexed b.T p
  | .add h _ => (h = none → b.H.hash = none) ∧ (b.countonly = true →
      ∀ h, b.H.hash = some h ∨ b.T.hash = some h → b.last < h.lim)
  | _ => True

theorem HashesTrue.mirror (hb : b.HashesTrue) : b.mirror.HashesTrue := by
  have hcount : b.mirror.countonly = b.countonly := by
    exact Bool.and_comm _ _
  refine ⟨⟨hb.tail.tracked, hb.tail.seq, fun h hh => ?_⟩, ⟨hb.head.tracked, hb.head.seq,
    fun h hh => ?_⟩, hb.deleted_le, hb.first_le⟩
  · rw [hcount]
    exact hb.tail.lim h hh
  · rw [hcount]
    exact hb.head.lim h hh

theorem indexed_none (hc : c.hash = none) (b : Bat V) : c.Indexed b where
  tracked := tracked_none hc _ _
  seq h := by simp [hc] at h
  lim h hh := by simp [hc] at hh

theorem delFirst_frame (c : Col V) (first p last : ℕ) : (c.delFirst first p last).type = c.type ∧
      (c.seq.isSome → (c.delFirst first p last).seq.isSome) := by
  rw [delFirst]
  split_ifs
  · simp [hashdel]
  · exact ⟨rfl, id⟩

/-- What a change of a column has to keep for its index. -/
structure ColNext (c c' : Col V) (first count : ℕ) : Prop where
  hash : c'.HashFrom c
  tracked : c'.Tracked first (Col.InRegion first count)
  type : c'.type = c.type
  seq : c.type = .void → c.seq.isSome → c'.seq.isSome

theorem ColNext.indexed {c' : Col V} (hn : ColNext c c' b'.first b'.count) (hi : c.Indexed b)
    (hlast : ∀ h, c.hash = some h → b'.last ≤ h.lim) (hcount : b'.countonly = b.countonly)
    (hcap : b'.countonly = false → b'.capacity = b.capacity) : c'.Indexed b' where
  tracked := hn.tracked
  seq hh hv := by
    obtain ⟨h, hh⟩ := Option.isSome_iff_exists.mp hh
    obtain ⟨h0, hh0, -⟩ := hn.hash h hh
    have hv' : c.type = .void := hn.type.symm.trans hv
    exact hn.seq hv' (hi.seq (by rw [hh0]; rfl) hv')
  lim h hh := by
    obtain ⟨h0, hh0, hl⟩ := hn.hash h hh
    obtain ⟨-, h2, h3⟩ := hi.lim h0 hh0
    rw [hl]
    exact ⟨hlast h0 hh0, h2, fun ho => (h3 (hcount.symm.trans ho)).trans (hcap ho).symm⟩

theorem hashesTrue_of_colNext (hb : b.HashesTrue) (hH : ColNext b.H b'.H b'.first b'.count)
    (hT : ColNext b.T b'.T b'.first b'.count) (hlast : b'.last ≤ b.last)
    (hcap : b'.capacity = b.capacity) (hdel : b'.deleted ≤ b'.first) (hfirst : b'.first ≤ b'.inserted) : b'.HashesTrue := by
  have hcount : b'.countonly = b.countonly := by
    unfold countonly
    rw [hH.type, hT.type]
  refine ⟨?_, ?_, hdel, hfirst⟩
  · exact hH.indexed hb.head (fun h hh => hlast.trans (hb.head.lim h hh).1) hcount fun _ => hcap
  · exact hT.indexed hb.tail (fun h hh => hlast.trans (hb.tail.lim h hh).1) hcount fun _ => hcap

theorem hashesTrue_BUNdelete_ {force : Bool} (hb : b.HashesTrue) (hp : b.Live p)
    (hv : p < b.inserted → force = false → ¬ b.H.voidDense ∧ ¬ b.T.voidDense)
    (hk : b.KeepsHashes (.delete p force)) : (b.BUNdelete_ p force).1.HashesTrue := by
  obtain ⟨hp1, hp2⟩ := hp
  have hlast : b.last = b.first + b.count := rfl
  have hdf := hb.deleted_le
  have hfi := hb.first_le
  unfold BUNdelete_
  split_ifs with hc hf
  · obtain ⟨hc1, hc2⟩ : p < b.inserted ∧ force = false := by simpa using hc
    obtain ⟨hvH, hvT⟩ := hv hc1 hc2
    -- the first BUN is skipped
    subst hf
    have hcol : ∀ c : Col V, c.Indexed b → ¬ c.voidDense →
        ColNext c (c.delFirst b.first b.first (b.last - 1)) (b.first + 1) (b.count - 1) := by
      intro c hi hv
      obtain ⟨hty, hseq⟩ := delFirst_frame c b.first b.first (b.last - 1)
      exact ⟨hashFrom_delFirst c _ _ _, tracked_delFirst hi.tracked hv (by omega), hty,
        fun _ => hseq⟩
    refine hashesTrue_of_colNext hb (hcol b.H hb.head hvH) (hcol b.T hb.tail hvT) ?_ rfl ?_ ?_
    all_goals
      dsimp only [last]
      omega
  · obtain ⟨hc1, hc2⟩ : p < b.inserted ∧ force = false := by simpa using hc
    obtain ⟨hvH, hvT⟩ := hv hc1 hc2
    -- a committed BUN is exchanged with the first one
    have hlt : b.first < p := lt_of_le_of_ne hp1 (Ne.symm hf)
    have hcol : ∀ c : Col V, c.Indexed b → ¬ c.voidDense →
        ColNext c (c.delSwap b.first p (b.last - 1)) (b.first + 1) (b.count - 1) := by
      intro c hi hv
      exact ⟨hashFrom_delSwap c _ _ _, tracked_delSwap hi.tracked hv hlt hp2, rfl,
        fun _ => id⟩
    refine hashesTrue_of_colNext hb (hcol b.H hb.head hvH) (hcol b.T hb.tail hvT) ?_ rfl ?_ ?_
    all_goals
      dsimp only [last]
      omega
  -- the last BUN takes the place of the deleted one
  · have hk' := hk (by
      rw [Bool.and_eq_true, decide_eq_true_iff, Bool.not_eq_true', not_and_or, not_lt,
        Bool.not_eq_false] at hc
      exact hc)
    have hcol : ∀ c : Col V, c.Indexed b → b.DropsIndexed c p →
        ColNext c (c.delLast b.first p (b.last - 1)) b.first (b.count - 1) := by
      intro c hi hd
      obtain ⟨hty, hseq⟩ := c.delLast_frame b.first p (b.last - 1)
      exact ⟨hashFrom_delLast c _ _ _, tracked_delLast hi.tracked hp1 hp2 hd.1 hd.2, hty,
        fun _ h => hseq ▸ h⟩
    refine hashesTrue_of_colNext hb (hcol b.H hb.head hk'.1) (hcol b.T hb.tail hk'.2) ?_ rfl hdf hfi
    dsimp only [last]
    omega

theorem indexed_add (hi : c.Indexed b) (hf : c.Follows b.count t)
    (hh : hash = none ∨ hash = c.hash ∧
      (b.countonly = false → b.last ≤ bunMax → b.last < b.capacity ∧ b'.capacity = b.capacity))
    (hk : b.countonly = true → ∀ h, c.hash = some h → b.last < h.lim) (hfirst : b'.first = b.first)
    (hcount : b'.count = b.count + 1) (honly : b'.countonly = b.countonly) :
    ({ (c.setcolprops b.first b.count (some t)).put b.last t with hash := hash }.HASHins b.first
      (b.count + 1) b.last t).Indexed b' := by
  set c' : Col V := { (c.setcolprops b.first b.count (some t)).put b.last t with hash := hash }
    with hc'
  have hlast : b.last = b.first + b.count := rfl
  have hty : c'.type = c.type := (c.setcolprops_frame b.first b.count (some t)).1
  obtain ⟨hash', hins⟩ := HASHins_frame c' b.first (b.count + 1) b.last t
  rcases hh1 : hash with _ | h1
  · refine indexed_none ?_ b'
    have hno : c'.hash = none := hh1
    simp only [Col.HASHins, hno]
  obtain ⟨heq, hcap⟩ := hh.resolve_left fun h' => absurd (hh1.symm.trans h') nofun
  have hsome : c.hash.isSome := by
    rw [← heq, hh1]
    rfl
  -- the limit of the index is the capacity, unless both columns are `void`
  have hroom : ∀ h, c.hash = some h → b.last < h.lim := by
    intro h hh'
    obtain ⟨h2, h3, h4⟩ := hi.lim h hh'
    cases ho : b.countonly with
    | true => exact hk ho h hh'
    | false =>
      rw [h4 ho]
      exact (hcap ho (h2.trans h3)).1
  refine ⟨?_, fun _ hv => ?_, fun h hh' => ?_⟩
  · rw [hfirst, hcount]
    exact tracked_add hi.tracked hf hi.seq (.inl ⟨heq, hroom⟩)
  · rw [hins] at hv ⊢
    have hv' : c.type = .void := hty.symm.trans hv
    obtain ⟨s, hs⟩ := Option.isSome_iff_exists.mp (hi.seq hsome hv')
    show (c.setcolprops b.first b.count (some t)).seq.isSome
    by_cases hc : b.count = 0
    · simp [setcolprops, hc, hv', hf s hv' hs]
    · rw [setcolprops_seq hc c b.first _ hv', hs]
      rfl
  · obtain ⟨h0, hh0, hl⟩ := hashFrom_HASHins c' b.first (b.count + 1) b.last t h hh'
    have hh0' : c.hash = some h0 := heq ▸ hh0
    obtain ⟨h2, h3, h4⟩ := hi.lim h0 hh0'
    have hr := hroom h0 hh0'
    rw [hl, honly]
    refine ⟨?_, h3, fun ho => ?_⟩
    · unfold last
      omega
    · rw [(hcap ho (h2.trans h3)).2, h4 ho]

theorem addLast_countonly (ha : b.addLast h t = .ok b') : b'.countonly = b.countonly := by
  obtain ⟨hH, hT, cap, rfl⟩ := addLast_spec ha
  have h1 := (b.H.setcolprops_frame b.first b.count h).1
  have h2 := (b.T.setcolprops_frame b.first b.count (some t)).1
  simp only [countonly, put, h1, h2]

theorem hashesTrue_addLast (hb : b.HashesTrue) (hfH : ∀ x, h = some x → b.H.Follows b.count x)
    (hfT : b.T.Follows b.count t) (hk : b.KeepsHashes (.add h t)) (ha : b.addLast h t = .ok b') :
    b'.HashesTrue := by
  have honly := addLast_countonly ha
  set b₁ : Bat V := { b with
    H := b.H.setcolprops b.first b.count h
    T := b.T.setcolprops b.first b.count (some t) } with hb1
  have hH := b.H.setcolprops_frame b.first b.count h
  have hT := b.T.setcolprops_frame b.first b.count (some t)
  have honly1 : b₁.countonly = b.countonly := by
    simp only [hb1, countonly, hH.1, hT.1]
  rcases hs : b₁.store (h.getD ⊥) t with e | b₂
  · simp [addLast, ← hb1, hs, Except.map] at ha
  simp only [addLast, ← hb1, hs, Except.map, Except.ok.injEq] at ha
  obtain ⟨hashH, hashT, cap, rfl, hhash⟩ := store_spec hs
  rw [honly1, show b₁.H.hash = b.H.hash from hH.2.2.2, show b₁.T.hash = b.T.hash from hT.2.2.2]
    at hhash
  subst ha
  refine ⟨?_, ?_, hb.deleted_le, hb.first_le⟩
  · cases h with
    | none =>
      -- the head has no index
      have hno := hk.1 rfl
      exact indexed_none (hhash.elim And.left fun h' => h'.1.trans hno) _
    | some x =>
      exact indexed_add hb.head (hfH x rfl) (hhash.imp And.left fun h' => ⟨h'.1, h'.2.2⟩)
        (fun ho h' hh => hk.2 ho h' (.inl hh)) rfl rfl honly
  · exact indexed_add hb.tail hfT (hhash.imp And.right fun h' => ⟨h'.2.1, h'.2.2⟩)
      (fun ho h' hh => hk.2 ho h' (.inr hh)) rfl rfl honly

/-- **One change keeps the indexes right.** -/
theorem hashesTrue_change {e : Change V} (hb : b.HashesTrue) (hk : b.KeepsHashes e)
    (he : b.Changes e b') : b'.HashesTrue := by
  cases e with
  | mirror =>
    obtain rfl := he
    exact hb.mirror
  | materialize =>
    obtain ⟨hv, rfl⟩ := he
    rw [BATmaterializeh, if_pos hv]
    exact ⟨indexed_none rfl _, indexed_none rfl _, hb.deleted_le, hb.first_le⟩
  | seed x =>
    obtain ⟨hv, hc, hx, rfl⟩ := he
    refine hashesTrue_of_colNext hb ⟨Col.HashFrom.of_eq rfl, ?_, rfl, fun _ _ => hx⟩
      ⟨Col.HashFrom.of_eq rfl, hb.tail.tracked, rfl, fun _ => id⟩ le_rfl rfl hb.deleted_le
      hb.first_le
    -- there is no value
    refine hb.head.tracked.congr rfl (fun _ => Iff.rfl) fun i hi => ?_
    unfold Col.InRegion at hi
    omega
  | delete p force =>
    obtain ⟨hp, hv, rfl⟩ := he
    exact hashesTrue_BUNdelete_ hb hp hv hk
  | replace p t =>
    obtain ⟨hp, rfl⟩ := he
    refine hashesTrue_of_colNext hb ⟨Col.HashFrom.of_eq rfl, hb.head.tracked, rfl, fun _ => id⟩
      ⟨hashFrom_replace b.T _ _ _ _, tracked_replace hb.tail.tracked hp.1 hp.2 t, rfl,
        fun ht hs => ?_⟩ le_rfl rfl hb.deleted_le hb.first_le
    simpa [replaceTail, replace, replaceKey, replaceRevorder, replaceOrder,
      replaceValue, put, hashdel, ht] using hs
  | add h t =>
    obtain ⟨-, hfH, hfT, he⟩ := he
    exact hashesTrue_addLast hb hfH hfT hk he
  | clear force =>
    obtain ⟨-, rfl⟩ := he
    have hcol : ∀ (c : Col V) (p n : ℕ),
        (freeAll { c with hash := none } p n).COLsettrivprop.hash = none := by
      intro c p n
      obtain ⟨heap, hh⟩ := freeAll_frame { c with hash := none } p n
      rw [hh, (COLsettrivprop_frame _).2.2.2]
    have hdf := hb.deleted_le
    have hfi := hb.first_le
    cases force
    · exact ⟨indexed_none (hcol _ _ _) _, indexed_none (hcol _ _ _) _, hdf.trans hfi, le_rfl⟩
    · exact ⟨indexed_none (hcol _ _ _) _, indexed_none (hcol _ _ _) _, le_rfl, le_rfl⟩

/-! ### The undo of a BAT -/

omit [OidAtom V] in
theorem zapProps_frame (c : Col V) : (zapProps c).type = c.type ∧ (zapProps c).seq = c.seq ∧
    (zapProps c).heap = c.heap ∧ (zapProps c).hash = c.hash := by
  unfold zapProps
  dsimp only
  split_ifs <;> exact ⟨rfl, rfl, rfl, rfl⟩

/-- Undo leaves the type and the sequence base alone. -/
theorem undoInserted_frame (c : Col V) (first bunlast : ℕ) (ps : List ℕ) :
    (undoInserted c first bunlast ps).type = c.type ∧
      (undoInserted c first bunlast ps).seq = c.seq ∧
      (undoInserted c first bunlast ps).HashFrom c := by
  induction ps generalizing c with
  | nil => exact ⟨rfl, rfl, Col.HashFrom.of_eq rfl⟩
  | cons p ps ih =>
    obtain ⟨h1, h2, h3⟩ := ih ((c.hashdel first p (p < bunlast)).free p)
    exact ⟨h1, h2, h3.trans (Col.HashFrom.trans (Col.HashFrom.of_eq rfl)
      (hashFrom_hashdel c first p (p < bunlast)))⟩

theorem undoDeleted_frame (c : Col V) (first count : ℕ) (ps : List ℕ) :
    (undoDeleted c first count ps).type = c.type ∧ (undoDeleted c first count ps).seq = c.seq ∧
      (undoDeleted c first count ps).HashFrom c := by
  induction ps generalizing c with
  | nil => exact ⟨rfl, rfl, Col.HashFrom.of_eq rfl⟩
  | cons p ps ih =>
    obtain ⟨h1, h2, h3⟩ := ih (c.HASHins first count p (c.value first p))
    obtain ⟨hash, hh⟩ := HASHins_frame c first count p (c.value first p)
    have hty : (c.HASHins first count p (c.value first p)).type = c.type := by rw [hh]
    have hseq : (c.HASHins first count p (c.value first p)).seq = c.seq := by rw [hh]
    exact ⟨h1.trans hty, h2.trans hseq,
      h3.trans (hashFrom_HASHins c first count p (c.value first p))⟩

/-- When the index of a column can go back to the last commit: the BAT must not be empty from the
start on, all that has been committed must start at position 0, none of it may be gone for good,
and the oids of a dense `void` column must not start anywhere else. -/
def UndoesIndexed (b : Bat V) (c : Col V) : Prop :=
  c.hash.isSome → 0 < b.last ∧ b.deleted = 0 ∧ b.inserted ≤ b.last ∧
    (c.voidDense → b.first = b.deleted)

theorem undoCol_frame (b : Bat V) (c : Col V) (ins : List ℕ) :
    (b.undoCol c ins).type = c.type ∧ (b.undoCol c ins).seq = c.seq ∧
      (b.undoCol c ins).HashFrom c := by
  obtain ⟨h1, h2, h3⟩ := undoInserted_frame c b.first (sub64 b.last 1) ins
  obtain ⟨k₁, k₂, -, k₄⟩ := zapProps_frame (undoInserted c b.first (sub64 b.last 1) ins)
  unfold undoCol
  split_ifs
  · obtain ⟨l₁, l₂, l₃⟩ := undoDeleted_frame
      (zapProps (undoInserted c b.first (sub64 b.last 1) ins)) b.first b.count (List.range' b.deleted (b.first - b.deleted))
    exact ⟨l₁.trans (k₁.trans h1), l₂.trans (k₂.trans h2),
      l₃.trans (Col.HashFrom.trans (Col.HashFrom.of_eq k₄) h3)⟩
  · exact ⟨h1, h2, h3⟩

/-- **The index of a column goes back to the last commit.** -/
theorem tracked_undoCol (hb : b.HashesTrue) (hi : c.Indexed b) (hk : b.UndoesIndexed c)
    (hacc : c.hash.isSome → b.hasAccs = true) :
    (b.undoCol c b.undoPositions).Tracked b.deleted (Col.InRegion b.deleted b.inserted) := by
  set ins := b.undoPositions with hins
  obtain ⟨hty, hseq, hfrom⟩ := b.undoCol_frame c ins
  rcases hh : c.hash with _ | h0
  · -- no index
    intro h hc
    obtain ⟨h0, hh0, -⟩ := hfrom h hc
    exact absurd (hh.symm.trans hh0) nofun
  have hsome : c.hash.isSome := by rw [hh]; rfl
  obtain ⟨hpos, hdel, hle, hvoid⟩ := hk hsome
  obtain ⟨hlim, hmax, -⟩ := hi.lim h0 hh
  have hbunlast : sub64 b.last 1 = b.last - 1 := sub64_of_le hpos (by
    unfold bunMax at hmax
    omega)
  have hlast : b.last = b.first + b.count := rfl
  have hfi := hb.first_le
  -- the inserted values leave
  have h1 : (undoInserted c b.first (sub64 b.last 1) ins).Tracked b.first
      (fun i => b.first ≤ i ∧ i < b.inserted) := by
    by_cases hil : b.inserted ≤ sub64 b.last 1
    · obtain ⟨n, hn⟩ : ∃ n, sub64 b.last 1 + 1 - b.inserted = n := ⟨_, rfl⟩
      have hbl : sub64 b.last 1 = b.inserted + n - 1 := by omega
      rw [hins, undoPositions, if_pos ⟨hil, hacc hsome⟩, hn, hbl]
      refine tracked_undoInserted n le_rfl (hi.tracked.congr rfl (fun i => ?_) fun _ _ => rfl)
      unfold Col.InRegion
      omega
    · rw [hins, undoPositions, if_neg fun h => hil h.1]
      refine hi.tracked.congr rfl (fun i => ?_) fun _ _ => rfl
      unfold Col.InRegion
      omega
  -- the deleted values come back
  have h2 : (b.undoCol c ins).Tracked b.first (Col.InRegion b.deleted b.inserted) := by
    unfold undoCol
    split_ifs with hlt
    · obtain ⟨k₁, k₂, k₃, k₄⟩ := zapProps_frame (undoInserted c b.first (sub64 b.last 1) ins)
      have hzap : (zapProps (undoInserted c b.first (sub64 b.last 1) ins)).Tracked b.first
          (fun i => b.first ≤ i ∧ i < b.inserted) := by
        refine h1.congr k₄ (fun _ => Iff.rfl) fun i _ => ?_
        rw [value_congr k₁ (fun _ => k₂) (fun _ => k₃)]
      refine (tracked_undoDeleted (b.first - b.deleted) (fun i hi => ?_) (fun h hh' => ?_) hzap
        b.count).congr rfl (fun i => ?_) fun _ _ => rfl
      · omega
      · obtain ⟨h', hh', hl⟩ := (undoInserted_frame c b.first (sub64 b.last 1) ins).2.2 h
          (k₄.symm.trans hh')
        have := (hi.lim h' hh').1
        omega
      · unfold Col.InRegion
        omega
    · refine h1.congr rfl (fun i => ?_) fun _ _ => rfl
      unfold Col.InRegion
      omega
  refine h2.congr rfl (fun _ => Iff.rfl) fun i _ => ?_
  by_cases hv : c.voidDense
  · rw [hvoid hv]
  · have hv' : ¬ (b.undoCol c ins).voidDense := by
      unfold voidDense
      rwa [hty, hseq]
    exact congrFun (value_first hv' _ _) i

theorem BATundo_spec (hu : b.BATundo = some b') :
    b'.H = b.undoCol b.H b.undoPositions ∧ b'.T = b.undoCol b.T b.undoPositions ∧
      b'.first = b.deleted ∧ b'.count = b.inserted ∧ b'.deleted = b.deleted ∧
      b'.inserted = b.inserted ∧ b'.countonly = b.countonly ∧
      (b'.countonly = false → b'.capacity = b.capacity) := by
  unfold BATundo at hu
  dsimp only at hu
  split_ifs at hu with hrun
  obtain rfl := Option.some.inj hu
  refine ⟨rfl, rfl, rfl, rfl, rfl, rfl, ?_, fun ho => ?_⟩
  · simp only [countonly, BATsetcount, (b.undoCol_frame b.H b.undoPositions).1,
      (b.undoCol_frame b.T b.undoPositions).1]
  · refine if_neg (fun ht => ?_)
    exact absurd (ht.symm.trans ho) Bool.true_eq_false.mp

theorem hashesTrue_BATundo (hb : b.HashesTrue) (hH : b.UndoesIndexed b.H)
    (hT : b.UndoesIndexed b.T) (hu : b.BATundo = some b') : b'.HashesTrue := by
  obtain ⟨h1, h2, hfirst, hcount, hdel, hins, honly, hcap⟩ := BATundo_spec hu
  have hcol : ∀ c : Col V, c.Indexed b → b.UndoesIndexed c →
      (c.hash.isSome → b.hasAccs = true) → (b.undoCol c b.undoPositions).Indexed b' := by
    intro c hi hk hacc
    obtain ⟨hty, hseq, hfrom⟩ := b.undoCol_frame c b.undoPositions
    have htr := tracked_undoCol hb hi hk hacc
    refine ColNext.indexed ⟨hfrom, by rwa [hfirst, hcount], hty, fun _ hs => hseq ▸ hs⟩ hi
      (fun h hh => ?_) honly hcap
    obtain ⟨-, hdel, hle, -⟩ := hk (by rw [hh]; rfl)
    unfold last
    rw [hfirst, hcount, hdel, Nat.zero_add]
    exact hle.trans (hi.lim h hh).1
  refine ⟨h1 ▸ hcol b.H hb.head hH fun h => ?_, h2 ▸ hcol b.T hb.tail hT fun h => ?_, ?_, ?_⟩
  · simp [hasAccs, h]
  · simp [hasAccs, h]
  · rw [hdel, hfirst]
  · rw [hfirst, hins]
    exact hb.deleted_le.trans hb.first_le

theorem freeAll_value (c : Col V) (first p n : ℕ) {i : ℕ} (hi : i < p ∨ p + n ≤ i) :
    (freeAll c p n).value first i = c.value first i := by
  induction n generalizing c p with
  | zero => rfl
  | succ n ih =>
    have hrest := ih (c.free p) (p + 1) (by omega)
    exact hrest.trans (free_value c first (by omega))

theorem hashesTrue_BATcommit (hb : b.HashesTrue) : b.BATcommit.HashesTrue := by
  have hdf := hb.deleted_le
  have hcol : ∀ c : Col V, c.Indexed b →
      ColNext c (freeAll c b.deleted (b.first - b.deleted)) b.first b.count := by
    intro c hi
    obtain ⟨heap, hh⟩ := freeAll_frame c b.deleted (b.first - b.deleted)
    have hval : ∀ i, Col.InRegion b.first b.count i →
        (freeAll c b.deleted (b.first - b.deleted)).value b.first i = c.value b.first i := by
      intro i hi
      refine freeAll_value c _ _ _ (.inr ?_)
      unfold Col.InRegion at hi
      omega
    refine ⟨Col.HashFrom.of_eq ?_, hi.tracked.congr ?_ (fun _ => Iff.rfl) hval, ?_, fun _ h => ?_⟩
    · rw [hh]
    · rw [hh]
    · rw [hh]
    · rw [hh]
      exact h
  refine hashesTrue_of_colNext hb (hcol b.H hb.head) (hcol b.T hb.tail) le_rfl rfl le_rfl ?_
  exact Nat.le_add_right _ _

/-! ### Building an index -/

/-- `BAThash` on the head.  There is no result if the positions do not fit into the heaps; on a
`void` column of nils no index is built. -/
def BAThash (b : Bat V) (size masksize : ℕ) (mem : ℕ → ℕ) : Option (Bat V) :=
  if b.H.hash.isSome then some b
  else if b.H.type = .void ∧ b.H.seq = none then some b
  else if h : b.last ≤ b.capacity ∧ b.capacity ≤ bunMax then
    some { b with H := { b.H with
      hash := some (Gdk.BAThash
        ⟨b.first, b.count, b.capacity, b.H.key != .no, size,
          fun p => Atom.atomHash (b.H.value b.first p), h.1, lt_of_le_of_lt h.2 (by decide)⟩
        mem masksize) } }
  else none

theorem hashesTrue_BAThash {size masksize : ℕ} {mem : ℕ → ℕ} (hb : b.HashesTrue)
    (hh : b.BAThash size masksize mem = some b') : b'.HashesTrue := by
  unfold BAThash at hh
  split_ifs at hh with h1 h2 h3
  · exact Option.some.inj hh ▸ hb
  · exact Option.some.inj hh ▸ hb
  obtain rfl := Option.some.inj hh
  obtain ⟨hs, hl, hx⟩ := BAThash_indexes (⟨b.first, b.count, b.capacity, b.H.key != .no, size,
    fun p => Atom.atomHash (b.H.value b.first p), h3.1, lt_of_le_of_lt h3.2 (by decide)⟩ :
      HashInput) mem masksize
  refine ⟨⟨fun h hc => ?_, fun _ hv => ?_, fun h hc => ?_⟩,
    ⟨hb.tail.tracked, hb.tail.seq, hb.tail.lim⟩, hb.deleted_le, hb.first_le⟩
  · obtain rfl := Option.some.inj hc
    refine ⟨hs, fun i hi => ?_, fun i _ => HASHprobe_le _ _, hx⟩
    rw [hl]
    exact hi.2.trans_le h3.1
  · by_contra hs
    exact h2 ⟨hv, Option.not_isSome_iff_eq_none.mp hs⟩
  · obtain rfl := Option.some.inj hc
    rw [hl]
    exact ⟨h3.1, h3.2, fun _ => rfl⟩

end Bat

/-! ### Sequences of actions -/

/-- What can happen to a BAT with indexes. -/
inductive HashAction (V : Type*)
  | update (u : Update V)
  | hash (tail : Bool) (size masksize : ℕ) (mem : ℕ → ℕ)
  | commit
  | undo

/-- **The index of a column is valid**: every bucket has a chain, which is finite, and a live
position occurs exactly once in the chain of the bucket that its value selects and in no other. -/
def Col.HashValid (c : Col V) (first count : ℕ) : Prop :=
  ∀ h, c.hash = some h → ∀ d ≤ h.mask, ∃ l, Chain h.link h.nil (h.hash d) l ∧
    ∀ i, Col.InRegion first count i → l.count i = if HASHprobe h (c.value first i) = d then 1 else 0

namespace Bat

variable {b b' : Bat V}

def HashStep (b : Bat V) : HashAction V → Bat V → Prop
  | .update u, b' => b.apply u = .ok b'
  | .hash false size masksize mem, b' => b.BAThash size masksize mem = some b'
  | .hash true size masksize mem, b' => ∃ b₁, b.mirror.BAThash size masksize mem = some b₁ ∧
      b' = b₁.mirror
  | .commit, b' => b' = b.BATcommit
  | .undo, b' => b.BATundo = some b'

/-- The condition for each action: see `KeepsHashes` for the changes an update makes, and
`UndoesIndexed` for an undo. -/
def StepKeepsHashes (b : Bat V) : HashAction V → Prop
  | .update u => ∀ x ∈ b.changes u, KeepsHashes x.1 x.2
  | .undo => b.UndoesIndexed b.H ∧ b.UndoesIndexed b.T
  | _ => True

theorem hashesTrue_step {a : HashAction V} (hb : b.HashesTrue) (hk : b.StepKeepsHashes a)
    (hs : b.HashStep a b') : b'.HashesTrue := by
  have hchange : ∀ (b : Bat V) (e : Change V) (b' : Bat V),
      b.HashesTrue → b.KeepsHashes e → b.Changes e b' → b'.HashesTrue :=
    fun _ _ _ => hashesTrue_change
  cases a with
  | update u => exact (trace_apply hs).invariant hchange hk hb
  | hash tail size masksize mem =>
    cases tail with
    | false => exact hashesTrue_BAThash hb hs
    | true =>
      obtain ⟨b₁, h1, rfl⟩ := hs
      exact (hashesTrue_BAThash hb.mirror h1).mirror
  | commit =>
    obtain rfl := hs
    exact hashesTrue_BATcommit hb
  | undo => exact hashesTrue_BATundo hb hk.1 hk.2 hs

theorem hashValid_of_indexed {c : Col V} (hi : c.Indexed b) : c.HashValid b.first b.count := by
  intro h hh d hd
  obtain ⟨l, hl, hmem⟩ := (hi.tracked h hh).indexes d hd
  refine ⟨l, hl, fun i hi => ?_⟩
  simp only [List.Nodup.count hl.nodup, hmem, hi, true_and]

/-- **The indexes are valid after every sequence of actions** that meet the condition, from a BAT
without indexes on. -/
theorem hashValid_of_reaches (hr : Reaches HashStep StepKeepsHashes b b')
    (hH : b.H.hash = none) (hT : b.T.hash = none) (hdel : b.deleted ≤ b.first)
    (hins : b.first ≤ b.inserted) :
    b'.H.HashValid b'.first b'.count ∧ b'.T.HashValid b'.first b'.count := by
  have hstep : ∀ (b : Bat V) (a : HashAction V) (b' : Bat V),
      b.HashesTrue → b.StepKeepsHashes a → b.HashStep a b' → b'.HashesTrue :=
    fun _ _ _ => hashesTrue_step
  have hstart : b.HashesTrue := ⟨indexed_none hH b, indexed_none hT b, hdel, hins⟩
  have hend := hr.invariant hstep hstart
  exact ⟨hashValid_of_indexed hend.head, hashValid_of_indexed hend.tail⟩

/-- Three values that have not been committed, of a type whose values read as 7 once they have
been freed. -/
def fiveSixFive : Bat OidVal where
  H := ⟨.oid, some 0, true, false, .yes, true, false, true, fun p => ofOid p, none, none⟩
  T := ⟨.other true, none, false, false, .no, false, false, true,
    fun p => if p = 1 then ofOid 6 else ofOid 5, some fun _ => ofOid 7, none⟩
  deleted := 0
  first := 0
  inserted := 0
  count := 3
  capacity := 256
  set := false

/-- The same BAT with an index on the tail. -/
def fiveSixFiveHashed : Bat OidVal :=
  ((fiveSixFive.mirror.BAThash 8 0 fun _ => 0).getD fiveSixFive).mirror

theorem hashStep_fiveSixFive :
    fiveSixFive.HashStep (.hash true 8 0 fun _ => 0) fiveSixFiveHashed := by
  have hsome : (fiveSixFive.mirror.BAThash 8 0 fun _ => 0).isSome := by decide
  obtain ⟨b₁, h1⟩ := Option.isSome_iff_exists.mp hsome
  refine ⟨b₁, h1, ?_⟩
  rw [fiveSixFiveHashed, h1]
  rfl

/-- A run that builds an index and appends a value. -/
theorem hashValid_append_five : ∃ b', fiveSixFiveHashed.apply (.append (ofOid 5)) = .ok b' ∧
    (b'.T.hash.map fun h => (h.hash 5, h.link 3)) = some (3, 2) ∧
    b'.T.HashValid b'.first b'.count := by
  have hsome : (fiveSixFiveHashed.apply (.append (ofOid 5))).toOption.isSome := by decide
  obtain ⟨b', hb'⟩ : ∃ b', fiveSixFiveHashed.apply (.append (ofOid 5)) = .ok b' := by
    cases hx : fiveSixFiveHashed.apply (.append (ofOid 5)) with
    | error e => simp [hx, Except.toOption] at hsome
    | ok b' => exact ⟨b', rfl⟩
  have hindex : ((fiveSixFiveHashed.apply (.append (ofOid 5))).toOption.bind fun b' =>
      b'.T.hash.map fun h => (h.hash 5, h.link 3)) = some (3, 2) := by decide
  rw [hb'] at hindex
  have hrun : Reaches HashStep StepKeepsHashes fiveSixFive b' := by
    have hstep : fiveSixFiveHashed.HashStep (.update (.append (ofOid 5))) b' := hb'
    refine .tail (.tail .refl ?_ hashStep_fiveSixFive) ?_ hstep
    · trivial
    have hchanges : fiveSixFiveHashed.changes (.append (ofOid 5)) =
        [(fiveSixFiveHashed, .mirror), (fiveSixFiveHashed.mirror, .mirror),
          (fiveSixFiveHashed, .add (some fiveSixFiveHashed.nextOid) (ofOid 5))] := rfl
    intro x hx
    rw [hchanges] at hx
    simp only [List.mem_cons, List.not_mem_nil, or_false] at hx
    rcases hx with rfl | rfl | rfl
    · trivial
    · trivial
    · exact ⟨nofun, fun hc => absurd hc (by decide)⟩
  exact ⟨b', hb', hindex, (hashValid_of_reaches hrun rfl rfl le_rfl le_rfl).2⟩

/-- **A chain that never ends.**  When the first value is deleted, its memory is given back before
its position is looked up in the index, which stays in the chain of 5.  Then the last value moves
to that position, behind itself. -/
theorem BUNdelete_loops_chain : fiveSixFive.HashStep (.hash true 8 0 fun _ => 0) fiveSixFiveHashed ∧
    fiveSixFiveHashed.T.HashValid fiveSixFiveHashed.first fiveSixFiveHashed.count ∧
    ∃ b' h, fiveSixFiveHashed.apply (.delete 0 false) = .ok b' ∧ b'.T.hash = some h ∧
      HASHprobe h (b'.tail 0) = 5 ∧ h.hash 5 = 0 ∧ h.link 0 = 0 ∧
      ¬ b'.T.HashValid b'.first b'.count := by
  have hstart : fiveSixFive.HashesTrue := ⟨indexed_none rfl _, indexed_none rfl _, le_rfl, le_rfl⟩
  have hhashed : fiveSixFiveHashed.HashesTrue := by
    apply hashesTrue_step hstart _ hashStep_fiveSixFive
    trivial
  refine ⟨hashStep_fiveSixFive, hashValid_of_indexed hhashed.tail, ?_⟩
  have hrun : fiveSixFiveHashed.apply (.delete 0 false) =
      .ok (fiveSixFiveHashed.BUNdelete 0 false).1 := by
    have hlive : fiveSixFiveHashed.Live 0 := by decide
    unfold apply
    exact if_pos hlive
  have hindex : ((fiveSixFiveHashed.BUNdelete 0 false).1.T.hash.map fun h =>
      (h.mask, h.nil, HASHprobe h ((fiveSixFiveHashed.BUNdelete 0 false).1.tail 0),
        h.hash 5, h.link 0)) = some (1023, 65535, 5, 0, 0) := by decide
  obtain ⟨h, hh, heq⟩ := Option.map_eq_some_iff.mp hindex
  simp only [Prod.mk.injEq] at heq
  obtain ⟨hmask, hnil, hprobe, hhead, hlink⟩ := heq
  refine ⟨_, h, hrun, hh, hprobe, hhead, hlink, fun hvalid => ?_⟩
  obtain ⟨l, hl, -⟩ := hvalid h hh 5 (by omega)
  rw [hhead] at hl
  exact hl.next_ne (by omega) hlink

end Bat

end MonetInR.Gdk
