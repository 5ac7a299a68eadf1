import MonetInR.Gdk.Bat.Indexed

/-!
# The flags after an undo

`BATundo` brings deleted values back.  It clears the flags for order and uniqueness of a column if
there are any, but keeps those for nils, which need not be true of the committed values: an inserted
nil sets `nil`, and `nonil` is set when a BAT that holds nothing but deleted values is cleared or
gets its first new value.

Between two commits the updates leave the committed values where the undo finds them, unless one of
them is deleted or overwritten by force.  As long as none has been deleted, the flags for order and
uniqueness can only become weaker, so that they stay true of the committed values.

## Main definitions

* `Bat.committed`: the committed values of a column, the deleted ones among them
* `Bat.Undoable`: a change that an undo can take back
* `Bat.UndoReady`: what such changes preserve

## Main results

* `flagsTrue_undo_of_reaches`: after every sequence of such changes, the undo leaves all flags true
  if and only if those for nils are true of the committed values
-/

namespace MonetInR.Gdk

open OidAtom IntervalSearch List Col Runs

namespace Col

variable {V : Type*} [OidAtom V] {c c' : Col V} {first count n p last : ℕ}

/-- **The flags for order and uniqueness that an undo may keep**: as long as no value has been
deleted, they are true of the `n` committed values. -/
structure OrderKept (c : Col V) (first n : ℕ) : Prop where
  dense_oid : c.dense = true → c.type = .void ∨ c.type = .oid
  order : first = 0 → 0 < n → { c with nil := false, nonil := false }.Sound (c.live 0 n)

theorem OrderKept.weaken (h : c.OrderKept first n)
    (hd : c'.dense = true → c'.type = .void ∨ c'.type = .oid)
    (hw : first = 0 → 0 < n → c'.Weaker c ∧ ∀ p < n, c'.value 0 p = c.value 0 p) :
    c'.OrderKept first n where
  dense_oid := hd
  order hf hn := by
    obtain ⟨hw, hval⟩ := hw hf hn
    have hlive : c'.live 0 n = c.live 0 n := slice_congr fun p _ hp => hval p (by omega)
    rw [hlive]
    exact (h.order hf hn).weaken ⟨hw.type, hw.seq, hw.key, hw.sorted, hw.revsorted, hw.dense⟩ id id

/-- The index of a column says nothing about its order. -/
theorem OrderKept.rehash (h : c.OrderKept first n) (hash : Option Hash) :
    { c with hash := hash }.OrderKept first n :=
  ⟨h.dense_oid, fun hf hn => (h.order hf hn).frame hash c.heap⟩

/-- Values that have all been committed, or of which some are only waiting for it. -/
theorem OrderKept.of_sound (h : c.Sound (c.live first count)) (hn : n ≤ first + count) :
    c.OrderKept first n where
  dense_oid := h.dense_oid
  order hf _ := by
    subst hf
    have happend : c.live 0 count = c.live 0 n ++ slice (c.value 0) n (0 + count) := by
      unfold live
      rw [Nat.zero_add n]
      exact slice_append _ (Nat.zero_le n) hn
    have hsub : (c.live 0 n).Sublist (c.live 0 count) := happend ▸ sublist_append_left _ _
    refine ⟨fun hs => (h.sorted hs).sublist hsub, fun hs => (h.revsorted hs).sublist hsub,
      fun hk => (h.key hk).sublist hsub, fun s hd hs => ?_, h.dense_oid, nofun, nofun⟩
    have hl := h.dense s hd hs
    rw [happend, length_append, ← Nat.add_assoc,
      slice_append ofOid (Nat.le_add_right s (c.live 0 n).length) (Nat.le_add_right _ _)] at hl
    exact (append_inj hl (by rw [length_slice, Nat.add_sub_cancel_left])).1

/-! ## Changes of a column

As long as nothing has been deleted, an update can only take flags for order and uniqueness away. -/

theorem setcolprops_weaker (hc : count ≠ 0) (c : Col V) (first : ℕ) (x : Option V) :
    (c.setcolprops first count x).Weaker c := by
  unfold setcolprops
  simp only [if_neg hc]
  split
  · split
    · exact ⟨rfl, rfl, id, id, nofun, id⟩
    · exact ⟨rfl, rfl, fun h => absurd rfl h, id, id, id⟩
  · refine ⟨rfl, rfl, fun hk h => hk ?_, ?_, ?_, ?_⟩
    · dsimp only
      rw [h, ite_self]
    all_goals exact fun h => (Bool.and_eq_true _ _ ▸ h).1

theorem setcolprops_dense_oid (h : c.dense = true → c.type = .void ∨ c.type = .oid)
    (first count : ℕ) (x : Option V) (hd : (c.setcolprops first count x).dense = true) :
    (c.setcolprops first count x).type = .void ∨ (c.setcolprops first count x).type = .oid := by
  rw [(c.setcolprops_frame first count x).1]
  by_cases hc : count = 0
  · rcases hty : c.type with _ | _ | lin
    · exact .inl rfl
    · exact .inr rfl
    · -- other columns are not looked at
      rw [← hty]
      simp only [setcolprops, if_pos hc, hty] at hd
      exact h hd
  · exact h ((setcolprops_weaker hc c first x).dense hd)

theorem OrderKept.add (h : c.OrderKept first n) (hn : n ≤ first + count) (x : Option V) (v : V)
    (hash : Option Hash) :
    { (c.setcolprops first count x).put (first + count) v with hash := hash }.OrderKept
      first n := by
  refine h.weaken (setcolprops_dense_oid h.dense_oid first count x) fun hf hpos => ?_
  subst hf
  have hw := setcolprops_weaker (show count ≠ 0 by omega) c 0 x
  refine ⟨⟨hw.type, hw.seq, hw.key, hw.sorted, hw.revsorted, hw.dense⟩, fun p hp => ?_⟩
  exact add_value c ⟨Nat.zero_le p, hp.trans_le hn⟩ x v hash

theorem OrderKept.delLast (h : c.OrderKept first n) (hp : n ≤ p) (hlast : p ≤ last) :
    (c.delLast first p last).OrderKept first n := by
  have hw := (c.delLast_weaker first p last).1
  refine h.weaken (fun hd => hw.type ▸ h.dense_oid (hw.dense hd))
    fun hf hpos => ⟨hw, fun q hq => ?_⟩
  subst hf
  by_cases ht : c.type = .void
  · exact congrFun (value_congr hw.type (fun _ => hw.seq) (fun hv => absurd ht hv) 0) q
  · rw [delLast_value ht 0 p (by omega), if_neg (by omega)]

theorem OrderKept.replace (h : c.OrderKept first n) (hp : n ≤ p) (t : V) :
    (c.replace first count p t).OrderKept first n := by
  have hdense : (c.replace first count p t).dense = true → c.dense = true := fun hd =>
    (Bool.and_eq_true _ _ ▸ (Bool.and_eq_true _ _ ▸ hd).1).1
  refine h.weaken (fun hd => h.dense_oid (hdense hd)) fun hf hpos => ?_
  subst hf
  have hw : (c.replace 0 count p t).Weaker c := replace_weaker count t (.inr (by omega))
  refine ⟨hw, fun q hq => ?_⟩
  by_cases ht : c.type = .void
  · exact congrFun (value_congr hw.type (fun _ => hw.seq) (fun hv => absurd ht hv) 0) q
  · rw [replace_value ht, if_neg (by omega)]

theorem OrderKept.materialize (h : c.OrderKept first n) (hv : c.voidDense)
    (hn : n ≤ first + count) : (c.materialize count).OrderKept first n := by
  obtain ⟨s, ht, hs, hdef⟩ := materialize_of_voidDense hv count
  refine ⟨fun _ => .inr (by rw [hdef]), fun hf hpos => ?_⟩
  have hlive : (c.materialize count).live 0 n = c.live 0 n :=
    slice_congr fun p _ hp => materialize_value hv (by omega)
  have h' := h.order hf hpos
  rw [hlive, hdef]
  refine ⟨h'.sorted, h'.revsorted, h'.key, fun s' _ hs' => ?_, fun _ => .inr rfl, nofun, nofun⟩
  exact h'.dense s' (by simp [isDense, isVoid, ht, hs]) hs'

end Col

namespace Bat

variable {V : Type*} [OidAtom V] {b b' : Bat V}

/-- The value at position `p` after the undo.  Inserted values may have been freed. -/
def undoneAt (b : Bat V) (c : Col V) (p : ℕ) : V :=
  if c.type ≠ .void ∧ p ∈ b.undoPositions then c.atomDel.elim (c.heap p) fun del => del (c.heap p)
  else c.value b.deleted p

/-- The values of a column after the undo: those that have been committed if the first of them is
at position 0. -/
def undone (b : Bat V) (c : Col V) : List V :=
  slice (b.undoneAt c) b.deleted (b.deleted + b.inserted)

/-- **The flags that `BATundo` keeps are true** of the values it leaves: all of them if no value
comes back, and otherwise those for nils. -/
def UndoTrue (b : Bat V) (c : Col V) : Prop :=
  if b.deleted < b.first then
    (c.nil = true → ⊥ ∈ b.undone c) ∧ (c.nonil = true → ⊥ ∉ b.undone c) ∧
      (c.dense = true → c.key = .no → c.type = .void ∨ c.type = .oid)
  else c.Sound (b.undone c)

theorem undoInserted_eq (first bunlast : ℕ) : ∀ (ps : List ℕ) (c : Col V), ps.Nodup →
    ∃ hash heap, undoInserted c first bunlast ps = { c with hash := hash, heap := heap } ∧
      ∀ p, heap p = if c.type ≠ .void ∧ p ∈ ps then
        c.atomDel.elim (c.heap p) fun del => del (c.heap p) else c.heap p
  | [], c, _ => ⟨c.hash, c.heap, rfl, fun p => by simp⟩
  | q :: ps, c, hps => by
    obtain ⟨hq, hps⟩ := nodup_cons.mp hps
    set c' := (c.hashdel first q (q < bunlast)).free q with hc'
    obtain ⟨hash, heap, heq, hheap⟩ := undoInserted_eq first bunlast ps c' hps
    have hother : ∀ p, p ≠ q → c'.heap p = c.heap p := fun p hp => free_heap_of_ne hp
    refine ⟨hash, heap, heq, fun p => (hheap p).trans ?_⟩
    have hty : c'.type = c.type := rfl
    rw [hty]
    -- each position is freed once
    rcases eq_or_ne p q with rfl | hne
    · rw [if_neg fun h => hq h.2]
      change (if c.type = .void then c.heap else _) p = _
      by_cases hv : c.type = .void
      · rw [if_pos hv, if_neg fun h => h.1 hv]
      · rw [if_neg hv, if_pos ⟨hv, mem_cons_self⟩]
        change (c.atomDel.elim _ _ : ℕ → V) p = _
        cases c.atomDel
        · rfl
        · exact Function.update_self ..
    · rw [hother p hne]
      exact if_congr (by simp [hne]) rfl rfl

theorem undoDeleted_eq (first count : ℕ) : ∀ (ps : List ℕ) (c : Col V),
    ∃ hash, undoDeleted c first count ps = { c with hash := hash }
  | [], c => ⟨c.hash, rfl⟩
  | p :: ps, c => by
    obtain ⟨hash1, h1⟩ := HASHins_frame c first count p (c.value first p)
    obtain ⟨hash, h⟩ := undoDeleted_eq first count ps (c.HASHins first count p (c.value first p))
    exact ⟨hash, h.trans (by rw [h1])⟩

omit [OidAtom V] in
theorem nodup_undoPositions (b : Bat V) : b.undoPositions.Nodup := by
  unfold undoPositions
  dsimp only
  split_ifs
  · exact nodup_range'
  · exact nodup_nil

theorem undoCol_spec (b : Bat V) (c : Col V) :
    (b.undoCol c b.undoPositions).live b.deleted b.inserted = b.undone c ∧
      ∃ hash heap, b.undoCol c b.undoPositions =
        { (if b.deleted < b.first then zapProps c else c) with hash := hash, heap := heap } := by
  obtain ⟨hash, heap, heq, hheap⟩ :=
    undoInserted_eq b.first (sub64 b.last 1) b.undoPositions c b.nodup_undoPositions
  have hframe : ∃ hash', b.undoCol c b.undoPositions =
      { (if b.deleted < b.first then zapProps c else c) with hash := hash', heap := heap } := by
    unfold undoCol
    dsimp only
    rw [heq]
    split_ifs
    · obtain ⟨hash', h'⟩ := undoDeleted_eq b.first b.count (range' b.deleted (b.first - b.deleted))
        (zapProps { c with hash := hash, heap := heap })
      refine ⟨hash', h'.trans ?_⟩
      unfold zapProps
      dsimp only
      split_ifs <;> rfl
    · exact ⟨hash, rfl⟩
  obtain ⟨hash', h'⟩ := hframe
  refine ⟨?_, hash', heap, h'⟩
  obtain ⟨hty, hseq, -⟩ := b.undoCol_frame c b.undoPositions
  refine slice_congr fun p _ _ => ?_
  unfold undoneAt
  by_cases hv : c.type = .void
  · rw [if_neg fun h => h.1 hv]
    exact congrFun (value_congr hty (fun _ => hseq) (fun h => absurd hv h) _) p
  · rw [value_of_ne_void (hty.trans_ne hv), h']
    exact (hheap p).trans (if_congr Iff.rfl rfl (value_of_ne_void hv _ _).symm)

/-- The flags for order and uniqueness are gone after values have come back. -/
theorem sound_zapProps_iff {c : Col V} {l : List V}
    (hl : ∀ s, c.type = .void → c.seq = some s → l = slice ofOid s (s + l.length)) :
    (zapProps c).Sound l ↔ (c.nil = true → ⊥ ∈ l) ∧ (c.nonil = true → ⊥ ∉ l) ∧
      (c.dense = true → c.key = .no → c.type = .void ∨ c.type = .oid) := by
  have hz : zapProps c = { c with
      sorted := false, revsorted := false, key := .no, dense := c.dense && c.key == .no } := by
    unfold zapProps
    by_cases hk : c.key = .no
    · simp [hk]
    · simp [hk]
  rw [hz]
  constructor
  · intro h
    exact ⟨h.nil, h.nonil, fun hd hk => h.dense_oid (by simp [hd, hk])⟩
  · rintro ⟨hnil, hnonil, hdense⟩
    refine ⟨nofun, nofun, fun h => absurd rfl h, fun s hd hs => hl s ?_ hs, fun hd => ?_, hnil,
      hnonil⟩
    · simpa [isDense, isVoid] using (Bool.and_eq_true_iff.mp hd).1
    · have hand := Bool.and_eq_true_iff.mp hd
      exact hdense hand.1 (by simpa using hand.2)

/-- **The flags are true after an undo** if and only if those that it keeps are true of the values
that it leaves. -/
theorem flagsTrue_BATundo_iff (hu : b.BATundo = some b') :
    b'.FlagsTrue ↔ b.UndoTrue b.H ∧ b.UndoTrue b.T := by
  obtain ⟨hH, hT, hfirst, hcount, -⟩ := BATundo_spec hu
  have hcol : ∀ c : Col V, (b.undoCol c b.undoPositions).Sound
      ((b.undoCol c b.undoPositions).live b.deleted b.inserted) ↔ b.UndoTrue c := by
    intro c
    obtain ⟨hlive, hash, heap, heq⟩ := b.undoCol_spec c
    obtain ⟨hty, hseq, -⟩ := b.undoCol_frame c b.undoPositions
    have hdense : ∀ s, c.type = .void → c.seq = some s →
        b.undone c = slice ofOid s (s + (b.undone c).length) := fun s hv hs => by
      rw [← hlive, length_live]
      exact live_void_some (hty.trans hv) (hseq.trans hs) _ _
    -- the flags do not speak about the heap and the index
    have hframe : ∀ d : Col V, { d with hash := hash, heap := heap }.Sound (b.undone c) ↔
        d.Sound (b.undone c) := fun d =>
      ⟨fun h => ⟨h.sorted, h.revsorted, h.key, h.dense, h.dense_oid, h.nil, h.nonil⟩,
        fun h => h.frame _ _⟩
    rw [hlive, heq]
    refine (hframe _).trans ?_
    unfold UndoTrue
    split_ifs
    · exact sound_zapProps_iff hdense
    · exact Iff.rfl
  unfold FlagsTrue
  rw [hH, hT, hfirst, hcount]
  exact and_congr (hcol b.H) (hcol b.T)

/-! ## Between two commits

Updates that can be taken back leave the committed values in their places, which is what the undo
relies on. -/

/-- The committed values of a column, those that have been deleted since among them. -/
def committed (b : Bat V) (c : Col V) : List V := slice (c.value b.deleted) b.deleted b.inserted

/-- **A change that an undo can take back**: no committed BUN is deleted or overwritten by force. -/
def Undoable (b : Bat V) : Change V → Prop
  | .delete p force => force = true → b.inserted ≤ p
  | .replace p _ => b.inserted ≤ p
  | _ => True

/-- All changes of an update can be taken back. -/
def StepUndoable (b : Bat V) (u : Update V) : Prop := ∀ x ∈ b.changes u, Undoable x.1 x.2

/-- What undoable changes preserve: the regions are where the undo expects them, and the flags for
order and uniqueness that it may keep are true. -/
structure UndoReady (b : Bat V) : Prop where
  deleted : b.deleted = 0
  first_le : b.first ≤ b.inserted
  le_last : b.inserted ≤ b.last
  head : b.H.OrderKept b.first b.inserted
  tail : b.T.OrderKept b.first b.inserted

theorem undoReady_BUNdelete_ {p : ℕ} {force : Bool} (hb : b.UndoReady) (hp : b.Live p)
    (hk : force = true → b.inserted ≤ p) : (b.BUNdelete_ p force).1.UndoReady := by
  obtain ⟨hp1, hp2⟩ := hp
  have hle := hb.le_last
  unfold last at hp2 hle
  unfold BUNdelete_
  dsimp only
  by_cases hc : (p < b.inserted && !force) = true
  · -- a committed BUN: nothing is asked of the order any more
    have hlt : p < b.inserted := of_decide_eq_true (Bool.and_eq_true _ _ ▸ hc).1
    rw [if_pos hc]
    have hcol : ∀ c c' : Col V, c.OrderKept b.first b.inserted → c'.type = c.type →
        (c'.dense = true → c.dense = true) → c'.OrderKept (b.first + 1) b.inserted :=
      fun c c' h hty hd => ⟨fun hd' => hty ▸ h.dense_oid (hd hd'), fun hf => absurd hf (by omega)⟩
    have hdelFirst : ∀ c : Col V, (c.delFirst b.first p (b.last - 1)).dense = c.dense := by
      intro c
      rw [delFirst]
      split_ifs <;> rfl
    split_ifs with hfirst
    · exact ⟨hb.deleted, by dsimp only; omega, by unfold last; dsimp only; omega,
        hcol _ _ hb.head (delFirst_frame ..).1 fun hd => hdelFirst b.H ▸ hd,
        hcol _ _ hb.tail (delFirst_frame ..).1 fun hd => hdelFirst b.T ▸ hd⟩
    · exact ⟨hb.deleted, by dsimp only; omega, by unfold last; dsimp only; omega,
        hcol _ _ hb.head rfl fun hd => absurd hd Bool.false_ne_true,
        hcol _ _ hb.tail rfl fun hd => absurd hd Bool.false_ne_true⟩
  · have hge : b.inserted ≤ p := by
      by_contra hlt
      cases force with
      | true => exact hlt (hk rfl)
      | false => simp [not_le.mp hlt] at hc
    rw [if_neg hc]
    refine ⟨hb.deleted, hb.first_le, ?_, hb.head.delLast hge ?_, hb.tail.delLast hge ?_⟩
    · unfold last
      dsimp only
      omega
    all_goals
      unfold last
      omega

theorem undoReady_clearAll (hb : b.UndoReady) (force : Bool) : (b.clearAll force).UndoReady := by
  have hcol : ∀ c : Col V, c.OrderKept b.first b.inserted → ∀ p n first m, first = m →
      (freeAll { c with hash := none } p n).COLsettrivprop.OrderKept first m := by
    intro c h p n first m hm
    obtain ⟨heap, hh⟩ := freeAll_frame { c with hash := none } p n
    obtain ⟨hty, hd, -⟩ := (freeAll { c with hash := none } p n).COLsettrivprop_frame
    rw [hh] at hty hd ⊢
    refine ⟨fun hd' => ?_, fun hf hpos => absurd hpos (by omega)⟩
    rw [hty]
    exact (hd hd').elim h.dense_oid .inl
  cases force with
  | true => exact ⟨rfl, le_rfl, le_rfl, hcol _ hb.head _ _ _ _ rfl, hcol _ hb.tail _ _ _ _ rfl⟩
  | false =>
    exact ⟨hb.deleted, le_rfl, le_rfl, hcol _ hb.head _ _ _ _ rfl, hcol _ hb.tail _ _ _ _ rfl⟩

theorem undoReady_change {e : Change V} (hb : b.UndoReady) (hk : b.Undoable e)
    (he : b.Changes e b') : b'.UndoReady := by
  have hle := hb.le_last
  unfold last at hle
  cases e with
  | mirror =>
    obtain rfl := he
    exact ⟨hb.deleted, hb.first_le, hb.le_last, hb.tail, hb.head⟩
  | materialize =>
    obtain ⟨hv, rfl⟩ := he
    rw [BATmaterializeh, if_pos hv]
    exact ⟨hb.deleted, hb.first_le, hb.le_last, (hb.head.materialize hv hle).rehash none,
      hb.tail.rehash none⟩
  | seed x =>
    -- a BAT that is empty has no committed values
    obtain ⟨hv, hc, -, rfl⟩ := he
    refine ⟨hb.deleted, hb.first_le, hb.le_last, ⟨fun _ => .inl hv.1, fun hf hpos => ?_⟩, hb.tail⟩
    dsimp only at hf hpos
    omega
  | delete p force =>
    obtain ⟨hp, -, rfl⟩ := he
    exact undoReady_BUNdelete_ hb hp hk
  | replace p t =>
    obtain ⟨-, rfl⟩ := he
    exact ⟨hb.deleted, hb.first_le, hb.le_last, hb.head, hb.tail.replace hk t⟩
  | add h t =>
    obtain ⟨-, -, -, ha⟩ := he
    obtain ⟨hH, hT, cap, rfl⟩ := addLast_spec ha
    refine ⟨hb.deleted, hb.first_le, ?_, hb.head.add hle h _ hH, hb.tail.add hle _ _ hT⟩
    unfold last
    dsimp only
    omega
  | clear force =>
    obtain ⟨-, rfl⟩ := he
    exact undoReady_clearAll hb force

theorem undoReady_of_reaches
    (hr : Reaches (fun b u b' => b.apply u = .ok b') StepUndoable b b') (hb : b.UndoReady) :
    b'.UndoReady := by
  have hstep : ∀ (b : Bat V) (u : Update V) (b' : Bat V),
      b.UndoReady → b.StepUndoable u → b.apply u = .ok b' → b'.UndoReady := by
    intro b u b' hb hk hu
    exact (trace_apply hu).invariant (fun _ _ _ => undoReady_change) hk hb
  exact hr.invariant hstep hb

/-! ## The undo -/

/-- The undo frees inserted values only. -/
theorem UndoReady.undone_eq (hb : b.UndoReady) (c : Col V) : b.undone c = b.committed c := by
  unfold undone committed
  rw [hb.deleted, Nat.zero_add]
  refine slice_congr fun p _ hp => ?_
  have hpos : p ∉ b.undoPositions := by
    unfold undoPositions
    dsimp only
    split_ifs
    · rw [mem_range'_1]
      omega
    · exact not_mem_nil
  rw [undoneAt, if_neg fun h => hpos h.2, hb.deleted]

/-- The flags for nils are true of the committed values. -/
def NilsTrue (b : Bat V) (c : Col V) : Prop :=
  (c.nil = true → ⊥ ∈ b.committed c) ∧ (c.nonil = true → ⊥ ∉ b.committed c)

theorem UndoReady.undoTrue_iff (hb : b.UndoReady) {c : Col V}
    (hc : c.OrderKept b.first b.inserted) : b.UndoTrue c ↔ b.NilsTrue c := by
  unfold UndoTrue NilsTrue
  rw [hb.undone_eq c]
  split_ifs with hdel
  · exact ⟨fun h => ⟨h.1, h.2.1⟩, fun h => ⟨h.1, h.2, fun hd _ => hc.dense_oid hd⟩⟩
  · rw [hb.deleted] at hdel
    have hcommitted : b.committed c = c.live 0 b.inserted := by
      rw [committed, hb.deleted, live, Nat.zero_add]
    rw [hcommitted]
    refine ⟨fun h => ⟨h.nil, h.nonil⟩, fun h => ?_⟩
    rcases Nat.eq_zero_or_pos b.inserted with h0 | hpos
    · rw [h0, live_zero] at h ⊢
      exact ⟨fun _ => .nil, fun _ => .nil, fun _ => .nil,
        fun s _ _ => (slice_eq_nil _ (le_refl s)).symm, hc.dense_oid, h.1, h.2⟩
    · have ho := hc.order (by omega) hpos
      exact ⟨ho.sorted, ho.revsorted, ho.key, ho.dense, ho.dense_oid, h.1, h.2⟩

/-- **The flags after an undo.**  In a BAT whose first committed BUN is at position 0 and whose
flags are true, let updates follow that an undo can take back.  The undo then leaves all flags true
if and only if those for nils, as they are before it, are true of the committed values. -/
theorem flagsTrue_undo_of_reaches {b₀ : Bat V} (h₀ : b₀.FlagsTrue) (hdel : b₀.deleted = 0)
    (hfirst : b₀.first ≤ b₀.inserted) (hins : b₀.inserted ≤ b₀.last)
    (hr : Reaches (fun b u b' => b.apply u = .ok b') StepUndoable b₀ b)
    (hu : b.BATundo = some b') : b'.FlagsTrue ↔ b.NilsTrue b.H ∧ b.NilsTrue b.T := by
  have hb : b.UndoReady := undoReady_of_reaches hr
    ⟨hdel, hfirst, hins, .of_sound h₀.1 hins, .of_sound h₀.2 hins⟩
  rw [flagsTrue_BATundo_iff hu, hb.undoTrue_iff hb.head, hb.undoTrue_iff hb.tail]

/-- The oids 5 and nil, both committed. -/
def committedFive : Bat OidVal := { fiveNil with inserted := 2 }

/-- The committed value 5 is deleted and 7 is added.  The undo brings 5 back, and the flags are true
of the committed values again. -/
theorem flagsTrue_undo_deletedFive : ∃ b₁ b₂ b₃, committedFive.apply (.delete 0 false) = .ok b₁ ∧
    b₁.apply (.append (ofOid 7)) = .ok b₂ ∧ b₂.T.live b₂.first b₂.count = [⊥, ofOid 7] ∧
      b₂.BATundo = some b₃ ∧ b₃.T.live b₃.first b₃.count = [ofOid 5, ⊥] ∧ b₃.FlagsTrue := by
  have h₀ : committedFive.FlagsTrue := flagsTrue_fiveNil
  refine ⟨_, _, _, rfl, rfl, rfl, rfl, rfl, ?_⟩
  refine (flagsTrue_undo_of_reaches h₀ rfl (Nat.zero_le 2) le_rfl
    (.tail (.tail .refl (a := .delete 0 false) ?_ rfl) (a := .append (ofOid 7)) ?_ rfl) rfl).mpr ?_
  · exact forall_mem_cons.mpr ⟨trivial, forall_mem_cons.mpr ⟨trivial, forall_mem_cons.mpr ⟨trivial,
      forall_mem_singleton.mpr fun h => absurd h Bool.false_ne_true⟩⟩⟩
  · exact forall_mem_cons.mpr ⟨trivial, forall_mem_cons.mpr ⟨trivial,
      forall_mem_singleton.mpr trivial⟩⟩
  · refine ⟨⟨fun h => absurd h Bool.false_ne_true, fun _ => ?_⟩,
      fun _ => mem_cons_of_mem _ mem_cons_self, fun h => absurd h Bool.false_ne_true⟩
    exact bot_notMem_oids 0 2

/-- **A nil comes back and the flag against nils stays**: `BATclear` sets it. -/
theorem BATundo_nonil_nil : committedFive.FlagsTrue ∧
    ∃ b₁ b₂, committedFive.apply (.clear false) = .ok b₁ ∧ b₁.BATundo = some b₂ ∧
      b₂.T.live b₂.first b₂.count = [ofOid 5, ⊥] ∧ b₂.T.nonil = true ∧ ¬ b₂.FlagsTrue := by
  refine ⟨flagsTrue_fiveNil, _, _, rfl, rfl, rfl, rfl, fun h => ?_⟩
  exact h.2.nonil rfl (mem_cons_of_mem _ mem_cons_self)

end Bat

end MonetInR.Gdk
