import MonetInR.Sql.Common.ChangeSet

/-!
# Dropped objects across commits

At a commit the objects that a transaction has dropped move to the list of pending drops of its
parent.  They are destroyed when a transaction commits that has drops and is alone.  Behind the loop
that does so, `rollforward_changeset_updates` resets the list of the committing change set once
more, and not that of the parent: what has been destroyed stays pending.  `list_destroy` does not
help, since it leaves the nodes of a list with an allocator as they are.

## Main definitions

* `rollforwardChangesetUpdates`: the phase `R_APPLY` for one change set
* `Store.DestroyedOnce`: destroyed objects have been destroyed once and are gone
* `Waits`: no commit of a run destroys anything

## Main results

* `destroyedOnce_iff_waits`: the runs after which destroyed objects are gone
-/

namespace MonetInR.Sql

open List Option

/-- What a transaction commits: its drops if there is a list of them, and the objects that are
added to the parent, with the number of active transactions. -/
structure Commit where
  dset : Option (List SqlBase)
  creates : List SqlBase
  storeNrActive : ℕ

/-- The change set of the parent, and the objects on which the drop action ran, in order. -/
structure Store where
  ts : ChangeSet
  destroyed : List SqlBase

/-- The first loop: `fb` has been dropped. -/
def ChangeSet.moveDropped (ts : ChangeSet) (fb : SqlBase) : Option ChangeSet :=
  match ts.set.nodes.find? fun tb => tb.name = fb.name with
  | none => some ts
  | some tb => ts.apply (.move false tb)

/-- The second loop, which ends at the first failure: the objects it comes to, and whether there
was none. -/
def dropLoop (rollforwardDeletes : SqlBase → Bool) : List SqlBase → List SqlBase × Bool
  | [] => ([], true)
  | tb :: tbs =>
    if rollforwardDeletes tb then
      let (ran, ok) := dropLoop rollforwardDeletes tbs
      (tb :: ran, ok)
    else ([tb], false)

section

variable (rollforwardDeletes : Option (SqlBase → Bool))

/-- The objects that are destroyed at a commit, with `ts` after its first loop. -/
def cleanup (c : Commit) (ts : ChangeSet) : List SqlBase × Bool :=
  match c.dset, rollforwardDeletes with
  | some _, some f => if c.storeNrActive = 1 then dropLoop f ts.dset.nodes else ([], true)
  | _, _ => ([], true)

def rollforwardChangesetUpdates (s : Store) (c : Commit) : Option Store :=
  ((c.dset.getD []).foldlM ChangeSet.moveDropped s.ts).map fun ts =>
    let (ran, ok) := cleanup rollforwardDeletes c ts
    -- `fs->dset = NULL` and not `ts->dset = NULL`
    ⟨if ok then c.creates.foldl ChangeSet.csAdd ts else ts, s.destroyed ++ ran⟩

/-- **No commit destroys anything**: when one with drops is alone, nothing is pending. -/
def Waits : Store → List Commit → Prop
  | _, [] => True
  | s, c :: cs =>
    (∀ ts, (c.dset.getD []).foldlM ChangeSet.moveDropped s.ts = some ts →
      c.dset.isSome → rollforwardDeletes.isSome → c.storeNrActive = 1 → ts.dset.nodes = []) ∧
    ∀ s', rollforwardChangesetUpdates rollforwardDeletes s c = some s' → Waits s' cs

end

/-- **Each object has been destroyed at most once, and is gone then.** -/
def Store.DestroyedOnce (s : Store) : Prop :=
  ∀ b, s.destroyed.count b ≤ 1 ∧
    (b ∈ s.destroyed → b ∉ s.ts.set.nodes ∧ b ∉ s.ts.dset.nodes)

variable {f : Option (SqlBase → Bool)} {s s' : Store} {c : Commit} {ts ts' : ChangeSet}

/-! ## What stays pending -/

theorem moveDropped_dset {fb : SqlBase} (h : ts.moveDropped fb = some ts') :
    ts.dset.nodes ⊆ ts'.dset.nodes := by
  unfold ChangeSet.moveDropped at h
  split at h
  · rw [some.inj h]
    exact Subset.refl _
  · simp only [ChangeSet.apply, SqlList.listMoveData] at h
    split at h
    · rw [Option.map_map] at h
      obtain ⟨l, -, rfl⟩ := map_eq_some_iff.mp h
      exact subset_append_left _ _
    · obtain rfl := some.inj h
      exact subset_append_left _ _

theorem foldlM_moveDropped_dset {fbs : List SqlBase}
    (h : fbs.foldlM ChangeSet.moveDropped ts = some ts') : ts.dset.nodes ⊆ ts'.dset.nodes := by
  induction fbs generalizing ts with
  | nil =>
    rw [some.inj h]
    exact Subset.refl _
  | cons fb fbs ih =>
    obtain ⟨ts₁, h1, h2⟩ := bind_eq_some_iff.mp h
    exact List.Subset.trans (moveDropped_dset h1) (ih h2)

theorem foldl_csAdd_dset (bs : List SqlBase) (ts : ChangeSet) :
    (bs.foldl ChangeSet.csAdd ts).dset = ts.dset := by
  induction bs generalizing ts with
  | nil => rfl
  | cons b bs ih => exact ih (ts.csAdd b)

theorem dropLoop_subset (f : SqlBase → Bool) (tbs : List SqlBase) : (dropLoop f tbs).1 ⊆ tbs := by
  induction tbs with
  | nil => exact Subset.refl _
  | cons tb tbs ih =>
    unfold dropLoop
    split
    · exact cons_subset_cons tb ih
    · exact cons_subset_cons tb (nil_subset tbs)

theorem dropLoop_eq_nil {f : SqlBase → Bool} {tbs : List SqlBase} :
    (dropLoop f tbs).1 = [] ↔ tbs = [] := by
  cases tbs with
  | nil => simp [dropLoop]
  | cons tb tbs =>
    unfold dropLoop
    split <;> simp

theorem cleanup_subset (f : Option (SqlBase → Bool)) (c : Commit) (ts : ChangeSet) :
    (cleanup f c ts).1 ⊆ ts.dset.nodes := by
  unfold cleanup
  split
  · split
    · exact dropLoop_subset _ _
    · exact nil_subset _
  · exact nil_subset _

theorem cleanup_eq_nil : (cleanup f c ts).1 = [] ↔
    (c.dset.isSome → f.isSome → c.storeNrActive = 1 → ts.dset.nodes = []) := by
  cases hc : c.dset with
  | none => simp [cleanup, hc]
  | some d =>
    cases f with
    | none => simp [cleanup]
    | some g => by_cases h1 : c.storeNrActive = 1 <;> simp [cleanup, hc, h1, dropLoop_eq_nil]

/-- **One commit**: what it destroys is pending, and stays so. -/
theorem commit_spec (h : rollforwardChangesetUpdates f s c = some s') :
    ∃ ts, (c.dset.getD []).foldlM ChangeSet.moveDropped s.ts = some ts ∧
      s'.destroyed = s.destroyed ++ (cleanup f c ts).1 ∧ ts.dset.nodes = s'.ts.dset.nodes := by
  obtain ⟨ts, hts, rfl⟩ := map_eq_some_iff.mp h
  refine ⟨ts, hts, rfl, ?_⟩
  dsimp only
  split
  · rw [foldl_csAdd_dset]
  · rfl

/-- Everything destroyed is pending. -/
def Store.Pending (s : Store) : Prop := s.destroyed ⊆ s.ts.dset.nodes

theorem pending_commit (hs : s.Pending) (h : rollforwardChangesetUpdates f s c = some s') :
    s'.Pending := by
  obtain ⟨ts, hts, hd, hdset⟩ := commit_spec h
  unfold Store.Pending
  rw [hd, ← hdset, append_subset]
  exact ⟨List.Subset.trans hs (foldlM_moveDropped_dset hts), cleanup_subset f c ts⟩

theorem destroyedOnce_iff (hs : s.Pending) : s.DestroyedOnce ↔ s.destroyed = [] := by
  refine ⟨fun h => ?_, fun h b => ?_⟩
  · rw [eq_nil_iff_forall_not_mem]
    exact fun b hb => ((h b).2 hb).2 (hs hb)
  · simp [h]

/-- A run from a store in which everything destroyed is pending. -/
theorem destroyedOnce_of_pending (cs : List Commit) (hs : s.Pending)
    (hrun : cs.foldlM (rollforwardChangesetUpdates f) s = some s') :
    s'.DestroyedOnce ↔ s.destroyed = [] ∧ Waits f s cs := by
  induction cs generalizing s with
  | nil =>
    obtain rfl := some.inj hrun
    rw [destroyedOnce_iff hs]
    exact (and_iff_left trivial).symm
  | cons c cs ih =>
    obtain ⟨s₁, h1, h2⟩ := bind_eq_some_iff.mp hrun
    obtain ⟨ts, hts, hd, -⟩ := commit_spec h1
    -- the first commit must not destroy anything, nor any that follows
    rw [ih (pending_commit hs h1) h2, hd, append_eq_nil_iff, cleanup_eq_nil, and_assoc]
    simp only [Waits, hts, h1, some.injEq, forall_eq']

/-- **Every run of commits**: each object is destroyed at most once, and then no longer pending, if
and only if no commit destroys any.  What is destroyed stays on the list of what is pending. -/
theorem destroyedOnce_iff_waits (ts : ChangeSet) (cs : List Commit)
    (hrun : cs.foldlM (rollforwardChangesetUpdates f) ⟨ts, []⟩ = some s) :
    s.DestroyedOnce ↔ Waits f ⟨ts, []⟩ cs :=
  (destroyedOnce_of_pending cs (nil_subset _) hrun).trans (and_iff_right rfl)

def twoObjects : ChangeSet := ⟨⟨true, [⟨1, [97]⟩, ⟨2, [98]⟩], none⟩, ⟨true, [], none⟩⟩

/-- Two commits drop them one after the other, with `n` active transactions. -/
def twoDrops (n : ℕ) : List Commit := [⟨some [⟨1, [97]⟩], [], n⟩, ⟨some [⟨2, [98]⟩], [], n⟩]

theorem twoDrops_shared : ∃ s, (twoDrops 2).foldlM
    (rollforwardChangesetUpdates (some fun _ => true)) ⟨twoObjects, []⟩ = some s ∧
      s.DestroyedOnce :=
  ⟨_, rfl, (destroyedOnce_iff_waits (f := some fun _ => true) twoObjects (twoDrops 2) rfl).mpr
    (by simp [Waits, twoDrops])⟩

/-- The second commit destroys the first object again. -/
theorem twoDrops_alone : ∃ s, (twoDrops 1).foldlM
    (rollforwardChangesetUpdates (some fun _ => true)) ⟨twoObjects, []⟩ = some s ∧
      s.destroyed.count ⟨1, [97]⟩ = 2 ∧ ⟨1, [97]⟩ ∈ s.ts.dset.nodes ∧ ¬ s.DestroyedOnce :=
  ⟨_, rfl, by decide, by decide, fun h => absurd (h ⟨1, [97]⟩).1 (by decide)⟩

end MonetInR.Sql
