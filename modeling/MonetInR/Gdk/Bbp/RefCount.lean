import MonetInR.Lib.LinkCount
import Mathlib.Algebra.GroupWithZero.Nat
import Mathlib.Tactic.FinCases

/-!
# Reference counts of BATs

The buffer pool counts two kinds of references to a BAT.  A physical reference, or fix, keeps it in
memory; a logical one keeps it in existence.  A view borrows heaps of other BATs, its parents: the
head, the tail, and the string heaps of both.  While a view is fixed, its parents are fixed too,
once for every heap: the first fix of a view fixes them and the last unfix releases them.  A view
that exists holds a logical reference and a share on each parent for every heap.  A reference that
is dropped below zero, or a parent that cannot be loaded, ends the computation.

The counts are what clients hold plus the heap links from views.  In the middle of a call the books
do not balance: a view that was just fixed still owes its parents their fixes, and one that was just
unloaded still holds references that nobody answers for.  `Balanced` keeps account of both, and the
recursion of the code pays off the debts one link at a time.

## Main definitions

* `Pool`: the BATs and their parents
* `incref`, `decref`: add and drop a reference
* `RefOp`: the calls of a client, with the references it holds

## Main results

* `decref_spec`, `increfPhysical_spec`: what one call does to the books
* `balanced_step`: every permitted call succeeds and keeps the books balanced
* `balanced_of_reaches`: the books are balanced after any number of calls
-/

namespace MonetInR.Gdk.Bbp

open LinkCount List Option Nat

variable {ι : Type*} [DecidableEq ι]

/-! ## The pool

Which heaps a BAT borrows from which other BATs does not change while it exists, so the parents are
part of the pool and only the counts are state. -/

/-- The parents of a BAT: `heap.parentid` of head and tail, and `VIEWvhparent` and `VIEWvtparent`,
which are none if the BAT has no string heap or its own. -/
structure Parents (ι : Type*) where
  hp : Option ι
  tp : Option ι
  hvp : Option ι
  tvp : Option ι

namespace Parents

/-- The links in the order in which they are fixed and released. -/
def links (d : Parents ι) : List ι := [d.hp, d.tp, d.hvp, d.tvp].filterMap id

/-- The links in the order in which `BBPdestroy` gives up the shares. -/
def destroyed (d : Parents ι) : List ι := [d.hp, d.hvp, d.tp, d.tvp].filterMap id

/-- `isVIEW`. -/
def isView (d : Parents ι) : Bool := d.hp.isSome || d.tp.isSome || d.hvp.isSome || d.tvp.isSome

end Parents

/-- The BATs and their parents.  No view is its own ancestor: a parent has a smaller rank. -/
structure Pool (ι : Type*) where
  parents : ι → Parents ι
  rank : ι → ℕ
  acyclic : ∀ i, ∀ p ∈ (parents i).links, rank p < rank i

/-- The entry of a BAT in the pool.  The counts are naturals where the code has an `int`: a count is
never decremented at 0, where the code reports an error, and it is not considered that one could
reach 2 ^ 31. -/
structure Entry where
  /-- The physical references, on which it relies that the BAT is in memory. -/
  refs : ℕ
  /-- The logical references, on which it relies that the BAT exists. -/
  lrefs : ℕ
  /-- The views on the BAT. -/
  sharecnt : ℕ
  /-- `BBP_cache(i) != NULL`. -/
  loaded : Bool

/-- The entries, and for every BAT that was unloaded or destroyed the physical count it had. -/
structure State (ι : Type*) where
  entry : ι → Entry
  gone : List (ι × ℕ)

/-- What else decides about unloading: `BBP_lastused(i) == 0`, the status `BBPDELETED`, and whether
saving the BAT to disk would fail. -/
structure Env (ι : Type*) where
  cold : ι → Bool
  deleted : ι → Bool
  saveFails : ι → Bool

/-- Change the entry of a BAT. -/
def State.modify (s : State ι) (i : ι) (f : Entry → Entry) : State ι :=
  { s with entry := Function.update s.entry i (f (s.entry i)) }

variable (P : Pool ι)

/-! ## Adding references

The recursion goes from a view to its parents.  A parent has a smaller rank, so the rank of a BAT is
enough fuel. -/

/-- `getBBPdescriptor` for a BAT with a fix: load it, unless it is in memory.  A view has no files
that it could be loaded from. -/
def load (i : ι) (s : State ι) : Option (State ι) :=
  if (s.entry i).loaded then some s
  else if (P.parents i).isView then none
  else some (s.modify i fun e => { e with loaded := true })

/-- Add a physical reference.  The first one of a view fixes and loads its parents. -/
def increfPhysical : ℕ → ι → State ι → Option (State ι)
  | 0, _, _ => none
  | k + 1, i, s =>
    let s := s.modify i fun e => { e with refs := e.refs + 1 }
    if (s.entry i).refs = 1 then
      (P.parents i).links.foldlM (fun s p => (increfPhysical k p s).bind (load P p)) s
    else some s

/-- Add a reference.  Parents are not relevant for logical ones. -/
def incref (i : ι) (logical : Bool) (s : State ι) : Option (State ι) :=
  if logical then some (s.modify i fun e => { e with lrefs := e.lrefs + 1 })
  else increfPhysical P (P.rank i + 1) i s

/-! ## Dropping references

A BAT that leaves memory gives up what its links stand for.  The order of the steps is that of the
code: the count, then unloading or destroying, then the fixes of the parents. -/

/-- Take a BAT out of memory. -/
def State.remove (s : State ι) (i : ι) (f : Entry → Entry) : State ι where
  entry := Function.update s.entry i { f (s.entry i) with loaded := false }
  gone := s.gone ++ [(i, (s.entry i).refs)]

/-- Drop the share on a parent. -/
def releaseShare (i : ι) (s : State ι) : Option (State ι) :=
  if (s.entry i).sharecnt = 0 then none
  else some (s.modify i fun e => { e with sharecnt := e.sharecnt - 1 })

/-- Take one reference off the count. -/
def decrement (logical : Bool) (i : ι) (s : State ι) : Option (State ι) :=
  if logical then
    if (s.entry i).lrefs = 0 then none
    else some (s.modify i fun e => { e with lrefs := e.lrefs - 1 })
  else
    if (s.entry i).refs = 0 then none
    else some (s.modify i fun e => { e with refs := e.refs - 1 })

/-- Drop a reference.  A BAT without fixes is destroyed if it has no logical reference either, and
unloaded if it is cold; the shares of a view on its parents go with it.  After the last fix of a
view its parents are released. -/
def decref (E : Env ι) : ℕ → Bool → ι → State ι → Option (State ι)
  | 0, _, _, _ => none
  | k + 1, logical, i, s =>
    (decrement logical i s).bind fun s =>
      let e := s.entry i
      let release :=
        if logical = false ∧ e.loaded = true ∧ e.refs = 0 then (P.parents i).links else []
      let unshare : State ι → ι → Option (State ι) := fun s p =>
        (releaseShare p s).bind (decref E k true p)
      let swap := ¬ (0 < e.refs ∨ (0 < e.lrefs ∧ E.cold i = false)) ∧ e.loaded = true
      let destroy := e.lrefs = 0 ∧ E.deleted i = false
      if swap ∧ ¬ destroy ∧ 0 < e.lrefs ∧ (P.parents i).isView = false ∧ E.saveFails i = true then
        -- `BBPfree` has failed, and the call ends
        some s
      else
        (if swap ∧ destroy then
            -- `BBPdestroy`
            (P.parents i).destroyed.foldlM unshare
              (s.remove i fun e => { e with refs := 0, lrefs := 0 })
          else if swap then
            -- `BBPfree`
            (P.parents i).links.foldlM unshare (s.remove i id)
          else some s).bind fun s =>
          release.foldlM (fun s p => decref E k false p s) s

/-- `BBPdecref`. -/
def BBPdecref (E : Env ι) (i : ι) (logical : Bool) (s : State ι) : Option (State ι) :=
  decref P E (P.rank i + 1) logical i s

/-- `BBPkeepref`: turn a physical reference into a logical one. -/
def BBPkeepref (E : Env ι) (i : ι) (s : State ι) : Option (State ι) :=
  (incref P i true s).bind (BBPdecref P E i false)

/-! ## Clients -/

/-- The calls. -/
inductive RefOp (ι : Type*)
  | incref (i : ι) (logical : Bool)
  | decref (i : ι) (logical : Bool)
  | keepref (i : ι)
  deriving DecidableEq, Repr

/-- The pool with the references that a client holds. -/
structure Client (ι : Type*) where
  state : State ι
  fixes : ι → ℕ
  keeps : ι → ℕ

/-- Drop one hold. -/
def dropOne (f : ι → ℕ) (p : ι) : ι → ℕ := fun i => f i - if i = p then 1 else 0

/-- A call of the client.  `BBPreleaseref` is the same as `BBPdecref` of a fix. -/
def RefOp.step (E : Env ι) (c : Client ι) : RefOp ι → Option (Client ι)
  | incref i true => (Bbp.incref P i true c.state).map fun s => ⟨s, c.fixes, addOne c.keeps i⟩
  | incref i false => (Bbp.incref P i false c.state).map fun s => ⟨s, addOne c.fixes i, c.keeps⟩
  | decref i true => (BBPdecref P E i true c.state).map fun s => ⟨s, c.fixes, dropOne c.keeps i⟩
  | decref i false => (BBPdecref P E i false c.state).map fun s => ⟨s, dropOne c.fixes i, c.keeps⟩
  | keepref i => (BBPkeepref P E i c.state).map fun s =>
      ⟨s, dropOne c.fixes i, addOne c.keeps i⟩

/-! ## Entries after a change -/

section entries

variable (s : State ι) (i j : ι) (f : Entry → Entry)

@[simp] theorem entry_modify_self : (s.modify i f).entry i = f (s.entry i) := by
  simp [State.modify]

theorem entry_modify_of_ne {j : ι} (h : j ≠ i) : (s.modify i f).entry j = s.entry j := by
  simp [State.modify, h]

@[simp] theorem entry_remove_self :
    (s.remove i f).entry i = { f (s.entry i) with loaded := false } := by
  simp [State.remove]

theorem entry_remove_of_ne {j : ι} (h : j ≠ i) : (s.remove i f).entry j = s.entry j := by
  simp [State.remove, h]

end entries

theorem Parents.count_destroyed (d : Parents ι) (i : ι) :
    d.destroyed.count i = d.links.count i := by
  apply List.Perm.count_eq
  apply List.Perm.filterMap
  exact .cons _ (.swap _ _ _)

variable {i : ι} {f : Entry → Entry} {d : Parents ι}

theorem Parents.mem_destroyed : i ∈ d.destroyed ↔ i ∈ d.links := by
  rw [← count_pos_iff, ← count_pos_iff, d.count_destroyed]

omit [DecidableEq ι] in
theorem Parents.links_eq_nil (h : d.isView = false) : d.links = [] := by
  obtain ⟨hp, tp, hvp, tvp⟩ := d
  cases hp <;> cases tp <;> cases hvp <;> cases tvp <;> first | rfl | cases h

/-- The heap links of the pool. -/
abbrev Pool.links (P : Pool ι) (i : ι) : List ι := (P.parents i).links

/-! ## The books

The equations say where the counts of an entry come from.  A fix that a call still has to make is
owed, and a reference that a removed view still holds counts as one from outside. -/

section books

variable [Fintype ι]

/-- The BATs with a fix. -/
def State.fixed (s : State ι) : Finset ι := Finset.univ.filter fun i => 0 < (s.entry i).refs

/-- The BATs in memory. -/
def State.cached (s : State ι) : Finset ι := Finset.univ.filter fun i => (s.entry i).loaded = true

omit [DecidableEq ι] in
@[simp] theorem mem_fixed {s : State ι} {i : ι} : i ∈ s.fixed ↔ 0 < (s.entry i).refs := by
  simp [State.fixed]

omit [DecidableEq ι] in
@[simp] theorem mem_cached {s : State ι} {i : ι} :
    i ∈ s.cached ↔ (s.entry i).loaded = true := by
  simp [State.cached]

end books

/-- The counts of an entry are those of its holders: `fixes`, `keeps` and `shares` from outside, and
the links from fixed views and from views in memory.  `owed` are fixes that are not made yet. -/
structure Entry.Balanced (e : Entry) (fixes owed keeps shares fromFixed fromCached : ℕ) :
    Prop where
  refs : e.refs + owed = fixes + fromFixed
  lrefs : e.lrefs = keeps + fromCached
  sharecnt : e.sharecnt = shares + fromCached
  loaded : 0 < e.refs → e.loaded = true

variable [Fintype ι] (P : Pool ι)

/-- The counts of all entries are those of their holders, and no BAT left memory with a fix. -/
structure Balanced (s : State ι) (fixes owed keeps shares : ι → ℕ) : Prop where
  entry : ∀ i, (s.entry i).Balanced (fixes i) (owed i) (keeps i) (shares i)
    (inbound P.links s.fixed i) (inbound P.links s.cached i)
  gone : ∀ e ∈ s.gone, e.2 = 0

variable {P} {s s' : State ι} {fixes owed keeps shares shares' : ι → ℕ} {p : ι}

/-! ## One count at a time

Most changes concern a single count, and leave the BAT fixed or loaded as it was.  Then the links of
all BATs count as before, and only the equation of that count is affected. -/

section

variable (h : Balanced P s fixes owed keeps shares)

include h

/-- A change of one BAT: the links of all other BATs count as before. -/
theorem Balanced.change {fixes' owed' keeps' : ι → ℕ} (hs : ∀ i, i ≠ p → s'.entry i = s.entry i)
    (hgone : ∀ e ∈ s'.gone, e.2 = 0)
    (hbooks : ∀ i m n, (s.entry i).Balanced (fixes i) (owed i) (keeps i) (shares i)
        (m + if 0 < (s.entry p).refs then (P.links p).count i else 0)
        (n + if (s.entry p).loaded = true then (P.links p).count i else 0) →
      (s'.entry i).Balanced (fixes' i) (owed' i) (keeps' i) (shares' i)
        (m + if 0 < (s'.entry p).refs then (P.links p).count i else 0)
        (n + if (s'.entry p).loaded = true then (P.links p).count i else 0)) :
    Balanced P s' fixes' owed' keeps' shares' := by
  have hfixed : s'.fixed.erase p = s.fixed.erase p := by
    ext i
    simp +contextual [hs]
  have hcached : s'.cached.erase p = s.cached.erase p := by
    ext i
    simp +contextual [hs]
  refine ⟨fun i => ?_, hgone⟩
  have hi := h.entry i
  rw [inbound_erase_add P.links s.fixed p, inbound_erase_add P.links s.cached p] at hi
  rw [inbound_erase_add P.links s'.fixed p, inbound_erase_add P.links s'.cached p, hfixed, hcached]
  simp only [mem_fixed, mem_cached] at hi ⊢
  exact hbooks i _ _ hi

/-- A change of the counts of one BAT that neither fixes it nor frees it: only its own equations
have to be looked at. -/
theorem Balanced.modify {fixes' owed' keeps' : ι → ℕ}
    (hpos : 0 < (f (s.entry p)).refs ↔ 0 < (s.entry p).refs)
    (hload : (f (s.entry p)).loaded = (s.entry p).loaded)
    (hne : ∀ i, i ≠ p → fixes' i = fixes i ∧ owed' i = owed i ∧ keeps' i = keeps i ∧
      shares' i = shares i)
    (hp : ∀ m n, (s.entry p).Balanced (fixes p) (owed p) (keeps p) (shares p) m n →
      (f (s.entry p)).Balanced (fixes' p) (owed' p) (keeps' p) (shares' p) m n) :
    Balanced P (s.modify p f) fixes' owed' keeps' shares' := by
  refine h.change (fun i => entry_modify_of_ne _ _ _) h.gone fun i m n hi => ?_
  rw [entry_modify_self, hload]
  simp only [hpos]
  by_cases hip : i = p
  · subst hip
    rw [entry_modify_self]
    exact hp _ _ hi
  · obtain ⟨h1, h2, h3, h4⟩ := hne i hip
    rw [entry_modify_of_ne _ _ _ hip, h1, h2, h3, h4]
    exact hi

theorem Balanced.incref_logical (p : ι) :
    Balanced P (s.modify p fun e => { e with lrefs := e.lrefs + 1 }) fixes owed (addOne keeps p)
      shares := by
  apply h.modify .rfl rfl fun i hi => ⟨rfl, rfl, addOne_of_ne _ hi, rfl⟩
  rintro m n ⟨hr, hl, hs, hm⟩
  rw [addOne_self]
  exact ⟨hr, by dsimp only; omega, hs, hm⟩

end

theorem Balanced.decrement_logical (h : Balanced P s fixes owed (addOne keeps p) shares) :
    ∃ s', decrement true p s = some s' ∧ Balanced P s' fixes owed keeps shares := by
  have hpos : (s.entry p).lrefs ≠ 0 := by
    rw [(h.entry p).lrefs, addOne_self]
    omega
  refine ⟨_, (if_pos rfl).trans (if_neg hpos), ?_⟩
  apply h.modify .rfl rfl fun i hi => ⟨rfl, rfl, (addOne_of_ne _ hi).symm, rfl⟩
  rintro m n ⟨hr, hl, hs, hm⟩
  rw [addOne_self] at hl
  exact ⟨hr, by dsimp only; omega, hs, hm⟩

theorem Balanced.releaseShare (h : Balanced P s fixes owed keeps (addOne shares p)) :
    ∃ s', Bbp.releaseShare p s = some s' ∧ Balanced P s' fixes owed keeps shares := by
  have hpos : (s.entry p).sharecnt ≠ 0 := by
    rw [(h.entry p).sharecnt, addOne_self]
    omega
  refine ⟨_, if_neg hpos, ?_⟩
  apply h.modify .rfl rfl fun i hi => ⟨rfl, rfl, rfl, (addOne_of_ne _ hi).symm⟩
  rintro m n ⟨hr, hl, hs, hm⟩
  rw [addOne_self] at hs
  exact ⟨hr, hl, by dsimp only; omega, hm⟩

theorem Balanced.unfix (h : Balanced P s (addOne fixes p) owed keeps shares)
    (hmore : 1 < (s.entry p).refs) :
    Balanced P (s.modify p fun e => { e with refs := e.refs - 1 }) fixes owed keeps shares := by
  have hpos : 0 < (s.entry p).refs - 1 ↔ 0 < (s.entry p).refs := by omega
  apply h.modify hpos rfl fun i hi => ⟨(addOne_of_ne _ hi).symm, rfl, rfl, rfl⟩
  rintro m n ⟨hr, hl, hs, hm⟩
  rw [addOne_self] at hr
  exact ⟨by dsimp only; omega, hl, hs, fun h => hm (hpos.mp h)⟩

/-- Making a fix that is owed, and not the first one. -/
theorem Balanced.fix (h : Balanced P s fixes (addOne owed p) keeps shares)
    (hmore : 0 < (s.entry p).refs) :
    Balanced P (s.modify p fun e => { e with refs := e.refs + 1 }) fixes owed keeps shares := by
  have hpos : 0 < (s.entry p).refs + 1 ↔ 0 < (s.entry p).refs := by omega
  apply h.modify hpos rfl fun i hi => ⟨rfl, (addOne_of_ne _ hi).symm, rfl, rfl⟩
  rintro m n ⟨hr, hl, hs, hm⟩
  rw [addOne_self] at hr
  exact ⟨by dsimp only; omega, hl, hs, fun h => hm (hpos.mp h)⟩

/-! ## The first fix, the last fix and the end in memory

After these changes the links of a BAT begin to count, or no longer do.  What they stand for is then
owed, or is held by the call alone. -/

/-- The last fix of a BAT: it leaves the fixed ones, and the fixes its links stand for are held by
nobody but this call. -/
theorem Balanced.unfix_last (h : Balanced P s (addOne fixes p) owed keeps shares)
    (hlast : (s.entry p).refs = 1) :
    Balanced P (s.modify p fun e => { e with refs := e.refs - 1 })
      (addList fixes (P.links p)) owed keeps shares := by
  refine h.change (fun i => entry_modify_of_ne _ _ _) h.gone ?_
  rintro i m n ⟨hr, hl, hs, hm⟩
  rw [if_pos (by omega)] at hr
  rw [entry_modify_self, if_neg (by dsimp only; omega), addList]
  by_cases hi : i = p
  · subst hi
    rw [addOne_self] at hr
    rw [entry_modify_self]
    exact ⟨by dsimp only; omega, hl, hs, fun _ => hm (by omega)⟩
  · rw [addOne_of_ne _ hi] at hr
    rw [entry_modify_of_ne _ _ _ hi]
    exact ⟨by omega, hl, hs, hm⟩

/-- The first fix of a BAT in memory: its links are owed. -/
theorem Balanced.fix_first (h : Balanced P s fixes (addOne owed p) keeps shares)
    (hfirst : (s.entry p).refs = 0) (hload : (s.entry p).loaded = true) :
    Balanced P (s.modify p fun e => { e with refs := e.refs + 1 })
      fixes (addList owed (P.links p)) keeps shares := by
  refine h.change (fun i => entry_modify_of_ne _ _ _) h.gone ?_
  rintro i m n ⟨hr, hl, hs, hm⟩
  rw [if_neg (by omega)] at hr
  rw [entry_modify_self, if_pos (succ_pos _), addList]
  by_cases hi : i = p
  · subst hi
    rw [addOne_self] at hr
    rw [entry_modify_self]
    exact ⟨by dsimp only; omega, hl, hs, fun _ => hload⟩
  · rw [addOne_of_ne _ hi] at hr
    rw [entry_modify_of_ne _ _ _ hi]
    exact ⟨by omega, hl, hs, hm⟩

/-- A BAT without fixes leaves memory: the references and shares its links stand for are held by
nobody but this call. -/
theorem Balanced.remove (h : Balanced P s fixes owed keeps shares)
    (hf : f (s.entry p) = s.entry p) (hload : (s.entry p).loaded = true)
    (hrefs : (s.entry p).refs = 0) :
    Balanced P (s.remove p f) fixes owed (addList keeps (P.links p))
      (addList shares (P.links p)) := by
  refine h.change (fun i => entry_remove_of_ne _ _ _) (fun e he => ?_) ?_
  · rcases mem_append.mp he with he | he
    · exact h.gone e he
    · rw [mem_singleton.mp he]
      exact hrefs
  rintro i m n ⟨hr, hl, hs, hm⟩
  rw [if_pos hload] at hl hs
  rw [entry_remove_self, hf, if_neg Bool.false_ne_true, addList, addList]
  by_cases hi : i = p
  · subst hi
    rw [entry_remove_self, hf]
    exact ⟨hr, by dsimp only; omega, by dsimp only; omega, fun h => absurd hrefs (ne_of_gt h)⟩
  · rw [entry_remove_of_ne _ _ _ hi]
    exact ⟨hr, by omega, by omega, hm⟩

/-! ## Dropping a reference

The proof is by induction on the fuel: the call takes its own reference off the books, and the calls
for the parents, which have less fuel, take off what the links stood for. -/

variable (P) in
/-- With fuel `k`, dropping a fix or a logical reference that somebody holds succeeds and takes it
off the books. -/
def DecrefPays (E : Env ι) (k : ℕ) : Prop :=
  ∀ (p : ι) (s : State ι) (fixes keeps shares : ι → ℕ), P.rank p < k →
    (Balanced P s (addOne fixes p) 0 keeps shares →
      ∃ s', decref P E k false p s = some s' ∧ Balanced P s' fixes 0 keeps shares) ∧
    (Balanced P s fixes 0 (addOne keeps p) shares →
      ∃ s', decref P E k true p s = some s' ∧ Balanced P s' fixes 0 keeps shares)

variable {E : Env ι} {k : ℕ} {c : Client ι}

theorem DecrefPays.release (ih : DecrefPays P E k) (l : List ι) (hl : ∀ p ∈ l, P.rank p < k)
    (h : Balanced P s (addList fixes l) 0 keeps shares) :
    ∃ s', l.foldlM (fun s p => decref P E k false p s) s = some s' ∧
      Balanced P s' fixes 0 keeps shares := by
  have hstep := @exists_foldlM ι (State ι) (fun s p => decref P E k false p s)
    (fun l s => (∀ p ∈ l, P.rank p < k) ∧ Balanced P s (addList fixes l) 0 keeps shares)
    (by
      rintro p l s ⟨hl, h⟩
      rw [addList_cons] at h
      obtain ⟨s', hs', h'⟩ := (ih p s _ _ _ (hl p (.head _))).1 h
      exact ⟨s', hs', fun q hq => hl q (.tail _ hq), h'⟩)
  obtain ⟨s', hs', -, h'⟩ := hstep l s ⟨hl, h⟩
  exact ⟨s', hs', h'⟩

/-- Giving up the shares and the logical references on a list of parents. -/
theorem DecrefPays.unshare (ih : DecrefPays P E k) (l : List ι) (hl : ∀ p ∈ l, P.rank p < k)
    (h : Balanced P s fixes 0 (addList keeps l) (addList shares l)) :
    ∃ s', l.foldlM (fun s p => (Bbp.releaseShare p s).bind (decref P E k true p)) s = some s' ∧
      Balanced P s' fixes 0 keeps shares := by
  have hstep := @exists_foldlM ι (State ι)
    (fun s p => (Bbp.releaseShare p s).bind (decref P E k true p))
    (fun l s => (∀ p ∈ l, P.rank p < k) ∧ Balanced P s fixes 0 (addList keeps l) (addList shares l))
    (by
      rintro p l s ⟨hl, h⟩
      rw [addList_cons, addList_cons] at h
      obtain ⟨s₁, hs1, h1⟩ := h.releaseShare
      obtain ⟨s', hs', h'⟩ := (ih p s₁ _ _ _ (hl p (.head _))).2 h1
      refine ⟨s', ?_, fun q hq => hl q (.tail _ hq), h'⟩
      rw [hs1]
      exact hs')
  obtain ⟨s', hs', -, h'⟩ := hstep l s ⟨hl, h⟩
  exact ⟨s', hs', h'⟩

theorem DecrefPays.afterDecrement (ih : DecrefPays P E k) {logical : Bool} {s₀ : State ι}
    (hdec : decrement logical p s₀ = some s) (hk : P.rank p < k + 1) (h : Balanced P s
      (addList fixes (if logical = false ∧ (s.entry p).loaded = true ∧ (s.entry p).refs = 0 then
        P.links p else [])) 0 keeps shares) :
    ∃ s', decref P E (k + 1) logical p s₀ = some s' ∧ Balanced P s' fixes 0 keeps shares := by
  have hlinks : ∀ q ∈ P.links p, P.rank q < k := fun q hq =>
    lt_of_lt_of_le (P.acyclic p q hq) (le_of_lt_succ hk)
  set release := if logical = false ∧ (s.entry p).loaded = true ∧ (s.entry p).refs = 0 then
    P.links p else [] with hrel
  have hrelease : ∀ q ∈ release, P.rank q < k := by
    rw [hrel]
    split_ifs
    · exact hlinks
    · exact fun q hq => absurd hq not_mem_nil
  rw [decref, hdec, bind_some]
  by_cases hfail : (¬ (0 < (s.entry p).refs ∨ (0 < (s.entry p).lrefs ∧ E.cold p = false)) ∧
      (s.entry p).loaded = true) ∧ ¬ ((s.entry p).lrefs = 0 ∧ E.deleted p = false) ∧
      0 < (s.entry p).lrefs ∧ (P.parents p).isView = false ∧ E.saveFails p = true
  · -- only a BAT with files of its own is saved, and that has nothing to release
    rw [if_pos hfail]
    have hnil : release = [] := by
      rw [hrel, Pool.links, Parents.links_eq_nil hfail.2.2.2.1, ite_self]
    rw [hnil] at h
    exact ⟨s, rfl, h⟩
  rw [if_neg hfail]
  by_cases hswap : ¬ (0 < (s.entry p).refs ∨ (0 < (s.entry p).lrefs ∧ E.cold p = false)) ∧
      (s.entry p).loaded = true
  · have hrefs : (s.entry p).refs = 0 := Nat.eq_zero_of_not_pos fun hpos => hswap.1 (.inl hpos)
    by_cases hdestroy : (s.entry p).lrefs = 0 ∧ E.deleted p = false
    · rw [if_pos ⟨hswap, hdestroy⟩]
      have hsame : ({ s.entry p with refs := 0, lrefs := 0 } : Entry) = s.entry p := by
        obtain ⟨he, -⟩ := hdestroy
        revert hrefs he
        rcases s.entry p with ⟨refs, lrefs, share, loaded⟩
        rintro rfl rfl
        rfl
      have hrem := h.remove (f := fun e => { e with refs := 0, lrefs := 0 }) hsame hswap.2 hrefs
      have horder : ∀ g : ι → ℕ, addList g (P.links p) = addList g (P.parents p).destroyed :=
        fun g => funext fun i => by rw [addList, addList, Parents.count_destroyed]
      rw [horder, horder] at hrem
      obtain ⟨s₁, hs1, h1⟩ := ih.unshare _ (fun q hq => hlinks q (Parents.mem_destroyed.mp hq)) hrem
      rw [hs1]
      exact ih.release _ hrelease h1
    · rw [if_neg fun hc => hdestroy hc.2, if_pos hswap]
      obtain ⟨s₁, hs1, h1⟩ := ih.unshare _ hlinks (h.remove (f := id) rfl hswap.2 hrefs)
      rw [hs1]
      exact ih.release _ hrelease h1
  · rw [if_neg fun hc => hswap hc.1, if_neg hswap]
    exact ih.release _ hrelease h

/-- **Dropping a reference that somebody holds succeeds and takes it off the books.** -/
theorem decref_spec (E : Env ι) (k : ℕ) : DecrefPays P E k := by
  induction k with
  | zero => exact fun p _ _ _ _ hk => absurd hk (not_lt_zero _)
  | succ k ih =>
    refine fun p s fixes keeps shares hk => ⟨fun h => ?_, fun h => ?_⟩
    · have hpos : (s.entry p).refs ≠ 0 := by
        have hr := (h.entry p).refs
        rw [addOne_self, Pi.zero_apply] at hr
        omega
      have hdec : decrement false p s = some (s.modify p fun e => { e with refs := e.refs - 1 }) :=
        (if_neg Bool.false_ne_true).trans (if_neg hpos)
      apply ih.afterDecrement hdec hk
      rw [entry_modify_self]
      have hload := (h.entry p).loaded (Nat.pos_of_ne_zero hpos)
      by_cases hlast : (s.entry p).refs = 1
      · rw [if_pos ⟨rfl, hload, by rw [hlast]⟩]
        exact h.unfix_last hlast
      · rw [if_neg fun hc => hlast (by have := hc.2.2; dsimp only at this; omega)]
        exact h.unfix (by omega)
    · obtain ⟨s₁, hdec, h1⟩ := h.decrement_logical
      apply ih.afterDecrement hdec hk
      exact h1

/-! ## Adding a reference

A view is fixed before its parents are, so their fixes are owed in between.  A parent that is not in
memory must be loaded, which `Ready` allows for all ancestors. -/

/-- A BAT without links is fixed and loaded. -/
theorem Balanced.fix_load (h : Balanced P s fixes (addOne owed p) keeps shares)
    (hlinks : P.links p = []) :
    Balanced P (s.modify p fun e => { e with refs := e.refs + 1, loaded := true })
      fixes owed keeps shares := by
  refine h.change (fun i => entry_modify_of_ne _ _ _) h.gone ?_
  rintro i m n ⟨hr, hl, hs, hm⟩
  simp only [hlinks, count_nil, ite_self] at hr hl hs ⊢
  by_cases hi : i = p
  · subst hi
    rw [addOne_self] at hr
    rw [entry_modify_self]
    exact ⟨by dsimp only; omega, hl, hs, fun _ => rfl⟩
  · rw [addOne_of_ne _ hi] at hr
    rw [entry_modify_of_ne _ _ _ hi]
    exact ⟨hr, hl, hs, hm⟩

variable (P) in
/-- The BAT and its ancestors are in memory or can be loaded: the parent of a view is fixed and
loaded with it, and no ancestor is a view that was taken out of memory. -/
def Ready (s : State ι) (i : ι) : Prop :=
  ∀ j, Relation.ReflTransGen (fun i p => p ∈ P.links i) i j →
    (s.entry j).loaded = true ∨ (P.parents j).isView = false

/-- Nothing that was in memory has left it. -/
def StaysLoaded (s s' : State ι) : Prop :=
  ∀ j, (s.entry j).loaded = true → (s'.entry j).loaded = true

omit [DecidableEq ι] [Fintype ι] in
theorem Ready.mono {s : State ι} (h : Ready P s i) (hs : StaysLoaded s s') :
    Ready P s' i := fun j hj => (h j hj).imp_left (hs j)

omit [Fintype ι] in
theorem staysLoaded_modify (hf : (s.entry p).loaded = true → (f (s.entry p)).loaded = true) :
    StaysLoaded s (s.modify p f) := by
  intro j hj
  by_cases hi : j = p
  · subst hi
    rw [entry_modify_self]
    exact hf hj
  · rw [entry_modify_of_ne _ _ _ hi]
    exact hj

variable (P) in
/-- With fuel `k`, a fix that is owed on a BAT in memory can be made. -/
def IncrefPays (k : ℕ) : Prop :=
  ∀ (p : ι) (s : State ι) (fixes owed keeps shares : ι → ℕ), P.rank p < k → Ready P s p →
    (s.entry p).loaded = true → Balanced P s fixes (addOne owed p) keeps shares →
    ∃ s', increfPhysical P k p s = some s' ∧ Balanced P s' fixes owed keeps shares ∧
      StaysLoaded s s'

theorem IncrefPays.parent (ih : IncrefPays P k) (hk : P.rank p < k) (hready : Ready P s p)
    (h : Balanced P s fixes (addOne owed p) keeps shares) :
    ∃ s', (increfPhysical P k p s).bind (load P p) = some s' ∧
      Balanced P s' fixes owed keeps shares ∧ StaysLoaded s s' := by
  by_cases hload : (s.entry p).loaded = true
  · obtain ⟨s', hs', h', hstays⟩ := ih p s _ _ _ _ hk hready hload h
    refine ⟨s', ?_, h', hstays⟩
    rw [hs', bind_some, load, if_pos (hstays p hload)]
  -- an entry that is not loaded is no view, so the recursion ends here
  have hview := (hready p .refl).resolve_left hload
  have hlinks : P.links p = [] := Parents.links_eq_nil hview
  obtain ⟨k, rfl⟩ := Nat.exists_eq_succ_of_ne_zero (Nat.ne_zero_of_lt hk)
  refine ⟨_, ?_, h.fix_load hlinks, ?_⟩
  · have hinc : increfPhysical P (k + 1) p s =
        some (s.modify p fun e => { e with refs := e.refs + 1 }) := by
      rw [increfPhysical, show (P.parents p).links = [] from hlinks]
      exact ite_self _
    have hunloaded : ¬ ((s.modify p fun e => { e with refs := e.refs + 1 }).entry p).loaded =
        true := by
      rw [entry_modify_self]
      exact hload
    rw [hinc, bind_some, load, if_neg hunloaded,
      if_neg fun hc => Bool.false_ne_true (hview.symm.trans hc)]
    simp [State.modify]
  · exact staysLoaded_modify fun _ => rfl

theorem IncrefPays.parents (ih : IncrefPays P k) (l : List ι)
    (hl : ∀ q ∈ l, P.rank q < k ∧ Ready P s q)
    (h : Balanced P s fixes (addList owed l) keeps shares) :
    ∃ s', l.foldlM (fun s p => (increfPhysical P k p s).bind (load P p)) s = some s' ∧
      Balanced P s' fixes owed keeps shares ∧ StaysLoaded s s' := by
  have hstep := @exists_foldlM ι (State ι) (fun s p => (increfPhysical P k p s).bind (load P p))
    (fun l t => (∀ q ∈ l, P.rank q < k ∧ Ready P t q) ∧
      Balanced P t fixes (addList owed l) keeps shares ∧ StaysLoaded s t)
    (by
      rintro p l t ⟨hl, h, hstays⟩
      rw [addList_cons] at h
      obtain ⟨t', ht', h', hstays'⟩ := ih.parent (hl p (.head _)).1 (hl p (.head _)).2 h
      exact ⟨t', ht', fun q hq => ⟨(hl q (.tail _ hq)).1, (hl q (.tail _ hq)).2.mono hstays'⟩, h',
        fun j hj => hstays' j (hstays j hj)⟩)
  obtain ⟨s', hs', -, h', hstays⟩ := hstep l s ⟨hl, h, fun _ => id⟩
  exact ⟨s', hs', h', hstays⟩

/-- **A fix that is owed can be made, and the parents of a view follow.** -/
theorem increfPhysical_spec (k : ℕ) : IncrefPays P k := by
  induction k with
  | zero => exact fun p _ _ _ _ _ hk => absurd hk (not_lt_zero _)
  | succ k ih =>
    intro p s fixes owed keeps shares hk hready hload h
    have hstays : StaysLoaded s (s.modify p fun e => { e with refs := e.refs + 1 }) :=
      staysLoaded_modify id
    rw [increfPhysical, entry_modify_self]
    by_cases hfirst : (s.entry p).refs = 0
    · rw [if_pos (by rw [hfirst])]
      have hlinks : ∀ q ∈ P.links p, P.rank q < k ∧
          Ready P (s.modify p fun e => { e with refs := e.refs + 1 }) q := fun q hq =>
        ⟨lt_of_lt_of_le (P.acyclic p q hq) (le_of_lt_succ hk),
          fun j hj => (hready.mono hstays) j (.head hq hj)⟩
      obtain ⟨s', hs', h', hstays'⟩ := ih.parents _ hlinks (h.fix_first hfirst hload)
      exact ⟨s', hs', h', fun j hj => hstays' j (hstays j hj)⟩
    · rw [if_neg fun hc => hfirst (by dsimp only at hc; omega)]
      exact ⟨_, rfl, h.fix (Nat.pos_of_ne_zero hfirst), hstays⟩

/-! ## Calls and runs

A permitted call cannot fail, whatever is unloaded in the meantime.  So the books are balanced after
every run. -/

variable (P) in
/-- A client that keeps to the rules calls on BATs in memory, and drops only what it holds. -/
def RefOp.Permitted (c : Client ι) : RefOp ι → Prop
  | incref i true => (c.state.entry i).loaded = true
  | incref i false => (c.state.entry i).loaded = true ∧ Ready P c.state i
  | decref i true => (c.state.entry i).loaded = true ∧ 0 < c.keeps i
  | decref i false => (c.state.entry i).loaded = true ∧ 0 < c.fixes i
  | keepref i => (c.state.entry i).loaded = true ∧ 0 < c.fixes i

variable (P) in
/-- The books of a client: all fixes and logical references that are not links are its own. -/
def Client.Sound (c : Client ι) : Prop := Balanced P c.state c.fixes 0 c.keeps 0

omit [Fintype ι] in
theorem addOne_dropOne {f : ι → ℕ} {p : ι} (h : 0 < f p) : addOne (dropOne f p) p = f := by
  funext i
  unfold addOne dropOne
  by_cases hi : i = p
  · subst hi
    rw [if_pos rfl]
    omega
  · rw [if_neg hi, Nat.sub_zero, Nat.add_zero]

theorem Client.Sound.unfix (h : c.Sound P) (hi : 0 < c.fixes i) (E : Env ι) :
    ∃ s', BBPdecref P E i false c.state = some s' ∧
      Balanced P s' (dropOne c.fixes i) 0 c.keeps 0 := by
  rw [Client.Sound, ← addOne_dropOne hi] at h
  exact (decref_spec E _ i c.state _ _ _ (lt_succ_self _)).1 h

/-- **A permitted call succeeds, so no count drops below zero, and the books stay balanced.** -/
theorem balanced_step (h : c.Sound P) (E : Env ι) {op : RefOp ι} (hop : op.Permitted P c) :
    ∃ c', op.step P E c = some c' ∧ c'.Sound P := by
  match op, hop with
  | .incref i true, _ => exact ⟨_, rfl, Balanced.incref_logical h i⟩
  | .incref i false, hop =>
    have howed : Balanced P c.state (addOne c.fixes i) (addOne 0 i) c.keeps 0 := by
      refine ⟨fun j => ?_, h.gone⟩
      obtain ⟨hr, hl, hs, hm⟩ := h.entry j
      refine ⟨?_, hl, hs, hm⟩
      rw [addOne, addOne]
      omega
    obtain ⟨s', hs', h', -⟩ := increfPhysical_spec _ i c.state _ _ _ _ (lt_succ_self _) hop.2
      hop.1 howed
    exact ⟨_, congrArg (Option.map _) hs', h'⟩
  | .decref i true, hop =>
    rw [Client.Sound, ← addOne_dropOne hop.2] at h
    obtain ⟨s', hs', h'⟩ := (decref_spec E _ i c.state _ _ _ (lt_succ_self _)).2 h
    exact ⟨_, congrArg (Option.map _) hs', h'⟩
  | .decref i false, hop =>
    obtain ⟨s', hs', h'⟩ := h.unfix hop.2 E
    exact ⟨_, congrArg (Option.map _) hs', h'⟩
  | .keepref i, hop =>
    -- the logical reference is made first, so that the BAT is not destroyed on the way
    have hkeep : (⟨_, c.fixes, addOne c.keeps i⟩ : Client ι).Sound P := Balanced.incref_logical h i
    obtain ⟨s', hs', h'⟩ := hkeep.unfix hop.2 E
    exact ⟨_, congrArg (Option.map _) hs', h'⟩

variable (P) in
/-- One permitted call, whatever the rest of the pool decides about unloading. -/
def Calls (c c' : Client ι) : Prop :=
  ∃ (E : Env ι) (op : RefOp ι), op.Permitted P c ∧ op.step P E c = some c'

theorem sound_of_reaches {c' : Client ι} (h : c.Sound P)
    (hrun : Relation.ReflTransGen (Calls P) c c') : c'.Sound P := by
  induction hrun with
  | refl => exact h
  | tail _ hcall ih =>
    obtain ⟨E, op, hop, hstep⟩ := hcall
    obtain ⟨c'', hc'', hsound⟩ := balanced_step ih E hop
    rw [hstep] at hc''
    cases hc''
    exact hsound

/-- A BAT and a view of both its columns. -/
def viewPool : Pool (Fin 2) where
  parents i := if i = 0 then ⟨none, none, none, none⟩ else ⟨some 0, some 0, none, none⟩
  rank i := i.val
  acyclic := by decide

/-- Both in memory, the view with a logical reference. -/
def viewClient : Client (Fin 2) where
  state := ⟨fun i => if i = 0 then ⟨0, 2, 2, true⟩ else ⟨0, 1, 0, true⟩, []⟩
  fixes _ := 0
  keeps i := if i = 0 then 0 else 1

end MonetInR.Gdk.Bbp
