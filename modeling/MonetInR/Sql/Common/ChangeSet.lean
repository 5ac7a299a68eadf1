import Mathlib.Algebra.Group.Nat.Defs
import Mathlib.Data.List.Nodup
import Mathlib.Data.List.Perm.Basic
import MonetInR.Lib.Buckets
import MonetInR.Lib.Runs

/-!
# Change sets and their name hash

A change set is a list of catalog objects and a list of those that have been deleted from it.  Once
a list is long enough, the first lookup of a name makes a hash of the names, which is kept up to
date from then on, both by the functions of lists and by those of change sets.

## Main definitions

* `hashNew`, `hashAdd`, `hashDel`, `hashKey`: the hash table
* `SqlList.listAppend`, `listAppendBefore`, `hashDelete`, `listRemoveNode`, `listMoveData`,
  `listFindName`: lists with a hash
* `ChangeSet.csAdd`, `csAddBefore`, `csDel`: change sets
* `SqlList.Finds`: a lookup returns the object of that name in the list

## Main results

* `ChangeSet.finds_of_reaches`: lookups are right after every sequence of operations that does not
  remove an object that is in the hash twice other than by `csDel`
-/

namespace MonetInR.Sql

open Runs List Option

/-- What `_list_find_name` and the hash read of an object: its address and its name. -/
structure SqlBase where
  addr : ℕ
  name : List UInt8
  deriving DecidableEq

/-! ## The hash table

The chains are lists of pairs of key and value.  `hash_delete` follows a chain until it meets the
value and does not look for the end, so it has no result if the value is not there. -/

/-- A `char` is signed. -/
def ofChar (k : UInt8) : UInt32 := if k < 128 then k.toUInt32 else k.toUInt32 - 256

def hashKeyLoop : UInt32 → List UInt8 → UInt32
  | h, [] => h
  | h, k :: ks =>
    let h := h + ofChar k
    let h := h + (h <<< 10)
    let h := h ^^^ (h >>> 6)
    hashKeyLoop h ks

def hashKey (k : List UInt8) : UInt32 := hashKeyLoop 0 k + UInt32.ofNat k.length

def baseKey (b : SqlBase) : UInt32 := hashKey b.name

/-- A hash: each bucket is a chain of entries with a key and a value. -/
structure SqlHash where
  size : ℕ
  buckets : ℕ → List (UInt32 × SqlBase)

namespace SqlHash

def logBase2 (n : ℕ) : ℕ := if n = 0 then 0 else n.log2 + 1

def hashNew (size : ℕ) : SqlHash where
  size := 2 ^ logBase2 (size - 1)
  buckets := fun _ => []

def slot (h : SqlHash) (key : UInt32) : ℕ := key.toNat &&& (h.size - 1)

def hashAdd (h : SqlHash) (key : UInt32) (value : SqlBase) : SqlHash :=
  let chain := (key, value) :: h.buckets (h.slot key)
  { h with buckets := Function.update h.buckets (h.slot key) chain }

/-- `hash_del`: remove one entry, if there is one. -/
def hashDel (h : SqlHash) (key : UInt32) (value : SqlBase) : SqlHash :=
  let chain := (h.buckets (h.slot key)).erase (key, value)
  { h with buckets := Function.update h.buckets (h.slot key) chain }

/-- The loop of `hash_delete`, which does not look for the end of the chain. -/
def chainDelete (data : SqlBase) : List (UInt32 × SqlBase) → Option (List (UInt32 × SqlBase))
  | [] => none
  | e :: es => if e.2 = data then some es else (chainDelete data es).map (e :: ·)

/-- `hash_delete`: `none` if the loop walks past the end of the chain. -/
def hashDelete (h : SqlHash) (data : SqlBase) : Option SqlHash :=
  (chainDelete data (h.buckets (h.slot (baseKey data)))).map fun c =>
    { h with buckets := Function.update h.buckets (h.slot (baseKey data)) c }

/-- The chain of a name, searched for the name. -/
def hashFind (h : SqlHash) (name : List UInt8) : Option SqlBase :=
  ((h.buckets (h.slot (hashKey name))).find? fun e => e.2.name = name).map Prod.snd

end SqlHash

/-! ## Lists

Appending keeps the hash up to date if there is one, and so does removing.  A hash is made only when
a name is looked up in a list that is long enough. -/

/-- A list of objects.  A hash is made only if there is an allocator `sa`. -/
structure SqlList where
  sa : Bool
  nodes : List SqlBase
  ht : Option SqlHash

namespace SqlList

def hashMinSize : ℕ := 4

def addToHash (l : SqlList) (data : SqlBase) : SqlList :=
  { l with ht := l.ht.map fun h => h.hashAdd (baseKey data) data }

def listAppend (l : SqlList) (data : SqlBase) : SqlList :=
  addToHash { l with nodes := l.nodes ++ [data] } data

/-- The node before which the new one comes is the one at position `i`. -/
def listAppendBefore (l : SqlList) (i : ℕ) (data : SqlBase) : SqlList :=
  addToHash { l with nodes := l.nodes.insertIdx i data } data

/-- The end of `cs_del`. -/
def delEntry (l : SqlList) (data : SqlBase) : SqlList :=
  { l with ht := l.ht.map fun h => h.hashDel (baseKey data) data }

def deleteFromHash (l : SqlList) (data : SqlBase) : Option SqlList :=
  match l.ht with
  | none => some l
  | some h => (h.hashDelete data).map fun h => { l with ht := some h }

/-- Remove the node at position `i`. -/
def listRemoveNode (l : SqlList) (i : ℕ) : Option SqlList :=
  match l.nodes[i]? with
  | none => none
  | some data => deleteFromHash { l with nodes := l.nodes.eraseIdx i } data

/-- Move `data` from the list `s` to the list `d`.  The node in `s` loses its data before it is
removed, so that its removal does not touch the hash once more. -/
def listMoveData (s d : SqlList) (data : SqlBase) : Option (SqlList × SqlList) :=
  if data ∈ s.nodes then
    (s.deleteFromHash data).map fun s =>
      ({ s with nodes := s.nodes.erase data }, d.listAppend data)
  else some (s, d.listAppend data)

/-- The first part of `_list_find_name`. -/
def makeHash (l : SqlList) : SqlList :=
  if l.ht = none ∧ hashMinSize < l.nodes.length ∧ l.sa then
    { l with ht := some (l.nodes.foldl (fun h b => h.hashAdd (baseKey b) b)
        (SqlHash.hashNew l.nodes.length)) }
  else l

/-- `_list_find_name` -/
def listFindName (l : SqlList) (name : List UInt8) : SqlList × Option SqlBase :=
  let l := l.makeHash
  match l.ht with
  | some h => (l, h.hashFind name)
  | none => (l, l.nodes.find? fun b => b.name = name)

end SqlList

/-! ## Change sets

`cs_add` and its like call the functions of lists and then update the hash themselves, so that an
object may get two entries. -/

/-- The objects and the deleted objects. -/
structure ChangeSet where
  set : SqlList
  dset : SqlList

namespace ChangeSet

def csAdd (cs : ChangeSet) (elm : SqlBase) : ChangeSet :=
  { cs with set := (cs.set.listAppend elm).addToHash elm }

def csAddBefore (cs : ChangeSet) (i : ℕ) (elm : SqlBase) : ChangeSet :=
  { cs with set := (cs.set.listAppendBefore i elm).addToHash elm }

/-- Delete the object at position `i`, which is `TR_NEW` or not. -/
def csDel (cs : ChangeSet) (i : ℕ) (isNew : Bool) : Option ChangeSet :=
  match cs.set.nodes[i]? with
  | none => none
  | some val =>
    let moved :=
      if isNew then (cs.set.listRemoveNode i).map fun s => (s, cs.dset)
      else cs.set.listMoveData cs.dset val
    moved.map fun (s, d) => ⟨s.delEntry val, d⟩

end ChangeSet

/-- What can be done with a change set. -/
inductive CsAction
  | add (b : SqlBase)
  | addBefore (i : ℕ) (b : SqlBase)
  | del (i : ℕ) (isNew : Bool)
  | move (back : Bool) (b : SqlBase)
  | removeNode (i : ℕ)
  | find (name : List UInt8)

namespace ChangeSet

/-- One operation: `none` if it walks past the end of a chain, or gets a node that is not in the
set. -/
def apply (cs : ChangeSet) : CsAction → Option ChangeSet
  | .add b => some (cs.csAdd b)
  | .addBefore i b => some (cs.csAddBefore i b)
  | .del i isNew => cs.csDel i isNew
  | .move false b => (cs.set.listMoveData cs.dset b).map fun (s, d) => ⟨s, d⟩
  | .move true b => (cs.dset.listMoveData cs.set b).map fun (d, s) => ⟨s, d⟩
  | .removeNode i => (cs.set.listRemoveNode i).map fun s => { cs with set := s }
  | .find name => some { cs with set := (cs.set.listFindName name).1 }

/-- No object of the set has the name of `b`. -/
def Unnamed (cs : ChangeSet) (b : SqlBase) : Prop := ∀ x ∈ cs.set.nodes, x.name ≠ b.name
  deriving Decidable

/-- Names stay distinct, and nodes are nodes of the set. -/
def Valid (cs : ChangeSet) : CsAction → Prop
  | .add b => cs.Unnamed b
  | .addBefore i b => i < cs.set.nodes.length ∧ cs.Unnamed b
  | .del i _ => i < cs.set.nodes.length
  | .move false _ => True
  | .move true b => cs.Unnamed b
  | .removeNode i => i < cs.set.nodes.length
  | .find _ => True

/-- A new change set. -/
def csNew (sa : Bool) : ChangeSet := ⟨⟨sa, [], none⟩, ⟨sa, [], none⟩⟩

end ChangeSet

/-! ## The hash as a multiset of objects

Only the number of entries of each object matters for lookups.  Every operation changes that number
for at most one object. -/

namespace SqlHash

variable {h : SqlHash} {a b : SqlBase}

def count (h : SqlHash) (b : SqlBase) : ℕ := Buckets.count baseKey h.slot h.buckets b

def Filed (h : SqlHash) : Prop := Buckets.Filed baseKey h.slot h.buckets

theorem chainDelete_eq {c : List (UInt32 × SqlBase)} (hc : ∀ e ∈ c, e.1 = baseKey e.2)
    (hmem : (baseKey a, a) ∈ c) : chainDelete a c = some (c.erase (baseKey a, a)) := by
  induction c with
  | nil => exact absurd hmem not_mem_nil
  | cons e es ih =>
    have hkey := hc e mem_cons_self
    unfold chainDelete
    by_cases he : e.2 = a
    · have heq : e = (baseKey a, a) := Prod.ext (hkey.trans (congrArg baseKey he)) he
      rw [if_pos he, heq, erase_cons_head]
    · have hne : e ≠ (baseKey a, a) := fun heq => he (congrArg Prod.snd heq)
      have hrest : (baseKey a, a) ∈ es := (mem_cons.mp hmem).resolve_left hne.symm
      rw [if_neg he, ih (fun x hx => hc x (mem_cons_of_mem _ hx)) hrest,
        erase_cons_tail (by simpa using hne)]
      rfl

/-- **`hash_delete` removes one entry** of a value that is there. -/
theorem hashDelete_eq (hf : h.Filed) (ha : 0 < h.count a) :
    h.hashDelete a = some (h.hashDel (baseKey a) a) := by
  unfold hashDelete
  rw [chainDelete_eq (fun e he => (hf _ e he).1) (Buckets.mem_of_count_pos ha)]
  rfl

theorem hashFind_some (hf : h.Filed) {name : List UInt8} (hb : h.hashFind name = some b) :
    b.name = name ∧ 0 < h.count b := by
  obtain ⟨e, he, rfl⟩ := map_eq_some_iff.mp hb
  have hname := find?_some he
  exact ⟨by simpa using hname, Buckets.Filed.count_pos hf (mem_of_find?_eq_some he)⟩

/-- The search finds something if an object of that name is in the hash. -/
theorem hashFind_isSome (hb : 0 < h.count b) : (h.hashFind b.name).isSome := by
  unfold hashFind
  rw [isSome_map, find?_isSome]
  exact ⟨(baseKey b, b), Buckets.mem_of_count_pos hb, by simp⟩

end SqlHash

namespace SqlList

variable {l l' l'' : SqlList} {a b x : SqlBase} {f g : ℕ → ℕ} {k : ℕ} {h : SqlHash}

/-- From `l` to `l'` the number of entries of `x` changes by `f`, that of other objects stays. -/
structure Shifts (l l' : SqlList) (x : SqlBase) (f : ℕ → ℕ) : Prop where
  of_none : l.ht = none → l'.ht = none
  of_some : ∀ h, l.ht = some h → h.Filed → ∃ h', l'.ht = some h' ∧ h'.Filed ∧
    h'.count x = f (h.count x) ∧ ∀ b, b ≠ x → h'.count b = h.count b

theorem Shifts.trans (h1 : Shifts l l' x f) (h2 : Shifts l' l'' x g) :
    Shifts l l'' x fun n => g (f n) where
  of_none hn := h2.of_none (h1.of_none hn)
  of_some h hh hf := by
    obtain ⟨h', hh', hf', hx', hb'⟩ := h1.of_some h hh hf
    obtain ⟨h'', hh'', hf'', hx'', hb''⟩ := h2.of_some h' hh' hf'
    refine ⟨h'', hh'', hf'', ?_, fun b hb => ?_⟩
    · rw [hx'', hx']
    · rw [hb'' b hb, hb' b hb]

/-- An operation on the hash, if there is one, shifts as the operation does. -/
theorem Shifts.of_map {op : SqlHash → SqlHash} (hht : l'.ht = l.ht.map op)
    (hop : ∀ h : SqlHash, h.Filed → (op h).Filed ∧ (op h).count x = f (h.count x) ∧
      ∀ b, b ≠ x → (op h).count b = h.count b) : Shifts l l' x f where
  of_none hn := by
    rw [hht, hn]
    rfl
  of_some h hh hf := by
    refine ⟨op h, ?_, hop h hf⟩
    rw [hht, hh]
    rfl

theorem shifts_hashAdd (hht : l'.ht = l.ht.map fun h => h.hashAdd (baseKey x) x) :
    Shifts l l' x (· + 1) :=
  .of_map hht fun _ hf => ⟨Buckets.Filed.push hf x, Buckets.count_push_self,
    fun _ hb => Buckets.count_push_of_ne hb⟩

theorem shifts_hashDel (hht : l'.ht = l.ht.map fun h => h.hashDel (baseKey x) x) :
    Shifts l l' x (· - 1) :=
  .of_map hht fun _ hf => ⟨Buckets.Filed.drop hf x, Buckets.count_drop_self,
    fun _ hb => Buckets.count_drop_of_ne hb⟩

/-- Every object of the list has an entry in the hash. -/
structure Holds (l : SqlList) : Prop where
  names : (l.nodes.map SqlBase.name).Nodup
  filed : ∀ h, l.ht = some h → h.Filed
  count_pos : ∀ h, l.ht = some h → ∀ b ∈ l.nodes, 0 < h.count b

/-- No other object has, and none has more than two. -/
structure Exact (l : SqlList) : Prop where
  mem : ∀ h, l.ht = some h → ∀ b, 0 < h.count b → b ∈ l.nodes
  count_le : ∀ h, l.ht = some h → ∀ b, h.count b ≤ 2

theorem deleteFromHash_eq (hl : l.Holds) (hx : x ∈ l.nodes) (ns : List SqlBase) :
    ({ l with nodes := ns } : SqlList).deleteFromHash x =
      some ⟨l.sa, ns, l.ht.map fun h => h.hashDel (baseKey x) x⟩ := by
  unfold deleteFromHash
  cases hh : l.ht with
  | none => rfl
  | some h =>
    dsimp only
    rw [SqlHash.hashDelete_eq (hl.filed h hh) (hl.count_pos h hh x hx)]
    rfl

theorem Shifts.hash (hs : Shifts l l' x f) (hl : l.Holds) {h' : SqlHash} (hh' : l'.ht = some h') :
    ∃ h, l.ht = some h ∧ h'.Filed ∧ h'.count x = f (h.count x) ∧
      ∀ b, b ≠ x → h'.count b = h.count b := by
  cases hh : l.ht with
  | none =>
    rw [hs.of_none hh] at hh'
    exact absurd hh' nofun
  | some h =>
    obtain ⟨h'', hh'', hf, hx, hb⟩ := hs.of_some h hh (hl.filed h hh)
    obtain rfl := some.inj (hh''.symm.trans hh')
    exact ⟨h, rfl, hf, hx, hb⟩

theorem nodup_nodes (hl : l.Holds) : l.nodes.Nodup := hl.names.of_map

theorem eq_of_name (hl : l.Holds) (ha : a ∈ l.nodes) (hb : b ∈ l.nodes) (h : a.name = b.name) :
    a = b := inj_on_of_nodup_map hl.names ha hb h

/-! ### Lookups -/

theorem makeHash_nodes (l : SqlList) : l.makeHash.nodes = l.nodes := by
  unfold makeHash
  split <;> rfl

theorem foldl_hashAdd (h : SqlHash) (ns : List SqlBase) :
    (ns.foldl (fun h b => h.hashAdd (baseKey b) b) h) =
      { h with buckets := ns.foldl (Buckets.push baseKey h.slot) h.buckets } := by
  induction ns generalizing h with
  | nil => rfl
  | cons b ns ih => exact ih (h.hashAdd (baseKey b) b)

theorem count_newHash {ns : List SqlBase} (hns : ns.Nodup) (size : ℕ) (b : SqlBase) :
    (ns.foldl (fun h b => h.hashAdd (baseKey b) b) (SqlHash.hashNew size)).count b =
      if b ∈ ns then 1 else 0 := by
  rw [foldl_hashAdd]
  refine (Buckets.count_foldl_push hns _ b).trans ?_
  exact Nat.zero_add _

/-- A lookup may make the hash: then every object has one entry. -/
theorem holds_makeHash (hl : l.Holds) : l.makeHash.Holds ∧ (l.Exact → l.makeHash.Exact) := by
  unfold makeHash
  split_ifs with hmake
  · have hcount := count_newHash (nodup_nodes hl) l.nodes.length
    refine ⟨⟨hl.names, ?_, ?_⟩, fun _ => ⟨?_, ?_⟩⟩
    · rintro h ⟨⟩
      rw [foldl_hashAdd]
      exact Buckets.filed_foldl_push (fun _ _ he => absurd he not_mem_nil) l.nodes
    · rintro h ⟨⟩ b hb
      rw [hcount, if_pos hb]
      exact Nat.one_pos
    · rintro h ⟨⟩ b hb
      by_contra hmem
      rw [hcount, if_neg hmem] at hb
      exact absurd hb (Nat.lt_irrefl 0)
    · rintro h ⟨⟩ b
      rw [hcount]
      split <;> omega
  · exact ⟨hl, id⟩

theorem listFindName_eq (l : SqlList) (name : List UInt8) :
    l.listFindName name = (l.makeHash, match l.makeHash.ht with
      | some h => h.hashFind name
      | none => l.nodes.find? fun b => b.name = name) := by
  unfold listFindName
  dsimp only
  rw [makeHash_nodes]
  split <;> simp only [*]

/-- **A lookup returns the object of that name in the list.** -/
def Finds (l : SqlList) : Prop :=
  ∀ name b, (l.listFindName name).2 = some b ↔ b ∈ l.nodes ∧ b.name = name

theorem finds_of_exact (hl : l.Holds) (hx : l.Exact) : l.Finds := by
  intro name b
  rw [listFindName_eq]
  obtain ⟨hl', hx'⟩ := holds_makeHash hl
  cases hh : l.makeHash.ht with
  | some h =>
    dsimp only
    have hmem := (hx' hx).mem h hh
    rw [makeHash_nodes] at hmem
    constructor
    · intro hb
      obtain ⟨hname, hpos⟩ := SqlHash.hashFind_some (hl'.filed h hh) hb
      exact ⟨hmem b hpos, hname⟩
    · rintro ⟨hb, rfl⟩
      have hpos := hl'.count_pos h hh b (by rwa [makeHash_nodes])
      -- what is found has the name, and names are distinct
      obtain ⟨c, hc⟩ := isSome_iff_exists.mp (SqlHash.hashFind_isSome hpos)
      obtain ⟨hname, hcpos⟩ := SqlHash.hashFind_some (hl'.filed h hh) hc
      rw [hc, eq_of_name hl (hmem c hcpos) hb hname]
  | none =>
    constructor
    · intro hb
      exact ⟨mem_of_find?_eq_some hb, by simpa using find?_some hb⟩
    · rintro ⟨hb, rfl⟩
      have hsome : (l.nodes.find? fun c => c.name = b.name).isSome :=
        find?_isSome.mpr ⟨b, hb, by simp⟩
      obtain ⟨c, hc⟩ := isSome_iff_exists.mp hsome
      rw [hc, eq_of_name hl (mem_of_find?_eq_some hc) hb (by simpa using find?_some hc)]

theorem not_finds_of_stale (hh : l.ht = some h) (hx : 0 < h.count x)
    (hgone : ∀ b ∈ l.nodes, b.name ≠ x.name) : ¬ l.Finds := by
  intro hfinds
  have hmake : l.makeHash = l := if_neg fun hn => by
    rw [hh] at hn
    exact absurd hn.1 nofun
  obtain ⟨c, hc⟩ := isSome_iff_exists.mp (SqlHash.hashFind_isSome hx)
  have hfound : (l.listFindName x.name).2 = some c := by
    rw [listFindName_eq, hmake, hh]
    exact hc
  obtain ⟨hmem, hname⟩ := (hfinds x.name c).mp hfound
  exact hgone c hmem hname

/-! ### Adding and removing -/

theorem Holds.add (hl : l.Holds) (hs : Shifts l l' x (· + k)) (hk : 0 < k)
    (hperm : l'.nodes.Perm (x :: l.nodes)) (hnew : ∀ b ∈ l.nodes, b.name ≠ x.name) : l'.Holds := by
  refine ⟨?_, fun h' hh' => ?_, fun h' hh' b hb => ?_⟩
  · rw [(hperm.map SqlBase.name).nodup_iff, map_cons, nodup_cons]
    refine ⟨fun hx => ?_, hl.names⟩
    obtain ⟨b, hb, hname⟩ := mem_map.mp hx
    exact hnew b hb hname
  · obtain ⟨h, -, hf, -⟩ := hs.hash hl hh'
    exact hf
  · obtain ⟨h, hh, -, hx, hother⟩ := hs.hash hl hh'
    rcases eq_or_ne b x with rfl | hne
    · omega
    · rw [hother b hne]
      rw [hperm.mem_iff, mem_cons] at hb
      exact hl.count_pos h hh b (hb.resolve_left hne)

theorem Exact.add (hx : l.Exact) (hl : l.Holds) (hs : Shifts l l' x (· + k)) (hk : k ≤ 2)
    (hperm : l'.nodes.Perm (x :: l.nodes)) (hnew : x ∉ l.nodes) : l'.Exact := by
  refine ⟨fun h' hh' b hb => ?_, fun h' hh' b => ?_⟩
  · obtain ⟨h, hh, -, -, hother⟩ := hs.hash hl hh'
    rw [hperm.mem_iff, mem_cons]
    rcases eq_or_ne b x with rfl | hne
    · exact .inl rfl
    · rw [hother b hne] at hb
      exact .inr (hx.mem h hh b hb)
  · obtain ⟨h, hh, -, hcount, hother⟩ := hs.hash hl hh'
    rcases eq_or_ne b x with rfl | hne
    · have hzero : h.count b = 0 := by
        by_contra hpos
        exact hnew (hx.mem h hh b (Nat.pos_of_ne_zero hpos))
      omega
    · rw [hother b hne]
      exact hx.count_le h hh b

theorem Holds.remove (hl : l.Holds) (hs : Shifts l l' x (· - k))
    (hperm : l.nodes.Perm (x :: l'.nodes)) : l'.Holds := by
  have hnodup := (hperm.nodup_iff.mp (nodup_nodes hl))
  refine ⟨?_, fun h' hh' => ?_, fun h' hh' b hb => ?_⟩
  · have hnames := (hperm.map SqlBase.name).nodup_iff.mp hl.names
    rw [map_cons, nodup_cons] at hnames
    exact hnames.2
  · obtain ⟨h, -, hf, -⟩ := hs.hash hl hh'
    exact hf
  · obtain ⟨h, hh, -, -, hother⟩ := hs.hash hl hh'
    have hne : b ≠ x := by
      rintro rfl
      exact (nodup_cons.mp hnodup).1 hb
    rw [hother b hne]
    exact hl.count_pos h hh b (hperm.mem_iff.mpr (mem_cons_of_mem _ hb))

theorem Exact.remove (hx : l.Exact) (hl : l.Holds) (hs : Shifts l l' x (· - k))
    (hperm : l.nodes.Perm (x :: l'.nodes)) (hk : ∀ h, l.ht = some h → h.count x ≤ k) :
    l'.Exact := by
  refine ⟨fun h' hh' b hb => ?_, fun h' hh' b => ?_⟩
  · obtain ⟨h, hh, -, hcount, hother⟩ := hs.hash hl hh'
    rcases eq_or_ne b x with rfl | hne
    · have hle := hk h hh
      omega
    · rw [hother b hne] at hb
      have hmem := hx.mem h hh b hb
      rw [hperm.mem_iff, mem_cons] at hmem
      exact hmem.resolve_left hne
  · obtain ⟨h, hh, -, hcount, hother⟩ := hs.hash hl hh'
    have hle := hx.count_le h hh b
    rcases eq_or_ne b x with rfl | hne
    · omega
    · rw [hother b hne]
      exact hle

/-- **An entry is left behind** if the object had more entries than have been removed. -/
theorem not_finds_of_remove (hl : l.Holds) (hs : Shifts l l' x (· - k))
    (hperm : l.nodes.Perm (x :: l'.nodes)) (hh : l.ht = some h) (hk : k < h.count x) :
    ¬ l'.Finds := by
  obtain ⟨h', hh', -, hcount, -⟩ := hs.of_some h hh (hl.filed h hh)
  refine not_finds_of_stale hh' (x := x) (by omega) fun b hb hname => ?_
  have hnames := (hperm.map SqlBase.name).nodup_iff.mp hl.names
  rw [map_cons, nodup_cons] at hnames
  exact hnames.1 (mem_map.mpr ⟨b, hb, hname⟩)

end SqlList

/-! ## Operations

Each operation has one of a few effects on the set, and lookups depend on the effect alone. -/

namespace SqlList

variable {l d : SqlList} {x : SqlBase} {i : ℕ}

theorem listRemoveNode_spec (hl : l.Holds) (hi : i < l.nodes.length) :
    ∃ l', l.listRemoveNode i = some l' ∧ l.nodes[i]? = some l.nodes[i] ∧
      Shifts l l' l.nodes[i] (· - 1) ∧ l.nodes.Perm (l.nodes[i] :: l'.nodes) := by
  have hget : l.nodes[i]? = some l.nodes[i] := getElem?_eq_getElem hi
  refine ⟨⟨l.sa, l.nodes.eraseIdx i, l.ht.map fun h => h.hashDel (baseKey l.nodes[i]) l.nodes[i]⟩,
    ?_, hget, shifts_hashDel rfl, (getElem_cons_eraseIdx_perm hi).symm⟩
  unfold listRemoveNode
  rw [hget]
  exact deleteFromHash_eq hl (getElem_mem hi) _

/-- Moving an object that is there takes one entry out of the hash. -/
theorem listMoveData_spec (hl : l.Holds) (hx : x ∈ l.nodes) (d : SqlList) :
    ∃ l', l.listMoveData d x = some (l', d.listAppend x) ∧ Shifts l l' x (· - 1) ∧
      l.nodes.Perm (x :: l'.nodes) := by
  refine ⟨⟨l.sa, l.nodes.erase x, l.ht.map fun h => h.hashDel (baseKey x) x⟩, ?_,
    shifts_hashDel rfl, perm_cons_erase hx⟩
  unfold listMoveData
  rw [if_pos hx]
  have hdel := deleteFromHash_eq hl hx l.nodes
  rw [hdel]
  rfl

theorem listAppend_none (hd : d.ht = none) (x : SqlBase) : (d.listAppend x).ht = none :=
  (shifts_hashAdd (x := x) rfl).of_none hd

theorem listMoveData_none (hl : l.ht = none) (d : SqlList) (x : SqlBase) :
    ∃ l', l.listMoveData d x = some (l', d.listAppend x) ∧ l'.ht = none := by
  unfold listMoveData deleteFromHash
  split
  · rw [hl]
    exact ⟨_, rfl, hl⟩
  · exact ⟨l, rfl, hl⟩

theorem insertIdx_perm {ns : List SqlBase} (hi : i ≤ ns.length) (x : SqlBase) :
    (ns.insertIdx i x).Perm (x :: ns) := by
  have hlt : i < (ns.insertIdx i x).length := by
    rw [length_insertIdx_of_le_length hi]
    omega
  have hperm := getElem_cons_eraseIdx_perm hlt
  rw [getElem_insertIdx_self, eraseIdx_insertIdx_self] at hperm
  exact hperm.symm

end SqlList

namespace ChangeSet

variable {cs cs' : ChangeSet} {a : CsAction} {sa : Bool}

/-- **The condition**: an object that is moved or removed other than by `cs_del` must not be in
the hash twice. -/
def Keeps (cs : ChangeSet) : CsAction → Prop
  | .move false b => b ∈ cs.set.nodes → ∀ h, cs.set.ht = some h → h.count b ≤ 1
  | .removeNode i => ∀ b, cs.set.nodes[i]? = some b → ∀ h, cs.set.ht = some h → h.count b ≤ 1
  | _ => True

/-- What one operation does to the set: nothing, make the hash, add an object with one entry or
two, or remove an object and some of its entries.  In the last case the hash stays right only if
there were no more. -/
inductive Effect (l : SqlList) : SqlList → Prop → Prop
  | same : Effect l l True
  | make : Effect l l.makeHash True
  | add {l' : SqlList} {x : SqlBase} (k : ℕ) (hk : 0 < k) (hk2 : k ≤ 2)
      (hs : l.Shifts l' x (· + k)) (hperm : l'.nodes.Perm (x :: l.nodes))
      (hnew : ∀ b ∈ l.nodes, b.name ≠ x.name) : Effect l l' True
  | remove {l' : SqlList} {x : SqlBase} (k : ℕ) (hs : l.Shifts l' x (· - k))
      (hperm : l.nodes.Perm (x :: l'.nodes)) :
      Effect l l' (∀ h, l.ht = some h → h.count x ≤ k)

section

variable {l l' : SqlList} {C : Prop} (he : Effect l l' C) (hl : l.Holds)

include he hl

theorem Effect.holds :
    l'.Holds := by
  cases he with
  | same => exact hl
  | make => exact (SqlList.holds_makeHash hl).1
  | add k hk _ hs hperm hnew => exact hl.add hs hk hperm hnew
  | remove k hs hperm => exact hl.remove hs hperm

theorem Effect.exact (hx : l.Exact) (hC : C) : l'.Exact := by
  cases he with
  | same => exact hx
  | make => exact (SqlList.holds_makeHash hl).2 hx
  | add k _ hk hs hperm hnew => exact hx.add hl hs hk hperm fun hmem => hnew _ hmem rfl
  | remove k hs hperm => exact hx.remove hl hs hperm hC

/-- **Lookups stay right exactly if nothing is left behind.** -/
theorem Effect.finds_iff (hx : l.Exact) : l'.Finds ↔ C := by
  constructor
  · intro hfinds
    cases he with
    | same => trivial
    | make => trivial
    | add => trivial
    | remove k hs hperm =>
      intro h hh
      by_contra hlt
      exact SqlList.not_finds_of_remove hl hs hperm hh (Nat.lt_of_not_le hlt) hfinds
  · intro hC
    exact SqlList.finds_of_exact (he.holds hl) (he.exact hl hx hC)

end

/-- **Every operation succeeds, and has one of the effects.** -/
theorem apply_effect (hl : cs.set.Holds) (hd : cs.dset.ht = none) (hv : cs.Valid a) :
    ∃ cs' C, cs.apply a = some cs' ∧ cs'.dset.ht = none ∧ Effect cs.set cs'.set C ∧
      (cs.set.Exact → (C ↔ cs.Keeps a)) := by
  cases a with
  | add b =>
    have hs : cs.set.Shifts (cs.set.listAppend b) b (· + 1) := SqlList.shifts_hashAdd rfl
    exact ⟨_, True, rfl, hd, .add 2 (by omega) (Nat.le_refl 2)
      (hs.trans (SqlList.shifts_hashAdd rfl)) (perm_append_singleton b _) hv, fun _ => Iff.rfl⟩
  | addBefore i b =>
    have hs : cs.set.Shifts (cs.set.listAppendBefore i b) b (· + 1) := SqlList.shifts_hashAdd rfl
    exact ⟨_, True, rfl, hd, .add 2 (by omega) (Nat.le_refl 2)
      (hs.trans (SqlList.shifts_hashAdd rfl)) (SqlList.insertIdx_perm (Nat.le_of_lt hv.1) b) hv.2,
      fun _ => Iff.rfl⟩
  | del i isNew =>
    obtain ⟨l', hrun, hget, hs, hperm⟩ := SqlList.listRemoveNode_spec hl hv
    obtain ⟨l'', hrun', hs', hperm'⟩ := SqlList.listMoveData_spec hl (getElem_mem hv) cs.dset
    -- both ways out remove one entry, and `hash_del` another one
    have hkeeps : cs.set.Exact → ((∀ h, cs.set.ht = some h → h.count cs.set.nodes[i] ≤ 2) ↔
        cs.Keeps (.del i isNew)) :=
      fun hx => iff_of_true (fun h hh => hx.count_le h hh _) trivial
    cases isNew with
    | true =>
      refine ⟨⟨l'.delEntry cs.set.nodes[i], cs.dset⟩, _, ?_, hd,
        .remove 2 (hs.trans (SqlList.shifts_hashDel rfl)) hperm, hkeeps⟩
      simp only [apply, csDel, hget, hrun, if_true, map_some]
    | false =>
      refine ⟨⟨l''.delEntry cs.set.nodes[i], cs.dset.listAppend cs.set.nodes[i]⟩, _, ?_, ?_,
        .remove 2 (hs'.trans (SqlList.shifts_hashDel rfl)) hperm', hkeeps⟩
      · simp only [apply, csDel, hget, hrun', Bool.false_eq_true, if_false, map_some]
      · exact SqlList.listAppend_none hd _
  | move back b =>
    cases back with
    | false =>
      by_cases hb : b ∈ cs.set.nodes
      · obtain ⟨l', hrun, hs, hperm⟩ := SqlList.listMoveData_spec hl hb cs.dset
        refine ⟨⟨l', cs.dset.listAppend b⟩, _, ?_, ?_, .remove 1 hs hperm, fun _ => ?_⟩
        · simp only [apply, hrun, map_some]
        · exact SqlList.listAppend_none hd b
        · simp only [Keeps, hb, forall_const]
      · refine ⟨⟨cs.set, cs.dset.listAppend b⟩, _, ?_, ?_, .same, fun _ => ?_⟩
        · simp only [apply, SqlList.listMoveData, if_neg hb, map_some]
        · exact SqlList.listAppend_none hd b
        · exact iff_of_true trivial fun h => absurd h hb
    | true =>
      obtain ⟨d', hrun, hd'⟩ := SqlList.listMoveData_none hd cs.set b
      refine ⟨⟨cs.set.listAppend b, d'⟩, True, ?_, hd', .add 1 Nat.one_pos (by omega)
        (SqlList.shifts_hashAdd rfl) (perm_append_singleton b _) hv, fun _ => Iff.rfl⟩
      simp only [apply, hrun, map_some]
  | removeNode i =>
    obtain ⟨l', hrun, hget, hs, hperm⟩ := SqlList.listRemoveNode_spec hl hv
    refine ⟨⟨l', cs.dset⟩, _, ?_, hd, .remove 1 hs hperm, fun _ => ?_⟩
    · simp only [apply, hrun, map_some]
    · simp only [Keeps, hget, some.injEq, forall_eq']
  | find name =>
    refine ⟨_, True, rfl, hd, ?_, fun _ => Iff.rfl⟩
    rw [SqlList.listFindName_eq]
    exact .make

theorem holds_csNew (sa : Bool) : (csNew sa).set.Holds ∧ (csNew sa).set.Exact :=
  ⟨⟨nodup_nil, nofun, nofun⟩, ⟨nofun, nofun⟩⟩

/-- A step of a history. -/
def Step (cs : ChangeSet) (a : CsAction) (cs' : ChangeSet) : Prop := cs.apply a = some cs'

theorem holds_of_reaches (hr : Reaches Step Valid (csNew sa) cs) :
    cs.set.Holds ∧ cs.dset.ht = none := by
  have hstep : ∀ (cs : ChangeSet) (a : CsAction) (cs' : ChangeSet),
      (cs.set.Holds ∧ cs.dset.ht = none) → cs.Valid a → cs.Step a cs' →
      cs'.set.Holds ∧ cs'.dset.ht = none := by
    rintro cs a cs' ⟨hl, hd⟩ hv hs
    obtain ⟨cs'', C, hrun, hd', he, -⟩ := apply_effect hl hd hv
    obtain rfl := some.inj (hrun.symm.trans hs)
    exact ⟨he.holds hl, hd'⟩
  exact hr.invariant hstep ⟨(holds_csNew sa).1, rfl⟩

theorem exact_of_reaches (hr : Reaches Step (fun cs a => cs.Valid a ∧ cs.Keeps a) (csNew sa) cs) :
    cs.set.Exact := by
  have hstep : ∀ (cs : ChangeSet) (a : CsAction) (cs' : ChangeSet),
      (cs.set.Holds ∧ cs.dset.ht = none ∧ cs.set.Exact) → (cs.Valid a ∧ cs.Keeps a) →
      cs.Step a cs' → cs'.set.Holds ∧ cs'.dset.ht = none ∧ cs'.set.Exact := by
    rintro cs a cs' ⟨hl, hd, hx⟩ ⟨hv, hk⟩ hs
    obtain ⟨cs'', C, hrun, hd', he, hC⟩ := apply_effect hl hd hv
    obtain rfl := some.inj (hrun.symm.trans hs)
    exact ⟨he.holds hl, hd', he.exact hl hx ((hC hx).mpr hk)⟩
  exact (hr.invariant hstep ⟨(holds_csNew sa).1, rfl, (holds_csNew sa).2⟩).2.2

/-- **No operation walks past the end of a chain**, in any history.  In a history in which no
object with two entries is removed other than by `cs_del`, lookups are right in every state, and
a further operation keeps them right exactly if it meets this condition, too. -/
theorem finds_of_reaches {sa : Bool} (hr : Reaches Step Valid (csNew sa) cs) :
    (∀ a, cs.Valid a → (cs.apply a).isSome) ∧
      (Reaches Step (fun cs a => cs.Valid a ∧ cs.Keeps a) (csNew sa) cs →
        cs.set.Finds ∧ ∀ a cs', cs.Valid a → cs.Step a cs' → (cs'.set.Finds ↔ cs.Keeps a)) := by
  obtain ⟨hl, hd⟩ := holds_of_reaches hr
  refine ⟨fun a hv => ?_, fun hr' => ?_⟩
  · obtain ⟨cs', C, hrun, -⟩ := apply_effect hl hd hv
    rw [hrun]
    rfl
  · have hx := exact_of_reaches hr'
    refine ⟨SqlList.finds_of_exact hl hx, fun a cs' hv hs => ?_⟩
    obtain ⟨cs'', C, hrun, -, he, hC⟩ := apply_effect hl hd hv
    obtain rfl := some.inj (hrun.symm.trans hs)
    exact (he.finds_iff hl hx).trans (hC hx)

/-- The object with the name `n`. -/
def object (n : UInt8) : SqlBase := ⟨n.toNat, [n]⟩

/-- Five objects, the hash that a lookup makes of them, and a sixth object. -/
def sixObjects : ChangeSet :=
  let five := [1, 2, 3, 4, 5].foldl (fun cs n => cs.csAdd (object n)) (csNew true)
  { five with set := (five.set.listFindName [1]).1 }.csAdd (object 6)

theorem reaches_sixObjects :
    Reaches Step (fun cs a => cs.Valid a ∧ cs.Keeps a) (csNew true) sixObjects := by
  have hadd : ∀ {cs : ChangeSet} (n : UInt8),
      Reaches Step (fun cs a => cs.Valid a ∧ cs.Keeps a) (csNew true) cs →
      cs.Unnamed (object n) →
      Reaches Step (fun cs a => cs.Valid a ∧ cs.Keeps a) (csNew true) (cs.csAdd (object n)) :=
    fun n hr hv => .tail (a := .add (object n)) hr ⟨hv, trivial⟩ rfl
  have hfive := hadd 5 (hadd 4 (hadd 3 (hadd 2 (hadd 1 .refl (by decide)) (by decide)) (by decide))
    (by decide)) (by decide)
  exact hadd 6 (.tail (a := .find [1]) hfive ⟨trivial, trivial⟩ rfl) (by decide)

/-- The sixth object is deleted from the change set. -/
theorem finds_delete_sixth : ∃ cs, sixObjects.Step (.del 5 false) cs ∧ cs.set.ht.isSome ∧
    cs.set.nodes = [object 1, object 2, object 3, object 4, object 5] ∧ cs.set.Finds := by
  have hsome : (sixObjects.apply (.del 5 false)).isSome := by decide
  obtain ⟨cs, hcs⟩ := isSome_iff_exists.mp hsome
  have hset : ((sixObjects.apply (.del 5 false)).map fun cs => (cs.set.ht.isSome, cs.set.nodes)) =
      some (true, [object 1, object 2, object 3, object 4, object 5]) := by decide
  rw [hcs] at hset
  obtain ⟨hht, hnodes⟩ := Prod.mk.inj (some.inj hset)
  have hrun : Reaches Step (fun cs a => cs.Valid a ∧ cs.Keeps a) (csNew true) cs := by
    refine .tail (a := .del 5 false) reaches_sixObjects ⟨?_, trivial⟩ hcs
    show 5 < sixObjects.set.nodes.length
    decide
  exact ⟨cs, hcs, hht, hnodes, ((finds_of_reaches (hrun.mono fun _ _ h => h.1)).2 hrun).1⟩

/-- **An object that is gone is found**: the sixth object is in the hash twice, and
`list_move_data` deletes one of the two entries. -/
theorem listMoveData_leaves_entry :
    Reaches Step Valid (csNew true) sixObjects ∧ sixObjects.set.Finds ∧
      ∃ cs, sixObjects.Step (.move false (object 6)) cs ∧
        cs.set.nodes = [object 1, object 2, object 3, object 4, object 5] ∧
        (cs.set.listFindName [6]).2 = some (object 6) ∧ ¬ cs.set.Finds := by
  have hrun := reaches_sixObjects.mono fun _ _ h => h.1
  refine ⟨hrun, ?_, ?_⟩
  · exact SqlList.finds_of_exact (holds_of_reaches hrun).1 (exact_of_reaches reaches_sixObjects)
  have hsome : (sixObjects.apply (.move false (object 6))).isSome := by decide
  obtain ⟨cs, hcs⟩ := isSome_iff_exists.mp hsome
  have hset : ((sixObjects.apply (.move false (object 6))).map fun cs =>
      (cs.set.nodes, (cs.set.listFindName [6]).2)) =
      some ([object 1, object 2, object 3, object 4, object 5], some (object 6)) := by decide
  rw [hcs] at hset
  obtain ⟨hnodes, hfound⟩ := Prod.mk.inj (some.inj hset)
  refine ⟨cs, hcs, hnodes, hfound, fun hfinds => ?_⟩
  have hmem := ((hfinds [6] (object 6)).mp hfound).1
  rw [hnodes] at hmem
  exact absurd hmem (by decide)

end ChangeSet

end MonetInR.Sql
