import MonetInR.Gdk.Hash

/-!
# The columns of a BAT

A BAT has two columns, head and tail, that are stored and described alike.  A column of type
`void` stores nothing: its values are consecutive oids from a sequence base, or all nil.  The
property flags of a column are adjusted with every update, and its hash index, if it has one, is
patched: deletions and moves find the entry that leads to a position, in the bucket array or in the
array of links, and redirect it.

This module embeds what an update does to one of the two columns.  The region of live positions
(`first`, `count`) belongs to the BAT and is passed along.

## Main definitions

* `OidAtom`: a domain of values that contains the oids
* `Col`, `Col.value`: a column and its values by position
* `Col.setcolprops`, `Col.delFirst`, `Col.delSwap`, `Col.delLast`, `Col.replace`,
  `Col.COLsettrivprop`: the updates
* `HASHdel`, `HASHmove`, `HASHgonebad`: the updates of a hash index
* `Hash.Tracks`: the index is well-formed and holds the positions of a set, each in the chain of
  its bucket

## Main results

* `tracks_insAny`, `tracks_HASHdel`, `tracks_HASHmove`: what the updates do to this set
-/

namespace MonetInR.Gdk

open LinkArray Function List

/-- A domain of values that contains the oids.  The values of all types that occur in a BAT are
thought of as one domain, with the oids above all others; comparisons are only ever made between
values of one type. -/
class OidAtom (V : Type*) extends Atom V where
  ofOid : ℕ → V
  toOid : V → Option ℕ
  toOid_ofOid : ∀ n, toOid (ofOid n) = some n
  ofOid_toOid : ∀ v n, toOid v = some n → ofOid n = v
  ofOid_lt : ∀ m n, m < n → ofOid m < ofOid n
  /-- nil is no oid. -/
  toOid_bot : toOid ⊥ = none
  lt_ofOid : ∀ v n, toOid v = none → v < ofOid n

theorem OidAtom.bot_lt_ofOid {V : Type*} [OidAtom V] (n : ℕ) : (⊥ : V) < ofOid n :=
  lt_ofOid ⊥ n toOid_bot

/-- The domain of the oids alone, with nil. -/
def OidVal : Type := WithBot ℕ
  deriving LinearOrder, OrderBot

namespace OidVal

/-- The number of an oid. -/
def number : OidVal → Option ℕ := fun v => v

instance : OidAtom OidVal where
  atomHash v := mixInt ((v.number.getD (2 ^ 63)) % 2 ^ 32 ^^^ (v.number.getD (2 ^ 63)) / 2 ^ 32)
  atomSize := 8
  ofOid n := (n : WithBot ℕ)
  toOid := number
  toOid_ofOid _ := rfl
  ofOid_toOid v n h := h.symm
  ofOid_lt m n h := WithBot.coe_lt_coe.mpr h
  toOid_bot := rfl
  lt_ofOid v n h := by
    rw [show v = (⊥ : WithBot ℕ) from h]
    exact WithBot.bot_lt_coe n

end OidVal

/-- The type of a column, as far as updates distinguish it.  For other types than oids it
matters whether they are linearly ordered. -/
inductive ColType
  | void
  | oid
  | other (linear : Bool)
  deriving DecidableEq, Repr

/-- `BATatoms[type].linear`. -/
def ColType.linear : ColType → Bool
  | .other linear => linear
  | _ => true

/-- The property `key`: `BOUND2BTRUE` asks for values to be kept unique. -/
inductive KeyProp
  | no
  | yes
  | bound
  deriving DecidableEq, Repr

/-- `key |= 1` -/
def KeyProp.orYes : KeyProp → KeyProp
  | .bound => .bound
  | _ => .yes

/-- A column.  `heap` holds the values by position (for types of variable size, what the offset
stored there leads to). -/
structure Col (V : Type*) where
  type : ColType
  /-- The sequence base; `none` is `oid_nil`. -/
  seq : Option ℕ
  sorted : Bool
  revsorted : Bool
  key : KeyProp
  dense : Bool
  nil : Bool
  nonil : Bool
  heap : ℕ → V
  /-- `atomDel`, for types that have it: what a value reads as after it has been freed. -/
  atomDel : Option (V → V)
  hash : Option Hash

/-! ## Hash indexes under updates

As in `Gdk.Hash`, `c` is the bucket of the value that is deleted or moved. -/

/-- Make the entry that leads to position `i` lead to `x`.  If the position behind `i` links to
it, the chain need not be searched; `next` says that there is such a position. -/
def Hash.redirect (h : Hash) (i c : ℕ) (next : Bool) (x : ℕ) : Hash :=
  if next && h.link (i + 1) == i then h.putlink (i + 1) x
  else if h.hash c = i then h.put c x
  else
    match findPred h.link h.nil i h.lim (h.hash c) with
    | some p => h.putlink p x
    | none => h

/-- Take position `i` out of its chain. -/
def HASHdel (h : Hash) (i c : ℕ) (next : Bool) : Hash :=
  let h := h.redirect i c next (h.link i)
  h.putlink i h.nil

/-- Position `j` takes the place of position `i` in its chain. -/
def HASHmove (h : Hash) (i j c : ℕ) (next : Bool) : Hash :=
  let h := h.redirect i c next j
  h.putlink j (h.link i)

namespace Col

variable {V : Type*} [OidAtom V]

open OidAtom

/-! ## Reading a column -/

/-- The value at position `p`: `BUNhead` and `BUNtail`. -/
def value (c : Col V) (first p : ℕ) : V :=
  match c.type with
  | .void =>
    match c.seq with
    | some s => ofOid (s + p - first)
    | none => ⊥
  | _ => c.heap p

/-- `BAThvoid` and `BATtvoid`. -/
def isVoid (c : Col V) : Bool := (c.dense && c.sorted) || c.type == .void

/-- `BAThdense` and `BATtdense`. -/
def isDense (c : Col V) : Bool := c.isVoid && c.seq.isSome

/-- A column with a sequence base of oids that are not stored. -/
def voidDense (c : Col V) : Prop := c.type = .void ∧ c.seq.isSome
  deriving Decidable

/-- `BAThordered` and `BATtordered`. -/
def ordered (c : Col V) : Bool := c.type == .void || c.sorted

/-- `BAThrevordered` and `BATtrevordered`. -/
def revordered (c : Col V) : Bool := (c.type == .void && c.seq.isNone) || c.revsorted

/-- `BUNfnd`: a live position with a given value.  (The kernel computes it for a dense column and
looks it up in a sorted one or with a hash index otherwise; it asks only for columns that it keeps
unique, so there is no choice.) -/
def BUNfnd (c : Col V) (first count : ℕ) (v : V) : Option ℕ :=
  (List.range' first count).find? fun p => atomCmp (c.value first p) v = 0

/-- The position with a given value in a column that is kept unique. -/
def fndBound (c : Col V) (first count : ℕ) (v : V) : Option ℕ :=
  if c.key = .bound then c.BUNfnd first count v else none

/-- `*(oid *) v + 1 == *(oid *) w` -/
def isSucc (v w : V) : Bool :=
  match toOid v, toOid w with
  | some m, some n => n == m + 1
  | _, _ => false

/-! ## Hash indexes of a column -/

/-- `HASHgonebad`: the buckets are few and the chain of `v` is long and holds mostly other
values. -/
def HASHgonebad (c : Col V) (first count : ℕ) (h : Hash) (v : V) : Bool :=
  if h.mask * 2 < count then
    let chain := walk h.link h.nil h.lim (h.hash (HASHprobe h v))
    let cnt := 1 + chain.length
    let hit := 1 + (chain.filter fun i => atomCmp v (c.value first i) = 0).length
    4 < cnt / hit
  else false

/-- `HASHins`: insert position `i`, or give the index up if it has gone bad. -/
def HASHins (c : Col V) (first count i : ℕ) (v : V) : Col V :=
  match c.hash with
  | none => c
  | some h =>
    if i &&& 1023 == 1023 && c.HASHgonebad first count h v then { c with hash := none }
    else { c with hash := some (HASHinsAny h i (HASHprobe h v)) }

/-- `hashdel` on the index, if there is one. -/
def hashdel (c : Col V) (first p : ℕ) (next : Bool) : Col V :=
  { c with hash := c.hash.map fun h => HASHdel h p (HASHprobe h (c.value first p)) next }

/-! ## Updates -/

/-- `HTputvalue`: store a value at a position.  Nothing is stored in a `void` column. -/
def put (c : Col V) (p : ℕ) (v : V) : Col V :=
  { c with heap := if c.type = .void then c.heap else update c.heap p v }

/-- The call of `atomDel` for a position, if the type has it. -/
def free (c : Col V) (p : ℕ) : Col V := { c with
    heap :=
      if c.type = .void then c.heap
      else c.atomDel.elim c.heap fun del => update c.heap p (del (c.heap p)) }

/-- `acc_move`: exchange the values at `l` and `p`, and give the place of `l` in the index to
`p`. -/
def accMove (c : Col V) (first l p : ℕ) (next : Bool) : Col V := { c with
    hash := c.hash.map fun h => HASHmove h l p (HASHprobe h (c.value first l)) next
    heap :=
      if c.type = .void then c.heap
      else update (update c.heap l (c.heap p)) p (c.heap l) }

/-- The flags of a column to which the value `x` is about to be added.  For a `void` column
there may be no value. -/
def setcolprops (c : Col V) (first count : ℕ) (x : Option V) : Col V :=
  let v := x.getD ⊥
  let isnil : Bool := atomCmp v ⊥ = 0
  if count = 0 then
    -- first value
    let c := { c with
      sorted := c.type.linear, revsorted := c.type.linear, key := c.key.orYes }
    match c.type with
    | .void =>
      let seq := x.elim c.seq toOid
      { c with seq := seq, nil := seq.isNone, nonil := seq.isSome }
    | .oid => { c with nil := isnil, nonil := !isnil, dense := !isnil, seq := toOid v }
    | .other _ => { c with nil := isnil, nonil := !isnil }
  else
    match c.type with
    | .void =>
      match c.seq with
      | some _ => { c with revsorted := false, nil := false, nonil := true }
      | none => { c with key := .no, nil := true, nonil := false }
    | _ =>
      let prv := c.value first (first + count - 1)
      let cmp := atomCmp prv v
      { c with
        key :=
          if c.key = .yes ∧ (cmp = 0 ∨ (1 < count ∧ ((c.sorted ∧ 0 < cmp) ∨
            (c.revsorted ∧ cmp < 0) ∨ (!c.sorted ∧ !c.revsorted)))) then .no else c.key
        sorted := c.sorted && !(0 < cmp)
        revsorted := c.revsorted && !(cmp < 0)
        dense := c.dense && !(0 ≤ cmp || !isSucc prv v)
        nonil := c.nonil && !isnil
        nil := c.nil || isnil }

/-- Discard the first, committed value. -/
def delFirst (c : Col V) (first p last : ℕ) : Col V :=
  let c := c.hashdel first p (p < last)
  if c.isDense then { c with seq := c.seq.map (· + 1) } else c

/-- Delete a committed value behind the first one, which takes its place. -/
def delSwap (c : Col V) (first p last : ℕ) : Col V :=
  let c := (c.hashdel first p (p < last)).accMove first first p (first < last)
  { c with sorted := false, revsorted := false, dense := false }

/-- Delete a value that has not been committed, or that is deleted by force; the last one takes
its place. -/
def delLast (c : Col V) (first p last : ℕ) : Col V :=
  let c := (c.free p).hashdel first p (p < last)
  if p ≠ last then
    let c := c.accMove first last p false
    -- the value in place of the deleted one is compared with the one behind it
    let cmp := atomCmp (c.value first p) (c.value first (p + 1))
    { c with
      sorted := c.sorted && !(p + 1 < last && 0 < cmp)
      dense := if c.sorted then false else c.dense
      revsorted := c.revsorted && !(p + 1 < last && cmp < 0) }
  else c

/-- The first part of a replacement: the value and the index.  The flag for nils is cleared if a
nil disappears. -/
def replaceValue (c : Col V) (first last p : ℕ) (t : V) : Col V :=
  let c := { c with nil := c.nil && !(atomCmp (c.value first p) ⊥ = 0 && atomCmp t ⊥ ≠ 0) }
  let c := (c.hashdel first p (p < last)).put p t
  { c with hash := c.hash.map fun h => HASHinsAny h p (HASHprobe h (c.value first p)) }

/-- The value `t` at position `p` is below the one before it or above the one behind it. -/
def breaksOrder (c : Col V) (first last p : ℕ) (t : V) : Bool :=
  (first < p && atomCmp t (c.value first (p - 1)) < 0) ||
    (p < last && 0 < atomCmp t (c.value first (p + 1)))

/-- It is above the one before it or below the one behind it. -/
def breaksRevorder (c : Col V) (first last p : ℕ) (t : V) : Bool :=
  (first < p && 0 < atomCmp t (c.value first (p - 1))) ||
    (p < last && atomCmp t (c.value first (p + 1)) < 0)

/-- It does not follow the one before it or does not precede the one behind it. -/
def breaksDense (c : Col V) (first last p : ℕ) (t : V) : Bool :=
  (first < p && !isSucc (c.value first (p - 1)) t) ||
    (p < last && !isSucc t (c.value first (p + 1)))

/-- The second part: the neighbours of the replaced value decide whether the column is still
ascending and, if it is, whether it is still dense.  A single value gives a new sequence base. -/
def replaceOrder (c : Col V) (first last p : ℕ) (t : V) : Col V :=
  let dense := c.ordered && !c.breaksOrder first last p t && c.type != .void && c.dense
  { c with
    sorted := c.sorted && !(c.ordered && c.breaksOrder first last p t)
    dense := c.dense && !(dense && c.breaksDense first last p t)
    seq := if dense && !c.breaksDense first last p t && !(first < p || p < last) then toOid t
      else c.seq }

/-- The third part: whether it is still descending. -/
def replaceRevorder (c : Col V) (first last p : ℕ) (t : V) : Col V :=
  { c with revsorted := c.revsorted && !(c.revordered && c.breaksRevorder first last p t) }

/-- The fourth part: the value may not be unique (`BATkey(bm, FALSE)`), and it may be nil. -/
def replaceKey (c : Col V) (count : ℕ) (t : V) : Col V :=
  let unknown := c.type != .void && c.key == .yes && 1 < count
  { c with
    key := if unknown then .no else c.key
    dense := c.dense && !unknown
    nonil := c.nonil && atomCmp t ⊥ ≠ 0 }

/-- Replace the value at a position that has not been committed, or by force. -/
def replace (c : Col V) (first count p : ℕ) (t : V) : Col V :=
  let last := first + count - 1
  (((c.replaceValue first last p t).replaceOrder first last p t).replaceRevorder first last p
    t).replaceKey count t

/-- `COLsettrivprop` on a column without values. -/
def COLsettrivprop (c : Col V) : Col V :=
  let c :=
    match c.type with
    | .void =>
      match c.seq with
      | none => { c with revsorted := true, sorted := true }
      | some _ =>
        { c with
          dense := true, nonil := true, sorted := true
          key := if c.key = .no then .yes else c.key }
    | .oid | .other _ =>
      { c with
        sorted := c.type.linear || c.sorted, revsorted := c.type.linear || c.revsorted
        key := if c.key = .no then .yes else c.key, nonil := true, nil := false }
  if !c.type.linear then { c with sorted := false, revsorted := false } else c

/-- `BATmaterializeh` on the column: a dense `void` column gets its oids written out, from the
start of the new heap on.  What the rest of the heap holds is not known. -/
def materialize (c : Col V) (count : ℕ) : Col V :=
  match c.type, c.seq with
  | .void, some s =>
    { c with
      type := .oid, dense := true, hash := none
      heap := fun p => if p < count then ofOid (s + p) else c.heap p }
  | _, _ => c

end Col

/-! ## The positions of a hash index -/

/-- The index holds exactly the positions in `S`, and has room for them. -/
structure Hash.Tracks (h : Hash) (S : ℕ → Prop) (bucket : ℕ → ℕ) : Prop where
  shape : h.Shape
  lt_lim : ∀ i, S i → i < h.lim
  le_mask : ∀ i, S i → bucket i ≤ h.mask
  indexes : h.Indexes S bucket

variable {h : Hash} {S S' : ℕ → Prop} {bucket bucket' : ℕ → ℕ} {i j c x : ℕ} {next : Bool}

section

variable (ht : h.Tracks S bucket)

include ht

theorem Hash.Tracks.congr (hS : ∀ i, S i ↔ S' i)
    (hb : ∀ i, S i → bucket i = bucket' i) : h.Tracks S' bucket' where
  shape := ht.shape
  lt_lim i hi := ht.lt_lim i ((hS i).mpr hi)
  le_mask i hi := hb i ((hS i).mpr hi) ▸ ht.le_mask i ((hS i).mpr hi)
  indexes := ht.indexes.congr hS hb

theorem tracks_insAny (hi : i < h.lim) (hb : bucket i ≤ h.mask)
    (hnew : ¬ S i) : (HASHinsAny h i (bucket i)).Tracks (fun j => S j ∨ j = i) bucket where
  shape := ht.shape.insAny hi _
  lt_lim j hj := hj.elim (ht.lt_lim j) fun h' => h' ▸ hi
  le_mask j hj := hj.elim (ht.le_mask j) fun h' => h' ▸ hb
  indexes := indexes_insAny ht.shape ht.indexes hi hnew

theorem Hash.Tracks.chain (hi : S i) : ∃ l, Chain h.link h.nil (h.hash (bucket i)) l ∧ i ∈ l ∧
      ∀ j, j ∈ l ↔ S j ∧ bucket j = bucket i := by
  obtain ⟨l, hl, hmem⟩ := ht.indexes (bucket i) (ht.le_mask i hi)
  exact ⟨l, hl, (hmem i).mpr ⟨hi, rfl⟩, hmem⟩

theorem Hash.Tracks.ne_nil (hi : S i) : i ≠ h.nil := by
  have h1 := ht.lt_lim i hi
  have h2 := ht.shape.lim_le
  omega

theorem Hash.Tracks.link_le (hi : S i) : h.link i ≤ h.nil := by
  obtain ⟨l, hl, hil, hmem⟩ := ht.chain hi
  rcases hl.next_mem hil with h' | h'
  · exact h'.le
  · exact (ht.lt_lim _ ((hmem _).mp h').1).le.trans ht.shape.lim_le

theorem Hash.Tracks.length_le {l : List ℕ} (hl : l.Nodup)
    (hmem : ∀ j ∈ l, S j) : l.length ≤ h.lim := by
  have hsub : l ⊆ range h.lim := fun i hi => mem_range.mpr (ht.lt_lim i (hmem i hi))
  simpa using (hl.subperm hsub).length_le

/-- The entry that is redirected is the one that leads to `i`: the start of the bucket's chain, or
the link of the position before `i`. -/
theorem redirect_cases (hi : S i) (hnext : next = true → S (i + 1) ∨ h.link (i + 1) ≠ i) (x : ℕ) :
    ∃ l, Chain h.link h.nil (h.hash (bucket i)) l ∧ (∀ j, j ∈ l ↔ S j ∧ bucket j = bucket i) ∧
      ((∃ ys, l = i :: ys ∧ h.redirect i (bucket i) next x = h.put (bucket i) x) ∨
        ∃ xs p ys, l = xs ++ p :: i :: ys ∧ h.redirect i (bucket i) next x = h.putlink p x) := by
  obtain ⟨l, hl, hil, hmem⟩ := ht.chain hi
  refine ⟨l, hl, hmem, ?_⟩
  unfold Hash.redirect
  by_cases hs : (next && h.link (i + 1) == i) = true
  · -- the position behind `i` stands before it in its chain
    obtain ⟨hn, hlink⟩ := Bool.and_eq_true _ _ ▸ hs
    rw [beq_iff_eq] at hlink
    have hi' : S (i + 1) := (hnext hn).resolve_right (not_not.mpr hlink)
    obtain ⟨l', hl', hil', hmem'⟩ := ht.chain hi'
    obtain ⟨xs, ys, rfl⟩ := hl'.split_of_next hil' (ht.ne_nil hi) hlink
    have hb : bucket i = bucket (i + 1) := ((hmem' i).mp (by simp)).2
    rw [← hb] at hl'
    rw [if_pos hs]
    exact .inr ⟨xs, i + 1, ys, hl.unique hl', rfl⟩
  rw [if_neg hs]
  split_ifs with hhead
  · rw [hhead] at hl
    cases hl with
    | nil => exact absurd rfl (ht.ne_nil hi)
    | cons _ _ => exact .inl ⟨_, rfl, rfl⟩
  · obtain ⟨xs, p, ys, rfl⟩ := hl.split_of_mem hil hhead
    have hlen := ht.length_le hl.nodup fun j hj => ((hmem j).mp hj).1
    rw [hl.findPred_eq hlen]
    exact .inr ⟨xs, p, ys, rfl, rfl⟩

end

/-! ## Writes -/

theorem Hash.Shape.put_eq (hs : h.Shape) (hx : x ≤ h.nil) :
    h.put c x = { h with hash := update h.hash c x } := by
  rw [Hash.put, hs.mod_of_le hx]

theorem Hash.Shape.putlink_eq (hs : h.Shape) (hx : x ≤ h.nil) :
    h.putlink i x = { h with link := update h.link i x } := by
  rw [Hash.putlink, hs.mod_of_le hx]

theorem Hash.Shape.put (hs : h.Shape) (hx : x ≤ h.nil) : (h.put c x).Shape where
  nil_eq := hs.nil_eq
  lim_le := hs.lim_le
  hash_le d := by
    rw [hs.put_eq hx]
    show update h.hash c x d ≤ h.nil
    by_cases hd : d = c
    · subst hd
      rwa [update_self]
    · rw [update_of_ne hd]
      exact hs.hash_le d

theorem Hash.Shape.putlink (hs : h.Shape) (i x : ℕ) : (h.putlink i x).Shape :=
  ⟨hs.nil_eq, hs.lim_le, hs.hash_le⟩

theorem tracks_of_chain (ht : h.Tracks S bucket) {hash' link' : ℕ → ℕ} {l : List ℕ}
    (hle : hash' c ≤ h.nil) (hchain : Chain link' h.nil (hash' c) l)
    (hhash : ∀ d, d ≠ c → hash' d = h.hash d) (hlink : ∀ k, S k → bucket k ≠ c → link' k = h.link k)
    (hmem : ∀ k, k ∈ l ↔ S' k ∧ bucket' k = c)
    (hrest : ∀ k, S' k ∧ bucket' k ≠ c ↔ S k ∧ bucket k ≠ c)
    (hbucket : ∀ k, S k → bucket k ≠ c → bucket' k = bucket k)
    (hS : ∀ k, S' k → k < h.lim ∧ bucket' k ≤ h.mask) :
    { h with hash := hash', link := link' }.Tracks S' bucket' where
  shape := by
    refine ⟨ht.shape.nil_eq, ht.shape.lim_le, fun d => ?_⟩
    by_cases hd : d = c
    · exact hd ▸ hle
    · exact (hhash d hd).trans_le (ht.shape.hash_le d)
  lt_lim k hk := (hS k hk).1
  le_mask k hk := (hS k hk).2
  indexes := by
    intro d hd
    by_cases hdc : d = c
    · subst hdc
      exact ⟨l, hchain, hmem⟩
    obtain ⟨l', hl', hmem'⟩ := ht.indexes d hd
    refine ⟨l', ?_, fun k => ?_⟩
    · show Chain link' h.nil (hash' d) l'
      rw [hhash d hdc]
      refine hl'.congr fun k hk => ?_
      obtain ⟨hk1, hk2⟩ := (hmem' k).mp hk
      exact (hlink k hk1 (hk2 ▸ hdc)).symm
    · rw [hmem' k]
      constructor
      · rintro ⟨hk, rfl⟩
        exact ⟨((hrest k).mpr ⟨hk, hdc⟩).1, hbucket k hk hdc⟩
      · rintro ⟨hk, rfl⟩
        obtain ⟨h1, h2⟩ := (hrest k).mp ⟨hk, hdc⟩
        exact ⟨h1, (hbucket k h1 h2).symm⟩

theorem redirect_frame (h : Hash) (i c : ℕ) (next : Bool) (x : ℕ) :
    (h.redirect i c next x).lim = h.lim ∧ (h.redirect i c next x).mask = h.mask ∧
      (h.redirect i c next x).nil = h.nil ∧ (h.redirect i c next x).width = h.width := by
  unfold Hash.redirect
  split_ifs
  · exact ⟨rfl, rfl, rfl, rfl⟩
  · exact ⟨rfl, rfl, rfl, rfl⟩
  · split <;> exact ⟨rfl, rfl, rfl, rfl⟩

@[simp] theorem HASHdel_lim (h : Hash) (i c : ℕ) (next : Bool) : (HASHdel h i c next).lim = h.lim :=
  (redirect_frame h i c next _).1

@[simp] theorem HASHdel_mask (h : Hash) (i c : ℕ) (next : Bool) :
    (HASHdel h i c next).mask = h.mask :=
  (redirect_frame h i c next _).2.1

@[simp] theorem HASHmove_lim (h : Hash) (i j c : ℕ) (next : Bool) :
    (HASHmove h i j c next).lim = h.lim :=
  (redirect_frame h i c next _).1

@[simp] theorem HASHmove_mask (h : Hash) (i j c : ℕ) (next : Bool) :
    (HASHmove h i j c next).mask = h.mask :=
  (redirect_frame h i c next _).2.1

section Chains

variable {l l' xs ys : List ℕ} {p k : ℕ}

theorem mem_cons_after : k ∈ xs ++ p :: i :: ys ↔ k = i ∨ k ∈ xs ++ p :: ys := by
  rw [append_cons, perm_middle.mem_iff, mem_cons, ← append_cons]

theorem notMem_of_nodup_after (h : (xs ++ p :: i :: ys).Nodup) : i ∉ xs ++ p :: ys := by
  rw [append_cons, perm_middle.nodup_iff, nodup_cons, ← append_cons] at h
  exact h.1

theorem mem_rest (hmem : ∀ k, k ∈ l ↔ S k ∧ bucket k = bucket i)
    (hl : ∀ k, k ∈ l ↔ k = i ∨ k ∈ l') (hi : i ∉ l') (k : ℕ) :
    k ∈ l' ↔ (S k ∧ k ≠ i) ∧ bucket k = bucket i := by
  rw [and_right_comm, ← hmem k, hl k]
  constructor
  · exact fun hk => ⟨.inr hk, fun he => hi (he ▸ hk)⟩
  · exact fun hk => hk.1.resolve_left hk.2

end Chains

/-- **A deleted position leaves the index.** -/
theorem tracks_HASHdel (ht : h.Tracks S bucket) (hi : S i)
    (hnext : next = true → S (i + 1) ∨ h.link (i + 1) ≠ i) :
    (HASHdel h i (bucket i) next).Tracks (fun k => S k ∧ k ≠ i) bucket := by
  obtain ⟨l, hl, hmem, hcases⟩ := redirect_cases ht hi hnext (h.link i)
  have hle := ht.link_le hi
  have hnd := hl.nodup
  have hS : ∀ k, S k ∧ k ≠ i → k < h.lim ∧ bucket k ≤ h.mask :=
    fun k hk => ⟨ht.lt_lim k hk.1, ht.le_mask k hk.1⟩
  have hrest : ∀ k, (S k ∧ k ≠ i) ∧ bucket k ≠ bucket i ↔ S k ∧ bucket k ≠ bucket i :=
    fun k => ⟨fun hk => ⟨hk.1.1, hk.2⟩, fun hk => ⟨⟨hk.1, fun he => hk.2 (he ▸ rfl)⟩, hk.2⟩⟩
  rcases hcases with ⟨ys, rfl, hdef⟩ | ⟨xs, p, ys, rfl, hdef⟩
  · -- `i` comes first in its chain
    have hdef' : HASHdel h i (bucket i) next = { h with
          hash := update h.hash (bucket i) (h.link i)
          link := update h.link i h.nil } := by
      rw [HASHdel, hdef, (ht.shape.put hle).putlink_eq le_rfl, ht.shape.put_eq hle]
    rw [hdef']
    refine tracks_of_chain (c := bucket i) (l := ys) ht ?_ ?_ ?_ ?_ ?_ hrest (fun _ _ _ => rfl) hS
    · rwa [update_self]
    · rw [update_self]
      exact hl.of_cons.update_of_notMem (nodup_cons.mp hnd).1 _
    · exact fun d hd => update_of_ne hd _ _
    · exact fun k _ hk => update_of_ne (fun he => hk (congrArg bucket he)) _ _
    · exact mem_rest hmem (fun k => mem_cons) (nodup_cons.mp hnd).1
  · -- it comes after `p`
    have hdef' : HASHdel h i (bucket i) next = { h with
          hash := h.hash
          link := update (update h.link p (h.link i)) i h.nil } := by
      rw [HASHdel, hdef, (ht.shape.putlink p _).putlink_eq le_rfl, ht.shape.putlink_eq hle]
    have hp : S p ∧ bucket p = bucket i := (hmem p).mp (by simp)
    have hnd' := notMem_of_nodup_after hnd
    rw [hdef']
    refine tracks_of_chain (c := bucket i) (l := xs ++ p :: ys) ht (ht.shape.hash_le _) ?_
      (fun _ _ => rfl) ?_ ?_ hrest (fun _ _ _ => rfl) hS
    · exact hl.unlink.update_of_notMem hnd' _
    · intro k _ hk
      rw [update_of_ne fun he => hk (congrArg bucket he),
        update_of_ne fun he => hk ((congrArg bucket he).trans hp.2)]
    · exact mem_rest hmem (fun k => mem_cons_after) hnd'

theorem HASHdel_link (hs : h.Shape) (i c : ℕ) (next : Bool) :
    (HASHdel h i c next).link i = (HASHdel h i c next).nil := by
  obtain ⟨-, -, hn, hw⟩ := redirect_frame h i c next (h.link i)
  have hmod : (h.redirect i c next (h.link i)).nil %
      2 ^ (8 * (h.redirect i c next (h.link i)).width) = (h.redirect i c next (h.link i)).nil := by
    rw [hn, hw, hs.mod_of_le le_rfl]
  simp only [HASHdel, Hash.putlink, update_self, hmod]

/-- **A position that is not indexed takes the place of an indexed one.** -/
theorem tracks_HASHmove (ht : h.Tracks S bucket) (hi : S i) (hj : ¬ S j) (hjl : j < h.lim)
    (hnext : next = true → S (i + 1) ∨ h.link (i + 1) ≠ i) (hb : bucket' j = bucket i)
    (hb' : ∀ k, S k → k ≠ i → bucket' k = bucket k) :
    (HASHmove h i j (bucket i) next).Tracks (fun k => (S k ∧ k ≠ i) ∨ k = j) bucket' := by
  obtain ⟨l, hl, hmem, hcases⟩ := redirect_cases ht hi hnext j
  have hle := ht.link_le hi
  have hjle : j ≤ h.nil := hjl.le.trans ht.shape.lim_le
  have hjnil : j ≠ h.nil := by
    have := ht.shape.lim_le
    omega
  have hjl' : j ∉ l := fun hm => hj ((hmem j).mp hm).1
  have hjS : ∀ k, S k → k ≠ j := fun k hk he => hj (he ▸ hk)
  have hnd := hl.nodup
  have hother : ∀ k, S k → bucket k ≠ bucket i → k ≠ i := fun k _ hk he => hk (congrArg bucket he)
  have hrest : ∀ k, ((S k ∧ k ≠ i) ∨ k = j) ∧ bucket' k ≠ bucket i ↔
      S k ∧ bucket k ≠ bucket i := by
    intro k
    constructor
    · rintro ⟨⟨hk, hki⟩ | rfl, hk'⟩
      · exact ⟨hk, hb' k hk hki ▸ hk'⟩
      · exact absurd hb hk'
    · rintro ⟨hk, hk'⟩
      have hki := hother k hk hk'
      exact ⟨.inl ⟨hk, hki⟩, (hb' k hk hki).symm ▸ hk'⟩
  have hbucket : ∀ k, S k → bucket k ≠ bucket i → bucket' k = bucket k :=
    fun k hk hk' => hb' k hk (hother k hk hk')
  have hS : ∀ k, (S k ∧ k ≠ i) ∨ k = j → k < h.lim ∧ bucket' k ≤ h.mask := by
    rintro k (⟨hk, hki⟩ | rfl)
    · exact ⟨ht.lt_lim k hk, hb' k hk hki ▸ ht.le_mask k hk⟩
    · exact ⟨hjl, hb ▸ ht.le_mask i hi⟩
  -- the nodes of the changed chain
  have hnodes : ∀ l' : List ℕ, (∀ k, k ∈ l ↔ k = i ∨ k ∈ l') → i ∉ l' →
      ∀ k, k = j ∨ k ∈ l' ↔ ((S k ∧ k ≠ i) ∨ k = j) ∧ bucket' k = bucket i := by
    intro l' hl' hil' k
    rw [mem_rest hmem hl' hil' k]
    constructor
    · rintro (rfl | ⟨h1, h2⟩)
      · exact ⟨.inr rfl, hb⟩
      · exact ⟨.inl h1, (hb' k h1.1 h1.2).trans h2⟩
    · rintro ⟨h1 | rfl, h2⟩
      · exact .inr ⟨h1, (hb' k h1.1 h1.2).symm.trans h2⟩
      · exact .inl rfl
  rcases hcases with ⟨ys, rfl, hdef⟩ | ⟨xs, p, ys, rfl, hdef⟩
  · have hdef' : HASHmove h i j (bucket i) next = { h with
          hash := update h.hash (bucket i) j
          link := update h.link j (h.link i) } := by
      rw [HASHmove, hdef, Hash.put_link, (ht.shape.put hjle).putlink_eq hle, ht.shape.put_eq hjle]
    rw [hdef']
    refine tracks_of_chain (c := bucket i) (l := j :: ys) ht ?_ ?_ ?_ ?_ ?_ hrest hbucket hS
    · rwa [update_self]
    · rw [update_self]
      refine .cons hjnil ?_
      rw [update_self]
      exact hl.of_cons.update_of_notMem (fun hm => hjl' (mem_cons_of_mem _ hm)) _
    · exact fun d hd => update_of_ne hd _ _
    · exact fun k hk _ => update_of_ne (hjS k hk) _ _
    · intro k
      rw [mem_cons]
      exact hnodes ys (fun k => mem_cons) (nodup_cons.mp hnd).1 k
  · have hp : S p ∧ bucket p = bucket i := (hmem p).mp (by simp)
    have hnd' := notMem_of_nodup_after hnd
    have hpi : i ≠ p := fun he => hnd' (he ▸ by simp)
    have hdef' : HASHmove h i j (bucket i) next = { h with
          hash := h.hash
          link := update (update h.link p j) j (h.link i) } := by
      have hlink : (h.putlink p j).link i = h.link i := update_of_ne hpi _ _
      rw [HASHmove, hdef, hlink, (ht.shape.putlink p j).putlink_eq hle, ht.shape.putlink_eq hjle]
    rw [hdef']
    refine tracks_of_chain (c := bucket i) (l := xs ++ p :: j :: ys) ht (ht.shape.hash_le _) ?_
      (fun _ _ => rfl) ?_ ?_ hrest hbucket hS
    · exact hl.rename hjnil hjl'
    · intro k hk hk'
      rw [update_of_ne (hjS k hk), update_of_ne fun he => hk' ((congrArg bucket he).trans hp.2)]
    · intro k
      rw [mem_cons_after]
      exact hnodes _ (fun k => mem_cons_after) hnd' k

end MonetInR.Gdk
