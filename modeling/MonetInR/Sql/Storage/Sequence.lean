import Mathlib.Data.Int.Lemmas
import Mathlib.Data.List.Nodup
import Mathlib.Tactic.Ring
import MonetInR.Lib.Runs

/-!
# SQL sequences

The numbers of a sequence are handed out from memory.  So that no number is handed out again after
a restart, the logger is told a number that will not be handed out before the logger is told the
next one: `cacheinc` increments further on.  A single call takes one number; a bulk use takes the
lock, then any number of numbers, and tells the logger at its end.

## Main definitions

* `seqNextValue`, `seqbulkCreate`, `seqbulkNextValue`, `seqbulkDestroy`: the routines of the store
* `SeqRun.Step`: a call, a bulk use step by step, a commit, or a restart
* `Supply`: what the entry of a sequence in memory knows about the numbers handed out

## Main results

* `supply_draw`: one call keeps the entry right, and hands out a new number
* `sequence_of_reaches`: in every run no number is handed out twice, and all are within bounds
-/

namespace MonetInR.Sql

open Runs Function Option

/-- The value a `lng` gets. -/
def lng (x : ℤ) : ℤ := x.bmod (2 ^ 64)

/-- The numbers that a `lng` can hold. -/
def IsLng (x : ℤ) : Prop := -2 ^ 63 ≤ x ∧ x < 2 ^ 63

theorem lng_of_isLng {x : ℤ} (h : IsLng x) : lng x = x := by
  have h1 := h.1
  have h2 := h.2
  exact Int.bmod_eq_of_le (by omega) (by omega)

theorem lng_add_lng (x y : ℤ) : lng (x + lng y) = lng (x + y) := by
  exact Int.add_bmod_bmod

/-- A sequence in the catalog.  A bound of 0 is none. -/
structure SqlSequence where
  start : ℤ
  minvalue : ℤ
  maxvalue : ℤ
  increment : ℤ
  cacheinc : ℤ
  cycle : Bool

/-- The entry of a sequence in memory. -/
structure StoreSequence where
  called : Bool
  cur : ℤ
  cached : ℤ
  deriving DecidableEq

/-- A bulk use that has the lock. -/
structure Seqbulk where
  seq : ℕ
  save : Bool

/-- The store: entries in memory, the numbers the logger knows, which sequences are `TR_OLD`, and
who has the lock. -/
structure SeqStore where
  seqs : ℕ → Option StoreSequence
  log : ℕ → Option ℤ
  old : ℕ → Bool
  bulk : Option Seqbulk

/-- What a call for the next value does: the new store, the value unless the numbers have run out,
and whether the assertion holds. -/
structure NextValue where
  store : SeqStore
  val : Option ℤ
  asserted : Bool

namespace SqlSequence

def outOfNumbers (seq : SqlSequence) (cur : ℤ) : Bool :=
  (seq.maxvalue ≠ 0 && cur > seq.maxvalue) || (seq.minvalue ≠ 0 && cur < seq.minvalue)

end SqlSequence

namespace SeqStore

def put (st : SeqStore) (id : ℕ) (s : StoreSequence) : SeqStore :=
  { st with seqs := update st.seqs id (some s) }

def sqlUpdateSequenceCache (st : SeqStore) (id : ℕ) (cached : ℤ) : SeqStore :=
  { st with log := update st.log id (some cached) }

def sqlCreateSequence (st : SeqStore) (id : ℕ) (seq : SqlSequence) : StoreSequence :=
  let cached := if st.old id then (st.log id).getD seq.start else seq.start
  ⟨false, cached, cached⟩

def seqNextValue (st : SeqStore) (id : ℕ) (seq : SqlSequence) : NextValue :=
  let s := match st.seqs id with
    | none => st.sqlCreateSequence id seq
    | some s => if s.called then { s with cur := lng (s.cur + seq.increment) } else s
  let out := seq.outOfNumbers s.cur
  if out && !seq.cycle then ⟨st.put id s, none, true⟩
  else
    let s := { s with cur := if out then seq.minvalue else s.cur, called := true }
    if out || s.cur = s.cached then
      let s := { s with cached := lng (s.cur + lng (seq.cacheinc * seq.increment)) }
      ⟨(st.put id s).sqlUpdateSequenceCache id s.cached, some s.cur, true⟩
    else ⟨st.put id s, some s.cur, s.cur < s.cached⟩

def seqbulkCreate (st : SeqStore) (id : ℕ) (seq : SqlSequence) : SeqStore :=
  let s := match st.seqs id with
    | none => st.sqlCreateSequence id seq
    | some s => s
  { st.put id s with bulk := some ⟨id, false⟩ }

/-- The entry is the one that `seqbulkCreate` has found or made. -/
def seqbulkNextValue (st : SeqStore) (sb : Seqbulk) (s : StoreSequence) (seq : SqlSequence) :
    NextValue :=
  let s := if s.called then { s with cur := lng (s.cur + seq.increment) } else s
  let out := seq.outOfNumbers s.cur
  if out && !seq.cycle then ⟨st.put sb.seq s, none, true⟩
  else
    let s := { s with cur := if out then seq.minvalue else s.cur, called := true }
    let sb := { sb with save := sb.save || out }
    if s.cur = s.cached then
      let s := { s with cached := lng (s.cur + lng (seq.cacheinc * seq.increment)) }
      ⟨{ st.put sb.seq s with bulk := some { sb with save := true } }, some s.cur, true⟩
    else ⟨{ st.put sb.seq s with bulk := some sb }, some s.cur, s.cur < s.cached⟩

def seqbulkDestroy (st : SeqStore) (sb : Seqbulk) (s : StoreSequence) : SeqStore :=
  let st := if sb.save then st.sqlUpdateSequenceCache sb.seq s.cached else st
  { st with bulk := none }

/-- The transaction that made the sequence commits: the sequence becomes `TR_OLD`. -/
def commit (st : SeqStore) (id : ℕ) : SeqStore := { st with old := update st.old id true }

/-- The server starts again: what was in memory is lost. -/
def restart (st : SeqStore) : SeqStore :=
  { st with seqs := fun _ => none, old := fun _ => true, bulk := none }

end SeqStore

/-! ## Runs

Single calls, bulk uses, commits and restarts are interleaved in any order that the lock allows. -/

/-- What can happen to the store. -/
inductive SeqAction
  | next (id : ℕ)
  | bulkCreate (id : ℕ)
  | bulkNext
  | bulkDestroy
  | commit (id : ℕ)
  | restart

/-- A run so far: the store, what has been handed out of each sequence, latest first, and whether
all assertions held. -/
structure SeqRun where
  store : SeqStore
  given : ℕ → List ℤ
  asserted : Bool

namespace SeqRun

def record (r : SeqRun) (id : ℕ) (x : NextValue) : SeqRun where
  store := x.store
  given := match x.val with
    | none => r.given
    | some v => update r.given id (v :: r.given id)
  asserted := r.asserted && x.asserted

/-- A step.  A bulk use has the lock from its creation to its end; the server does not stop in
between. -/
def Step (cat : ℕ → SqlSequence) (r : SeqRun) : SeqAction → SeqRun → Prop
  | .next id, r' => r.store.bulk = none ∧ r' = r.record id (r.store.seqNextValue id (cat id))
  | .bulkCreate id, r' => r.store.bulk = none ∧
      r' = { r with store := r.store.seqbulkCreate id (cat id) }
  | .bulkNext, r' => ∃ sb s, r.store.bulk = some sb ∧ r.store.seqs sb.seq = some s ∧
      r' = r.record sb.seq (r.store.seqbulkNextValue sb s (cat sb.seq))
  | .bulkDestroy, r' => ∃ sb s, r.store.bulk = some sb ∧ r.store.seqs sb.seq = some s ∧
      r' = { r with store := r.store.seqbulkDestroy sb s }
  | .commit id, r' => r' = { r with store := r.store.commit id }
  | .restart, r' => r.store.bulk = none ∧ r' = { r with store := r.store.restart }

/-- Sequences that have never been used. -/
def start (old : ℕ → Bool) : SeqRun where
  store := ⟨fun _ => none, fun _ => none, old, none⟩
  given := fun _ => []
  asserted := true

end SeqRun

/-! ## One call

Both routines draw a number in the same way, so that one lemma is enough.  It relates the entry to
the numbers handed out so far. -/

/-- What one call does to the entry. -/
structure Draw where
  entry : StoreSequence
  val : Option ℤ
  save : Bool
  asserted : Bool

namespace SqlSequence

variable {seq : SqlSequence} {s : StoreSequence} {g : List ℤ} {x : ℤ}

/-- The two routines for the next value do the same to the entry of a sequence that does not
cycle. -/
def draw (seq : SqlSequence) (s : StoreSequence) : Draw :=
  let s := if s.called then { s with cur := lng (s.cur + seq.increment) } else s
  if seq.outOfNumbers s.cur then ⟨s, none, false, true⟩
  else
    let s := { s with called := true }
    if s.cur = s.cached then
      ⟨{ s with cached := lng (s.cur + seq.cacheinc * seq.increment) }, some s.cur, true, true⟩
    else ⟨s, some s.cur, false, s.cur < s.cached⟩

/-- The number whose turn it is. -/
def turn (seq : SqlSequence) (s : StoreSequence) : ℤ :=
  if s.called then s.cur + seq.increment else s.cur

/-- The declared bounds. -/
def Within (seq : SqlSequence) (v : ℤ) : Prop :=
  (seq.maxvalue ≠ 0 → v ≤ seq.maxvalue) ∧ (seq.minvalue ≠ 0 → seq.minvalue ≤ v)

/-- A sequence that does not cycle, as it is declared: `rel_create_seq` replaces an increment or a
cache size that is not positive by 1. -/
structure Declared (seq : SqlSequence) : Prop where
  cycle : seq.cycle = false
  start : seq.Within seq.start
  increment : 1 ≤ seq.increment
  cacheinc : 1 ≤ seq.cacheinc

/-- The number whose turn it is, and the one the logger would be told, are `lng`s. -/
def NoOverflow (seq : SqlSequence) (s : StoreSequence) : Prop :=
  IsLng (seq.turn s) ∧ (seq.Within (seq.turn s) → seq.turn s = s.cached →
    IsLng (seq.turn s + seq.cacheinc * seq.increment))

/-- All numbers from `x` on are out of bounds. -/
def Exhausted (seq : SqlSequence) (x : ℤ) : Prop := seq.maxvalue ≠ 0 ∧ seq.maxvalue < x

theorem outOfNumbers_eq_false : seq.outOfNumbers x = false ↔ seq.Within x := by
  unfold outOfNumbers Within
  simp only [decide_not, Bool.or_eq_false_iff, Bool.and_eq_false_imp,
    Bool.not_eq_eq_eq_not, Bool.not_true, decide_eq_false_iff_not, not_lt]

theorem lt_add_increment (hd : seq.Declared) (x : ℤ) : x < x + seq.increment := by
  have := hd.increment
  omega

theorem lt_add_mul_increment (hd : seq.Declared) (x : ℤ) (k : ℕ) :
    x < x + (k + 1) * seq.increment := by
  have hpos : 0 < (k + 1 : ℤ) * seq.increment := mul_pos (by omega) hd.increment
  omega

theorem Exhausted.not_within (h : seq.Exhausted x) : ¬ seq.Within x := by
  unfold Exhausted at h
  unfold Within
  omega

theorem Exhausted.add (hd : seq.Declared) (h : seq.Exhausted x) :
    seq.Exhausted (x + seq.increment) :=
  ⟨h.1, h.2.trans (lt_add_increment hd x)⟩

/-- What comes behind the start can only be out of bounds at the end. -/
theorem exhausted_of_lt (hd : seq.Declared) (hx : seq.start < x) (hw : ¬ seq.Within x) :
    seq.Exhausted x := by
  have hstart := hd.start
  unfold Within at *
  unfold Exhausted
  omega

/-- **What the entry knows**: all numbers handed out, `g`, come before the number told to the
logger, and none of them comes behind the current one, from which some increments lead to the
number told to the logger, unless the numbers have run out. -/
structure Supply (seq : SqlSequence) (g : List ℤ) (s : StoreSequence) : Prop where
  before : ∀ v ∈ g, v < s.cached
  start : seq.start ≤ s.cached
  uncalled : s.called = false → s.cur = s.cached
  called : s.called = true → seq.Exhausted s.cur ∨ ((∀ v ∈ g, v ≤ s.cur) ∧ seq.start ≤ s.cur ∧
    ∃ k : ℕ, s.cached = s.cur + (k + 1) * seq.increment)

section

variable (hn : seq.NoOverflow s)

include hn

theorem advance_eq :
    (if s.called then { s with cur := lng (s.cur + seq.increment) } else s) =
      { s with cur := seq.turn s } := by
  have hlng := lng_of_isLng hn.1
  unfold turn at *
  cases hc : s.called with
  | true =>
    simp only [hc, if_true] at hlng ⊢
    rw [hlng]
  | false =>
    rw [if_neg Bool.false_ne_true, if_neg Bool.false_ne_true, ← hc]

theorem draw_of_out (hw : ¬ seq.Within (seq.turn s)) :
    seq.draw s = ⟨{ s with cur := seq.turn s }, none, false, true⟩ := by
  have hout : seq.outOfNumbers (seq.turn s) = true := by
    rw [← Bool.not_eq_false, outOfNumbers_eq_false]
    exact hw
  unfold draw
  rw [advance_eq hn]
  rw [if_pos hout]

theorem draw_of_told (hw : seq.Within (seq.turn s)) (heq : seq.turn s = s.cached) :
    seq.draw s = ⟨⟨true, seq.turn s, seq.turn s + seq.cacheinc * seq.increment⟩,
      some (seq.turn s), true, true⟩ := by
  have hout := outOfNumbers_eq_false.mpr hw
  unfold draw
  rw [advance_eq hn]
  dsimp only
  rw [hout, if_neg Bool.false_ne_true, if_pos heq, lng_of_isLng (hn.2 hw heq)]

theorem draw_of_cached (hw : seq.Within (seq.turn s)) (hne : seq.turn s ≠ s.cached) :
    seq.draw s = ⟨⟨true, seq.turn s, s.cached⟩, some (seq.turn s), false,
      seq.turn s < s.cached⟩ := by
  have hout := outOfNumbers_eq_false.mpr hw
  unfold draw
  rw [advance_eq hn]
  dsimp only
  rw [hout, if_neg Bool.false_ne_true, if_neg hne]

end

section

variable (hd : seq.Declared) (hs : seq.Supply g s)

include hd hs

/-- The number whose turn it is comes behind all that have been handed out, and is the number told
to the logger or some increments before it. -/
theorem Supply.turn (hw : seq.Within (seq.turn s)) : (∀ v ∈ g, v < seq.turn s) ∧
      seq.start ≤ seq.turn s ∧ (seq.turn s = s.cached ∨
        ∃ k : ℕ, s.cached = seq.turn s + (k + 1) * seq.increment) := by
  cases hc : s.called with
  | false =>
    have hturn : seq.turn s = s.cached := by
      unfold SqlSequence.turn
      rw [hc]
      exact hs.uncalled hc
    rw [hturn]
    exact ⟨hs.before, hs.start, .inl rfl⟩
  | true =>
    have hturn : seq.turn s = s.cur + seq.increment := by
      unfold SqlSequence.turn
      rw [if_pos hc]
    rw [hturn] at hw ⊢
    have hnext := lt_add_increment hd s.cur
    rcases hs.called hc with hx | ⟨hbehind, hstart, k, hk⟩
    · exact absurd hw (hx.add hd).not_within
    refine ⟨fun v hv => (hbehind v hv).trans_lt hnext, hstart.trans hnext.le, ?_⟩
    cases k with
    | zero =>
      left
      rw [hk]
      ring
    | succ k =>
      refine .inr ⟨k, ?_⟩
      rw [hk]
      push_cast
      ring

theorem Supply.of_out (hw : ¬ seq.Within (seq.turn s)) : seq.Supply g
    { s with cur := seq.turn s } where
  before := hs.before
  start := hs.start
  uncalled hc := by
    have hturn : seq.turn s = s.cur := if_neg (by rw [hc]; exact Bool.false_ne_true)
    exact hturn.trans (hs.uncalled hc)
  called hc := by
    left
    have hturn : seq.turn s = s.cur + seq.increment := if_pos hc
    rw [hturn] at hw
    rw [hturn]
    rcases hs.called hc with hx | ⟨-, hstart, -⟩
    · exact hx.add hd
    · exact exhausted_of_lt hd (hstart.trans_lt (lt_add_increment hd s.cur)) hw

/-- A number has been handed out, `k + 1` increments before the one told to the logger. -/
theorem Supply.of_turn (hw : seq.Within (seq.turn s)) (k : ℕ) :
    seq.Supply (seq.turn s :: g) ⟨true, seq.turn s, seq.turn s + (k + 1) * seq.increment⟩ := by
  obtain ⟨hbefore, hstart, -⟩ := hs.turn hd hw
  have hnext := lt_add_mul_increment hd (seq.turn s) k
  refine ⟨?_, hstart.trans hnext.le, nofun, fun _ => .inr ⟨?_, hstart, k, rfl⟩⟩
  · exact List.forall_mem_cons.mpr ⟨hnext, fun v hv => (hbefore v hv).trans hnext⟩
  · exact List.forall_mem_cons.mpr ⟨le_rfl, fun v hv => (hbefore v hv).le⟩

end

/-- **One call**: it hands out a new number within bounds, or none, and keeps the entry right. -/
theorem supply_draw (hd : seq.Declared) (hs : seq.Supply g s) (hn : seq.NoOverflow s) :
    match (seq.draw s).val with
    | none => seq.Supply g (seq.draw s).entry
    | some v => seq.Within v ∧ v ∉ g ∧ seq.Supply (v :: g) (seq.draw s).entry := by
  by_cases hw : seq.Within (seq.turn s)
  · obtain ⟨hbefore, -, hcached⟩ := hs.turn hd hw
    have hnew : seq.turn s ∉ g := fun hv => lt_irrefl _ (hbefore _ hv)
    by_cases heq : seq.turn s = s.cached
    · rw [draw_of_told hn hw heq]
      refine ⟨hw, hnew, ?_⟩
      obtain ⟨k, hk⟩ : ∃ k : ℕ, seq.cacheinc = k + 1 :=
        ⟨(seq.cacheinc - 1).toNat, by have := hd.cacheinc; omega⟩
      have hsupply := hs.of_turn hd hw k
      rw [← hk] at hsupply
      exact hsupply
    · obtain ⟨k, hk⟩ := hcached.resolve_left heq
      have hsupply := hs.of_turn hd hw k
      rw [← hk] at hsupply
      rw [draw_of_cached hn hw heq]
      exact ⟨hw, hnew, hsupply⟩
  · rw [draw_of_out hn hw]
    exact hs.of_out hd hw

/-- **The assertion** that the number comes before the one told to the logger. -/
theorem asserted_draw (hd : seq.Declared) (hs : seq.Supply g s) (hn : seq.NoOverflow s) :
    (seq.draw s).asserted = true := by
  by_cases hw : seq.Within (seq.turn s)
  · obtain ⟨-, -, hcached⟩ := hs.turn hd hw
    by_cases heq : seq.turn s = s.cached
    · rw [draw_of_told hn hw heq]
    obtain ⟨k, hk⟩ := hcached.resolve_left heq
    rw [draw_of_cached hn hw heq, decide_eq_true_eq, hk]
    exact lt_add_mul_increment hd (seq.turn s) k
  · rw [draw_of_out hn hw]

end SqlSequence

/-! ## The store -/

namespace SeqStore

variable {st : SeqStore} {id : ℕ} {seq : SqlSequence} {s : StoreSequence}

/-- The entry a call finds or makes. -/
def entry (st : SeqStore) (id : ℕ) (seq : SqlSequence) : StoreSequence :=
  (st.seqs id).getD (st.sqlCreateSequence id seq)

/-- What a call does to the entry before it looks at the bounds. -/
def advance (seq : SqlSequence) (s : StoreSequence) : StoreSequence :=
  if s.called then { s with cur := lng (s.cur + seq.increment) } else s

theorem advance_def (s : StoreSequence) :
    (if s.called then { s with cur := lng (s.cur + seq.increment) } else s) = advance seq s := rfl

theorem match_entry : (match st.seqs id with
      | none => st.sqlCreateSequence id seq
      | some s => if s.called then { s with cur := lng (s.cur + seq.increment) } else s) =
    advance seq (st.entry id seq) := by
  unfold entry
  cases st.seqs id <;> rfl

theorem seqNextValue_eq (hc : seq.cycle = false) : st.seqNextValue id seq =
      let d := seq.draw (st.entry id seq)
      ⟨if d.save then (st.put id d.entry).sqlUpdateSequenceCache id d.entry.cached
        else st.put id d.entry, d.val, d.asserted⟩ := by
  unfold seqNextValue SqlSequence.draw
  rw [match_entry, advance_def, hc]
  generalize advance seq (st.entry id seq) = a
  dsimp only
  cases hout : seq.outOfNumbers a.cur with
  | true => rfl
  | false =>
    by_cases heq : a.cur = a.cached
    · simp [heq, lng_add_lng]
    · simp [heq]

theorem seqbulkNextValue_eq (hc : seq.cycle = false) {sb : Seqbulk} (hsb : st.bulk = some sb) :
    st.seqbulkNextValue sb s seq =
      let d := seq.draw s
      ⟨{ st.put sb.seq d.entry with bulk := some { sb with save := sb.save || d.save } },
        d.val, d.asserted⟩ := by
  unfold seqbulkNextValue SqlSequence.draw
  rw [hc]
  generalize (if s.called then { s with cur := lng (s.cur + seq.increment) } else s) = a
  dsimp only
  cases hout : seq.outOfNumbers a.cur with
  | true => simp [put, hsb]
  | false =>
    by_cases heq : a.cur = a.cached
    · simp [heq, lng_add_lng]
    · simp [heq]

theorem seqs_seqbulkCreate (st : SeqStore) (id : ℕ) (seq : SqlSequence) :
    (st.seqbulkCreate id seq).seqs id = some (st.entry id seq) := by
  refine (update_self ..).trans ?_
  unfold entry
  cases st.seqs id <;> rfl

theorem entry_of_some (h : st.seqs id = some s) : st.entry id seq = s := by
  unfold entry
  rw [h]
  rfl

end SeqStore

namespace SqlSequence

variable {seq : SqlSequence} {s : StoreSequence} {g : List ℤ}

theorem draw_cached (h : (seq.draw s).save = false) : (seq.draw s).entry.cached = s.cached := by
  revert h
  unfold draw
  generalize hadv : (if s.called then { s with cur := lng (s.cur + seq.increment) } else s) = a
  have hcached : a.cached = s.cached := by
    rw [← hadv]
    split <;> rfl
  dsimp only
  split_ifs
  · exact fun _ => hcached
  · exact nofun
  · exact fun _ => hcached

end SqlSequence

namespace SeqRun

variable {cat : ℕ → SqlSequence} {r r' : SeqRun} {a : SeqAction} {id : ℕ} {s : StoreSequence}
  {st : SeqStore} {sb : Seqbulk}

/-- **When a step is safe**: a call for the next value does not overflow with the entry that it
finds or makes. -/
def StepSafe (cat : ℕ → SqlSequence) (r : SeqRun) : SeqAction → Prop
  | .next id => (cat id).NoOverflow (r.store.entry id (cat id))
  | .bulkNext => ∀ sb, r.store.bulk = some sb →
      (cat sb.seq).NoOverflow (r.store.entry sb.seq (cat sb.seq))
  | _ => True

/-- What holds of one sequence throughout: the entry that a call finds or makes is right, and
the logger knows its number unless a bulk use will tell. -/
structure Right (cat : ℕ → SqlSequence) (r : SeqRun) (id : ℕ) : Prop where
  nodup : (r.given id).Nodup
  within : ∀ v ∈ r.given id, (cat id).Within v
  supply : (cat id).Supply (r.given id) (r.store.entry id (cat id))
  opened : ∀ sb, r.store.bulk = some sb → sb.seq = id → (r.store.seqs id).isSome
  told : (∀ sb, r.store.bulk = some sb → sb.seq = id → sb.save = false) →
    (r.store.entry id (cat id)).cached = (r.store.log id).getD (cat id).start

theorem Right.congr (hr : r.Right cat id) (hgiven : r'.given id = r.given id)
    (hseqs : r'.store.seqs id = r.store.seqs id) (hlog : r'.store.log id = r.store.log id)
    (hold : r'.store.old id = r.store.old id)
    (hbulk : ∀ sb : Seqbulk, sb.seq = id → (r'.store.bulk = some sb ↔ r.store.bulk = some sb)) :
    r'.Right cat id := by
  have hentry : r'.store.entry id (cat id) = r.store.entry id (cat id) := by
    unfold SeqStore.entry SeqStore.sqlCreateSequence
    rw [hseqs, hlog, hold]
  refine ⟨?_, ?_, ?_, fun sb hsb hid => ?_, fun hsave => ?_⟩
  · rw [hgiven]
    exact hr.nodup
  · rw [hgiven]
    exact hr.within
  · rw [hgiven, hentry]
    exact hr.supply
  · rw [hseqs]
    exact hr.opened sb ((hbulk sb hid).mp hsb) hid
  · rw [hentry, hlog]
    exact hr.told fun sb hsb hid => hsave sb ((hbulk sb hid).mpr hsb) hid

theorem Right.told_of_free (hr : r.Right cat id) (hfree : r.store.bulk = none) :
    (r.store.entry id (cat id)).cached = (r.store.log id).getD (cat id).start :=
  hr.told fun _ hsb => absurd (hfree.symm.trans hsb) nofun

theorem right_record (hd : (cat id).Declared) (hr : r.Right cat id)
    (hn : (cat id).NoOverflow (r.store.entry id (cat id))) {d : Draw}
    (hdraw : (cat id).draw (r.store.entry id (cat id)) = d) (hseqs : st.seqs id = some d.entry)
    (htold : (∀ sb, st.bulk = some sb → sb.seq = id → sb.save = false) →
      d.entry.cached = (st.log id).getD (cat id).start) :
    (r.record id ⟨st, d.val, d.asserted⟩).Right cat id := by
  -- the call keeps the entry right; what is left is the record of the run
  have hsupply := SqlSequence.supply_draw hd hr.supply hn
  rw [hdraw] at hsupply
  have hentry : st.entry id (cat id) = d.entry := SeqStore.entry_of_some hseqs
  have hopened : (st.seqs id).isSome := by
    rw [hseqs]
    rfl
  cases hv : d.val with
  | none =>
    rw [hv] at hsupply
    refine ⟨hr.nodup, hr.within, ?_, fun _ _ _ => hopened, fun hsave => ?_⟩
    · show (cat id).Supply (r.given id) (st.entry id (cat id))
      rw [hentry]
      exact hsupply
    · exact (congrArg _ hentry).trans (htold hsave)
  | some v =>
    rw [hv] at hsupply
    obtain ⟨hwithin, hnew, hsupply⟩ := hsupply
    have hgiven : (r.record id ⟨st, some v, d.asserted⟩).given id = v :: r.given id :=
      update_self ..
    refine ⟨?_, ?_, ?_, fun _ _ _ => hopened, fun hsave => ?_⟩
    · rw [hgiven]
      exact List.nodup_cons.mpr ⟨hnew, hr.nodup⟩
    · rw [hgiven]
      exact List.forall_mem_cons.mpr ⟨hwithin, hr.within⟩
    · rw [hgiven]
      show (cat id).Supply (v :: r.given id) (st.entry id (cat id))
      rw [hentry]
      exact hsupply
    · exact (congrArg _ hentry).trans (htold hsave)

theorem record_given_of_ne {x : NextValue} {id' : ℕ} (h : id' ≠ id) :
    (r.record id x).given id' = r.given id' := by
  unfold record
  cases x.val with
  | none => rfl
  | some v => exact update_of_ne h _ _

theorem right_next (hcat : ∀ id, (cat id).Declared) (hr : ∀ id, r.Right cat id)
    (hn : (cat id).NoOverflow (r.store.entry id (cat id))) (hfree : r.store.bulk = none)
    (id' : ℕ) :
    (r.record id (r.store.seqNextValue id (cat id))).Right cat id' := by
  rw [SeqStore.seqNextValue_eq (hcat id).cycle]
  dsimp only
  rcases eq_or_ne id' id with rfl | hne
  · refine right_record (hcat id') (hr id') hn rfl ?_ fun _ => ?_
    · split <;> exact update_self ..
    · cases hsave : ((cat id').draw (r.store.entry id' (cat id'))).save with
      | true =>
        simp [SeqStore.sqlUpdateSequenceCache]
      | false =>
        rw [SqlSequence.draw_cached hsave]
        exact (hr id').told_of_free hfree
  · refine (hr id').congr (record_given_of_ne hne) ?_ ?_ ?_ fun sb _ => ?_
    · split <;> exact update_of_ne hne _ _
    · split
      · exact update_of_ne hne _ _
      · rfl
    · split <;> rfl
    · split <;> exact Iff.rfl

theorem right_bulkNext (hcat : ∀ id, (cat id).Declared) (hr : ∀ id, r.Right cat id)
    (hsb : r.store.bulk = some sb) (hs : r.store.seqs sb.seq = some s)
    (hn : (cat sb.seq).NoOverflow s) (id' : ℕ) :
    (r.record sb.seq (r.store.seqbulkNextValue sb s (cat sb.seq))).Right cat id' := by
  obtain rfl : r.store.entry sb.seq (cat sb.seq) = s := SeqStore.entry_of_some hs
  rw [SeqStore.seqbulkNextValue_eq (hcat sb.seq).cycle hsb]
  rcases eq_or_ne id' sb.seq with rfl | hne
  · refine right_record (hcat sb.seq) (hr sb.seq) hn rfl (update_self ..) fun hsave => ?_
    have hsaved := hsave _ rfl rfl
    rw [Bool.or_eq_false_iff] at hsaved
    rw [SqlSequence.draw_cached hsaved.2]
    refine (hr sb.seq).told fun sb' hsb' _ => ?_
    obtain rfl := some.inj (hsb.symm.trans hsb')
    exact hsaved.1
  · refine (hr id').congr (record_given_of_ne hne) (update_of_ne hne _ _) rfl rfl fun sb' hid => ?_
    -- neither is a bulk use of this sequence
    refine iff_of_false (fun h => hne ?_) fun h => hne ?_
    · rw [← hid, ← some.inj h]
    · rw [← hid, ← some.inj (hsb.symm.trans h)]

/-- Nothing but the lock and the logger has changed. -/
theorem Right.of_entry (hr : r.Right cat id)
    (hentry : st.entry id (cat id) = r.store.entry id (cat id))
    (hopened : ∀ sb, st.bulk = some sb → sb.seq = id → (st.seqs id).isSome)
    (htold : (∀ sb, st.bulk = some sb → sb.seq = id → sb.save = false) →
      (r.store.entry id (cat id)).cached = (st.log id).getD (cat id).start) :
    ({ r with store := st } : SeqRun).Right cat id := by
  refine ⟨hr.nodup, hr.within, ?_, hopened, fun hsave => ?_⟩
  · rw [hentry]
    exact hr.supply
  · exact (congrArg _ hentry).trans (htold hsave)

section

variable (hr : ∀ id, r.Right cat id)

include hr

theorem right_bulkCreate (hfree : r.store.bulk = none) (id' : ℕ) :
    ({ r with store := r.store.seqbulkCreate id (cat id) } : SeqRun).Right cat id' := by
  rcases eq_or_ne id' id with rfl | hne
  · have hseqs := SeqStore.seqs_seqbulkCreate r.store id' (cat id')
    refine (hr id').of_entry (SeqStore.entry_of_some hseqs) (fun _ _ _ => ?_) fun _ =>
      (hr id').told_of_free hfree
    rw [hseqs]
    rfl
  · refine (hr id').congr rfl (update_of_ne hne _ _) rfl rfl fun sb hid => ?_
    refine iff_of_false (fun h => hne ?_) fun h => absurd (hfree.symm.trans h) nofun
    rw [← hid, ← some.inj h]

theorem right_bulkDestroy (hsb : r.store.bulk = some sb)
    (hs : r.store.seqs sb.seq = some s) (id' : ℕ) :
    ({ r with store := r.store.seqbulkDestroy sb s } : SeqRun).Right cat id' := by
  obtain rfl : r.store.entry sb.seq (cat sb.seq) = s := SeqStore.entry_of_some hs
  unfold SeqStore.seqbulkDestroy
  rcases eq_or_ne id' sb.seq with rfl | hne
  · cases hsave : sb.save with
    | true =>
      refine (hr sb.seq).of_entry ?_ nofun fun _ => ?_
      · exact SeqStore.entry_of_some hs
      · simp [SeqStore.sqlUpdateSequenceCache]
    | false =>
      refine (hr sb.seq).of_entry rfl nofun fun _ => (hr sb.seq).told fun sb' hsb' _ => ?_
      obtain rfl := some.inj (hsb.symm.trans hsb')
      exact hsave
  · refine (hr id').congr rfl ?_ ?_ ?_ fun sb' hid => ?_
    · split <;> rfl
    · split
      · exact update_of_ne hne _ _
      · rfl
    · split <;> rfl
    · refine iff_of_false nofun fun h => hne ?_
      rw [← hid, ← some.inj (hsb.symm.trans h)]

theorem right_commit (id' : ℕ) :
    ({ r with store := r.store.commit id } : SeqRun).Right cat id' := by
  rcases eq_or_ne id' id with rfl | hne
  · refine (hr id').of_entry ?_ (hr id').opened (hr id').told
    unfold SeqStore.entry
    cases hs : r.store.seqs id' with
    | some s =>
      have hs' : (r.store.commit id').seqs id' = some s := hs
      rw [hs']
      rfl
    | none =>
      -- nothing has been logged that the new entry would not start with
      have htold := (hr id').told fun sb hsb hid => by
        have hopened := (hr id').opened sb hsb hid
        rw [hs] at hopened
        exact absurd hopened nofun
      have hs' : (r.store.commit id').seqs id' = none := hs
      rw [SeqStore.entry, hs] at htold
      rw [hs']
      simp only [getD_none, SeqStore.sqlCreateSequence, SeqStore.commit,
        update_self, if_true] at htold ⊢
      rw [htold]
  · exact (hr id').congr rfl rfl rfl (update_of_ne hne _ _) fun _ _ => Iff.rfl

theorem right_restart (hfree : r.store.bulk = none) (id' : ℕ) :
    ({ r with store := r.store.restart } : SeqRun).Right cat id' := by
  have htold := (hr id').told_of_free hfree
  have hentry : r.store.restart.entry id' (cat id') =
      ⟨false, (r.store.entry id' (cat id')).cached, (r.store.entry id' (cat id')).cached⟩ := by
    rw [htold]
    rfl
  refine ⟨(hr id').nodup, (hr id').within, ?_, nofun, fun _ => ?_⟩
  · rw [hentry]
    have hs := (hr id').supply
    exact ⟨hs.before, hs.start, fun _ => rfl, nofun⟩
  · exact (congrArg _ hentry).trans htold

end

theorem right_step (hcat : ∀ id, (cat id).Declared) (hr : ∀ id, r.Right cat id)
    (hsafe : r.StepSafe cat a) (hstep : r.Step cat a r') (id' : ℕ) : r'.Right cat id' := by
  cases a with
  | next id =>
    obtain ⟨hfree, rfl⟩ := hstep
    exact right_next hcat hr hsafe hfree id'
  | bulkCreate id =>
    obtain ⟨hfree, rfl⟩ := hstep
    exact right_bulkCreate hr hfree id'
  | bulkNext =>
    obtain ⟨sb, s, hsb, hs, rfl⟩ := hstep
    have hentry : r.store.entry sb.seq (cat sb.seq) = s := SeqStore.entry_of_some hs
    have hn := hsafe sb hsb
    rw [hentry] at hn
    exact right_bulkNext hcat hr hsb hs hn id'
  | bulkDestroy =>
    obtain ⟨sb, s, hsb, hs, rfl⟩ := hstep
    exact right_bulkDestroy hr hsb hs id'
  | commit id =>
    obtain rfl := hstep
    exact right_commit hr id'
  | restart =>
    obtain ⟨hfree, rfl⟩ := hstep
    exact right_restart hr hfree id'

theorem asserted_step (hcat : ∀ id, (cat id).Declared) (hr : ∀ id, r.Right cat id)
    (hsafe : r.StepSafe cat a) (hstep : r.Step cat a r') (ha : r.asserted = true) :
    r'.asserted = true := by
  cases a with
  | next id =>
    obtain ⟨-, rfl⟩ := hstep
    rw [SeqStore.seqNextValue_eq (hcat id).cycle]
    have hdraw := SqlSequence.asserted_draw (hcat id) (hr id).supply hsafe
    simp only [record, ha, Bool.true_and, hdraw]
  | bulkNext =>
    obtain ⟨sb, s, hsb, hs, rfl⟩ := hstep
    obtain rfl : r.store.entry sb.seq (cat sb.seq) = s := SeqStore.entry_of_some hs
    rw [SeqStore.seqbulkNextValue_eq (hcat sb.seq).cycle hsb]
    have hdraw := SqlSequence.asserted_draw (hcat sb.seq) (hr sb.seq).supply (hsafe sb hsb)
    simp only [record, ha, Bool.true_and, hdraw]
  | bulkCreate id =>
    obtain ⟨-, rfl⟩ := hstep
    exact ha
  | bulkDestroy =>
    obtain ⟨sb, s, -, -, rfl⟩ := hstep
    exact ha
  | commit id =>
    obtain rfl := hstep
    exact ha
  | restart =>
    obtain ⟨-, rfl⟩ := hstep
    exact ha

theorem right_start (old : ℕ → Bool) (id : ℕ) : (SeqRun.start old).Right cat id := by
  have hentry : (SeqRun.start old).store.entry id (cat id) =
      ⟨false, (cat id).start, (cat id).start⟩ := by
    unfold SeqRun.start SeqStore.entry SeqStore.sqlCreateSequence
    simp
  refine ⟨List.nodup_nil, nofun, ?_, nofun, fun _ => ?_⟩
  · rw [hentry]
    exact ⟨nofun, le_rfl, fun _ => rfl, nofun⟩
  · rw [hentry]
    rfl

/-- A sequence that goes up from 1 to 10, with two numbers to a cache. -/
def upToTen : SqlSequence := ⟨1, 1, 10, 1, 2, false⟩

/-- A sequence that goes up from 1 without bounds, with the largest cache that can be declared. -/
def largestCache : SqlSequence := ⟨1, 0, 0, 1, 2 ^ 63 - 1, false⟩

theorem declared_upToTen : upToTen.Declared := by
  refine ⟨rfl, ⟨fun _ => ?_, fun _ => ?_⟩, ?_, ?_⟩ <;> decide

theorem declared_largestCache : largestCache.Declared :=
  ⟨rfl, ⟨fun h => absurd rfl h, fun h => absurd rfl h⟩, by decide, by decide⟩

end SeqRun

/-! ## Single calls and a bulk use -/

namespace SeqStore

section

variable (id : ℕ) (seq : SqlSequence)

def seqGetValue (st : SeqStore) : SeqStore × Option ℤ :=
  let s := st.entry id seq
  let val := if s.called then lng (s.cur + seq.increment) else s.cur
  (st.put id s, if seq.outOfNumbers val then if seq.cycle then some seq.minvalue else none
    else some val)

/-- A single call, and the results so far. -/
def singleStep (x : SeqStore × List (Option ℤ)) : SeqStore × List (Option ℤ) :=
  let n := x.1.seqNextValue id seq
  (n.store, n.val :: x.2)

/-- A call of the bulk use. -/
def bulkStep (x : SeqStore × List (Option ℤ)) : SeqStore × List (Option ℤ) :=
  match x.1.bulk, x.1.seqs id with
  | some sb, some s =>
    let n := x.1.seqbulkNextValue sb s seq
    (n.store, n.val :: x.2)
  | _, _ => x

def afterSingles (st : SeqStore) (k : ℕ) : SeqStore × List (Option ℤ) :=
  (singleStep id seq)^[k] (st, [])

def afterBulk (st : SeqStore) (k : ℕ) : SeqStore × List (Option ℤ) :=
  (bulkStep id seq)^[k] (st.seqbulkCreate id seq, [])

/-- The end of the bulk use. -/
def bulkEnd (st : SeqStore) : SeqStore :=
  match st.bulk, st.seqs id with
  | some sb, some s => st.seqbulkDestroy sb s
  | _, _ => st

/-- The same results, current value, called flag and logged value. -/
def Agree (x y : SeqStore × List (Option ℤ)) : Prop :=
  let z := bulkEnd id y.1
  x.2 = y.2 ∧ (x.1.entry id seq).cur = (z.entry id seq).cur ∧
    (x.1.entry id seq).called = (z.entry id seq).called ∧ x.1.log id = z.log id

/-- The next call starts again, and this changes the number the logger is told. -/
def Lags (s : StoreSequence) : Prop :=
  seq.cycle ∧ seq.outOfNumbers (advance seq s).cur ∧ seq.minvalue ≠ s.cached ∧
    lng (seq.minvalue + lng (seq.cacheinc * seq.increment)) ≠ s.cached

/-- The entries are the same, and the logger will be told the same number. -/
structure Alike (x y : SeqStore × List (Option ℤ)) : Prop where
  values : x.2 = y.2
  entry : y.1.seqs id = some (x.1.entry id seq)
  told : ∃ save, y.1.bulk = some ⟨id, save⟩ ∧
    x.1.log id = if save then some (x.1.entry id seq).cached else y.1.log id

end

variable {id : ℕ} {seq : SqlSequence} {x y : SeqStore × List (Option ℤ)}

theorem Alike.agree (h : Alike id seq x y) : Agree id seq x y := by
  obtain ⟨save, hbulk, htold⟩ := h.told
  have hend : bulkEnd id y.1 = y.1.seqbulkDestroy ⟨id, save⟩ (x.1.entry id seq) := by
    simp only [bulkEnd, hbulk, h.entry]
  have hentry : (bulkEnd id y.1).entry id seq = x.1.entry id seq := entry_of_some (by
    rw [hend, seqbulkDestroy]
    split_ifs <;> exact h.entry)
  refine ⟨h.values, ?_, ?_, ?_⟩
  · rw [hentry]
  · rw [hentry]
  · rw [htold, hend, seqbulkDestroy]
    cases save <;> simp [sqlUpdateSequenceCache]

theorem advance_cached (seq) (s : StoreSequence) : (advance seq s).cached = s.cached := by
  unfold advance
  split_ifs <;> rfl

theorem alike_of {X Y : SeqStore} {e : StoreSequence} {v : Option ℤ} {save : Bool}
    (hvalues : x.2 = y.2) (hx : X.seqs id = some e) (hy : Y.seqs id = some e)
    (hbulk : Y.bulk = some ⟨id, save⟩)
    (hlog : X.log id = if save then some e.cached else Y.log id) :
    Alike id seq (X, v :: x.2) (Y, v :: y.2) := by
  have he : X.entry id seq = e := entry_of_some hx
  refine ⟨by rw [hvalues], ?_, save, hbulk, ?_⟩
  · rw [he, hy]
  · rw [he, hlog]

/-- One call: the stores stay alike, unless the logger is told different numbers. -/
theorem Alike.step (h : Alike id seq x y) :
    (¬ Lags seq (x.1.entry id seq) → Alike id seq (singleStep id seq x) (bulkStep id seq y)) ∧
      (Lags seq (x.1.entry id seq) → ¬ Agree id seq (singleStep id seq x) (bulkStep id seq y)) := by
  obtain ⟨save, hbulk, htold⟩ := h.told
  have hcached := advance_cached seq (x.1.entry id seq)
  rw [Lags, ← hcached]
  rw [← hcached] at htold
  simp only [bulkStep, hbulk, h.entry, singleStep]
  unfold seqNextValue seqbulkNextValue
  rw [match_entry, advance_def]
  generalize advance seq (x.1.entry id seq) = a at *
  dsimp only
  cases hout : seq.outOfNumbers a.cur with
  | false =>
    refine ⟨fun _ => ?_, fun hl => absurd hl.2.1 Bool.false_ne_true⟩
    by_cases heq : a.cur = a.cached
    · simp only [heq, Bool.false_and, Bool.false_or, decide_true, if_true, if_false,
        Bool.false_eq_true]
      exact alike_of h.values (update_self ..) (update_self ..) rfl
        (by simp [sqlUpdateSequenceCache])
    · simp only [heq, Bool.false_and, Bool.or_false, decide_false, if_false, Bool.false_eq_true]
      exact alike_of h.values (update_self ..) (update_self ..) rfl htold
  | true =>
    cases hc : seq.cycle with
    | false =>
      refine ⟨fun _ => ?_, fun hl => absurd hl.1 Bool.false_ne_true⟩
      exact alike_of h.values (update_self ..) (update_self ..) hbulk htold
    | true =>
      by_cases heq : seq.minvalue = a.cached
      · refine ⟨fun _ => ?_, fun hl => absurd heq hl.2.2.1⟩
        simp only [heq, Bool.not_true, Bool.and_false, Bool.true_or, if_true, if_false,
          Bool.false_eq_true]
        exact alike_of h.values (update_self ..) (update_self ..) rfl
          (by simp [sqlUpdateSequenceCache])
      · -- the bulk use keeps the number the logger is to be told
        simp only [heq, Bool.not_true, Bool.and_false, Bool.true_or, if_true, if_false,
          Bool.false_eq_true, Bool.or_true]
        refine ⟨fun hl => ?_, fun hl hagree => hl.2.2.2 ?_⟩
        · have hnew : lng (seq.minvalue + lng (seq.cacheinc * seq.increment)) = a.cached := by
            by_contra hne
            exact hl ⟨trivial, trivial, heq, hne⟩
          rw [hnew]
          exact alike_of h.values (update_self ..) (update_self ..) rfl
            (by simp [sqlUpdateSequenceCache])
        · have hlog := hagree.2.2.2
          simpa [bulkEnd, seqbulkDestroy, sqlUpdateSequenceCache, put] using hlog

/-- **Single calls and a bulk use do the same, for every number of calls, if and only if** no call
starts again with another number to tell the logger; and the value that is shown is the next one. -/
theorem agree_iff (st : SeqStore) (id : ℕ) (seq : SqlSequence) :
    ((∀ k, Agree id seq (afterSingles id seq st k) (afterBulk id seq st k)) ↔
      ∀ k, ¬ Lags seq ((afterSingles id seq st k).1.entry id seq)) ∧
    (st.seqGetValue id seq).2 = (st.seqNextValue id seq).val ∧
      (st.seqGetValue id seq).1.entry id seq = st.entry id seq ∧
      (st.seqGetValue id seq).1.log = st.log := by
  have hrun (hlag : ∀ k, Alike id seq (afterSingles id seq st k) (afterBulk id seq st k) →
      ¬ Lags seq ((afterSingles id seq st k).1.entry id seq)) (k : ℕ) :
      Alike id seq (afterSingles id seq st k) (afterBulk id seq st k) := by
    induction k with
    | zero => exact ⟨rfl, seqs_seqbulkCreate st id seq, false, rfl, rfl⟩
    | succ k ih =>
      rw [afterSingles, afterBulk, iterate_succ_apply', iterate_succ_apply']
      exact ih.step.1 (hlag k ih)
  refine ⟨⟨fun h => ?_, fun h k => (hrun (fun k _ => h k) k).agree⟩, ?_, ?_, rfl⟩
  · suffices hlag : ∀ k, Alike id seq (afterSingles id seq st k) (afterBulk id seq st k) →
        ¬ Lags seq ((afterSingles id seq st k).1.entry id seq) from fun k => hlag k (hrun hlag k)
    intro k hk hl
    have hagree := h (k + 1)
    rw [afterSingles, afterBulk, iterate_succ_apply', iterate_succ_apply'] at hagree
    exact hk.step.2 hl hagree
  · unfold seqGetValue seqNextValue
    rw [match_entry]
    have hcur : (if (st.entry id seq).called then lng ((st.entry id seq).cur + seq.increment)
        else (st.entry id seq).cur) = (advance seq (st.entry id seq)).cur := by
      unfold advance
      split_ifs <;> rfl
    dsimp only
    rw [hcur]
    cases seq.outOfNumbers (advance seq (st.entry id seq)).cur <;> cases seq.cycle <;>
      simp [apply_ite]
  · exact entry_of_some (update_self ..)

/-- The third call starts again at 1.  The single calls tell the logger 5, the bulk use tells it the
6 of its first call. -/
theorem not_agree_fromTwo : ∃ seq st, seq = ⟨2, 1, 3, 1, 4, true⟩ ∧
    ¬ Agree 0 seq (afterSingles 0 seq st 3) (afterBulk 0 seq st 3) :=
  ⟨_, ⟨fun _ => none, fun _ => none, fun _ => true, none⟩, rfl, fun h => absurd h.2.2.2 (by decide)⟩

end SeqStore

end MonetInR.Sql
