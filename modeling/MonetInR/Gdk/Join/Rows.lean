import Mathlib.Data.List.Sort
import MonetInR.Gdk.Column
import MonetInR.Lib.IntervalSearch
import MonetInR.Lib.RowBlocks

/-!
# Joining lists of rows

What an equi-join of two lists of rows (pairs of an oid and a value) is, independently of how it
is computed: every left row, in order, with every right row that holds the same value, unless
that value is nil.

When both columns are scanned in the same direction, the merge join skips left rows that come
before the next right value.  If all remaining left rows do, the skip ends behind the last one,
and the loop goes on with whatever value it finds there.  `Overrun` says when this happens, in
terms of the two lists of rows alone; the lemmas say how it is passed from one round of the loop
to the next.

## Main definitions

* `joinRows`: the nested-loop join
* `partnered`: the left rows that have a partner
* `Side.rows`: the rows a cursor range stands for
* `IsLeftJoin`: the pairs that a left join of two columns is to return
* `Overrun`: the merge join runs past the last left row
-/

namespace MonetInR.Gdk

open IntervalSearch RowBlocks List

variable {α : Type*} [Atom α]

section Rows

variable {L L' R : List (ℕ × α)} {o : ℕ} {v : α} (P : ℕ × α → Bool)

/-- The oids of the rows with value `v`. -/
def matching (v : α) (R : List (ℕ × α)) : List ℕ := (R.filter fun y => y.2 = v).map Prod.fst

/-- The pairs of one left row. -/
def joinRow (R : List (ℕ × α)) (x : ℕ × α) : List (ℕ × ℕ) :=
  if x.2 = ⊥ then [] else (matching x.2 R).map fun o => (x.1, o)

/-- The nested-loop join. -/
def joinRows (L R : List (ℕ × α)) : List (ℕ × ℕ) := L.flatMap (joinRow R)

/-- The row has a partner. -/
def HasPartner (R : List (ℕ × α)) (x : ℕ × α) : Prop := x.2 ≠ ⊥ ∧ ∃ y ∈ R, y.2 = x.2
  deriving Decidable

/-- The oids of the left rows that have a partner. -/
def partnered (R L : List (ℕ × α)) : List ℕ := (L.filter fun x => HasPartner R x).map Prod.fst

theorem mem_matching : o ∈ matching v R ↔ (o, v) ∈ R := by
  simp only [matching, mem_map, mem_filter, decide_eq_true_iff]
  constructor
  · rintro ⟨⟨o', v'⟩, ⟨hy, rfl⟩, rfl⟩
    exact hy
  · intro h
    exact ⟨(o, v), ⟨h, rfl⟩, rfl⟩

theorem matching_eq_nil : matching v R = [] ↔ ∀ y ∈ R, y.2 ≠ v := by
  simp [matching]

theorem matching_filter {P : ℕ × α → Bool} (h : ∀ y ∈ R, y.2 = v → P y = true) :
    matching v (R.filter P) = matching v R := by
  rw [matching, filter_filter]
  refine congrArg (map Prod.fst) (filter_congr fun y hy => ?_)
  by_cases hv : y.2 = v
  · simp [h y hy hv]
  · simp [hv]

theorem mem_joinRows {p : ℕ × ℕ} :
    p ∈ joinRows L R ↔ ∃ v, v ≠ ⊥ ∧ (p.1, v) ∈ L ∧ (p.2, v) ∈ R := by
  refine mem_flatMap_ite.trans ⟨?_, ?_⟩
  · rintro ⟨⟨o, v⟩, hx, hv, rfl, hr⟩
    exact ⟨v, hv, hx, mem_matching.mp hr⟩
  · rintro ⟨v, hv, hl, hr⟩
    exact ⟨(p.1, v), hl, hv, rfl, mem_matching.mpr hr⟩

@[simp] theorem joinRows_nil_left : joinRows [] R = [] := rfl

theorem joinRows_append : joinRows (L ++ L') R = joinRows L R ++ joinRows L' R := by
  simp [joinRows]

theorem joinRows_eq_nil : joinRows L R = [] ↔ ∀ x ∈ L, ¬ HasPartner R x := by
  rw [eq_nil_iff_forall_not_mem]
  constructor
  · rintro h ⟨o, v⟩ hx ⟨hv, ⟨o', v'⟩, hy, rfl⟩
    exact h (o, o') (mem_joinRows.mpr ⟨v', hv, hx, hy⟩)
  · rintro h ⟨a, b⟩ hp
    obtain ⟨v, hv, hl, hr⟩ := mem_joinRows.mp hp
    exact h _ hl ⟨hv, _, hr, rfl⟩

@[simp] theorem joinRows_nil_right : joinRows L ([] : List (ℕ × α)) = [] :=
  joinRows_eq_nil.mpr fun x _ h => by
    obtain ⟨-, y, hy, -⟩ := h
    exact absurd hy not_mem_nil

/-- Right rows that match no left row may be dropped. -/
theorem joinRows_filter_right (h : ∀ x ∈ L, x.2 ≠ ⊥ → ∀ y ∈ R, y.2 = x.2 → P y = true) :
    joinRows L (R.filter P) = joinRows L R := by
  refine flatMap_congr fun x hx => ?_
  unfold joinRow
  split_ifs with hv
  · rfl
  · rw [matching_filter (h x hx hv)]

theorem joinRows_filter_left (h : ∀ x ∈ L, HasPartner R x → P x = true) :
    joinRows (L.filter P) R = joinRows L R := by
  induction L with
  | nil => rfl
  | cons x L ih =>
    have ih' := ih fun y hy => h y (mem_cons_of_mem x hy)
    have hcons : joinRows (x :: L) R = joinRow R x ++ joinRows L R := rfl
    rw [filter_cons, hcons]
    split_ifs with hp
    · change joinRow R x ++ joinRows (L.filter P) R = _
      rw [ih']
    · have hnone : joinRow R x = [] := by
        have hnil : joinRows [x] R = [] := by
          refine joinRows_eq_nil.mpr fun y hy hpart => hp ?_
          obtain rfl := mem_singleton.mp hy
          exact h y mem_cons_self hpart
        simpa [joinRows] using hnil
      rw [ih', hnone, nil_append]

/-- The rows are in the order of their oids. -/
def Ordered (L : List (ℕ × α)) : Prop := L.Pairwise fun x y => x.1 < y.1

theorem mem_partnered : o ∈ partnered R L ↔ ∃ v, (o, v) ∈ L ∧ HasPartner R (o, v) := by
  simp only [partnered, mem_map, mem_filter, decide_eq_true_iff]
  constructor
  · rintro ⟨⟨o', v⟩, h, rfl⟩
    exact ⟨v, h⟩
  · rintro ⟨v, h⟩
    exact ⟨(o, v), h, rfl⟩

/-- The left oids of a join are those of the rows with a partner. -/
theorem mem_partnered_iff_joinRows : o ∈ partnered R L ↔ ∃ ro, (o, ro) ∈ joinRows L R := by
  simp only [mem_partnered, mem_joinRows]
  constructor
  · rintro ⟨v, hl, hv, ⟨ro, v'⟩, hr, rfl⟩
    exact ⟨ro, v', hv, hl, hr⟩
  · rintro ⟨ro, v, hv, hl, hr⟩
    exact ⟨v, hl, hv, (ro, v), hr, rfl⟩

theorem mem_fst_joinRows : o ∈ (joinRows L R).map Prod.fst ↔ o ∈ partnered R L := by
  rw [mem_partnered_iff_joinRows, mem_map]
  constructor
  · rintro ⟨p, hp, rfl⟩
    exact ⟨p.2, hp⟩
  · rintro ⟨ro, hp⟩
    exact ⟨_, hp, rfl⟩

section

variable (hL : Ordered L)

include hL

theorem pairwise_joinRows (hR : Ordered R) :
    (joinRows L R).Pairwise fun p q => p.1 < q.1 ∨ p.1 = q.1 ∧ p.2 < q.2 := by
  refine pairwise_flatMap_ite hL fun x _ _ => ?_
  rw [matching, pairwise_map]
  exact hR.filter _

theorem nodup_joinRows (hR : Ordered R) : (joinRows L R).Nodup :=
  (pairwise_joinRows hL hR).imp fun {p q} h he => by
    subst he
    omega

theorem sorted_joinRows (hR : Ordered R) : ((joinRows L R).map Prod.fst).Pairwise (· ≤ ·) := by
  rw [pairwise_map]
  exact (pairwise_joinRows hL hR).imp fun {p q} h => by omega

theorem ordered_partnered : (partnered R L).Pairwise (· < ·) := by
  rw [partnered, pairwise_map]
  exact hL.filter _

/-- Two lists of rows have the same join with `R` exactly if the rows with a partner have the
same oids.  The rows of both lists agree on the value of an oid. -/
theorem partnered_eq_iff (hL' : Ordered L') (hval : ∀ o v v', (o, v) ∈ L → (o, v') ∈ L' → v = v') :
    partnered R L = partnered R L' ↔ ∀ p, p ∈ joinRows L R ↔ p ∈ joinRows L' R := by
  constructor
  · intro h ⟨o, ro⟩
    have hmem : o ∈ partnered R L ↔ o ∈ partnered R L' := by rw [h]
    constructor
    · intro hp
      obtain ⟨v', hl', -⟩ := mem_partnered.mp (hmem.mp (mem_partnered_iff_joinRows.mpr ⟨ro, hp⟩))
      obtain ⟨v, hv, hl, hr⟩ := mem_joinRows.mp hp
      obtain rfl := hval o v v' hl hl'
      exact mem_joinRows.mpr ⟨v, hv, hl', hr⟩
    · intro hp
      obtain ⟨v, hl, -⟩ := mem_partnered.mp (hmem.mpr (mem_partnered_iff_joinRows.mpr ⟨ro, hp⟩))
      obtain ⟨v', hv, hl', hr⟩ := mem_joinRows.mp hp
      obtain rfl := hval o v v' hl hl'
      exact mem_joinRows.mpr ⟨v, hv, hl, hr⟩
  · intro h
    -- strictly increasing lists with the same members are equal
    refine (ordered_partnered hL).eq_of_mem_iff (ordered_partnered hL') fun o => ?_
    simp only [mem_partnered_iff_joinRows, h]

end

end Rows

/-! ## Rows of a cursor range -/

namespace Side

variable {α : Type*} (s : Side α)

/-- The row at a cursor. -/
def row (c : ℕ) : ℕ × α := (s.oid c, s.val c)

/-- The rows of the cursors `[lo, hi)`. -/
def rows (lo hi : ℕ) : List (ℕ × α) := slice s.row lo hi

end Side

/-! ## The specification -/

/-- The pairs a left join is to return: the pairs of candidates with equal values other than
nil, each once, in the order of the left oids. -/
structure IsLeftJoin (l r : Column α) (sl sr : Option Candidates)
    (pairs : List (ℕ × ℕ)) : Prop where
  mem : ∀ lo ro, (lo, ro) ∈ pairs ↔
    IsCandidate l sl lo ∧ IsCandidate r sr ro ∧ l.atOid lo ≠ ⊥ ∧ l.atOid lo = r.atOid ro
  nodup : pairs.Nodup
  sorted : (pairs.map Prod.fst).Pairwise (· ≤ ·)

/-! ## The rows after CANDINIT

Whatever form the candidates have, the cursors between the two ends run over them in the order of
their oids.  All joins rely on this. -/

/-- A candidate array names rows of the column only.  (`CANDINIT` moves the ends of a dense
candidate list into the column, but leaves the entries of an array as they are.) -/
def Candidates.Within (s : Candidates) (b : Column α) : Prop :=
  s.tseq = none → ∀ i < s.count, b.Contains (s.tail i)

/-- A candidate list that an operator accepts for a column. -/
structure Candidates.Usable (s : Candidates) (b : Column α) : Prop where
  sorted : s.tsorted = true
  key : s.tkey = true
  within : s.Within b

theorem Candidates.Usable.strictMono {s : Candidates} {b : Column α}
    (h : s.Usable b) {i j : ℕ} (hij : i < j) (hj : j < s.count) : s.tail i < s.tail j :=
  lt_of_le_of_ne (s.sorted_true h.sorted i j hij.le hj) (s.key_true h.key i j hij hj)

section SideOf

variable {b : Column α} {s : Option Candidates}

/-- The candidate lists an operator accepts for a column. -/
abbrev Column.Takes (b : Column α) (s : Option Candidates) : Prop := ∀ c, s = some c → c.Usable b

/-- The rows of a column among the candidates. -/
abbrev Column.among (b : Column α) (s : Option Candidates) : Side α := b.side (CANDINIT b s)

/-- The column is known to be in order. -/
abbrev Column.InOrder (b : Column α) : Prop := (b.tsorted || b.trevsorted) = true

/-- The cursors of `S` run over the candidates of `b`, in the order of their oids. -/
structure Side.Enumerates (S : Side α) (b : Column α) (s : Option Candidates) : Prop where
  le : S.lo ≤ S.hi
  small : S.hi < 2 ^ 64
  mem : ∀ c, S.lo ≤ c → c < S.hi → IsCandidate b s (S.oid c) ∧ S.val c = b.atOid (S.oid c)
  surj : ∀ o, IsCandidate b s o → ∃ c, S.lo ≤ c ∧ c < S.hi ∧ S.oid c = o
  mono : ∀ c c', S.lo ≤ c → c < c' → c' < S.hi → S.oid c < S.oid c'
  val_congr : ∀ c c', S.oid c = S.oid c' → S.val c = S.val c'

theorem clip_eq (o : ℕ) :
    b.hseqbase + clip b o = max b.hseqbase (min o (b.hseqbase + b.count)) := by
  unfold clip
  split_ifs <;> omega

theorem enumerates_range {lo hi : ℕ} (hle : lo ≤ hi) (hhi : hi ≤ b.count)
    (hmem : ∀ o, IsCandidate b s o ↔ b.hseqbase + lo ≤ o ∧ o < b.hseqbase + hi) (n : ℕ) :
    (b.side ⟨lo, hi, none, n⟩).Enumerates b s where
  le := hle
  small := by
    have h1 := b.fits
    have h2 := b.small
    change hi < 2 ^ 64
    omega
  mem c h1 h2 := by
    change lo ≤ c at h1
    change c < hi at h2
    refine ⟨(hmem _).mpr (by change _ ≤ c + _ ∧ c + _ < _; omega), ?_⟩
    change b.value c = b.value (c + b.hseqbase - b.hseqbase)
    rw [Nat.add_sub_cancel]
  surj o ho := by
    have h := (hmem o).mp ho
    refine ⟨o - b.hseqbase, ?_, ?_, ?_⟩
    · change lo ≤ _
      omega
    · change _ < hi
      omega
    · change o - b.hseqbase + b.hseqbase = o
      omega
  mono c c' _ h _ := Nat.add_lt_add_right h b.hseqbase
  val_congr c c' h := by
    have hc : c = c' := Nat.add_right_cancel (show c + b.hseqbase = c' + b.hseqbase from h)
    rw [hc]

theorem enumerates_array {c : Candidates} (h : c.Usable b) (hc : c.tseq = none) (lo hi : ℕ) :
    (b.side ⟨lo, hi, some c.tail, c.count⟩).Enumerates b (some c) where
  le := Nat.zero_le _
  small := by
    -- the entries are strictly increasing and below `2 ^ 63`
    change c.count < 2 ^ 64
    by_contra hbig
    have hge : ∀ i < c.count, i ≤ c.tail i := by
      intro i
      induction i with
      | zero => exact fun _ => Nat.zero_le _
      | succ i ih =>
        intro hi'
        have h2 := h.strictMono (Nat.lt_add_one i) hi'
        omega
    have h1 := hge (2 ^ 63) (by omega)
    have h2 := c.small (2 ^ 63) (by omega)
    omega
  mem i _ h2 := by
    have hin := h.within hc i h2
    refine ⟨⟨hin, fun c' hc' => ?_⟩, ?_⟩
    · obtain rfl := Option.some.inj hc'
      exact ⟨i, h2, rfl⟩
    · change b.value (sub64 (c.tail i) b.hseqbase) = b.value (c.tail i - b.hseqbase)
      rw [sub64_of_le hin.1 (by have := c.small i h2; omega)]
  surj o ho := by
    obtain ⟨i, hi', hio⟩ := ho.2 c rfl
    exact ⟨i, Nat.zero_le _, hi', hio⟩
  mono i j _ hij hj := h.strictMono hij hj
  val_congr i j hij := by
    change b.value (sub64 (c.tail i) b.hseqbase) = b.value (sub64 (c.tail j) b.hseqbase)
    rw [show c.tail i = c.tail j from hij]

/-- `CANDINIT` leaves a range of the column, or an array of candidates with its ends. -/
theorem candinit_cases (b : Column α) (s : Option Candidates) :
    (∃ lo hi, CANDINIT b s = ⟨lo, hi, none, 0⟩ ∧ lo ≤ hi ∧ hi ≤ b.count ∧
      (∀ c, s = some c → c.tseq = none → c.count = 0) ∧
      ∀ o, IsCandidate b s o ↔ b.hseqbase + lo ≤ o ∧ o < b.hseqbase + hi) ∨
    ∃ c, s = some c ∧ c.tseq = none ∧ 0 < c.count ∧ CANDINIT b s =
      ⟨clip b (c.tail 0), clip b (c.tail (c.count - 1) + 1), some c.tail, c.count⟩ := by
  cases s with
  | none =>
    refine .inl ⟨0, b.count, rfl, Nat.zero_le _, le_rfl, nofun, fun o => ?_⟩
    simp [IsCandidate, Column.Contains]
  | some c =>
    by_cases h0 : c.count = 0
    · refine .inl ⟨0, 0, if_pos h0, le_rfl, Nat.zero_le _, fun c' hc' _ => ?_, fun o => ?_⟩
      · rwa [← Option.some.inj hc']
      · simp [IsCandidate, Candidates.Mem, h0]
    cases hseq : c.tseq with
    | none =>
      exact .inr ⟨c, rfl, hseq, Nat.pos_of_ne_zero h0, (if_neg h0).trans (by rw [hseq])⟩
    | some seq =>
      have h1 := clip_eq (b := b) seq
      have h2 := clip_eq (b := b) (seq + c.count)
      refine .inl ⟨clip b seq, clip b (seq + c.count), (if_neg h0).trans (by rw [hseq]), by omega,
        by omega, fun c' hc' hnone => ?_, fun o => ?_⟩
      · rw [← Option.some.inj hc', hseq] at hnone
        cases hnone
      have hmem : c.Mem o ↔ seq ≤ o ∧ o < seq + c.count := by
        constructor
        · rintro ⟨i, hi, rfl⟩
          rw [c.dense_true seq hseq i hi]
          omega
        · intro ho
          refine ⟨o - seq, by omega, ?_⟩
          rw [c.dense_true seq hseq _ (by omega)]
          omega
      simp only [IsCandidate, Column.Contains, Option.some.injEq, forall_eq', hmem]
      omega

/-- **After `CANDINIT` the cursors enumerate the candidates.** -/
theorem candinit_enumerates (h : b.Takes s) : (b.among s).Enumerates b s := by
  unfold Column.among
  rcases candinit_cases b s with ⟨lo, hi, hinit, hle, hhi, -, hmem⟩ | ⟨c, rfl, hseq, -, hinit⟩
  · rw [hinit]
    exact enumerates_range hle hhi hmem 0
  · rw [hinit]
    exact enumerates_array (h c rfl) hseq _ _

theorem candinit_start_eq_stop (h : b.Takes s) :
    (CANDINIT b s).start = (CANDINIT b s).stop ↔
      (b.among s).lo = (b.among s).hi := by
  unfold Column.among
  rcases candinit_cases b s with ⟨lo, hi, hinit, -⟩ | ⟨c, rfl, hseq, hpos, hinit⟩
  · rw [hinit]
    rfl
  have hu := h c rfl
  have h1 := clip_eq (b := b) (c.tail 0)
  have h2 := clip_eq (b := b) (c.tail (c.count - 1) + 1)
  have h3 := hu.within hseq 0 hpos
  have h4 := hu.within hseq (c.count - 1) (by omega)
  have h5 := c.sorted_true hu.sorted 0 (c.count - 1) (by omega) (by omega)
  unfold Column.Contains at h3 h4
  rw [hinit]
  change clip b (c.tail 0) = clip b (c.tail (c.count - 1) + 1) ↔ 0 = c.count
  omega

end SideOf

/-! ## Running past the last left row

The right rows are used up when some left row has passed the last right value in reach.  What counts
is how many left rows remain then, compared with the scan window. -/

variable {reverse : ℤ} {w : ℕ} {L L' R : List (ℕ × α)} {v y₀ : α}

/-- The value comes after every row of `L`. -/
def Beyond (reverse : ℤ) (L : List (ℕ × α)) (y : α) : Prop := ∀ x ∈ L, Before reverse x.2 y
  deriving Decidable

/-- When the row `x` is reached, no right value is left that a left row could have: either there
never was one, or an earlier row has passed the last of them.  Only the left values with `P` look
for a partner. -/
def SpentBy (P : α → Prop) (reverse : ℤ) (L R : List (ℕ × α)) (x : ℕ × α) : Prop :=
  (∀ y ∈ R, Beyond reverse L y.2) ∨ ∃ v ∈ L, P v.2 ∧ Before reverse v.2 x.2 ∧
      ∀ y ∈ R, ¬ Beyond reverse L y.2 → ¬ Before reverse v.2 y.2

instance (P : α → Prop) [DecidablePred P] (reverse : ℤ) (L R : List (ℕ × α)) (x : ℕ × α) :
    Decidable (SpentBy P reverse L R x) :=
  inferInstanceAs (Decidable (_ ∨ _))

/-- More left rows than the scan window `w` remain when the right values in their range are
used up. -/
def OverrunBy (P : α → Prop) [DecidablePred P] (reverse : ℤ) (w : ℕ) (L R : List (ℕ × α)) : Prop :=
  w < L.countP fun x => SpentBy P reverse L R x
  deriving Decidable

/-- The same for a join in which nil has no partner. -/
def Overrun (reverse : ℤ) (w : ℕ) (L R : List (ℕ × α)) : Prop := OverrunBy (· ≠ ⊥) reverse w L R
  deriving Decidable

theorem overrun_iff : Overrun reverse w L R ↔ OverrunBy (· ≠ ⊥) reverse w L R := Iff.rfl

/-- The left rows start with a run of `v`, and the rest comes after it. -/
structure StartsWith (reverse : ℤ) (v : α) (run L' : List (ℕ × α)) : Prop where
  run_ne : run ≠ []
  run_eq : ∀ x ∈ run, x.2 = v
  after : ∀ x ∈ L', Before reverse v x.2

variable {run : List (ℕ × α)} {y x : ℕ × α}

theorem beyond_append (hd : IsDirection reverse) (h : StartsWith reverse v run L') (hL : L' ≠ [])
    (y : α) : Beyond reverse (run ++ L') y ↔ Beyond reverse L' y := by
  constructor
  · exact fun hb x hx => hb x (mem_append_right run hx)
  · intro hb x hx
    rcases mem_append.mp hx with hx | hx
    · obtain ⟨x', hx'⟩ := exists_mem_of_ne_nil L' hL
      rw [h.run_eq x hx]
      exact (h.after x' hx').trans hd (hb x' hx')
    · exact hb x hx

theorem Beyond.before (h : StartsWith reverse v run L') {y : α}
    (hb : Beyond reverse (run ++ L') y) : Before reverse v y := by
  obtain ⟨x, hx⟩ := exists_mem_of_ne_nil run h.run_ne
  rw [← h.run_eq x hx]
  exact hb x (mem_append_left L' hx)

theorem StartsWith.not_before (h : StartsWith reverse v run L') (hd : IsDirection reverse)
    {u : ℕ × α} (hx : x ∈ run) (hu : u ∈ run ++ L') : ¬ Before reverse u.2 x.2 := by
  rw [h.run_eq x hx]
  rcases mem_append.mp hu with hu | hu
  · rw [h.run_eq u hu]
    exact before_irrefl hd
  · exact (h.after u hu).asymm hd

section Rounds

variable {P : α → Prop} [DecidablePred P]

theorem not_overrunBy_of_length_le (h : L.length ≤ w) : ¬ OverrunBy P reverse w L R := by
  have hle := countP_le_length (p := fun x => decide (SpentBy P reverse L R x)) (l := L)
  unfold OverrunBy
  omega

/-- All right values lie beyond the left rows, and the window is smaller than the left rows. -/
theorem overrunBy_of_beyond (h : ∀ y ∈ R, Beyond reverse L y.2) (hw : w < L.length) :
    OverrunBy P reverse w L R := by
  have hcount : L.countP (fun x => SpentBy P reverse L R x) = L.length :=
    countP_eq_length.mpr fun x _ => by
      rw [decide_eq_true_iff]
      exact .inl h
  rw [OverrunBy, hcount]
  exact hw

section

variable (h : StartsWith reverse v run L') (hd : IsDirection reverse)
  (hall : ¬ ∀ y ∈ R, Beyond reverse (run ++ L') y.2)

include h hd hall

omit [DecidablePred P] in
/-- The rows of the first run are only spent if all right values lie beyond the left rows. -/
theorem StartsWith.not_spentBy (hx : x ∈ run) : ¬ SpentBy P reverse (run ++ L') R x := by
  rintro (h1 | ⟨u, hu, -, hux, -⟩)
  · exact hall h1
  · exact h.not_before hd hx hu hux

/-- Counting only the rows after the first run, when no row of the run counts. -/
theorem countP_spentBy_append : (run ++ L').countP (fun x => SpentBy P reverse (run ++ L') R x) =
      L'.countP fun x => SpentBy P reverse (run ++ L') R x := by
  have h1 : run.countP (fun x => SpentBy P reverse (run ++ L') R x) = 0 :=
    countP_eq_zero.mpr fun x hx => by
      rw [decide_eq_true_iff]
      exact h.not_spentBy hd hall hx
  rw [countP_append, h1, Nat.zero_add]

end

section

variable (hd : IsDirection reverse) (h : StartsWith reverse v run L')

include hd h

/-- A round over a run of `v` keeps the answer, if the rows after the run are spent in the rest of
the join exactly if they are in the whole.  The hypothesis `hw` is that the round itself did not
skip rows to the end. -/
theorem overrunBy_append (hw : (∀ y ∈ R, Beyond reverse (run ++ L') y.2) → (run ++ L').length ≤ w)
    {R' : List (ℕ × α)} (hspent : L' ≠ [] → (¬ ∀ y ∈ R, Beyond reverse (run ++ L') y.2) →
      ∀ x ∈ L', SpentBy P reverse (run ++ L') R x ↔ SpentBy P reverse L' R' x) :
    OverrunBy P reverse w (run ++ L') R ↔ OverrunBy P reverse w L' R' := by
  by_cases hall : ∀ y ∈ R, Beyond reverse (run ++ L') y.2
  · have hlen := hw hall
    rw [length_append] at hlen
    exact iff_of_false (not_overrunBy_of_length_le (hw hall))
      (not_overrunBy_of_length_le (by omega))
  · rw [OverrunBy, countP_spentBy_append h hd hall]
    refine iff_of_eq (congrArg (w < ·) (countP_congr fun x hx => ?_))
    rw [decide_eq_true_iff, decide_eq_true_iff]
    exact hspent (ne_nil_of_mem hx) hall x hx

/-- A run whose value looks for a partner gives up the right rows before or at it. -/
theorem overrunBy_visit (hv : P v)
    (hw : (∀ y ∈ R, Beyond reverse (run ++ L') y.2) → (run ++ L').length ≤ w) :
    OverrunBy P reverse w (run ++ L') R ↔
      OverrunBy P reverse w L' (R.filter fun y => Before reverse v y.2) := by
  refine overrunBy_append hd h hw fun hL hall x hx => ?_
  have hbe := beyond_append hd h hL
  constructor
  · rintro (h1 | ⟨u, hu, hu0, hux, hpass⟩)
    · exact absurd h1 hall
    rcases mem_append.mp hu with hu | hu
    · -- `v` itself was the last value in range, so nothing in range is kept
      rw [h.run_eq u hu] at hpass
      refine .inl fun y hy => ?_
      rw [mem_filter, decide_eq_true_iff] at hy
      by_contra hn
      exact hpass y hy.1 (mt (hbe _).mp hn) hy.2
    · refine .inr ⟨u, hu, hu0, hux, fun y hy hn => ?_⟩
      exact hpass y (mem_filter.mp hy).1 (mt (hbe _).mp hn)
  · rintro (h1 | ⟨u, hu, hu0, hux, hpass⟩)
    · obtain ⟨r, hr⟩ := exists_mem_of_ne_nil run h.run_ne
      have hrv := h.run_eq r hr
      refine .inr ⟨r, mem_append_left L' hr, hrv ▸ hv, hrv ▸ h.after x hx, fun y hy hn => ?_⟩
      intro hb
      rw [hrv] at hb
      exact hn ((hbe _).mpr (h1 y (mem_filter.mpr ⟨hy, by simpa using hb⟩)))
    · refine .inr ⟨u, mem_append_right run hu, hu0, hux, fun y hy hn hb => ?_⟩
      have hvy : Before reverse v y.2 := (h.after u hu).trans hd hb
      exact hpass y (mem_filter.mpr ⟨hy, by simpa using hvy⟩) (mt (hbe _).mpr hn) hb

theorem overrunBy_visit_skip (hv : ¬ P v)
    (hw : (∀ y ∈ R, Beyond reverse (run ++ L') y.2) → (run ++ L').length ≤ w) :
    OverrunBy P reverse w (run ++ L') R ↔ OverrunBy P reverse w L' R := by
  refine overrunBy_append hd h hw fun hL hall x hx => ?_
  have hbe := beyond_append hd h hL
  constructor
  · rintro (h1 | ⟨u, hu, hu0, hux, hpass⟩)
    · exact absurd h1 hall
    · rcases mem_append.mp hu with hu | hu
      · exact absurd (h.run_eq u hu ▸ hu0) hv
      · exact .inr ⟨u, hu, hu0, hux, fun y hy hn => hpass y hy (mt (hbe _).mp hn)⟩
  · rintro (h1 | ⟨u, hu, hu0, hux, hpass⟩)
    · exact absurd (fun y hy => (hbe _).mpr (h1 y hy)) hall
    · exact .inr ⟨u, mem_append_right run hu, hu0, hux,
        fun y hy hn => hpass y hy (mt (hbe _).mpr hn)⟩

end

/-- Skipping the left rows before the first right value does not change which right values lie
beyond the left rows. -/
theorem beyond_skip (hd : IsDirection reverse) (hy : ¬ Before reverse y.2 y₀) :
    Beyond reverse L y.2 ↔ Beyond reverse (L.filter fun x => ¬ Before reverse x.2 y₀) y.2 := by
  constructor
  · exact fun hb x hx => hb x (mem_filter.mp hx).1
  · intro hb x hx
    by_cases hx0 : Before reverse x.2 y₀
    · exact hx0.trans_not hd hy
    · exact hb x (mem_filter.mpr ⟨hx, by simpa using hx0⟩)

/-- Skipping the left rows before the first right value keeps the answer, as long as some left
row is not skipped. -/
theorem overrunBy_skip (hd : IsDirection reverse) (hy : y ∈ R) (hy0 : y.2 = y₀)
    (hmin : ∀ y ∈ R, ¬ Before reverse y.2 y₀)
    (hne : L.filter (fun x => ¬ Before reverse x.2 y₀) ≠ []) :
    OverrunBy P reverse w L R ↔
      OverrunBy P reverse w (L.filter fun x => ¬ Before reverse x.2 y₀) R := by
  subst hy0
  have hbe := fun y hy => beyond_skip (L := L) hd (hmin y hy)
  set M := L.filter fun x => ¬ Before reverse x.2 y.2 with hM
  have hmem : ∀ x, x ∈ M ↔ x ∈ L ∧ ¬ Before reverse x.2 y.2 := fun x => by
    rw [mem_filter, decide_eq_true_iff]
  obtain ⟨m, hm⟩ := exists_mem_of_ne_nil M hne
  have hnot : ¬ Beyond reverse M y.2 := fun hb => ((hmem m).mp hm).2 (hb m hm)
  have hspent : ∀ x, SpentBy P reverse L R x ↔
      SpentBy P reverse M R x ∧ ¬ Before reverse x.2 y.2 := by
    intro x
    constructor
    · rintro (h1 | ⟨u, hu, hu0, hux, hpass⟩)
      · exact absurd ((hbe _ hy).mp (h1 _ hy)) hnot
      · have huy : ¬ Before reverse u.2 y.2 := hpass _ hy (mt (hbe _ hy).mp hnot)
        refine ⟨Or.inr ⟨u, (hmem u).mpr ⟨hu, huy⟩, hu0, hux,
          fun z hz hn => hpass z hz (mt (hbe z hz).mp hn)⟩, fun hx => huy (hux.trans hd hx)⟩
    · rintro ⟨h1 | ⟨u, hu, hu0, hux, hpass⟩, -⟩
      · exact absurd (h1 _ hy) hnot
      · exact .inr ⟨u, ((hmem u).mp hu).1, hu0, hux,
          fun z hz hn => hpass z hz (mt (hbe z hz).mpr hn)⟩
  have hcount : L.countP (fun x => SpentBy P reverse L R x) =
      M.countP (fun x => SpentBy P reverse M R x) := by
    rw [countP_filter]
    exact countP_congr fun x _ => by
      simp only [decide_eq_true_iff, Bool.and_eq_true, hspent x]
  rw [OverrunBy, OverrunBy, hcount]

end Rounds

/-! ## The pairs of the row behind the last one -/

/-- The pairs that an overrun adds: those of the row `b` behind the last left row with the
right rows that are still there. -/
def overrunPairs (reverse : ℤ) (w : ℕ) (b : ℕ × α) (L R : List (ℕ × α)) : List (ℕ × ℕ) :=
  if Overrun reverse w L R then joinRows [b] (R.filter fun y => Beyond reverse L y.2) else []

variable {b : ℕ × α}

@[simp] theorem overrunPairs_nil_left : overrunPairs reverse w b [] R = [] :=
  if_neg (mt overrun_iff.mp (not_overrunBy_of_length_le (Nat.zero_le w)))

@[simp] theorem overrunPairs_nil_right : overrunPairs reverse w b L [] = [] := by
  rw [overrunPairs, filter_nil, joinRows_nil_right, ite_self]

/-- All pairs of an overrun belong to the row behind the last one. -/
theorem mem_fst_overrunPairs {o : ℕ} : o ∈ (overrunPairs reverse w b L R).map Prod.fst ↔
      Overrun reverse w L R ∧ Beyond reverse L b.2 ∧ HasPartner R b ∧ o = b.1 := by
  unfold overrunPairs
  by_cases hover : Overrun reverse w L R
  swap
  · simp [hover]
  rw [if_pos hover, mem_fst_joinRows, mem_partnered, and_iff_right hover]
  constructor
  · rintro ⟨v, hv, hne, y, hy, hyv⟩
    obtain ⟨rfl, rfl⟩ := Prod.mk.inj (mem_singleton.mp hv)
    rw [mem_filter, decide_eq_true_iff, hyv] at hy
    exact ⟨hy.2, ⟨hne, y, hy.1, hyv⟩, rfl⟩
  · rintro ⟨hbeyond, ⟨hne, y, hy, hyv⟩, rfl⟩
    refine ⟨b.2, mem_singleton.mpr rfl, hne, y, ?_, hyv⟩
    rw [mem_filter, decide_eq_true_iff, hyv]
    exact ⟨hy, hbeyond⟩

theorem overrunPairs_eq_nil : overrunPairs reverse w b L R = [] ↔
    (Overrun reverse w L R → Beyond reverse L b.2 → ¬ HasPartner R b) := by
  rw [← map_eq_nil_iff (f := Prod.fst), eq_nil_iff_forall_not_mem]
  simp only [mem_fst_overrunPairs]
  exact ⟨fun h h1 h2 h3 => h _ ⟨h1, h2, h3, rfl⟩, fun h o ho => h ho.1 ho.2.1 ho.2.2.1⟩

/-- The pairs depend on whether there is an overrun and on the right rows that are left then. -/
theorem overrunPairs_congr {L₂ R₂ : List (ℕ × α)}
    (hiff : OverrunBy (· ≠ ⊥) reverse w L R ↔ OverrunBy (· ≠ ⊥) reverse w L₂ R₂)
    (hf : L₂ ≠ [] → R.filter (fun y => Beyond reverse L y.2) =
      R₂.filter fun y => Beyond reverse L₂ y.2) :
    overrunPairs reverse w b L R = overrunPairs reverse w b L₂ R₂ := by
  unfold overrunPairs
  simp only [overrun_iff, hiff]
  rcases eq_or_ne L₂ [] with rfl | hL
  · rw [if_neg (not_overrunBy_of_length_le (Nat.zero_le w)),
      if_neg (not_overrunBy_of_length_le (Nat.zero_le w))]
  · rw [hf hL]

theorem overrunPairs_visit (hd : IsDirection reverse) (h : StartsWith reverse v run L')
    (hv : v ≠ ⊥) (hw : (∀ y ∈ R, Beyond reverse (run ++ L') y.2) → (run ++ L').length ≤ w) :
    overrunPairs reverse w b (run ++ L') R =
      overrunPairs reverse w b L' (R.filter fun y => Before reverse v y.2) := by
  refine overrunPairs_congr (overrunBy_visit hd h hv hw) fun hL => ?_
  rw [filter_filter]
  refine filter_congr fun y _ => ?_
  rw [Bool.eq_iff_iff, Bool.and_eq_true, decide_eq_true_iff, decide_eq_true_iff,
    decide_eq_true_iff, beyond_append hd h hL]
  exact ⟨fun hb => ⟨hb, Beyond.before h ((beyond_append hd h hL _).mpr hb)⟩, And.left⟩

theorem overrunPairs_visit_nil (hd : IsDirection reverse) (h : StartsWith reverse (⊥ : α) run L')
    (hw : (∀ y ∈ R, Beyond reverse (run ++ L') y.2) → (run ++ L').length ≤ w) :
    overrunPairs reverse w b (run ++ L') R = overrunPairs reverse w b L' R := by
  refine overrunPairs_congr (overrunBy_visit_skip hd h (not_not.mpr rfl) hw) fun hL => ?_
  simp only [beyond_append hd h hL]

theorem overrunPairs_skip (hd : IsDirection reverse) (hy : y ∈ R) (hy0 : y.2 = y₀)
    (hmin : ∀ y ∈ R, ¬ Before reverse y.2 y₀)
    (hne : L.filter (fun x => ¬ Before reverse x.2 y₀) ≠ []) :
    overrunPairs reverse w b L R =
      overrunPairs reverse w b (L.filter fun x => ¬ Before reverse x.2 y₀) R := by
  refine overrunPairs_congr (overrunBy_skip hd hy hy0 hmin hne) fun _ => ?_
  refine filter_congr fun z hz => ?_
  rw [Bool.eq_iff_iff, decide_eq_true_iff, decide_eq_true_iff]
  exact beyond_skip hd (hmin z hz)

/-- An overrun in the first round: all right values lie beyond the left rows, and the window is
smaller than the left rows. -/
theorem overrunPairs_of_beyond (h : ∀ y ∈ R, Beyond reverse L y.2) (hw : w < L.length) :
    overrunPairs reverse w b L R = joinRows [b] R := by
  have hover : Overrun reverse w L R := overrun_iff.mpr (overrunBy_of_beyond h hw)
  have hall : R.filter (fun y => Beyond reverse L y.2) = R := filter_eq_self.mpr fun y hy => by
      rw [decide_eq_true_iff]
      exact h y hy
  rw [overrunPairs, if_pos hover, hall]

end MonetInR.Gdk
