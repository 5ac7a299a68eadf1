import MonetInR.Lib.IntervalSearch
import Mathlib.Order.Fin.Basic
import MonetInR.Gdk.Column

/-!
# Searching a sorted, reverse sorted or dense column

`SORTfndfirst` finds the first value that is not smaller than a given one, `SORTfndlast` the first
one that is greater, and `SORTfnd` any equal one.  The loop may stop at any of several equal values;
unless the column is unique, the position is then moved down or up by steps that are halved until
they are 1.

`SORTfndwhich` is one function for the three searches.  A column that is flagged as descending is
searched with the opposite comparison, which is that of the dual order: the searches are then those
of the values in `αᵒᵈ`.  A dense column is not searched at all: the position is the difference
between the search value and the first value.  That difference is taken of oids as unsigned numbers.
Nil is the largest oid then, while every comparison treats it as the smallest, and the search for
nil ends on the wrong side of the column.  In a column of a floating-point type NaN may be searched,
which compares as equal with every number.

## Main definitions

* `SearchColumn`: a column with its order
* `SORTfndwhich`: the search
* `Searched`: what the three searches should find

## Main results

* `boundary_SORTfndfirst`, `boundary_SORTfndlast`: the positions found
* `SORTfnd_isSome_iff`: whether a value is found
* `SORTfndwhich_first`, `SORTfndwhich_last`, `SORTfndwhich_any`: the search of a column that is not
  dense
* `searched_iff`: the searches are right, unless nil is searched in a dense column, or NaN
-/

namespace MonetInR.Gdk

open IntervalSearch Column

variable {α : Type*} [Atom α] {tkey : Bool}

section Loop

/-- `SORTfndloop`: halve `[lo, hi)` by the sign `c` of the comparison.  Returns the current
position and the last sign. -/
def SORTfndloop (c : ℕ → ℤ) : ℕ → ℕ → ℕ → ℕ → ℤ → ℕ × ℤ
  | 0, _, _, cur, cmp => (cur, cmp)
  | n + 1, lo, hi, cur, cmp =>
    if lo < hi then
      let mid := (lo + hi) / 2
      if c mid < 0 then SORTfndloop c n (mid + 1) hi (mid + 1) (c mid)
      else if 0 < c mid then SORTfndloop c n lo mid mid (c mid)
      else (mid, c mid)
    else (cur, cmp)

/-- `while (cur >= end + diff && EQ(cur - diff)) cur -= diff` -/
def shiftWhile (eq : ℕ → Bool) (stop diff : ℕ) : ℕ → ℕ → ℕ
  | 0, cur => cur
  | n + 1, cur =>
    if stop + diff ≤ cur && eq (cur - diff) then shiftWhile eq stop diff n (cur - diff) else cur

/-- `for (diff = cur - end; diff; diff >>= 1) …` -/
def shiftDown (eq : ℕ → Bool) (stop : ℕ) : ℕ → ℕ → ℕ → ℕ
  | 0, _, cur => cur
  | n + 1, diff, cur =>
    if 0 < diff then shiftDown eq stop n (diff >>> 1) (shiftWhile eq stop diff cur cur) else cur

/-- `while (cur + diff < end && EQ(cur + diff)) cur += diff` -/
def shiftWhileUp (eq : ℕ → Bool) (stop diff : ℕ) : ℕ → ℕ → ℕ
  | 0, cur => cur
  | n + 1, cur =>
    if cur + diff < stop && eq (cur + diff) then shiftWhileUp eq stop diff n (cur + diff) else cur

/-- `for (diff = (end - cur) >> 1; diff; diff >>= 1) …` -/
def shiftUp (eq : ℕ → Bool) (stop : ℕ) : ℕ → ℕ → ℕ → ℕ
  | 0, _, cur => cur
  | n + 1, diff, cur =>
    if 0 < diff then shiftUp eq stop n (diff >>> 1) (shiftWhileUp eq stop diff stop cur) else cur

end Loop

section First

variable {α : Type*} [LinearOrder α]

/-- `SORTfndfirst` on an ascending column that is not dense. -/
def SORTfndfirst (val : ℕ → α) (lo hi : ℕ) (tkey : Bool) (v : α) : ℕ :=
  if hi ≤ lo ∨ 0 ≤ atomCmp (val lo) v then lo
  else
    let (cur, cmp) := SORTfndloop (fun p => atomCmp (val p) v) (hi - lo) lo hi 0 1
    if cmp = 0 ∧ !tkey then
      shiftDown (fun p => atomCmp (val p) v = 0) lo (cur - lo + 1) (cur - lo) cur
    else cur

variable {val : ℕ → α} {v : α} {L H k : ℕ}

/-- The column is ascending on `[L, H)`. -/
def Ascending (val : ℕ → α) (L H : ℕ) : Prop := ∀ i j, L ≤ i → i ≤ j → j < H → val i ≤ val j

/-- `v` is not among the values of `[L, H)`, and `k` is the place where it would be. -/
structure Missing (val : ℕ → α) (v : α) (L H k : ℕ) : Prop where
  lo_le : L ≤ k
  le_hi : k ≤ H
  below : ∀ i, L ≤ i → i < k → val i < v
  above : ∀ i, k ≤ i → i < H → v < val i

theorem Missing.boundary_lt (h : Missing val v L H k) : Boundary (fun p => val p < v) L H k :=
  ⟨h.lo_le, h.le_hi, h.below, fun hk => not_lt.mpr (h.above k le_rfl hk).le⟩

theorem Missing.boundary_le (h : Missing val v L H k) : Boundary (fun p => val p ≤ v) L H k :=
  ⟨h.lo_le, h.le_hi, fun i h1 h2 => (h.below i h1 h2).le, fun hk =>
    not_le.mpr (h.above k le_rfl hk)⟩

theorem Missing.ne {i : ℕ} (h : Missing val v L H k) (h1 : L ≤ i) (h2 : i < H) : val i ≠ v := by
  rcases lt_or_ge i k with hlt | hge
  · exact (h.below i h1 hlt).ne
  · exact (h.above i hge h2).ne'

/-- The loop stops at a value equal to `v`, or at the first value above it when there is none. -/
theorem SORTfndloop_spec (hs : Ascending val L H) (n cur : ℕ) (cmp : ℤ) {lo hi : ℕ}
    (hn : hi - lo ≤ n) (h1 : L ≤ lo) (h2 : lo ≤ hi) (h3 : hi ≤ H)
    (hlow : ∀ i, L ≤ i → i < lo → val i < v) (hhigh : ∀ i, hi ≤ i → i < H → v < val i)
    (hend : lo = hi → cur = lo ∧ cmp ≠ 0) :
    let out := SORTfndloop (fun p => atomCmp (val p) v) n lo hi cur cmp
    (out.2 = 0 ∧ L ≤ out.1 ∧ out.1 < H ∧ val out.1 = v) ∨
      (out.2 ≠ 0 ∧ Missing val v L H out.1) := by
  have hdone : lo = hi → (cmp ≠ 0 ∧ Missing val v L H cur) := by
    intro he
    obtain ⟨rfl, hc⟩ := hend he
    exact ⟨hc, h1, he ▸ h3, hlow, he ▸ hhigh⟩
  induction n generalizing lo hi cur cmp with
  | zero => exact .inr (hdone (by omega))
  | succ n ih =>
    rw [SORTfndloop]
    by_cases hlt : lo < hi
    swap
    · rw [if_neg hlt]
      exact .inr (hdone (by omega))
    have hm1 : lo ≤ (lo + hi) / 2 := by omega
    dsimp only
    split_ifs with hneg hpos
    · -- the middle value is below `v`, and so is everything before it
      have hbelow : ∀ i, L ≤ i → i < (lo + hi) / 2 + 1 → val i < v := fun i hi1 hi2 =>
        lt_of_le_of_lt (hs i _ hi1 (by omega) (by omega)) (atomCmp_lt_zero.mp hneg)
      exact ih _ _ (by omega) (by omega) (by omega) h3 hbelow hhigh
        (fun he => ⟨he ▸ rfl, hneg.ne⟩) fun he =>
          ⟨hneg.ne, by omega, by omega, hbelow, fun i hi1 => hhigh i (he.ge.trans hi1)⟩
    · have habove : ∀ i, (lo + hi) / 2 ≤ i → i < H → v < val i := fun i hi1 hi2 =>
        lt_of_lt_of_le (atomCmp_pos.mp hpos) (hs _ i (by omega) hi1 hi2)
      exact ih _ _ (by omega) h1 hm1 (by omega) hlow habove (fun he => ⟨he ▸ rfl, hpos.ne'⟩)
        fun he => ⟨hpos.ne', by omega, by omega, fun i hi1 hi2 => hlow i hi1 (by omega), habove⟩
    · have hzero : atomCmp (val ((lo + hi) / 2)) v = 0 := by omega
      exact .inl ⟨hzero, by omega, by omega, atomCmp_eq_zero.mp hzero⟩

theorem SORTfndloop_start (hs : Ascending val L H) (hlt : L < H) (v : α) :
    let out := SORTfndloop (fun p => atomCmp (val p) v) (H - L) L H 0 1
    (out.2 = 0 ∧ L ≤ out.1 ∧ out.1 < H ∧ val out.1 = v) ∨ (out.2 ≠ 0 ∧ Missing val v L H out.1) :=
  SORTfndloop_spec hs (H - L) 0 1 le_rfl le_rfl hlt.le le_rfl
    (fun _ h1 h2 => absurd h2 (not_lt.mpr h1)) (fun _ h1 h2 => absurd h2 (not_lt.mpr h1))
    fun he => absurd he hlt.ne

section Shift

variable {eq : ℕ → Bool} {f g stop diff cur : ℕ}

section

variable (heq : ∀ i, stop ≤ i → i < g → (eq i = true ↔ f ≤ i))

include heq

/-- Moving down by `diff` stays among the positions `[f, g)` that `eq` accepts, and with
`diff = 1` reaches the first of them. -/
theorem shiftWhile_spec (hf : stop ≤ f) (hd : 0 < diff) (n : ℕ) (hn : cur ≤ n) (h₁ : f ≤ cur)
    (h₂ : cur < g) :
    f ≤ shiftWhile eq stop diff n cur ∧ shiftWhile eq stop diff n cur ≤ cur ∧
      (diff = 1 → shiftWhile eq stop diff n cur = f) := by
  induction n generalizing cur with
  | zero => exact ⟨h₁, le_rfl, fun _ => by rw [shiftWhile]; omega⟩
  | succ n ih =>
    rw [shiftWhile]
    split_ifs with hc
    · rw [Bool.and_eq_true, decide_eq_true_iff] at hc
      have hge := (heq (cur - diff) (by omega) (by omega)).mp hc.2
      obtain ⟨h₃, h₄, h₅⟩ := ih (by omega) hge (by omega)
      exact ⟨h₃, by omega, h₅⟩
    · refine ⟨h₁, le_rfl, fun h1 => ?_⟩
      subst h1
      by_contra hne
      refine hc ?_
      rw [Bool.and_eq_true, decide_eq_true_iff]
      exact ⟨by omega, (heq (cur - 1) (by omega) (by omega)).mpr (by omega)⟩

theorem shiftDown_spec (hf : stop ≤ f) (n : ℕ) (hn : diff ≤ n) (h0 : diff = 0 → cur = f)
    (h1 : f ≤ cur) (h2 : cur < g) : shiftDown eq stop n diff cur = f := by
  induction n generalizing diff cur with
  | zero => exact h0 (by omega)
  | succ n ih =>
    rw [shiftDown]
    split_ifs with hd
    · obtain ⟨h3, h4, h5⟩ := shiftWhile_spec heq hf hd cur le_rfl h1 h2
      exact ih (by omega) (fun h => h5 (by omega)) h3 (by omega)
    · exact h0 (by omega)

end

end Shift

/-- **`SORTfndfirst` finds the first value that is not smaller than `v`.** -/
theorem boundary_SORTfndfirst (hs : Ascending val L H) (hLH : L ≤ H)
    (hkey : tkey = true → ∀ i j, L ≤ i → i < j → j < H → val i ≠ val j) (v : α) :
    Boundary (fun p => val p < v) L H (SORTfndfirst val L H tkey v) := by
  unfold SORTfndfirst
  split_ifs with hshort
  · refine .first hLH fun hk => ?_
    rw [← atomCmp_lt_zero]
    omega
  rw [not_or] at hshort
  have hloop := SORTfndloop_start hs (not_le.mp hshort.1) v
  dsimp only at hloop ⊢
  set out := SORTfndloop (fun p => atomCmp (val p) v) (H - L) L H 0 1
  rcases hloop with ⟨hz, h1, h2, hval⟩ | ⟨hnz, hb⟩
  · have hdown : Downward (fun p => val p < v) L H := fun i j h3 h4 h5 hp =>
      lt_of_le_of_lt (hs i j h3 h4 h5) hp
    have hb := boundary_scanUp_sub (fun p => decide (val p < v)) hLH
    have hb' := hb.congr (q := fun p => val p < v) fun i _ _ => by simp
    set f := scanUp (fun p => decide (val p < v)) L (H - L)
    have hfout : f ≤ out.1 := by
      by_contra hlt
      exact absurd (hb'.below out.1 h1 (not_le.mp hlt)) (by rw [hval]; exact lt_irrefl v)
    -- up to the position found, the values equal to `v` start at the boundary
    have heq : ∀ i, L ≤ i → i < out.1 + 1 → (val i = v ↔ f ≤ i) := by
      intro i h3 h4
      have hle : val i ≤ v := hval ▸ hs i out.1 h3 (by omega) h2
      rw [← not_lt, ← hb'.iff_lt hdown h3 (by omega), not_lt]
      exact ⟨fun he => he.ge, fun hge => le_antisymm hle hge⟩
    by_cases hk : tkey = true
    · rw [if_neg (by simp [hk])]
      have hfe : f = out.1 := by
        by_contra hne
        exact hkey hk f out.1 hb'.lo_le (by omega) h2
          (((heq f hb'.lo_le (by omega)).mpr le_rfl).trans hval.symm)
      rwa [← hfe]
    · rw [if_pos ⟨hz, by simpa using hk⟩]
      have heq' : ∀ i, L ≤ i → i < out.1 + 1 → (decide (atomCmp (val i) v = 0) = true ↔ f ≤ i) := by
        intro i h3 h4
        rw [decide_eq_true_iff, atomCmp_eq_zero]
        exact heq i h3 h4
      rw [shiftDown_spec heq' hb'.lo_le (out.1 - L + 1) (Nat.le_succ _)
        (fun h => by have := hb'.lo_le; omega) hfout (Nat.lt_add_one _)]
      exact hb'
  · rw [if_neg (fun h => hnz h.1)]
    exact hb.boundary_lt

end First

section Last

variable {α : Type*} [LinearOrder α]

/-- `SORTfndlast` on an ascending column that is not dense. -/
def SORTfndlast (val : ℕ → α) (lo hi : ℕ) (tkey : Bool) (v : α) : ℕ :=
  if hi ≤ lo ∨ atomCmp (val (hi - 1)) v ≤ 0 then hi
  else
    let (cur, cmp) := SORTfndloop (fun p => atomCmp (val p) v) (hi - lo) lo hi 0 1
    let cur := if cmp = 0 ∧ !tkey then
        shiftUp (fun p => atomCmp (val p) v = 0) hi (hi - cur) ((hi - cur) >>> 1) cur
      else cur
    if cmp = 0 then cur + 1 else cur

/-- `SORTfnd` on an ascending column that is not dense. -/
def SORTfnd (val : ℕ → α) (lo hi : ℕ) (v : α) : Option ℕ :=
  if hi ≤ lo then none
  else
    let (cur, cmp) := SORTfndloop (fun p => atomCmp (val p) v) (hi - lo) lo hi 0 1
    if cmp = 0 then some cur else none

section Shift

variable {eq : ℕ → Bool} {g stop f diff cur : ℕ}

/-- Moving up by `diff` stays among the positions that `eq` accepts, which end before `g`, and with
`diff = 1` reaches the last of them. -/
theorem shiftWhileUp_spec (heq : ∀ i, f ≤ i → i < stop → (eq i = true ↔ i < g)) (hg : g ≤ stop)
    (hd : 0 < diff) (n : ℕ) (hn : stop ≤ n + cur) (h1 : f ≤ cur) (h2 : cur < g) :
    cur ≤ shiftWhileUp eq stop diff n cur ∧ shiftWhileUp eq stop diff n cur < g ∧
      (diff = 1 → shiftWhileUp eq stop diff n cur + 1 = g) := by
  induction n generalizing cur with
  | zero => omega
  | succ n ih =>
    rw [shiftWhileUp]
    split_ifs with hc
    · rw [Bool.and_eq_true, decide_eq_true_iff] at hc
      have hlt := (heq (cur + diff) (by omega) hc.1).mp hc.2
      obtain ⟨h3, h4, h5⟩ := ih (by omega) (by omega) hlt
      exact ⟨by omega, h4, h5⟩
    · refine ⟨le_rfl, h2, ?_⟩
      rintro rfl
      by_contra hne
      refine hc ?_
      rw [Bool.and_eq_true, decide_eq_true_iff]
      exact ⟨by omega, (heq (cur + 1) (by omega) (by omega)).mpr (by omega)⟩

theorem shiftUp_spec (heq : ∀ i, f ≤ i → i < stop → (eq i = true ↔ i < g)) (hg : g ≤ stop) (n : ℕ)
    (hn : diff ≤ n) (h0 : diff = 0 → cur + 1 = g) (h1 : f ≤ cur) (h2 : cur < g) :
    shiftUp eq stop n diff cur + 1 = g := by
  induction n generalizing diff cur with
  | zero => exact h0 (by omega)
  | succ n ih =>
    rw [shiftUp]
    split_ifs with hd
    · obtain ⟨h3, h4, h5⟩ := shiftWhileUp_spec heq hg hd stop (by omega) h1 h2
      exact ih (by omega) (fun h => h5 (by omega)) (by omega) h4
    · exact h0 (by omega)

end Shift

variable {val : ℕ → α} {L H : ℕ}

/-- **`SORTfndlast` finds the first value that is greater than `v`.** -/
theorem boundary_SORTfndlast (hs : Ascending val L H) (hLH : L ≤ H)
    (hkey : tkey = true → ∀ i j, L ≤ i → i < j → j < H → val i ≠ val j) (v : α) :
    Boundary (fun p => val p ≤ v) L H (SORTfndlast val L H tkey v) := by
  unfold SORTfndlast
  split_ifs with hshort
  · refine .last hLH fun i h1 h2 => ?_
    rcases hshort with hempty | hlast
    · omega
    · have hle : val (H - 1) ≤ v := by
        rw [← not_lt, ← atomCmp_pos]
        omega
      exact (hs i (H - 1) h1 (by omega) (by omega)).trans hle
  rw [not_or, not_le] at hshort
  have hloop := SORTfndloop_start hs hshort.1 v
  dsimp only at hloop ⊢
  set out := SORTfndloop (fun p => atomCmp (val p) v) (H - L) L H 0 1
  rcases hloop with ⟨hz, h1, h2, hval⟩ | ⟨hnz, hb⟩
  · have hdown : Downward (fun p => val p ≤ v) L H := fun i j h3 h4 h5 hp =>
      (hs i j h3 h4 h5).trans hp
    have hb := (boundary_scanUp_sub (fun p => decide (val p ≤ v)) hLH).congr
      (q := fun p => val p ≤ v) fun i _ _ => by simp
    set g := scanUp (fun p => decide (val p ≤ v)) L (H - L)
    have hg : out.1 < g := (hb.iff_lt hdown h1 h2).mp hval.le
    -- from the position found on, the values equal to `v` end at the boundary
    have heq : ∀ i, out.1 ≤ i → i < H → (val i = v ↔ i < g) := by
      intro i h3 h4
      have hge : v ≤ val i := hval ▸ hs out.1 i h1 h3 h4
      rw [← hb.iff_lt hdown (by omega) h4]
      exact ⟨fun he => he.le, fun hle => le_antisymm hle hge⟩
    rw [if_pos hz]
    by_cases hk : tkey = true
    · rw [if_neg (by simp [hk])]
      have hge : out.1 + 1 = g := by
        by_contra hne
        have hnext := (heq (out.1 + 1) (by omega) (by have := hb.le_hi; omega)).mpr (by omega)
        exact hkey hk out.1 (out.1 + 1) h1 (by omega) (by have := hb.le_hi; omega)
          (hval.trans hnext.symm)
      rwa [hge]
    · rw [if_pos ⟨hz, by simpa using hk⟩]
      have heq' : ∀ i, out.1 ≤ i → i < H → (decide (atomCmp (val i) v = 0) = true ↔ i < g) := by
        intro i h3 h4
        rw [decide_eq_true_iff, atomCmp_eq_zero]
        exact heq i h3 h4
      rw [shiftUp_spec heq' hb.le_hi (H - out.1) (by omega) (fun h => by have := hb.le_hi; omega)
        le_rfl hg]
      exact hb
  · -- no value is equal to `v`
    rw [if_neg hnz, if_neg fun h => hnz h.1]
    exact hb.boundary_le

theorem SORTfnd_eq_some (hs : Ascending val L H) {v : α} {k : ℕ} (h : SORTfnd val L H v = some k) :
    L ≤ k ∧ k < H ∧ val k = v := by
  unfold SORTfnd at h
  split_ifs at h with hshort
  have hloop := SORTfndloop_start hs (not_le.mp hshort) v
  dsimp only at hloop h
  rcases hloop with ⟨hz, h1, h2, hval⟩ | ⟨hnz, -⟩
  · rw [if_pos hz] at h
    obtain rfl := Option.some.inj h
    exact ⟨h1, h2, hval⟩
  · rw [if_neg hnz] at h
    exact nomatch h

/-- **`SORTfnd` finds a value exactly if there is one.** -/
theorem SORTfnd_isSome_iff (hs : Ascending val L H) (v : α) :
    (SORTfnd val L H v).isSome = true ↔ ∃ i, L ≤ i ∧ i < H ∧ val i = v := by
  unfold SORTfnd
  split_ifs with hshort
  · exact iff_of_false nofun fun ⟨i, h1, h2, _⟩ => by omega
  have hloop := SORTfndloop_start hs (not_le.mp hshort) v
  dsimp only at hloop ⊢
  set out := SORTfndloop (fun p => atomCmp (val p) v) (H - L) L H 0 1
  rcases hloop with ⟨hz, h1, h2, hval⟩ | ⟨hnz, hb⟩
  · rw [if_pos hz]
    exact iff_of_true rfl ⟨out.1, h1, h2, hval⟩
  · rw [if_neg hnz]
    exact iff_of_false nofun fun ⟨i, h1, h2, hval⟩ => hb.ne h1 h2 hval

end Last

/-! ## Oids

A dense column is one of oids.  Nil is stored as a large unsigned number but compares as the
smallest value, and this is where the search of a dense column goes wrong. -/

/-- The oids, with nil as the smallest one. -/
def Oid : Type := WithBot (Fin (2 ^ 63))
  deriving LinearOrder, OrderBot

namespace Oid

/-- The unsigned number that an oid is stored as. -/
def bits : Oid → ℕ
  | none => oidNil
  | some n => n

/-- The oid of a number, which is not nil. -/
def ofNat (n : ℕ) (h : n < 2 ^ 63) : Oid := some ⟨n, h⟩

/-- Oids hash like numbers of 64 bits. -/
instance : Atom Oid where
  atomHash o := mixInt (o.bits % 2 ^ 32 ^^^ o.bits / 2 ^ 32)
  atomSize := 8

theorem bits_bot : bits ⊥ = oidNil := rfl

/-- Unless one of them is nil, oids are compared as unsigned numbers. -/
theorem bits_lt_bits {a b : Oid} (ha : a ≠ ⊥) (hb : b ≠ ⊥) : a.bits < b.bits ↔ a < b := by
  cases a with
  | none => exact absurd rfl ha
  | some m =>
    cases b with
    | none => exact absurd rfl hb
    | some n => exact (WithBot.coe_lt_coe (a := m) (b := n)).symm

end Oid

/-! ## The search -/

/-- A column as the search sees it.  If `BATtdense` holds, its values are oids that count up from a
sequence base. -/
structure SearchColumn (α : Type*) [Atom α] extends Column α where
  dense : Option (ℕ × (α ≃o Oid))
  dense_true : ∀ d, dense = some d → tsorted = true ∧ d.1 + count ≤ oidNil ∧
    ∀ i < count, (d.2 (val (first + i))).bits = d.1 + i

section Model

variable (b : SearchColumn α)

/-- The sign of a comparison in the order of the column: `CMP` or `-CMP`. -/
def SearchColumn.sign (cmp : ℤ) : ℤ := if b.tsorted then cmp else -cmp

/-- Search by comparing values, where `cmp` gives the sign for the value at a position and the
search value. -/
def SearchColumn.searchBy (cmp : ℕ → ℤ) (which : ℤ) : Option ℕ :=
  let lo := b.first
  let hi := b.first + b.count
  -- the end points may answer at once
  if which < 0 ∧ (hi ≤ lo ∨ 0 ≤ b.sign (cmp lo)) then some lo
  else if 0 < which ∧ (hi ≤ lo ∨ b.sign (cmp (hi - 1)) ≤ 0) then some hi
  else if which = 0 ∧ hi ≤ lo then none
  else
    let (cur, c) := SORTfndloop (fun p => b.sign (cmp p)) (hi - lo) lo hi 0 1
    let eq := fun p => decide (cmp p = 0)
    if which < 0 then
      if c = 0 ∧ !b.tkey then some (shiftDown eq lo (cur - lo + 1) (cur - lo) cur) else some cur
    else if 0 < which then
      let cur := if c = 0 ∧ !b.tkey then shiftUp eq hi (hi - cur) ((hi - cur) >>> 1) cur else cur
      if c = 0 then some (cur + 1) else some cur
    else if c ≠ 0 then none
    else some cur

/-- Search for `v`: the first position that is not before it (`which < 0`), the first one behind it
(`0 < which`), or any that holds it (`which = 0`).  `none` is `BUN_NONE`. -/
def SORTfndwhich (v : α) (which : ℤ) : Option ℕ :=
  if !b.tsorted && !b.trevsorted then none
  else
    match b.dense with
    | some (tseqbase, oids) =>
      let o := (oids v).bits
      if o < tseqbase then if which = 0 then none else some b.first
      else if tseqbase + b.count ≤ o then if which = 0 then none else some (b.first + b.count)
      else
        let cur := o - tseqbase + b.first
        if 0 < which then some (cur + 1) else some cur
    | none => b.searchBy (fun p => atomCmp (b.val p) v) which

/-- The same for NaN, in a column of a floating-point type.  Neither `<` nor `>` holds of NaN and a
number, so that they compare as equal. -/
def SORTfndwhichNaN (which : ℤ) : Option ℕ :=
  if !b.tsorted && !b.trevsorted then none else b.searchBy (fun _ => 0) which

end Model

/-- What the three searches should find, with `lo` and `hi` the ends of the column. -/
structure Searched (b : SearchColumn α) (v : α) (find : ℤ → Option ℕ) :
    Prop where
  /-- The first position whose value is not before `v`. -/
  first : ∃ k, find (-1) = some k ∧
    Boundary (fun p => Before b.direction (b.val p) v) b.first (b.first + b.count) k
  /-- The first position whose value is after `v`. -/
  last : ∃ k, find 1 = some k ∧
    Boundary (fun p => ¬ Before b.direction v (b.val p)) b.first (b.first + b.count) k
  /-- A position that holds `v`. -/
  any : ∀ k, find 0 = some k → b.first ≤ k ∧ k < b.first + b.count ∧ b.val k = v
  /-- It is found if there is one. -/
  found : ∀ i, b.first ≤ i → i < b.first + b.count → b.val i = v → find 0 ≠ none

/-- What they should find for NaN, if no value is NaN: no value is before NaN or after it, and none
equals it. -/
structure SearchedNaN (b : SearchColumn α) (find : ℤ → Option ℕ) : Prop where
  first : find (-1) = some b.first
  last : find 1 = some (b.first + b.count)
  any : find 0 = none

/-! ## Columns that are not dense

The flags say in which direction the values ascend.  Once they are taken in that order, the searches
are those above. -/

theorem atomCmp_toDual {α : Type*} [LinearOrder α] (a v : α) :
    atomCmp (OrderDual.toDual a) (OrderDual.toDual v) = -atomCmp a v := by
  unfold atomCmp
  simp only [OrderDual.toDual_lt_toDual]
  rcases lt_trichotomy a v with h | rfl | h
  · rw [if_neg h.asymm, if_pos h, if_pos h, neg_neg]
  · rw [if_neg (lt_irrefl a), if_neg (lt_irrefl a), neg_zero]
  · rw [if_pos h, if_neg h.asymm, if_pos h]

section Sorted

variable {α β : Type*} [Atom α] [LinearOrder β] {b : SearchColumn α} {v : α}

/-- The values of the column in an order in which they ascend. -/
structure SearchColumn.Ordering (b : SearchColumn α) (v : α) (f : ℕ → β) (w : β) : Prop where
  cmp_eq : ∀ p, b.sign (atomCmp (b.val p) v) = atomCmp (f p) w
  ascending : Ascending f b.first (b.first + b.count)
  inj : ∀ i j, f i = f j → b.val i = b.val j

variable {f : ℕ → β} {w : β} (hnd : b.dense = none)
  (hflag : (b.tsorted || b.trevsorted) = true) (ho : b.Ordering v f w)

theorem SearchColumn.Ordering.eq_iff (ho : b.Ordering v f w) (p : ℕ) :
    atomCmp (b.val p) v = 0 ↔ atomCmp (f p) w = 0 := by
  rw [← ho.cmp_eq, SearchColumn.sign]
  split_ifs
  · exact Iff.rfl
  · exact neg_eq_zero.symm

theorem SearchColumn.Ordering.key (ho : b.Ordering v f w) (hk : b.tkey = true) (i j : ℕ)
    (h1 : b.first ≤ i) (h2 : i < j) (h3 : j < b.first + b.count) : f i ≠ f j := by
  intro he
  refine b.key_true hk (i - b.first) (j - b.first) (by omega) (by omega) ?_
  rw [Nat.add_sub_cancel' h1, Nat.add_sub_cancel' (h1.trans h2.le)]
  exact ho.inj i j he

theorem SearchColumn.Ordering.eq_fun (ho : b.Ordering v f w) :
    (fun p => decide (atomCmp (b.val p) v = 0)) = fun p => decide (atomCmp (f p) w = 0) :=
  funext fun p => decide_eq_decide.mpr (ho.eq_iff p)

theorem not_unsorted (hflag : (b.tsorted || b.trevsorted) = true) :
    ¬ ((!b.tsorted && !b.trevsorted) = true) := by
  rw [← Bool.not_or, hflag]
  decide

include hnd hflag ho

theorem SORTfndwhich_first :
    SORTfndwhich b v (-1) = some (SORTfndfirst f b.first (b.first + b.count) b.tkey w) := by
  dsimp only [SORTfndwhich, SearchColumn.searchBy, SORTfndfirst]
  rw [if_neg (not_unsorted hflag), hnd]
  simp only [ho.cmp_eq, ho.eq_fun]
  by_cases hshort : b.first + b.count ≤ b.first ∨ 0 ≤ atomCmp (f b.first) w
  · rw [if_pos ⟨by decide, hshort⟩, if_pos hshort]
  · rw [if_neg fun h => hshort h.2, if_neg (by simp), if_neg (by simp), if_pos (by decide)]
    split_ifs <;> rfl

theorem SORTfndwhich_last :
    SORTfndwhich b v 1 = some (SORTfndlast f b.first (b.first + b.count) b.tkey w) := by
  dsimp only [SORTfndwhich, SearchColumn.searchBy, SORTfndlast]
  rw [if_neg (not_unsorted hflag), hnd]
  simp only [ho.cmp_eq, ho.eq_fun]
  rw [if_neg (by simp)]
  by_cases hshort : b.first + b.count ≤ b.first ∨ atomCmp (f (b.first + b.count - 1)) w ≤ 0
  · rw [if_pos ⟨by decide, hshort⟩, if_pos hshort]
  · rw [if_neg fun h => hshort h.2, if_neg (by simp), if_neg (by decide), if_pos (by decide)]
    split_ifs <;> rfl

theorem SORTfndwhich_any :
    SORTfndwhich b v 0 = SORTfnd f b.first (b.first + b.count) w := by
  dsimp only [SORTfndwhich, SearchColumn.searchBy, SORTfnd]
  rw [if_neg (not_unsorted hflag), hnd]
  simp only [ho.cmp_eq]
  rw [if_neg (by simp), if_neg (by simp)]
  by_cases hshort : b.first + b.count ≤ b.first
  · rw [if_pos ⟨trivial, hshort⟩, if_pos hshort]
  · rw [if_neg fun h => hshort h.2, if_neg (by decide), if_neg (by decide)]
    split_ifs with h1 h2
    · rfl
    · rfl
    · exact absurd h2 h1

theorem searched_of_ordering (hbefore : ∀ p, f p < w ↔ Before b.direction (b.val p) v)
    (hafter : ∀ p, w < f p ↔ Before b.direction v (b.val p)) :
    Searched b v (SORTfndwhich b v) := by
  have hval : ∀ p, f p = w ↔ b.val p = v := by
    intro p
    have h := ho.eq_iff p
    rwa [atomCmp_eq_zero, atomCmp_eq_zero, iff_comm] at h
  refine ⟨⟨_, SORTfndwhich_first hnd hflag ho, ?_⟩, ⟨_, SORTfndwhich_last hnd hflag ho, ?_⟩, ?_, ?_⟩
  · exact (boundary_SORTfndfirst ho.ascending (Nat.le_add_right _ _) ho.key w).congr
      fun p _ _ => hbefore p
  · refine (boundary_SORTfndlast ho.ascending (Nat.le_add_right _ _) ho.key w).congr fun p _ _ => ?_
    rw [← not_lt, hafter]
  · intro k hk
    rw [SORTfndwhich_any hnd hflag ho] at hk
    obtain ⟨h1, h2, h3⟩ := SORTfnd_eq_some ho.ascending hk
    exact ⟨h1, h2, (hval k).mp h3⟩
  · intro i h1 h2 h3 hnone
    rw [SORTfndwhich_any hnd hflag ho] at hnone
    have hsome := (SORTfnd_isSome_iff ho.ascending w).mpr ⟨i, h1, h2, (hval i).mpr h3⟩
    rw [hnone] at hsome
    exact absurd hsome (by decide)

end Sorted

theorem searched_of_not_dense {b : SearchColumn α} (hnd : b.dense = none)
    (hflag : (b.tsorted || b.trevsorted) = true) (v : α) : Searched b v (SORTfndwhich b v) := by
  by_cases hs : b.tsorted = true
  · have ho : b.Ordering v b.val v := by
      refine ⟨fun p => if_pos hs, fun i j h1 h2 h3 => ?_, fun _ _ => id⟩
      have h := b.sorted_true hs (i - b.first) (j - b.first) (by omega) (by omega)
      rwa [Nat.add_sub_cancel' h1, Nat.add_sub_cancel' (h1.trans h2)] at h
    refine searched_of_ordering hnd hflag ho (fun p => ?_) fun p => ?_
    · rw [direction, if_pos hs, before_one]
    · rw [direction, if_pos hs, before_one]
  · have hr : b.trevsorted = true := (Bool.or_eq_true_iff.mp hflag).resolve_left hs
    have ho : b.Ordering v (OrderDual.toDual ∘ b.val) (OrderDual.toDual v) := by
      refine ⟨fun p => ?_, fun i j h1 h2 h3 => ?_, fun _ _ => OrderDual.toDual_inj.mp⟩
      · rw [SearchColumn.sign, if_neg hs]
        exact (atomCmp_toDual _ _).symm
      · have h := b.revsorted_true hr (i - b.first) (j - b.first) (by omega) (by omega)
        rwa [Nat.add_sub_cancel' h1, Nat.add_sub_cancel' (h1.trans h2)] at h
    refine searched_of_ordering hnd hflag ho (fun p => ?_) fun p => ?_
    · rw [direction, if_neg hs, before_neg_one]
      exact OrderDual.toDual_lt_toDual
    · rw [direction, if_neg hs, before_neg_one]
      exact OrderDual.toDual_lt_toDual

/-- The loop ends with the first value it looks at. -/
theorem searchedNaN_iff {b : SearchColumn α} (hflag : (b.tsorted || b.trevsorted) = true) :
    SearchedNaN b (SORTfndwhichNaN b) ↔ b.count = 0 := by
  have hzero : b.sign 0 = 0 := by simp [SearchColumn.sign]
  have hfind : ∀ which, SORTfndwhichNaN b which = b.searchBy (fun _ => 0) which :=
    fun _ => if_neg (not_unsorted hflag)
  constructor
  · intro h
    by_contra hpos
    have hany := h.any
    obtain ⟨n, hn⟩ := Nat.exists_eq_succ_of_ne_zero hpos
    rw [hfind, SearchColumn.searchBy, if_neg (by simp), if_neg (by simp), if_neg (by omega)] at hany
    simp [hn, SORTfndloop, hzero] at hany
  · intro hempty
    refine ⟨?_, ?_, ?_⟩ <;> rw [hfind] <;> simp [SearchColumn.searchBy, hempty]

/-! ## Dense columns

The position is computed from the search value alone, as an unsigned difference that is cut at the
ends of the column. -/

section Dense

variable {b : SearchColumn α} {v : α} {seq : ℕ} {oids : α ≃o Oid}

section

variable (hdense : b.dense = some (seq, oids))

include hdense

/-- The values of a dense column, compared with a search value that is not nil. -/
theorem val_cmp_of_dense (hv : v ≠ ⊥) {p : ℕ} (h1 : b.first ≤ p) (h2 : p < b.first + b.count) :
    (b.val p < v ↔ seq + (p - b.first) < (oids v).bits) ∧
      (v < b.val p ↔ (oids v).bits < seq + (p - b.first)) := by
  obtain ⟨-, hsmall, hbits⟩ := b.dense_true _ hdense
  have hp := hbits (p - b.first) (by omega)
  rw [Nat.add_sub_cancel' h1] at hp
  have hp' : oids (b.val p) ≠ ⊥ := by
    intro he
    rw [he, Oid.bits_bot] at hp
    omega
  have hv' : oids v ≠ ⊥ := fun he => hv (oids.injective (he.trans oids.map_bot.symm))
  rw [← hp, Oid.bits_lt_bits hp' hv', Oid.bits_lt_bits hv' hp', oids.lt_iff_lt, oids.lt_iff_lt]
  exact ⟨Iff.rfl, Iff.rfl⟩

theorem searched_of_dense (hv : v ≠ ⊥) : Searched b v (SORTfndwhich b v) := by
  obtain ⟨hs, -⟩ := b.dense_true _ hdense
  have hcmp := @val_cmp_of_dense _ _ b v seq oids hdense hv
  have hbefore : ∀ p, Before b.direction (b.val p) v ↔ b.val p < v := fun p => by
    rw [direction, if_pos hs, before_one]
  have hafter : ∀ p, Before b.direction v (b.val p) ↔ v < b.val p := fun p => by
    rw [direction, if_pos hs, before_one]
  have hfind : ∀ which, SORTfndwhich b v which =
      if (oids v).bits < seq then if which = 0 then none else some b.first
      else if seq + b.count ≤ (oids v).bits then
        if which = 0 then none else some (b.first + b.count)
      else if 0 < which then some ((oids v).bits - seq + b.first + 1)
      else some ((oids v).bits - seq + b.first) := by
    intro which
    dsimp only [SORTfndwhich]
    rw [if_neg (not_unsorted (by simp [hs])), hdense]
  set o := (oids v).bits
  refine ⟨⟨if o < seq then b.first else if seq + b.count ≤ o then b.first + b.count
      else o - seq + b.first, ?_, ?_⟩,
    ⟨if o < seq then b.first else if seq + b.count ≤ o then b.first + b.count
      else o - seq + b.first + 1, ?_, ?_⟩, ?_, ?_⟩
  · rw [hfind]
    split_ifs <;> first | rfl | omega
  · refine ⟨by split_ifs <;> omega, by split_ifs <;> omega, fun p h1 h2 => ?_, fun hk => ?_⟩
    · rw [hbefore, (hcmp h1 (by split_ifs at h2 <;> omega)).1]
      split_ifs at h2 <;> omega
    · rw [hbefore, (hcmp (by split_ifs <;> omega) hk).1]
      split_ifs at hk ⊢ <;> omega
  · rw [hfind]
    split_ifs <;> first | rfl | omega
  · refine ⟨by split_ifs <;> omega, by split_ifs <;> omega, fun p h1 h2 => ?_, fun hk => ?_⟩
    · rw [hafter, (hcmp h1 (by split_ifs at h2 <;> omega)).2]
      split_ifs at h2 <;> omega
    · rw [hafter, (hcmp (by split_ifs <;> omega) hk).2]
      split_ifs at hk ⊢ <;> omega
  -- the value at the position that is found is neither less nor greater
  · intro k hk
    rw [hfind, if_pos rfl, if_pos rfl, if_neg (lt_irrefl _)] at hk
    split_ifs at hk with h1 h2
    obtain rfl := Option.some.inj hk
    have hc := hcmp (p := o - seq + b.first) (by omega) (by omega)
    refine ⟨by omega, by omega, le_antisymm (not_lt.mp fun h => ?_) (not_lt.mp fun h => ?_)⟩
    · have := hc.2.mp h
      omega
    · have := hc.1.mp h
      omega
  · intro i h1 h2 he hnone
    have hc := hcmp h1 h2
    rw [he] at hc
    have h3 : ¬ seq + (i - b.first) < o := fun h => lt_irrefl v (hc.1.mpr h)
    have h4 : ¬ o < seq + (i - b.first) := fun h => lt_irrefl v (hc.2.mpr h)
    rw [hfind, if_neg (by omega), if_neg (by omega)] at hnone
    exact nomatch hnone

/-- The search for nil in a dense column ends behind the last position. -/
theorem SORTfndwhich_nil (which : ℤ) :
    SORTfndwhich b ⊥ which = if which = 0 then none else some (b.first + b.count) := by
  obtain ⟨hs, hsmall, -⟩ := b.dense_true _ hdense
  dsimp only [SORTfndwhich]
  rw [if_neg (not_unsorted (by simp [hs])), hdense]
  dsimp only
  rw [oids.map_bot, Oid.bits_bot, if_neg (by omega), if_pos hsmall]

end

end Dense

/-! ## All columns

A dense column has distinct values, so that the three answers are unique, and the search by
comparing values must give the same ones. -/

/-- The same column, to be searched by comparing values. -/
def SearchColumn.materialised (b : SearchColumn α) : SearchColumn α :=
  { b with dense := none, dense_true := nofun }

theorem Searched.unique {b : SearchColumn α} {v : α}
    {find find' : ℤ → Option ℕ}
    (hkey : ∀ i j, b.first ≤ i → i < j → j < b.first + b.count → b.val i ≠ b.val j)
    (h : Searched b v find) (h' : Searched b v find') :
    ∀ which ∈ [-1, 0, 1], find which = find' which := by
  have hfirst : find (-1) = find' (-1) := by
    obtain ⟨k, hk, hb⟩ := h.first
    obtain ⟨k', hk', hb'⟩ := h'.first
    rw [hk, hk', hb.unique hb']
  have hlast : find 1 = find' 1 := by
    obtain ⟨k, hk, hb⟩ := h.last
    obtain ⟨k', hk', hb'⟩ := h'.last
    rw [hk, hk', hb.unique hb']
  have hany : find 0 = find' 0 := by
    cases hf : find 0 with
    | none =>
      cases hf' : find' 0 with
      | none => rfl
      | some k =>
        obtain ⟨h1, h2, h3⟩ := h'.any k hf'
        exact absurd hf (h.found k h1 h2 h3)
    | some k =>
      obtain ⟨h1, h2, h3⟩ := h.any k hf
      cases hf' : find' 0 with
      | none => exact absurd hf' (h'.found k h1 h2 h3)
      | some k' =>
        obtain ⟨h1', h2', h3'⟩ := h'.any k' hf'
        -- two positions with the same value are one
        rcases lt_trichotomy k k' with hlt | rfl | hlt
        · exact absurd (h3.trans h3'.symm) (hkey k k' h1 hlt h2')
        · rfl
        · exact absurd (h3'.trans h3.symm) (hkey k' k h1' hlt h2)
  simp only [List.mem_cons, List.not_mem_nil, or_false]
  rintro which (rfl | rfl | rfl)
  · exact hfirst
  · exact hany
  · exact hlast

theorem dense_key {b : SearchColumn α} {d : ℕ × (α ≃o Oid)}
    (hdense : b.dense = some d) (i j : ℕ) (h1 : b.first ≤ i) (h2 : i < j)
    (h3 : j < b.first + b.count) : b.val i ≠ b.val j := by
  obtain ⟨-, -, hbits⟩ := b.dense_true _ hdense
  intro he
  have hi := hbits (i - b.first) (by omega)
  have hj := hbits (j - b.first) (by omega)
  rw [Nat.add_sub_cancel' h1, he] at hi
  rw [Nat.add_sub_cancel' (h1.trans h2.le)] at hj
  omega

/-- **`SORTfndfirst`, `SORTfndlast` and `SORTfnd` find what they should, and a dense column is
searched like one whose values are stored, if and only if nil is not searched in a dense column that
has a row, nor NaN in any column that has one.** -/
theorem searched_iff (b : SearchColumn α) (hflag : (b.tsorted || b.trevsorted) = true) :
    (∀ v, (Searched b v (SORTfndwhich b v) ∧ ∀ which ∈ [-1, 0, 1],
        SORTfndwhich b v which = SORTfndwhich b.materialised v which) ↔
      (b.dense.isSome = true → v = ⊥ → b.count = 0)) ∧
    (SearchedNaN b (SORTfndwhichNaN b) ↔ b.count = 0) := by
  refine ⟨fun v => ?_, searchedNaN_iff hflag⟩
  have hmat : Searched b v (SORTfndwhich b.materialised v) := by
    obtain ⟨h₁, h₂, h₃, h₄⟩ := @searched_of_not_dense _ _ b.materialised rfl hflag v
    exact ⟨h₁, h₂, h₃, h₄⟩
  cases hdense : b.dense with
  | none =>
    have hself : b.materialised = b := by
      cases b
      cases hdense
      rfl
    rw [hself]
    exact iff_of_true ⟨searched_of_not_dense hdense hflag v, fun _ _ => rfl⟩ nofun
  | some d =>
    rw [Option.isSome_some, forall_prop_of_true rfl]
    by_cases hv : v = ⊥
    swap
    · have hs := searched_of_dense hdense hv
      exact iff_of_true ⟨hs, hs.unique (dense_key hdense) hmat⟩ fun h => absurd h hv
    subst hv
    rw [forall_prop_of_true rfl]
    constructor
    · -- the position found is behind the last one, although no value is before nil
      rintro ⟨hs, -⟩
      obtain ⟨k, hk, hb⟩ := hs.first
      rw [SORTfndwhich_nil hdense] at hk
      obtain rfl := Option.some.inj hk
      by_contra hpos
      have hbefore := hb.below b.first le_rfl (by omega)
      rw [direction, if_pos (b.dense_true _ hdense).1, before_one] at hbefore
      exact not_lt_bot hbefore
    · intro hempty
      have hb : ∀ p : ℕ → Prop, Boundary p b.first (b.first + b.count) (b.first + b.count) :=
        fun p => .last (by omega) fun i h₁ h₂ => by omega
      have hs : Searched b ⊥ (SORTfndwhich b ⊥) := by
        refine ⟨⟨_, SORTfndwhich_nil hdense (-1), hb _⟩, ⟨_, SORTfndwhich_nil hdense 1, hb _⟩, ?_,
          fun i h₁ h₂ => by omega⟩
        intro k hk
        rw [SORTfndwhich_nil hdense] at hk
        exact nomatch hk
      exact ⟨hs, hs.unique (dense_key hdense) hmat⟩

/-! ## A failing input -/

/-- The oids 0 and 1 as a dense column. -/
def denseTwo : SearchColumn Oid where
  hdense := true
  hseqbase := 0
  ttype := typeVoid
  first := 0
  count := 2
  capacity := 2
  val := fun p => if p = 0 then Oid.ofNat 0 (by decide) else Oid.ofNat 1 (by decide)
  tsorted := true
  trevsorted := false
  tkey := true
  tnonil := true
  hash := none
  fits := by decide
  small := by decide
  oids_small := by decide
  sorted_true _ i j hij hj := by
    have h : ∀ j < 2, ∀ i ≤ j, (if 0 + i = 0 then Oid.ofNat 0 (by decide) else
        Oid.ofNat 1 (by decide)) ≤ if 0 + j = 0 then Oid.ofNat 0 (by decide) else
        Oid.ofNat 1 (by decide) := by decide
    exact h j hj i hij
  revsorted_true := nofun
  key_true _ i j hij hj := by
    have h : ∀ j < 2, ∀ i < j, (if 0 + i = 0 then Oid.ofNat 0 (by decide) else
        Oid.ofNat 1 (by decide)) ≠ if 0 + j = 0 then Oid.ofNat 0 (by decide) else
        Oid.ofNat 1 (by decide) := by decide
    exact h j hj i hij
  nonil_true := by decide
  hash_shape := nofun
  dense := some (0, OrderIso.refl Oid)
  dense_true := by
    rintro d ⟨⟩
    exact ⟨rfl, by decide, by decide⟩

/-- Nil comes before the oids 0 and 1, but the search for it returns the position behind them. -/
theorem SORTfndfirst_nil_denseTwo :
    ¬ (Searched denseTwo ⊥ (SORTfndwhich denseTwo ⊥) ∧ ∀ which ∈ [-1, 0, 1],
      SORTfndwhich denseTwo ⊥ which = SORTfndwhich denseTwo.materialised ⊥ which) := by
  rintro ⟨-, hsame⟩
  have h := hsame (-1) (by decide)
  exact absurd h (by decide)

/-- An oid is found. -/
theorem searched_denseTwo :
    Searched denseTwo (Oid.ofNat 1 (by decide)) (SORTfndwhich denseTwo (Oid.ofNat 1 (by decide))) ∧
      ∀ which ∈ [-1, 0, 1], SORTfndwhich denseTwo (Oid.ofNat 1 (by decide)) which =
        SORTfndwhich denseTwo.materialised (Oid.ofNat 1 (by decide)) which :=
  ((searched_iff denseTwo (by decide)).1 _).mpr fun _ h => absurd h (by decide)

end MonetInR.Gdk
