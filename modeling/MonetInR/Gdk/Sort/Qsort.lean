import MonetInR.Gdk.Atom
import MonetInR.Lib.Shuffle

/-!
# Quicksort

`GDKqsort` sorts an array of head values in place and moves the entries of a tail array along.  It
is Bentley and McIlroy's quicksort: the values equal to the pivot are collected at both ends of the
array while the others are exchanged, and are swapped into the middle at the end.  There is one
copy of the code for every type, which differ in how they compare, and one for every direction.

Every comparison and every exchange names positions of the part of the array that is being sorted;
here a position that is not in it ends the computation.  Whatever the comparisons say, a loop ends,
stays inside of the part and only exchanges entries; this needs no law of the comparison.  The array
is left in order if the values compare with each other.  A floating point number that is not a
number compares with nothing, and with one the array is left in no order.

## Main definitions

* `Comparison`: how the values of a type are compared
* `Qsort.scan`, `Qsort.multiSwap`, `Qsort.insertionSort`: the loops
* `GDKqsort`, `GDKqsort_rev`
* `Qsort.SortedOn`: the part is in order
* `Qsort.Bounds`, `Qsort.Regions`: the indexes of the partition, and what lies between them
* `IsSorting`: a result is the sorted array

## Main results

* `Qsort.insertionSort_spec`, `Qsort.partition_spec`, `Qsort.moveEqual_spec`
* `GDKqsort_shuffles`: the sort ends, stays inside of the array and shuffles it
* `isSorting_iff`: when it sorts
-/

namespace MonetInR.Gdk

open Shuffle Option Nat

variable {α β : Type*}

/-! ## Comparisons

Only totality is restricted to values that compare; the other laws hold for all.  The laws of the
reverse sort follow from those of the sort. -/

/-- The macros `LE`, `LT` and `EQ` of a type.  The values `nan` are the floating point numbers that
compare with nothing; no other type has any. -/
structure Comparison (α : Type*) where
  le : α → α → Bool
  lt : α → α → Bool
  eq : α → α → Bool
  nan : α → Bool
  lt_iff : ∀ a b, lt a b = true ↔ le a b = true ∧ le b a = false
  eq_iff : ∀ a b, eq a b = true ↔ le a b = true ∧ le b a = true
  trans : ∀ a b c, le a b = true → le b c = true → le a c = true
  total : ∀ a b, nan a = false → nan b = false → le a b = true ∨ le b a = true
  nan_false : ∀ a b, nan a = true ∨ nan b = true → le a b = false

namespace Comparison

variable {α : Type*} (C : Comparison α)

/-- The macros of the reverse sort. -/
def rev : Comparison α where
  le a b := C.le b a
  lt a b := C.lt b a
  eq := C.eq
  nan := C.nan
  lt_iff a b := C.lt_iff b a
  eq_iff a b := (C.eq_iff a b).trans and_comm
  trans a b c hab hbc := C.trans c b a hbc hab
  total a b ha hb := C.total b a hb ha
  nan_false a b h := C.nan_false b a h.symm

/-- The comparison of `dbl`, where `none` is the number that is not a number. -/
def ofDbl : Comparison (Option DblVal) where
  le a b := a.any fun x => b.any fun y => decide (x ≤ y)
  lt a b := a.any fun x => b.any fun y => decide (x < y)
  eq a b := a.any fun x => b.any fun y => decide (x = y)
  nan a := a.isNone
  lt_iff a b := by
    cases a <;> cases b <;> simp
    exact le_of_lt
  eq_iff a b := by
    cases a <;> cases b <;> simp only [Option.any_some, Option.any_none, decide_eq_true_iff,
      Bool.false_eq_true, and_false]
    exact le_antisymm_iff
  trans a b c := by
    cases a <;> cases b <;> cases c <;> simp
    exact le_trans
  total a b := by
    cases a <;> cases b <;> simp
    exact le_total _ _
  nan_false a b := by cases a <;> cases b <;> simp

end Comparison

/-! ## The loops

A comparison or an exchange at an index outside of the part has no result.  The fuel of the scans is
the number of entries. -/

namespace Qsort

variable (C : Comparison α) (lo n : ℕ)

/-- `LE(i, j)`, in the part of the array from `lo` on that has `n` entries. -/
def LE (m : Arrays α β) (i j : ℕ) : Option Bool :=
  if i < n ∧ j < n then some (C.le (m.h (lo + i)) (m.h (lo + j))) else none

/-- `LT(i, j)`. -/
def LT (m : Arrays α β) (i j : ℕ) : Option Bool :=
  if i < n ∧ j < n then some (C.lt (m.h (lo + i)) (m.h (lo + j))) else none

/-- `EQ(i, j)`. -/
def EQ (m : Arrays α β) (i j : ℕ) : Option Bool :=
  if i < n ∧ j < n then some (C.eq (m.h (lo + i)) (m.h (lo + j))) else none

/-- `SWAP(i, j)`, in the heads and, if they are given, in the tails. -/
def SWAP (m : Arrays α β) (i j : ℕ) : Option (Arrays α β) :=
  if i < n ∧ j < n then some (m.swap (lo + i) (lo + j)) else none

/-- `multi_SWAP(i, j, r)`: exchange `r` entries from `i` on with those from `j` on. -/
def multiSwap : ℕ → ℕ → ℕ → Arrays α β → Option (Arrays α β)
  | _, _, 0, m => some m
  | i, j, r + 1, m => (SWAP lo n m i j).bind (multiSwap (i + 1) (j + 1) r)

/-- The index of the middle value at the indexes `a`, `b` and `c`. -/
def MED3 (m : Arrays α β) (a b c : ℕ) : Option ℕ := (LT C lo n m a b).bind fun ab =>
    if ab then
      (LT C lo n m b c).bind fun bc =>
        if bc then some b
        else (LT C lo n m a c).bind fun ac => if ac then some c else some a
    else
      (LT C lo n m c b).bind fun cb =>
        if cb then some b
        else (LT C lo n m a c).bind fun ac => if ac then some a else some c

/-- The inner loop of the insertion sort, from `a` downwards. -/
def insertDown : ℕ → Arrays α β → Option (Arrays α β)
  | 0, m => some m
  | a + 1, m => (LE C lo n m (a + 1) a).bind fun le =>
      if le then (SWAP lo n m (a + 1) a).bind (insertDown a) else some m

/-- The outer loop of the insertion sort, with `k` rounds to go. -/
def insertLoop : ℕ → ℕ → Arrays α β → Option (Arrays α β)
  | 0, _, m => some m
  | k + 1, b, m => (insertDown C lo n b m).bind (insertLoop k (b + 1))

/-- Insertion sort for small chunks. -/
def insertionSort (m : Arrays α β) : Option (Arrays α β) := insertLoop C lo n (n - 1) 1 m

/-- The index of the pivot. -/
def pivot (m : Arrays α β) : Option ℕ :=
  let b := n >>> 1
  if 7 < n then
    let a := 0
    let c := n - 1
    if 40 < n then
      let d := n >>> 3
      (MED3 C lo n m a (a + d) (a + 2 * d)).bind fun a =>
        (MED3 C lo n m (b - d) b (b + d)).bind fun b =>
          (MED3 C lo n m (c - 2 * d) (c - d) c).bind fun c => MED3 C lo n m a b c
    else MED3 C lo n m a b c
  else some b

/-- The arrays and the four indexes of the partition. -/
structure Scan (α β : Type*) where
  m : Arrays α β
  a : ℕ
  b : ℕ
  c : ℕ
  d : ℕ
  swap_cnt : Bool

/-- `while (b <= c && LE(b, 0))`. -/
def scanLow : ℕ → Scan α β → Option (Scan α β)
  | 0, _ => none
  | k + 1, s =>
    if s.b ≤ s.c then
      (LE C lo n s.m s.b 0).bind fun le =>
        if le then
          (EQ C lo n s.m s.b 0).bind fun eq =>
            if eq then
              (SWAP lo n s.m s.a s.b).bind fun m =>
                scanLow k { s with m := m, a := s.a + 1, b := s.b + 1, swap_cnt := true }
            else scanLow k { s with b := s.b + 1 }
        else some s
    else some s

/-- `while (b <= c && LE(0, c))`. -/
def scanHigh : ℕ → Scan α β → Option (Scan α β)
  | 0, _ => none
  | k + 1, s =>
    if s.b ≤ s.c then
      (LE C lo n s.m 0 s.c).bind fun le =>
        if le then
          (EQ C lo n s.m 0 s.c).bind fun eq =>
            if eq then
              (SWAP lo n s.m s.c s.d).bind fun m =>
                scanHigh k { s with m := m, c := s.c - 1, d := s.d - 1, swap_cnt := true }
            else scanHigh k { s with c := s.c - 1 }
        else some s
    else some s

/-- `for (;;)`: scan from both ends and exchange. -/
def scan : ℕ → Scan α β → Option (Scan α β)
  | 0, _ => none
  | k + 1, s =>
    (scanLow C lo n (n + 1) s).bind fun s =>
      (scanHigh C lo n (n + 1) s).bind fun s =>
        if s.c < s.b then some s
        else
          (SWAP lo n s.m s.b s.c).bind fun m =>
            scan k { s with m := m, b := s.b + 1, c := s.c - 1, swap_cnt := true }

/-- Move the values that are equal to the pivot to the middle. -/
def moveEqual (s : Scan α β) : Option (Arrays α β) :=
  let r := min s.a (s.b - s.a)
  (multiSwap lo n 0 (s.b - r) r s.m).bind fun m =>
    let r := min (s.d - s.c) (n - s.d - 1)
    multiSwap lo n s.b (n - r) r m

/-- Choose the pivot, move it to the start and partition. -/
def partition (m : Arrays α β) : Option (Scan α β) := (pivot C lo n m).bind fun b =>
    (if b ≠ 0 then SWAP lo n m 0 b else some m).bind fun m =>
      scan C lo n (n + 1) ⟨m, 1, 1, n - 1, n - 1, false⟩

end Qsort

open Qsort

/-- Sort the `n` entries from `lo` on.  The larger part is sorted in another round of the same call,
which makes no difference here. -/
def GDKqsort_impl (C : Comparison α) : ℕ → ℕ → ℕ → Arrays α β → Option (Arrays α β)
  | 0, _, _, _ => none
  | k + 1, lo, n, m =>
    if n < 7 then insertionSort C lo n m
    else
      (partition C lo n m).bind fun s =>
        if s.swap_cnt = false ∧ n < 1024 then insertionSort C lo n s.m
        else
          (moveEqual lo n s).bind fun m =>
            let less := s.b - s.a
            let greater := s.d - s.c
            if less < greater then
              (if 1 < less then GDKqsort_impl C k lo less m else some m).bind fun m =>
                if 1 < greater then GDKqsort_impl C k (lo + (n - greater)) greater m else some m
            else
              (if 1 < greater then GDKqsort_impl C k (lo + (n - greater)) greater m
                else some m).bind fun m =>
                if 1 < less then GDKqsort_impl C k lo less m else some m

/-- Sort `n` heads in ascending order.  The depth of the calls is at most `n`. -/
def GDKqsort (C : Comparison α) (n : ℕ) (m : Arrays α β) : Option (Arrays α β) :=
  GDKqsort_impl C (n + 1) 0 n m

/-- Sort `n` heads in descending order. -/
def GDKqsort_rev (C : Comparison α) (n : ℕ) (m : Arrays α β) : Option (Arrays α β) :=
  GDKqsort_impl C.rev (n + 1) 0 n m

namespace Qsort

variable {C : Comparison α} {lo n k a b : ℕ} {m m' : Arrays α β}

/-! ## Positions of the part -/

section

variable {i j : ℕ} (hi : i < n) (hj : j < n)

include hi hj

theorem LE_eq :
    LE C lo n m i j = some (C.le (m.h (lo + i)) (m.h (lo + j))) := if_pos ⟨hi, hj⟩

theorem LT_eq :
    LT C lo n m i j = some (C.lt (m.h (lo + i)) (m.h (lo + j))) := if_pos ⟨hi, hj⟩

theorem EQ_eq :
    EQ C lo n m i j = some (C.eq (m.h (lo + i)) (m.h (lo + j))) := if_pos ⟨hi, hj⟩

theorem SWAP_eq :
    SWAP lo n m i j = some (m.swap (lo + i) (lo + j)) := if_pos ⟨hi, hj⟩

end

theorem swap_rel (m : Arrays α β) (lo i j k : ℕ) : (m.swap (lo + i) (lo + j)).h (lo + k) =
    if k = i then m.h (lo + j) else if k = j then m.h (lo + i) else m.h (lo + k) := by
  rw [Arrays.swap_h]
  simp only [add_left_cancel_iff]

theorem swap_of_ne {i j : ℕ} (hi : k ≠ i) (hj : k ≠ j) :
    (m.swap (lo + i) (lo + j)).h (lo + k) = m.h (lo + k) := by
  rw [swap_rel, if_neg hi, if_neg hj]

theorem shuffled_swap {i j : ℕ} (hi : i < n) (hj : j < n) :
    ShuffledIn lo (lo + n) m (m.swap (lo + i) (lo + j)) :=
  shuffledIn_swap (le_add_right _ _) (Nat.add_lt_add_left hi _) (le_add_right _ _)
    (Nat.add_lt_add_left hj _)

/-- All values of the part satisfy `P`. -/
def All (P : α → Prop) (lo n : ℕ) (m : Arrays α β) : Prop := ∀ i < n, P (m.h (lo + i))

theorem All.shuffled {P : α → Prop} (hP : All P lo n m) (h : ShuffledIn lo (lo + n) m m') :
    All P lo n m' := by
  intro i hi
  refine h.forall_of (P := P) (fun k hk1 hk2 => ?_) (lo + i) (le_add_right _ _) (by omega)
  obtain ⟨j, rfl⟩ := Nat.exists_eq_add_of_le hk1
  exact hP j (by omega)

/-- The values of the part compare with each other. -/
def Fine (C : Comparison α) (lo n : ℕ) (m : Arrays α β) : Prop :=
  All (fun v => C.nan v = false) lo n m

/-- The part is in order. -/
def SortedOn (C : Comparison α) (lo n : ℕ) (m : Arrays α β) : Prop :=
  ∀ i j, i < j → j < n → C.le (m.h (lo + i)) (m.h (lo + j)) = true

theorem sortedOn_of_le_one (h : n ≤ 1) : SortedOn C lo n m := fun i j hij hj => by omega

theorem Fine.le_of_not_le (hf : Fine C lo n m) {i j : ℕ} (hi : i < n) (hj : j < n)
    (h : C.le (m.h (lo + i)) (m.h (lo + j)) = false) :
    C.le (m.h (lo + j)) (m.h (lo + i)) = true := by
  refine (C.total _ _ (hf i hi) (hf j hj)).resolve_left ?_
  rw [h]
  exact Bool.false_ne_true

/-! ## Insertion sort

The statements have two halves, as all below: what happens to any values, and that they are in order
afterwards if they compare with each other. -/

/-- While the entry at `a` moves downwards: the others up to `b` are in order, and it is not after
those it has passed. -/
structure Inserting (C : Comparison α) (lo a b : ℕ) (m : Arrays α β) : Prop where
  others : ∀ i j, i < j → j ≤ b → i ≠ a → j ≠ a → C.le (m.h (lo + i)) (m.h (lo + j)) = true
  passed : ∀ j, a < j → j ≤ b → C.le (m.h (lo + a)) (m.h (lo + j)) = true

theorem Inserting.swap (h : Inserting C lo (a + 1) b m)
    (hle : C.le (m.h (lo + (a + 1))) (m.h (lo + a)) = true) :
    Inserting C lo a b (m.swap (lo + (a + 1)) (lo + a)) := by
  refine ⟨fun i j hij hj hi hja => ?_, fun j haj hj => ?_⟩
  · rw [swap_rel, swap_rel, if_neg hi, if_neg hja]
    -- the entry that was below has moved to `a + 1`
    by_cases hi' : i = a + 1
    · rw [if_pos hi', if_neg (by omega)]
      exact h.others a j (by omega) hj (by omega) (by omega)
    · rw [if_neg hi']
      by_cases hj' : j = a + 1
      · rw [if_pos hj']
        exact h.others i a (by omega) (by omega) hi' (by omega)
      · rw [if_neg hj']
        exact h.others i j hij hj hi' hj'
  · rw [swap_rel, swap_rel, if_neg (by omega), if_pos rfl, if_neg (by omega : j ≠ a)]
    by_cases hj' : j = a + 1
    · rw [if_pos hj']
      exact hle
    · rw [if_neg hj']
      exact h.passed j (by omega) hj

theorem Inserting.sorted (hab : a ≤ b) (hbn : b < n) (hf : Fine C lo n m) (h : Inserting C lo a b m)
    (hle : ∀ a', a = a' + 1 → C.le (m.h (lo + a)) (m.h (lo + a')) = false) :
    SortedOn C lo (b + 1) m := by
  intro i j hij hj
  by_cases hi : i = a
  · rw [hi]
    exact h.passed j (hi ▸ hij) (Nat.lt_succ_iff.mp hj)
  by_cases hja : j = a
  · obtain ⟨a', rfl⟩ : ∃ a', a = a' + 1 := ⟨a - 1, by omega⟩
    have hbelow : C.le (m.h (lo + a')) (m.h (lo + (a' + 1))) = true :=
      hf.le_of_not_le (by omega) (by omega) (hle a' rfl)
    rw [hja]
    rcases lt_or_ge i a' with hlt | hge
    · exact C.trans _ _ _ (h.others i a' hlt (by omega) hi (by omega)) hbelow
    · obtain rfl : i = a' := by omega
      exact hbelow
  · exact h.others i j hij (Nat.lt_succ_iff.mp hj) hi hja

theorem insertDown_spec (hab : a ≤ b) (hbn : b < n) (m : Arrays α β) :
    ∃ m', insertDown C lo n a m = some m' ∧ ShuffledIn lo (lo + n) m m' ∧
      (Fine C lo n m → Inserting C lo a b m → SortedOn C lo (b + 1) m') := by
  induction a generalizing m with
  | zero =>
    refine ⟨m, rfl, shuffledIn_refl _ _ m, fun hf h => ?_⟩
    exact h.sorted hab hbn hf fun a' ha' => absurd ha' (by omega)
  | succ a ih =>
    rw [insertDown, LE_eq (by omega) (by omega), bind_some]
    split_ifs with hle
    · rw [SWAP_eq (by omega) (by omega)]
      have hswap : ShuffledIn lo (lo + n) m (m.swap (lo + (a + 1)) (lo + a)) :=
        shuffled_swap (by omega) (by omega)
      obtain ⟨m', hm', hsh, hsorted⟩ := ih (by omega) (m.swap (lo + (a + 1)) (lo + a))
      refine ⟨m', hm', hswap.trans hsh, fun hf h => ?_⟩
      exact hsorted (hf.shuffled hswap) (h.swap hle)
    · refine ⟨m, rfl, shuffledIn_refl _ _ m, fun hf h => ?_⟩
      refine h.sorted hab hbn hf fun a' ha' => ?_
      obtain rfl : a = a' := succ_injective ha'
      exact Bool.eq_false_of_not_eq_true hle

theorem insertLoop_spec (hb : b + k ≤ n) (m : Arrays α β) :
    ∃ m', insertLoop C lo n k b m = some m' ∧ ShuffledIn lo (lo + n) m m' ∧
      (Fine C lo n m → SortedOn C lo b m → SortedOn C lo (b + k) m') := by
  induction k generalizing b m with
  | zero => exact ⟨m, rfl, shuffledIn_refl _ _ m, fun _ h => h⟩
  | succ k ih =>
    obtain ⟨m₁, hm1, hsh1, hsorted1⟩ := @insertDown_spec _ _ C lo n b b le_rfl (by omega) m
    obtain ⟨m', hm', hsh, hsorted⟩ := ih (by omega : b + 1 + k ≤ n) m₁
    rw [insertLoop, hm1]
    refine ⟨m', hm', hsh1.trans hsh, fun hf h => ?_⟩
    rw [add_comm k 1, ← add_assoc]
    refine hsorted (hf.shuffled hsh1) (hsorted1 hf ⟨fun i j hij hj _ hjb => ?_, fun j hbj hj => ?_⟩)
    · exact h i j hij (by omega)
    · omega

/-- **The insertion sort** leaves the part in order. -/
theorem insertionSort_spec (m : Arrays α β) : ∃ m', insertionSort C lo n m = some m' ∧
    ShuffledIn lo (lo + n) m m' ∧ (Fine C lo n m → SortedOn C lo n m') := by
  rcases Nat.eq_zero_or_pos n with rfl | hn
  · exact ⟨m, rfl, shuffledIn_refl _ _ m, fun _ => sortedOn_of_le_one (zero_le 1)⟩
  · obtain ⟨m', hm', hsh, hsorted⟩ := @insertLoop_spec _ _ C lo n (n - 1) 1 (by omega) m
    refine ⟨m', hm', hsh, fun hf => ?_⟩
    have h := hsorted hf (sortedOn_of_le_one le_rfl)
    rwa [Nat.add_sub_cancel' hn] at h

/-! ## The pivot -/

theorem MED3_lt {c : ℕ} (ha : a < n) (hb : b < n) (hc : c < n) :
    ∃ k < n, MED3 C lo n m a b c = some k := by
  unfold MED3
  rw [LT_eq ha hb, LT_eq hb hc, LT_eq ha hc, LT_eq hc hb]
  simp only [bind_some]
  split_ifs
  all_goals exact ⟨_, by assumption, rfl⟩

theorem pivot_lt (hn : 0 < n) : ∃ k < n, pivot C lo n m = some k := by
  have hb : n >>> 1 < n := by
    omega
  unfold pivot
  dsimp only
  by_cases h7 : 7 < n
  · rw [if_pos h7]
    by_cases h40 : 40 < n
    · rw [if_pos h40]
      -- the nine indexes keep a distance of an eighth from each other
      obtain ⟨a, ha, ha'⟩ := @MED3_lt _ _ C lo n 0 (0 + n >>> 3) m (0 + 2 * n >>> 3)
        (by omega) (by omega) (by omega)
      obtain ⟨b, hb, hb'⟩ := @MED3_lt _ _ C lo n (n >>> 1 - n >>> 3) (n >>> 1) m
        (n >>> 1 + n >>> 3) (by omega) (by omega) (by omega)
      obtain ⟨c, hc, hc'⟩ := @MED3_lt _ _ C lo n (n - 1 - 2 * n >>> 3) (n - 1 - n >>> 3) m (n - 1)
        (by omega) (by omega) (by omega)
      rw [ha', hb', hc']
      exact MED3_lt ha hb hc
    · rw [if_neg h40]
      exact MED3_lt hn hb (by omega)
  · rw [if_neg h7]
    exact ⟨_, hb, rfl⟩

/-! ## The partition

`Bounds` holds for any values and is enough for the indexes to stay in the part.  `Regions` says
what has been found out about the values between them. -/

/-- Where the indexes of the partition are. -/
structure Bounds (n : ℕ) (s : Scan α β) : Prop where
  one_le : 1 ≤ s.a
  a_le : s.a ≤ s.b
  b_le : s.b ≤ s.c + 2
  b_le' : s.b ≤ n
  c_le : s.c ≤ s.d
  d_lt : s.d < n

/-- What lies between the indexes, if the values compare with the pivot `p`. -/
structure Regions (C : Comparison α) (lo n : ℕ) (p : α) (s : Scan α β) : Prop where
  pivot : s.m.h lo = p
  le : s.b ≤ s.c + 1
  eq_low : ∀ i < s.a, C.eq (s.m.h (lo + i)) p = true
  less : ∀ i, s.a ≤ i → i < s.b → C.lt (s.m.h (lo + i)) p = true
  greater : ∀ i, s.c < i → i ≤ s.d → C.lt p (s.m.h (lo + i)) = true
  eq_high : ∀ i, s.d < i → i < n → C.eq p (s.m.h (lo + i)) = true

/-- A step of the partition: it keeps the bounds and the regions. -/
structure Step (C : Comparison α) (lo n : ℕ) (s s' : Scan α β) : Prop where
  bounds : Bounds n s'
  shuffled : ShuffledIn lo (lo + n) s.m s'.m
  regions : ∀ p, Fine C lo n s.m → Regions C lo n p s → Regions C lo n p s'

theorem Step.refl {s : Scan α β} (h : Bounds n s) : Step C lo n s s :=
  ⟨h, shuffledIn_refl _ _ _, fun _ _ hr => hr⟩

theorem Step.trans {s₁ s₂ s₃ : Scan α β} (h1 : Step C lo n s₁ s₂) (h2 : Step C lo n s₂ s₃) :
    Step C lo n s₁ s₃ :=
  ⟨h2.bounds, h1.shuffled.trans h2.shuffled, fun p hf hr =>
    h2.regions p (hf.shuffled h1.shuffled) (h1.regions p hf hr)⟩

theorem lt_of_le_of_not_eq {a b : α} (hle : C.le a b = true) (heq : C.eq a b ≠ true) :
    C.lt a b = true := by
  refine (C.lt_iff _ _).mpr ⟨hle, ?_⟩
  by_contra hge
  exact heq ((C.eq_iff _ _).mpr ⟨hle, Bool.eq_true_of_not_eq_false hge⟩)

section Steps

variable {s : Scan α β} (hb : Bounds n s) (hbc : s.b ≤ s.c)

include hb hbc

theorem step_less (hle : C.le (s.m.h (lo + s.b)) (s.m.h (lo + 0)) = true)
    (heq : C.eq (s.m.h (lo + s.b)) (s.m.h (lo + 0)) ≠ true) :
    Step C lo n s { s with b := s.b + 1 } := by
  obtain ⟨h1, h2, h3, h4, h5, h6⟩ := hb
  refine ⟨⟨h1, h2.trans (le_succ _), ?_, ?_, h5, h6⟩, shuffledIn_refl _ _ _, fun p hf hr => ?_⟩
  · change s.b + 1 ≤ s.c + 2
    omega
  · change s.b + 1 ≤ n
    omega
  refine ⟨hr.pivot, ?_, hr.eq_low, fun i ha hi => ?_, hr.greater, hr.eq_high⟩
  · change s.b + 1 ≤ s.c + 1
    omega
  · change i < s.b + 1 at hi
    by_cases hib : i = s.b
    · rw [hib, ← hr.pivot]
      exact lt_of_le_of_not_eq hle heq
    · exact hr.less i ha (by omega)

theorem step_eq_low (heq : C.eq (s.m.h (lo + s.b)) (s.m.h (lo + 0)) = true) : Step C lo n s
      { s with m := s.m.swap (lo + s.a) (lo + s.b), a := s.a + 1, b := s.b + 1,
               swap_cnt := true } := by
  obtain ⟨h1, h2, h3, h4, h5, h6⟩ := hb
  refine ⟨⟨?_, ?_, ?_, ?_, h5, h6⟩, shuffled_swap (by omega) (by omega), fun p hf hr => ?_⟩
  · exact h1.trans (le_succ _)
  · exact succ_le_succ h2
  · change s.b + 1 ≤ s.c + 2
    omega
  · change s.b + 1 ≤ n
    omega
  · refine ⟨?_, ?_, fun i hi => ?_, fun i ha hi => ?_, fun i hc hi => ?_, fun i hd hi => ?_⟩
    · exact (Arrays.swap_h_of_ne _ (by omega) (by omega)).trans hr.pivot
    · change s.b + 1 ≤ s.c + 1
      omega
    · change i < s.a + 1 at hi
      rw [swap_rel]
      by_cases hia : i = s.a
      · rw [if_pos hia, ← hr.pivot]
        exact heq
      · rw [if_neg hia, if_neg (by omega)]
        exact hr.eq_low i (by omega)
    · change s.a + 1 ≤ i at ha
      change i < s.b + 1 at hi
      rw [swap_rel, if_neg (by omega)]
      -- the first of the smaller values has gone to the end
      by_cases hib : i = s.b
      · rw [if_pos hib]
        exact hr.less s.a le_rfl (by omega)
      · rw [if_neg hib]
        exact hr.less i (by omega) (by omega)
    · dsimp only at hc hi ⊢
      rw [swap_of_ne (by omega) (by omega)]
      exact hr.greater i hc hi
    · dsimp only at hd hi ⊢
      rw [swap_of_ne (by omega) (by omega)]
      exact hr.eq_high i hd hi

theorem step_greater (hle : C.le (s.m.h (lo + 0)) (s.m.h (lo + s.c)) = true)
    (heq : C.eq (s.m.h (lo + 0)) (s.m.h (lo + s.c)) ≠ true) :
    Step C lo n s { s with c := s.c - 1 } := by
  obtain ⟨h1, h2, h3, h4, h5, h6⟩ := hb
  refine ⟨⟨h1, h2, ?_, h4, (sub_le _ _).trans h5, h6⟩, shuffledIn_refl _ _ _, fun p hf hr => ?_⟩
  · change s.b ≤ s.c - 1 + 2
    omega
  refine ⟨hr.pivot, ?_, hr.eq_low, hr.less, fun i hc hi => ?_, hr.eq_high⟩
  · change s.b ≤ s.c - 1 + 1
    omega
  · change s.c - 1 < i at hc
    by_cases hic : i = s.c
    · rw [hic, ← hr.pivot]
      exact lt_of_le_of_not_eq hle heq
    · exact hr.greater i (by omega) hi

theorem step_eq_high (heq : C.eq (s.m.h (lo + 0)) (s.m.h (lo + s.c)) = true) : Step C lo n s
      { s with m := s.m.swap (lo + s.c) (lo + s.d), c := s.c - 1, d := s.d - 1,
               swap_cnt := true } := by
  obtain ⟨h1, h2, h3, h4, h5, h6⟩ := hb
  refine ⟨⟨h1, h2, ?_, h4, Nat.sub_le_sub_right h5 1, (Nat.sub_le _ _).trans_lt h6⟩,
    shuffled_swap (by omega) h6, fun p hf hr => ?_⟩
  · change s.b ≤ s.c - 1 + 2
    omega
  refine ⟨?_, ?_, fun i hi => ?_, fun i ha hi => ?_, fun i hc hi => ?_, fun i hd hi => ?_⟩
  · exact (Arrays.swap_h_of_ne _ (by omega) (by omega)).trans hr.pivot
  · change s.b ≤ s.c - 1 + 1
    omega
  · dsimp only at hi ⊢
    rw [swap_of_ne (by omega) (by omega)]
    exact hr.eq_low i hi
  · dsimp only at ha hi ⊢
    rw [swap_of_ne (by omega) (by omega)]
    exact hr.less i ha hi
  · change s.c - 1 < i at hc
    change i ≤ s.d - 1 at hi
    rw [swap_rel]
    -- the last of the greater values has gone to the start
    by_cases hic : i = s.c
    · rw [if_pos hic]
      exact hr.greater s.d (by omega) le_rfl
    · rw [if_neg hic, if_neg (by omega)]
      exact hr.greater i (by omega) (by omega)
  · change s.d - 1 < i at hd
    rw [swap_rel]
    by_cases hid : i = s.d
    · by_cases hcd : s.d = s.c
      · rw [if_pos (hid.trans hcd), hcd, ← hr.pivot]
        exact heq
      · rw [if_neg (by omega), if_pos hid, ← hr.pivot]
        exact heq
    · rw [if_neg (by omega), if_neg hid]
      exact hr.eq_high i (by omega) hi

end Steps

section

variable {s : Scan α β} (hb : Bounds n s)

include hb

/-- The scan from below ends in front of a value that is not at most the pivot. -/
theorem scanLow_spec (hk : s.c + 1 - s.b < k) :
    ∃ s', scanLow C lo n k s = some s' ∧ Step C lo n s s' ∧ s'.c = s.c ∧ s.b ≤ s'.b ∧
      (s'.b ≤ s'.c → C.le (s'.m.h (lo + s'.b)) (s'.m.h (lo + 0)) = false) := by
  induction k generalizing s with
  | zero => exact absurd hk (not_lt_zero _)
  | succ k ih =>
    have ⟨h1, h2, h3, h4, h5, h6⟩ := hb
    rw [scanLow]
    split_ifs with hbc
    · rw [LE_eq (by omega) (by omega), bind_some]
      split_ifs with hle
      · rw [EQ_eq (by omega) (by omega), bind_some]
        split_ifs with heq
        · rw [SWAP_eq (by omega) (by omega)]
          have hstep := step_eq_low hb hbc heq
          obtain ⟨s', hs', hst, hc, hle', hend⟩ := ih hstep.bounds (by dsimp only; omega)
          exact ⟨s', hs', hstep.trans hst, hc, (le_succ _).trans hle', hend⟩
        · have hstep := step_less hb hbc hle heq
          obtain ⟨s', hs', hst, hc, hle', hend⟩ := ih hstep.bounds (by dsimp only; omega)
          exact ⟨s', hs', hstep.trans hst, hc, (le_succ _).trans hle', hend⟩
      · exact ⟨s, rfl, .refl hb, rfl, le_rfl, fun _ => Bool.eq_false_of_not_eq_true hle⟩
    · exact ⟨s, rfl, .refl hb, rfl, le_rfl, fun h => absurd h hbc⟩

/-- The scan from above ends behind a value that is not at least the pivot.  Values up to there
are not touched. -/
theorem scanHigh_spec (hk : s.c + 1 - s.b < k) :
    ∃ s', scanHigh C lo n k s = some s' ∧ Step C lo n s s' ∧ s'.b = s.b ∧ s'.c ≤ s.c ∧
      (∀ i ≤ s'.c, s'.m.h (lo + i) = s.m.h (lo + i)) ∧
      (s'.b ≤ s'.c → C.le (s'.m.h (lo + 0)) (s'.m.h (lo + s'.c)) = false) := by
  induction k generalizing s with
  | zero => exact absurd hk (not_lt_zero _)
  | succ k ih =>
    have ⟨h1, h2, h3, h4, h5, h6⟩ := hb
    rw [scanHigh]
    split_ifs with hbc
    · rw [LE_eq (by omega) (by omega), bind_some]
      split_ifs with hle
      · rw [EQ_eq (by omega) (by omega), bind_some]
        split_ifs with heq
        -- a value equal to the pivot goes to the end of the array
        · rw [SWAP_eq (by omega) (by omega)]
          have hstep := step_eq_high hb hbc heq
          obtain ⟨s', hs', hst, hbs, hle', hkeep, hend⟩ := ih hstep.bounds (by dsimp only; omega)
          dsimp only at hle' hkeep
          refine ⟨s', hs', hstep.trans hst, hbs, hle'.trans (sub_le _ _), fun i hi => ?_, hend⟩
          rw [hkeep i hi, swap_of_ne (by omega) (by omega)]
        -- a greater value stays
        · have hstep := step_greater hb hbc hle heq
          obtain ⟨s', hs', hst, hbs, hle', hkeep, hend⟩ := ih hstep.bounds (by dsimp only; omega)
          exact ⟨s', hs', hstep.trans hst, hbs, hle'.trans (sub_le _ _), hkeep, hend⟩
      · exact ⟨s, rfl, .refl hb, rfl, le_rfl, fun _ _ => rfl,
          fun _ => Bool.eq_false_of_not_eq_true hle⟩
    · exact ⟨s, rfl, .refl hb, rfl, le_rfl, fun _ _ => rfl, fun h => absurd h hbc⟩

/-- The exchange of a value that is not at most the pivot with one that is not at least the
pivot. -/
theorem step_exchange (hbc : s.b ≤ s.c)
    (hlow : C.le (s.m.h (lo + s.b)) (s.m.h (lo + 0)) = false)
    (hhigh : C.le (s.m.h (lo + 0)) (s.m.h (lo + s.c)) = false) :
    Step C lo n s
      { s with m := s.m.swap (lo + s.b) (lo + s.c), b := s.b + 1, c := s.c - 1,
               swap_cnt := true } := by
  obtain ⟨h1, h2, h3, h4, h5, h6⟩ := hb
  refine ⟨⟨h1, h2.trans (le_succ _), ?_, ?_, (sub_le _ _).trans h5, h6⟩,
    shuffled_swap (by omega) (by omega), fun p hf hr => ?_⟩
  · change s.b + 1 ≤ s.c - 1 + 2
    omega
  · change s.b + 1 ≤ n
    omega
  have hge := hf.le_of_not_le (by omega) (by omega) hlow
  have hle := hf.le_of_not_le (by omega) (by omega) hhigh
  -- a value that compares with the pivot cannot be on both sides of it
  have hne : s.b ≠ s.c := by
    intro he
    rw [he, hle] at hlow
    exact absurd hlow (by decide)
  have hpivot : s.m.h (lo + 0) = p := hr.pivot
  rw [hpivot] at hlow hhigh hge hle
  refine ⟨?_, ?_, fun i hi => ?_, fun i ha hi => ?_, fun i hc hi => ?_, fun i hd hi => ?_⟩
  · exact (Arrays.swap_h_of_ne _ (by omega) (by omega)).trans hr.pivot
  · change s.b + 1 ≤ s.c - 1 + 1
    omega
  · dsimp only at hi ⊢
    rw [swap_of_ne (by omega) (by omega)]
    exact hr.eq_low i hi
  · change i < s.b + 1 at hi
    rw [swap_rel]
    by_cases hib : i = s.b
    · rw [if_pos hib]
      exact (C.lt_iff _ _).mpr ⟨hle, hhigh⟩
    · rw [if_neg hib, if_neg (by omega)]
      exact hr.less i ha (by omega)
  · change s.c - 1 < i at hc
    rw [swap_rel, if_neg (by omega)]
    by_cases hic : i = s.c
    · rw [if_pos hic]
      exact (C.lt_iff _ _).mpr ⟨hge, hlow⟩
    · rw [if_neg hic]
      exact hr.greater i (by omega) hi
  · dsimp only at hd hi ⊢
    rw [swap_of_ne (by omega) (by omega)]
    exact hr.eq_high i hd hi

theorem scan_spec (hk : s.c + 1 - s.b < k) :
    ∃ s', scan C lo n k s = some s' ∧ Step C lo n s s' ∧ s'.c < s'.b := by
  induction k generalizing s with
  | zero => exact absurd hk (not_lt_zero _)
  | succ k ih =>
    have hn : s.c + 1 - s.b < n + 1 := by
      have := hb.c_le
      have := hb.d_lt
      omega
    obtain ⟨s₁, hs1, hst1, hc1, hb1, hlow⟩ := @scanLow_spec _ _ C lo n (n + 1) s hb hn
    obtain ⟨s₂, hs2, hst2, hb2, hc2, hkeep, hhigh⟩ :=
      @scanHigh_spec _ _ C lo n (n + 1) s₁ hst1.bounds (by omega)
    rw [scan, hs1, bind_some, hs2, bind_some]
    have hst := hst1.trans hst2
    by_cases hend : s₂.c < s₂.b
    · rw [if_pos hend]
      exact ⟨s₂, rfl, hst, hend⟩
    have hbc : s₂.b ≤ s₂.c := not_lt.mp hend
    have ⟨h1, h2, h3, h4, h5, h6⟩ := hst2.bounds
    rw [if_neg hend, SWAP_eq (by omega) (by omega)]
    -- the scan from above has not touched the value the one from below stopped at
    have hlow' : C.le (s₂.m.h (lo + s₂.b)) (s₂.m.h (lo + 0)) = false := by
      rw [hkeep s₂.b hbc, hkeep 0 (zero_le _), hb2]
      exact hlow (by omega)
    have hstep := step_exchange hst2.bounds hbc hlow' (hhigh hbc)
    obtain ⟨s', hs', hst', hend'⟩ := ih hstep.bounds (by dsimp only; omega)
    exact ⟨s', hs', hst.trans (hstep.trans hst'), hend'⟩

end

/-- **The partition** ends with all values in one of the four regions. -/
theorem partition_spec (hn : 7 ≤ n) (m : Arrays α β) : ∃ s, partition C lo n m = some s ∧
    Bounds n s ∧ s.c < s.b ∧ ShuffledIn lo (lo + n) m s.m ∧
    (Fine C lo n m → ∃ p, Regions C lo n p s) := by
  obtain ⟨b, hb, hpivot⟩ := @pivot_lt _ _ C lo n m (by omega)
  -- the exchange that moves the pivot to the start
  obtain ⟨m₁, hm1, hsh1⟩ : ∃ m₁, (if b ≠ 0 then SWAP lo n m 0 b else some m) = some m₁ ∧
      ShuffledIn lo (lo + n) m m₁ := by
    split_ifs
    · rw [SWAP_eq (by omega) hb]
      exact ⟨_, rfl, shuffled_swap (by omega) hb⟩
    · exact ⟨m, rfl, shuffledIn_refl _ _ m⟩
  have hbounds : Bounds n (⟨m₁, 1, 1, n - 1, n - 1, false⟩ : Scan α β) :=
    ⟨le_rfl, le_rfl, by dsimp only; omega, by dsimp only; omega, le_rfl, by dsimp only; omega⟩
  obtain ⟨s, hs, hst, hend⟩ := @scan_spec _ _ C lo n (n + 1) _ hbounds (by dsimp only; omega)
  refine ⟨s, ?_, hst.bounds, hend, hsh1.trans hst.shuffled, fun hf => ?_⟩
  · rw [partition, hpivot, bind_some, hm1, bind_some, hs]
  have hf1 : Fine C lo n m₁ := hf.shuffled hsh1
  refine ⟨m₁.h lo, hst.regions (m₁.h lo) hf1 ⟨rfl, ?_, fun i hi => ?_, fun i ha hi => ?_,
    fun i hc hi => ?_, fun i hd hi => ?_⟩⟩
  · dsimp only
    omega
  · -- the pivot is equal to itself
    dsimp only at hi ⊢
    obtain rfl : i = 0 := by omega
    have hnan := hf1 0 (by omega)
    have hrefl : C.le (m₁.h lo) (m₁.h lo) = true := (C.total _ _ hnan hnan).elim id id
    exact (C.eq_iff _ _).mpr ⟨hrefl, hrefl⟩
  · dsimp only at ha hi
    omega
  · dsimp only at hc hi
    omega
  · dsimp only at hd hi
    omega

/-! ## Moving the values equal to the pivot -/

/-- Exchanging two blocks: the blocks that do not overlap change places. -/
theorem multiSwap_spec {i j r : ℕ} (hi : i + r ≤ n) (hj : j + r ≤ n) (m : Arrays α β) :
    ∃ m', multiSwap lo n i j r m = some m' ∧ ShuffledIn lo (lo + n) m m' ∧
      (i + r ≤ j → ∀ k, m'.h (lo + k) =
        if i ≤ k ∧ k < i + r then m.h (lo + (k - i + j))
        else if j ≤ k ∧ k < j + r then m.h (lo + (k - j + i)) else m.h (lo + k)) := by
  induction r generalizing i j m with
  | zero =>
    refine ⟨m, rfl, shuffledIn_refl _ _ m, fun _ k => ?_⟩
    rw [if_neg (by omega), if_neg (by omega)]
  | succ r ih =>
    have hi' : i < n := by omega
    have hj' : j < n := by omega
    rw [multiSwap, SWAP_eq hi' hj']
    obtain ⟨m', hm', hsh, hval⟩ := @ih (i + 1) (j + 1) (by omega) (by omega)
      (m.swap (lo + i) (lo + j))
    refine ⟨m', hm', (shuffled_swap hi' hj').trans hsh, fun hij k => ?_⟩
    rw [hval (by omega) k]
    -- the first entries of the blocks, the other entries, and what is outside
    by_cases hki : k = i
    · subst hki
      rw [if_neg (by omega), if_neg (by omega), swap_rel, if_pos rfl, if_pos (by omega),
        Nat.sub_self, Nat.zero_add]
    by_cases hkj : k = j
    · subst hkj
      rw [if_neg (by omega), if_neg (by omega), swap_rel, if_neg hki, if_pos rfl,
        if_neg (by omega), if_pos (by omega), Nat.sub_self, Nat.zero_add]
    by_cases h1 : i ≤ k ∧ k < i + (r + 1)
    · rw [if_pos (by omega), if_pos h1, swap_of_ne (by omega) (by omega)]
      congr 2
      omega
    · rw [if_neg (by omega), if_neg h1]
      by_cases h2 : j ≤ k ∧ k < j + (r + 1)
      · rw [if_pos (by omega), if_pos h2, swap_of_ne (by omega) (by omega)]
        congr 2
        omega
      · rw [if_neg (by omega), if_neg h2, swap_of_ne hki hkj]

/-- `l` values less than the pivot, those equal to it and `g` greater ones, one after the other. -/
structure Parts (C : Comparison α) (lo n l g : ℕ) (p : α) (m : Arrays α β) : Prop where
  le : l + g ≤ n
  less : ∀ i < l, C.lt (m.h (lo + i)) p = true
  equal : ∀ i, l ≤ i → i < n - g → C.eq (m.h (lo + i)) p = true
  greater : ∀ i, n - g ≤ i → i < n → C.lt p (m.h (lo + i)) = true

theorem eq_symm {a b : α} (h : C.eq a b = true) : C.eq b a = true :=
  (C.eq_iff _ _).mpr ((C.eq_iff _ _).mp h).symm

/-- **The values equal to the pivot are moved to the middle.** -/
theorem moveEqual_spec {s : Scan α β} (hb : Bounds n s) (hend : s.c < s.b) :
    ∃ m', moveEqual lo n s = some m' ∧ ShuffledIn lo (lo + n) s.m m' ∧
      ∀ p, Regions C lo n p s → Parts C lo n (s.b - s.a) (s.d - s.c) p m' := by
  obtain ⟨h1, h2, h3, h4, h5, h6⟩ := hb
  unfold moveEqual
  dsimp only
  generalize hr1 : min s.a (s.b - s.a) = r₁
  generalize hr2 : min (s.d - s.c) (n - s.d - 1) = r₂
  obtain ⟨m₁, hm1, hsh1, hval1⟩ :=
    @multiSwap_spec _ _ lo n 0 (s.b - r₁) r₁ (by omega) (by omega) s.m
  -- if there is anything to move behind, the indexes have not met at the end
  obtain ⟨m₂, hm2, hsh2, hval2⟩ := @multiSwap_spec _ _ lo n s.b (n - r₂) r₂ (by omega) (by omega) m₁
  refine ⟨m₂, ?_, hsh1.trans hsh2, fun p hr => ?_⟩
  · rw [hm1, bind_some, hm2]
  have hle := hr.le
  have hval1 := hval1 (by omega)
  have hval2 := hval2 (by omega)
  -- what the first exchange leaves below `b`, and that it leaves the rest alone
  have hless : ∀ i < s.b - s.a, C.lt (m₁.h (lo + i)) p = true := by
    intro i hi
    rw [hval1]
    by_cases h : i < r₁
    · rw [if_pos (by omega)]
      exact hr.less _ (by omega) (by omega)
    · rw [if_neg (by omega), if_neg (by omega)]
      exact hr.less i (by omega) (by omega)
  have hequal : ∀ i, s.b - s.a ≤ i → i < s.b → C.eq (m₁.h (lo + i)) p = true := by
    intro i hi hib
    rw [hval1, if_neg (by omega)]
    by_cases h : s.b - r₁ ≤ i
    · rw [if_pos (by omega)]
      exact hr.eq_low _ (by omega)
    · rw [if_neg (by omega)]
      exact hr.eq_low i (by omega)
  have hrest : ∀ i, s.b ≤ i → m₁.h (lo + i) = s.m.h (lo + i) := by
    intro i hi
    rw [hval1, if_neg (by omega), if_neg (by omega)]
  have hkept : ∀ i < s.b, m₂.h (lo + i) = m₁.h (lo + i) := by
    intro i hi
    rw [hval2, if_neg (by omega), if_neg (by omega)]
  refine ⟨by omega, fun i hi => ?_, fun i hi hin => ?_, fun i hi hin => ?_⟩
  · rw [hkept i (by omega)]
    exact hless i hi
  · by_cases hib : i < s.b
    · rw [hkept i hib]
      exact hequal i hi hib
    · rw [hval2]
      by_cases h : i < s.b + r₂
      · rw [if_pos (by omega), hrest _ (by omega)]
        exact eq_symm (hr.eq_high _ (by omega) (by omega))
      · rw [if_neg (by omega), if_neg (by omega), hrest i (by omega)]
        exact eq_symm (hr.eq_high i (by omega) (by omega))
  · rw [hval2, if_neg (by omega)]
    by_cases h : n - r₂ ≤ i
    · rw [if_pos (by omega), hrest _ (by omega)]
      exact hr.greater _ (by omega) (by omega)
    · rw [if_neg (by omega), hrest i (by omega)]
      exact hr.greater i (by omega) (by omega)

variable {l g : ℕ} {p : α}

/-! ## Both parts

A part is sorted without touching the other one or the values equal to the pivot, so the two can be
sorted in either order. -/

theorem Parts.shuffled_less (h : Parts C lo n l g p m) (hsh : ShuffledIn lo (lo + l) m m') :
    Parts C lo n l g p m' := by
  have hle := h.le
  have hless : All (fun v => C.lt v p = true) lo l m := h.less
  have hout : ∀ i, l ≤ i → m'.h (lo + i) = m.h (lo + i) := fun i hi => hsh.outside (by omega)
  refine ⟨hle, hless.shuffled hsh, fun i hi hin => ?_, fun i hi hin => ?_⟩
  · rw [hout i hi]
    exact h.equal i hi hin
  · rw [hout i (by omega)]
    exact h.greater i hi hin

theorem Parts.shuffled_greater (h : Parts C lo n l g p m)
    (hsh : ShuffledIn (lo + (n - g)) (lo + n) m m') : Parts C lo n l g p m' := by
  have hle := h.le
  have hout : ∀ i, i < n - g → m'.h (lo + i) = m.h (lo + i) := fun i hi => hsh.outside (by omega)
  refine ⟨hle, fun i hi => ?_, fun i hi hin => ?_, fun i hi hin => ?_⟩
  · rw [hout i (by omega)]
    exact h.less i hi
  · rw [hout i hin]
    exact h.equal i hi hin
  · refine hsh.forall_of (P := fun v => C.lt p v = true) (fun k hk1 hk2 => ?_) (lo + i) (by omega)
      (by omega)
    obtain ⟨j, rfl⟩ := Nat.exists_eq_add_of_le (Nat.le_of_add_right_le hk1)
    exact h.greater j (by omega) (by omega)

/-- Parts that are in order make up an array in order. -/
theorem Parts.sorted (h : Parts C lo n l g p m) (hless : SortedOn C lo l m)
    (hgreater : SortedOn C (lo + (n - g)) g m) : SortedOn C lo n m := by
  -- up to the greater values all are at most the pivot, from the smaller ones on at least
  have hlow : ∀ i < n - g, C.le (m.h (lo + i)) p = true := by
    intro i hi
    rcases lt_or_ge i l with hil | hil
    · exact ((C.lt_iff _ _).mp (h.less i hil)).1
    · exact ((C.eq_iff _ _).mp (h.equal i hil hi)).1
  have hhigh : ∀ i, l ≤ i → i < n → C.le p (m.h (lo + i)) = true := by
    intro i hi hin
    rcases lt_or_ge i (n - g) with hig | hig
    · exact ((C.eq_iff _ _).mp (h.equal i hi hig)).2
    · exact ((C.lt_iff _ _).mp (h.greater i hig hin)).1
  intro i j hij hj
  by_cases hjl : j < l
  · exact hless i j hij hjl
  · by_cases hig : n - g ≤ i
    · have hs := hgreater (i - (n - g)) (j - (n - g)) (by omega) (by omega)
      rwa [Nat.add_assoc, Nat.add_assoc, Nat.add_sub_cancel' hig,
        Nat.add_sub_cancel' (hig.trans hij.le)] at hs
    · exact C.trans _ _ _ (hlow i (by omega)) (hhigh j (by omega) hj)

theorem SortedOn.congr (h : SortedOn C lo n m) (heq : ∀ i < n, m'.h (lo + i) = m.h (lo + i)) :
    SortedOn C lo n m' := by
  intro i j hij hj
  rw [heq i (hij.trans hj), heq j hj]
  exact h i j hij hj

/-- What a call does, for all parts with fewer than `k` values. -/
def Sorts (C : Comparison α) (β : Type*) (k : ℕ) : Prop :=
  ∀ (lo n : ℕ) (m : Arrays α β), n < k → ∃ m', GDKqsort_impl C k lo n m = some m' ∧
    ShuffledIn lo (lo + n) m m' ∧ (Fine C lo n m → SortedOn C lo n m')

/-- A part that has one value at most is not sorted. -/
theorem Sorts.part (hs : Sorts C β k) (lo r : ℕ) (hr : r < k) (m : Arrays α β) :
    ∃ m', (if 1 < r then GDKqsort_impl C k lo r m else some m) = some m' ∧
      ShuffledIn lo (lo + r) m m' ∧ (Fine C lo r m → SortedOn C lo r m') := by
  split_ifs with h
  · exact hs lo r m hr
  · exact ⟨m, rfl, shuffledIn_refl _ _ m, fun _ => sortedOn_of_le_one (not_lt.mp h)⟩

/-- Two parts that do not overlap are sorted one after the other. -/
theorem Sorts.two {a r b q : ℕ} (hs : Sorts C β k) (hr : r < k) (hq : q < k)
    (hab : a + r ≤ b ∨ b + q ≤ a) (m : Arrays α β) :
    ∃ m₁ m₂, ((if 1 < r then GDKqsort_impl C k a r m else some m).bind fun m =>
        if 1 < q then GDKqsort_impl C k b q m else some m) = some m₂ ∧
      ShuffledIn a (a + r) m m₁ ∧ ShuffledIn b (b + q) m₁ m₂ ∧
      (Fine C a r m → Fine C b q m → SortedOn C a r m₂ ∧ SortedOn C b q m₂) := by
  obtain ⟨m₁, hm1, hsh1, hsort1⟩ := hs.part a r hr m
  obtain ⟨m₂, hm2, hsh2, hsort2⟩ := hs.part b q hq m₁
  refine ⟨m₁, m₂, by rw [hm1, bind_some, hm2], hsh1, hsh2, fun hfa hfb => ⟨?_, ?_⟩⟩
  · exact (hsort1 hfa).congr fun i hi => hsh2.outside (by omega)
  · refine hsort2 fun i hi => ?_
    rw [hsh1.outside (by omega)]
    exact hfb i hi

/-- Sort both parts, the one with fewer values first. -/
theorem Sorts.both (hs : Sorts C β k) (hlg : l + g ≤ n) (hlk : l < k) (hgk : g < k) (m : Arrays α β)
    :
    ∃ m', (if l < g then
        (if 1 < l then GDKqsort_impl C k lo l m else some m).bind fun m =>
          if 1 < g then GDKqsort_impl C k (lo + (n - g)) g m else some m
      else
        (if 1 < g then GDKqsort_impl C k (lo + (n - g)) g m else some m).bind fun m =>
          if 1 < l then GDKqsort_impl C k lo l m else some m) = some m' ∧
      ShuffledIn lo (lo + n) m m' ∧
      (Fine C lo n m → ∀ p, Parts C lo n l g p m → SortedOn C lo n m') := by
  have hend : lo + (n - g) + g = lo + n := by omega
  have hfine : Fine C lo n m → Fine C lo l m ∧ Fine C (lo + (n - g)) g m := by
    refine fun hf => ⟨fun i hi => hf i (by omega), fun i hi => ?_⟩
    rw [add_assoc]
    exact hf (n - g + i) (by omega)
  by_cases h : l < g
  · obtain ⟨m₁, m₂, hm, hsh1, hsh2, hsort⟩ := hs.two hlk hgk
      (.inl (by omega : lo + l ≤ lo + (n - g))) m
    rw [hend] at hsh2
    refine ⟨m₂, (if_pos h).trans hm, (hsh1.mono le_rfl (by omega)).trans
      (hsh2.mono (le_add_right _ _) le_rfl), fun hf p hp => ?_⟩
    obtain ⟨hs1, hs2⟩ := hsort (hfine hf).1 (hfine hf).2
    exact ((hp.shuffled_less hsh1).shuffled_greater hsh2).sorted hs1 hs2
  · obtain ⟨m₁, m₂, hm, hsh1, hsh2, hsort⟩ := hs.two hgk hlk
      (.inr (by omega : lo + l ≤ lo + (n - g))) m
    rw [hend] at hsh1
    refine ⟨m₂, (if_neg h).trans hm, (hsh1.mono (le_add_right _ _) le_rfl).trans
      (hsh2.mono le_rfl (by omega)), fun hf p hp => ?_⟩
    obtain ⟨hs2, hs1⟩ := hsort (hfine hf).2 (hfine hf).1
    exact ((hp.shuffled_greater hsh1).shuffled_less hsh2).sorted hs1 hs2

/-! ## All calls -/

/-- **A call ends, shuffles its part of the array, and sorts it if the values compare.**  By
induction on the depth of the calls. -/
theorem sorts (C : Comparison α) (β : Type*) (k : ℕ) : Sorts C β k := by
  induction k with
  | zero => exact fun lo n m hn => absurd hn (not_lt_zero n)
  | succ k ih =>
    intro lo n m hn
    rw [GDKqsort_impl]
    split_ifs with h7
    · exact insertionSort_spec m
    obtain ⟨s, hs, hb, hend, hsh, hregions⟩ := @partition_spec _ _ C lo n (not_lt.mp h7) m
    rw [hs, bind_some]
    split_ifs with hswap
    -- nothing was exchanged, so the values may be almost sorted
    · obtain ⟨m', hm', hsh', hsorted⟩ := @insertionSort_spec _ _ C lo n s.m
      exact ⟨m', hm', hsh.trans hsh', fun hf => hsorted (hf.shuffled hsh)⟩
    obtain ⟨m₁, hm1, hsh1, hparts⟩ := @moveEqual_spec _ _ C lo n s hb hend
    obtain ⟨h1, h2, h3, h4, h5, h6⟩ := hb
    rw [hm1]
    have hsh' := hsh.trans hsh1
    obtain ⟨m', hm', hsh2, hsorted⟩ := @Sorts.both _ _ C lo n k (s.b - s.a) (s.d - s.c) ih
      (by omega) (by omega) (by omega) m₁
    refine ⟨m', hm', hsh'.trans hsh2, fun hf => ?_⟩
    obtain ⟨p, hp⟩ := hregions hf
    exact hsorted (hf.shuffled hsh') p (hparts p hp)

end Qsort

/-! ## The interface functions -/

section Interface

variable (C : Comparison α) (n : ℕ) (m : Arrays α β)

/-- The result is the array in order: the computation ends without leaving the array, its entries
are those of `m` with every tail at its head, and each value is at most those behind it. -/
def IsSorting (res : Option (Arrays α β)) : Prop :=
  ∃ m', res = some m' ∧ ShuffledIn 0 n m m' ∧ Qsort.SortedOn C 0 n m'

/-- **Both sorts end and shuffle the array**, whatever is in it: they read and write no entry that
is outside, and every tail goes with its head.  Values that compare with nothing may be there. -/
theorem GDKqsort_shuffles : (∃ m', GDKqsort C n m = some m' ∧ ShuffledIn 0 n m m') ∧
    ∃ m', GDKqsort_rev C n m = some m' ∧ ShuffledIn 0 n m m' := by
  obtain ⟨m₁, h1, hsh1, -⟩ := sorts C β (n + 1) 0 n m (lt_succ_self n)
  obtain ⟨m₂, h2, hsh2, -⟩ := sorts C.rev β (n + 1) 0 n m (lt_succ_self n)
  rw [zero_add] at hsh1 hsh2
  exact ⟨⟨m₁, h1, hsh1⟩, ⟨m₂, h2, hsh2⟩⟩

variable {C n m}

/-- An array in order has no value that compares with nothing, unless it is the only one. -/
theorem IsSorting.fine {res : Option (Arrays α β)} (h : IsSorting C n m res) (hn : ¬ n ≤ 1) :
    Fine C 0 n m := by
  obtain ⟨m', -, hsh, hsorted⟩ := h
  have hfine : Fine C 0 n m' := by
    intro i hi
    by_contra hnan
    rw [Bool.not_eq_false] at hnan
    -- it has a neighbour on one side
    rcases Nat.eq_zero_or_pos i with rfl | hpos
    · have hle := hsorted 0 1 zero_lt_one (by omega)
      rw [C.nan_false _ _ (.inl hnan)] at hle
      exact Bool.false_ne_true hle
    · have hle := hsorted (i - 1) i (by omega) hi
      rw [C.nan_false _ _ (.inr hnan)] at hle
      exact Bool.false_ne_true hle
  have hsh' : ShuffledIn 0 (0 + n) m' m := by
    rw [zero_add]
    exact hsh.symm
  exact hfine.shuffled hsh'

/-- **When the array is sorted**: it has one value at most, or all values compare with each
other. -/
theorem isSorting_iff (C : Comparison α) (n : ℕ) (m : Arrays α β) :
    (IsSorting C n m (GDKqsort C n m) ∧ IsSorting C.rev n m (GDKqsort_rev C n m)) ↔
      n ≤ 1 ∨ ∀ i < n, C.nan (m.h i) = false := by
  have hfine : Fine C 0 n m ↔ ∀ i < n, C.nan (m.h i) = false := by
    unfold Fine All
    simp only [zero_add]
  constructor
  -- a list of two or more values that is sorted has no NaN
  · rintro ⟨h, -⟩
    by_cases hn : n ≤ 1
    · exact .inl hn
    · exact .inr (hfine.mp (h.fine hn))
  intro h
  obtain ⟨m₁, h₁, hsh₁, hs₁⟩ := sorts C β (n + 1) 0 n m (lt_succ_self n)
  obtain ⟨m₂, h₂, hsh₂, hs₂⟩ := sorts C.rev β (n + 1) 0 n m (lt_succ_self n)
  rw [zero_add] at hsh₁ hsh₂
  refine ⟨⟨m₁, h₁, hsh₁, ?_⟩, ⟨m₂, h₂, hsh₂, ?_⟩⟩
  · rcases h with hn | hf
    · exact sortedOn_of_le_one hn
    · exact hs₁ (hfine.mpr hf)
  · rcases h with hn | hf
    · exact sortedOn_of_le_one hn
    · exact hs₂ (hfine.mpr hf)

end Interface

/-- The numbers 2.0, NaN and 1.0, without tails. -/
def twoNanOne : Arrays (Option DblVal) ℕ where
  h i := [some (DblVal.ofBits 0x4000000000000000), none,
    some (DblVal.ofBits 0x3FF0000000000000)].getD i none
  t := none

/-- Of 2.0, NaN and 1.0 no value is found to be less than the one before, and they are left as they
are: 2.0 comes before 1.0. -/
theorem GDKqsort_twoNanOne : GDKqsort Comparison.ofDbl 3 twoNanOne = some twoNanOne ∧
    Comparison.ofDbl.lt (twoNanOne.h 2) (twoNanOne.h 0) = true ∧
    ¬ IsSorting Comparison.ofDbl 3 twoNanOne (GDKqsort Comparison.ofDbl 3 twoNanOne) := by
  have hres : GDKqsort Comparison.ofDbl 3 twoNanOne = some twoNanOne := by rfl
  have hlt : Comparison.ofDbl.lt (twoNanOne.h 2) (twoNanOne.h 0) = true := by decide
  refine ⟨hres, hlt, ?_⟩
  rintro ⟨m', hm', -, hsorted⟩
  rw [hres, some_inj] at hm'
  subst hm'
  have hle := hsorted 0 2 (by decide) (by decide)
  exact absurd hle (by decide)

end MonetInR.Gdk
