import Mathlib.Data.List.Perm.Subperm
import Mathlib.Algebra.Group.Int.Defs
import Mathlib.Data.Quot

/-!
# Matching lists

`list_match` is to find out whether two lists are the same up to the order of their elements.  It
has a bit for each place of the second list that is taken, but sets none (`chk &= 1<<pos`): an
element of the second list may be the partner of several elements of the first one.

## Main definitions

* `Comparing.list_match`
* `Comparing.Same`: the lists are equal as multisets of classes

## Main results

* `Comparing.list_match_iff`: the answer is right exactly if no class has too many elements in the
  first list
-/

namespace MonetInR.Sql

open List

/-- A comparison that gives 0 for equivalent elements. -/
structure Comparing (α : Type*) where
  cmp : α → α → ℤ
  equiv : Equivalence fun x y => cmp x y = 0

namespace Comparing

variable {α : Type*} (c : Comparing α) (shl : ℕ → BitVec 32)

/-- The inner loop; `shl pos` is `1<<pos`, which C leaves undefined from 32 on. -/
def find (x : α) : List α → ℕ → BitVec 32 → Bool → BitVec 32 × Bool
  | [], _, chk, fnd => (chk, fnd)
  | y :: l, pos, chk, fnd =>
    if chk &&& shl pos = 0#32 ∧ c.cmp x y = 0 then find x l (pos + 1) (chk &&& shl pos) true
    else find x l (pos + 1) chk fnd

def findAll (l2 : List α) : List α → BitVec 32 → ℤ
  | [], _ => 0
  | x :: l1, chk =>
    let (chk, fnd) := c.find shl x l2 0 chk false
    if fnd then findAll l2 l1 chk else -1

/-- The lists are given by pointers, which may be `NULL`. -/
def list_match (heap : ℕ → List α) (l1 l2 : Option ℕ) : ℤ :=
  if l1 = l2 then 0
  else match l1, l2 with
    | some p, some q =>
      if (heap p).length ≠ (heap q).length then -1 else c.findAll shl (heap q) (heap p) 0#32
    | _, _ => -1

/-- The class of each element. -/
def classes (l : List α) : List (Quotient ⟨_, c.equiv⟩) := l.map (Quotient.mk _)

/-- **Equality as multisets**, modulo the comparison. -/
def Same (l1 l2 : List α) : Prop := c.classes l1 ~ c.classes l2

variable {c shl} {l1 l2 : List α} (x : α) (l : List α)

/-- No bit is ever set. -/
theorem find_eq (pos : ℕ) (fnd : Bool) :
    c.find shl x l pos 0#32 fnd = (0#32, fnd || l.any fun y => c.cmp x y = 0) := by
  induction l generalizing pos fnd with
  | nil => simp [find]
  | cons y l ih =>
    rw [find, BitVec.zero_and]
    by_cases h : c.cmp x y = 0 <;> simp only [h, ih] <;> simp [h]

theorem mem_classes : l.any (fun y => c.cmp x y = 0) = true ↔ Quotient.mk _ x ∈ c.classes l := by
  simp only [any_eq_true, decide_eq_true_eq, classes, mem_map]
  refine exists_congr fun y => and_congr_right fun _ => ?_
  rw [eq_comm (a := Quotient.mk _ y)]
  exact (Quotient.eq (r := ⟨_, c.equiv⟩)).symm

open Classical in
theorem findAll_eq :
    c.findAll shl l2 l1 0#32 = if c.classes l1 ⊆ c.classes l2 then 0 else -1 := by
  induction l1 with
  | nil => simp [findAll, classes]
  | cons x l1 ih =>
    have hcons : c.classes (x :: l1) ⊆ c.classes l2 ↔
        Quotient.mk _ x ∈ c.classes l2 ∧ c.classes l1 ⊆ c.classes l2 := cons_subset
    simp only [findAll, find_eq, Bool.false_or, mem_classes, ih, hcons, ite_and]

open Classical in
/-- **The answer is right exactly if**, where the lists have one length and every class of the first
list is in the second one, none of them has more elements in the first list. -/
theorem list_match_iff (heap : ℕ → List α) (p q : ℕ) :
    (c.list_match shl heap (some p) (some q) = if c.Same (heap p) (heap q) then 0 else -1) ↔
      ((heap p).length = (heap q).length → c.classes (heap p) ⊆ c.classes (heap q) →
        ∀ k ∈ c.classes (heap p), (c.classes (heap p)).count k ≤ (c.classes (heap q)).count k) := by
  have hlen (l : List α) : (c.classes l).length = l.length := length_map _
  rw [← subperm_ext_iff]
  by_cases hpq : p = q
  · subst hpq
    simp [list_match, Same, Subperm.refl]
  by_cases h : (heap p).length = (heap q).length ∧ c.classes (heap p) ⊆ c.classes (heap q)
  · -- the code answers 0
    have hsame : c.Same (heap p) (heap q) ↔ c.classes (heap p) <+~ c.classes (heap q) :=
      ⟨Perm.subperm, fun hs => hs.perm_of_length_le (by simp only [hlen, h.1, Nat.le_refl])⟩
    simp [list_match, hpq, h, findAll_eq, hsame]
  -- the code answers -1, and the lists are not the same
  have hsame : ¬ c.Same (heap p) (heap q) := fun hs =>
    h ⟨by rw [← hlen, ← hlen, hs.length_eq], hs.subset⟩
  have hcode : c.list_match shl heap (some p) (some q) = -1 := by
    simp only [list_match, findAll_eq, Option.some.injEq, hpq, if_false]
    split_ifs <;> tauto
  rw [if_neg hsame]
  exact iff_of_true hcode fun h1 h2 => absurd ⟨h1, h2⟩ h

/-- Two equal elements are matched with one. -/
theorem list_match_twice : ∃ c : Comparing ℕ,
    c.list_match (1 <<< ·) (fun p => [1, 1 + p]) (some 0) (some 1) = 0 ∧
      ¬ c.Same [1, 1] [1, 2] :=
  ⟨⟨fun x y => x - y, fun _ => sub_self _, by omega, by omega⟩, by decide, fun h => by
    simpa using (mem_classes 2 [1, 1]).2 (h.mem_iff.2 (mem_map_of_mem (by simp)))⟩

end Comparing

end MonetInR.Sql
