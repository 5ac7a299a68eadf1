import Mathlib.Algebra.BigOperators.Group.Finset.Basic
import Mathlib.Data.Fintype.Basic

/-!
# Counting links between nodes

Every node has a list of links to other nodes.  The nodes of a set that are in use point at their
targets, and the number of times a node is pointed at is what a reference count records.  The lemmas
say how that number changes when a node comes into use or goes out of it.

## Main definitions

* `LinkCount.inbound`: the number of links from a set of nodes to one node

## Main results

* `LinkCount.inbound_erase_add`: the part of one node
* `LinkCount.exists_foldlM`: paying the debts of a list one after another
-/

namespace LinkCount

variable {ι : Type*} [DecidableEq ι] (links : ι → List ι) (f : ι → ℕ) (p : ι)

/-- The links to `i` from the nodes in `A`. -/
def inbound (A : Finset ι) (i : ι) : ℕ := ∑ v ∈ A, (links v).count i

/-- The links from one node are counted apart. -/
theorem inbound_erase_add (A : Finset ι) (p i : ι) :
    inbound links A i =
      inbound links (A.erase p) i + if p ∈ A then (links p).count i else 0 := by
  split_ifs with hp
  · exact (Finset.sum_erase_add A _ hp).symm
  · rw [Finset.erase_eq_of_notMem hp, Nat.add_zero]

/-- The number of holds that one more hold on `p` makes. -/
def addOne (f : ι → ℕ) (p : ι) : ι → ℕ := fun i => f i + if i = p then 1 else 0

/-- The number of holds that one more hold on each node of a list makes. -/
def addList (f : ι → ℕ) (l : List ι) : ι → ℕ := fun i => f i + l.count i

theorem addList_cons (l : List ι) : addList f (p :: l) = addOne (addList f l) p := by
  funext i
  unfold addList addOne
  rw [List.count_cons, Nat.add_assoc]
  by_cases h : i = p
  · rw [if_pos h, if_pos (beq_iff_eq.mpr h.symm)]
  · rw [if_neg h, if_neg fun he => h (beq_iff_eq.mp he).symm]

@[simp] theorem addOne_self : addOne f p p = f p + 1 := by
  rw [addOne, if_pos rfl]

theorem addOne_of_ne {p i : ι} (h : i ≠ p) : addOne f p i = f i := by
  rw [addOne, if_neg h, Nat.add_zero]

/-- Going through a list of debts: if every step pays the first one, all are paid. -/
theorem exists_foldlM {α σ : Type*} {f : σ → α → Option σ} {Q : List α → σ → Prop}
    (hstep : ∀ p l s, Q (p :: l) s → ∃ s', f s p = some s' ∧ Q l s') :
    ∀ (l : List α) (s : σ), Q l s → ∃ s', l.foldlM f s = some s' ∧ Q [] s' := by
  intro l
  induction l with
  | nil => exact fun s h => ⟨s, rfl, h⟩
  | cons p l ih =>
    intro s h
    obtain ⟨s₁, h1, hQ⟩ := hstep p l s h
    obtain ⟨s₂, h2, hQ'⟩ := ih s₁ hQ
    refine ⟨s₂, ?_, hQ'⟩
    rw [List.foldlM_cons, h1]
    exact h2

end LinkCount
