import Mathlib.Data.List.Chain
import Mathlib.Data.List.Flatten
import Mathlib.Data.List.Nodup

/-!
# Rows with lists of partners

A relation that is produced row by row is a list of keys, each with the list of its partners.  Such
a list is the result of a join: the keys are left rows, and each is paired with the right rows that
match.  If the keys ascend and the partners of each key do, the pairs are in lexicographic order.

Some rows may be left out, as those whose key is nil; the last lemmas are about what remains.

## Main definitions

* `expand`: the pairs of all rows

## Main results

* `pairwise_fst`: the first column, in terms of the keys of the rows that have partners
* `pairwise_expand`: the order of the pairs
* `mem_flatMap_ite`, `pairwise_flatMap_ite`: the same where rows are left out
-/

namespace RowBlocks

open List Prod

variable {β γ : Type*}

/-- The pairs of all rows. -/
def expand (rows : List (β × List γ)) : List (β × γ) :=
  rows.flatMap fun x => x.2.map fun o => (x.1, o)

theorem expand_append (rows rows' : List (β × List γ)) :
    expand (rows ++ rows') = expand rows ++ expand rows' :=
  flatMap_append

variable {rows : List (β × List γ)} {R : β → β → Prop} {S : γ → γ → Prop} {p : β × γ}

theorem mem_expand : p ∈ expand rows ↔ ∃ x ∈ rows, p.1 = x.1 ∧ p.2 ∈ x.2 := by
  simp only [expand, mem_flatMap, mem_map]
  refine exists_congr fun x => and_congr_right fun _ => ⟨?_, ?_⟩
  · rintro ⟨o, ho, rfl⟩
    exact ⟨rfl, ho⟩
  · rintro ⟨h1, h2⟩
    exact ⟨p.2, h2, Prod.ext h1.symm rfl⟩

/-- The first column, if every key has one partner. -/
theorem map_fst_expand (hone : ∀ x ∈ rows, x.2.length = 1) :
    (expand rows).map fst = rows.map fst := by
  rw [expand, map_flatMap, map_eq_flatMap]
  refine flatMap_congr fun x hx => ?_
  obtain ⟨o, ho⟩ := length_eq_one_iff.mp (hone x hx)
  rw [ho]
  rfl

/-- The keys that have a partner are those of the pairs. -/
theorem mem_map_fst_expand (hsome : ∀ x ∈ rows, x.2 ≠ []) {k : β} :
    k ∈ (expand rows).map fst ↔ k ∈ rows.map fst := by
  simp only [mem_map, mem_expand]
  constructor
  · rintro ⟨p, ⟨x, hx, hpx, -⟩, rfl⟩
    exact ⟨x, hx, hpx.symm⟩
  · rintro ⟨x, hx, rfl⟩
    obtain ⟨o, ho⟩ := exists_mem_of_ne_nil _ (hsome x hx)
    exact ⟨(x.1, o), ⟨x, hx, rfl, ho⟩, rfl⟩

/-- The first column of the pairs: each key as often as it has partners. -/
theorem pairwise_fst (hrefl : ∀ a, R a a) : ((expand rows).map fst).Pairwise R ↔
      rows.Pairwise fun x y => x.2 ≠ [] → y.2 ≠ [] → R x.1 y.1 := by
  rw [pairwise_map, expand, pairwise_flatMap]
  constructor
  · rintro ⟨-, h⟩
    refine h.imp fun {x y} hxy hx hy => ?_
    obtain ⟨a, ha⟩ := exists_mem_of_ne_nil _ hx
    obtain ⟨b, hb⟩ := exists_mem_of_ne_nil _ hy
    exact hxy _ (mem_map_of_mem ha) _ (mem_map_of_mem hb)
  · intro h
    refine ⟨fun x _ => ?_, h.imp fun {x y} hxy p hp q hq => ?_⟩
    · rw [pairwise_map]
      exact pairwise_of_forall fun _ _ => hrefl _
    · obtain ⟨a, ha, rfl⟩ := mem_map.mp hp
      obtain ⟨b, hb, rfl⟩ := mem_map.mp hq
      exact hxy (ne_nil_of_mem ha) (ne_nil_of_mem hb)

/-- If the keys and the partners of each key ascend, the pairs are in lexicographic order. -/
theorem pairwise_expand (hkeys : rows.Pairwise fun x y => R x.1 y.1)
    (hpart : ∀ x ∈ rows, x.2.Pairwise S) :
    (expand rows).Pairwise fun p q => R p.1 q.1 ∨ p.1 = q.1 ∧ S p.2 q.2 := by
  rw [expand, pairwise_flatMap]
  refine ⟨fun x hx => ?_, hkeys.imp fun {x y} hxy p hp q hq => ?_⟩
  · rw [pairwise_map]
    exact (hpart x hx).imp fun hab => .inr ⟨rfl, hab⟩
  · obtain ⟨a, -, rfl⟩ := mem_map.mp hp
    obtain ⟨b, -, rfl⟩ := mem_map.mp hq
    exact .inl hxy

theorem pairwise_of_length_le {os : List γ} (h : os.length ≤ 1) (R : γ → γ → Prop) :
    os.Pairwise R := by
  rcases os with _ | ⟨a, _ | ⟨b, t⟩⟩
  · exact List.Pairwise.nil
  · exact pairwise_singleton R a
  · simp at h

section LeftOut

variable {ρ : Type*} {P : ρ → Prop} [DecidablePred P] {key : ρ → β} {m : ρ → List γ} {L : List ρ}

/-- Rows of which those with `P` are left out. -/
theorem flatMap_ite : (L.flatMap fun x => if P x then [] else (m x).map fun o => (key x, o)) =
    expand (L.map fun x => (key x, if P x then [] else m x)) := by
  rw [expand, flatMap_map]
  refine flatMap_congr fun x _ => ?_
  split_ifs <;> rfl

theorem mem_flatMap_ite :
    (p ∈ L.flatMap fun x => if P x then [] else (m x).map fun o => (key x, o)) ↔
      ∃ x ∈ L, ¬ P x ∧ p.1 = key x ∧ p.2 ∈ m x := by
  rw [flatMap_ite, mem_expand]
  simp only [mem_map, exists_exists_and_eq_and]
  refine exists_congr fun x => and_congr_right fun _ => ?_
  split_ifs with h <;> simp [h]

theorem pairwise_flatMap_ite (hkeys : L.Pairwise fun x y => R (key x) (key y))
    (hm : ∀ x ∈ L, ¬ P x → (m x).Pairwise S) :
    (L.flatMap fun x => if P x then [] else (m x).map fun o => (key x, o)).Pairwise fun p q =>
      R p.1 q.1 ∨ p.1 = q.1 ∧ S p.2 q.2 := by
  rw [flatMap_ite]
  refine pairwise_expand (pairwise_map.mpr hkeys) (forall_mem_map.mpr fun x hx => ?_)
  dsimp only
  split_ifs with h
  · exact List.Pairwise.nil
  · exact hm x hx h

end LeftOut

end RowBlocks
