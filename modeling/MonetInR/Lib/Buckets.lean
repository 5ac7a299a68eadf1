import Mathlib.Data.List.Basic

/-!
# Buckets of keyed entries

A table of buckets holds entries `(key a, a)`, each in the bucket that its key selects.  The same
value may have been added more than once; `count` says how often.  Adding and removing an entry
change the count of one value by one.
-/

namespace Buckets

open List Function

variable {K α : Type*} (key : α → K) (slot : K → ℕ)

/-- Every entry has its key and is in its bucket. -/
def Filed (t : ℕ → List (K × α)) : Prop := ∀ j, ∀ e ∈ t j, e.1 = key e.2 ∧ slot e.1 = j

def push (t : ℕ → List (K × α)) (a : α) : ℕ → List (K × α) :=
  update t (slot (key a)) ((key a, a) :: t (slot (key a)))

variable {key slot} {t : ℕ → List (K × α)} {a b : α}

theorem Filed.push (h : Filed key slot t) (a : α) : Filed key slot (push key slot t a) := by
  intro j e he
  unfold Buckets.push at he
  rcases eq_or_ne j (slot (key a)) with rfl | hj
  · rw [update_self] at he
    rcases mem_cons.mp he with rfl | he
    · exact ⟨rfl, rfl⟩
    · exact h _ e he
  · rw [update_of_ne hj] at he
    exact h j e he

theorem filed_foldl_push (h : Filed key slot t) (l : List α) :
    Filed key slot (l.foldl (push key slot) t) := by
  induction l generalizing t with
  | nil => exact h
  | cons a l ih => exact ih (h.push a)

section Count

variable [DecidableEq K] [DecidableEq α]

/-- How often `a` has been added. -/
def count (key : α → K) (slot : K → ℕ) (t : ℕ → List (K × α)) (a : α) : ℕ :=
  (t (slot (key a))).count (key a, a)

def drop (key : α → K) (slot : K → ℕ) (t : ℕ → List (K × α)) (a : α) : ℕ → List (K × α) :=
  update t (slot (key a)) ((t (slot (key a))).erase (key a, a))

theorem Filed.drop (h : Filed key slot t) (a : α) : Filed key slot (drop key slot t a) := by
  intro j e he
  unfold Buckets.drop at he
  rcases eq_or_ne j (slot (key a)) with rfl | hj
  · rw [update_self] at he
    exact h _ e (mem_of_mem_erase he)
  · rw [update_of_ne hj] at he
    exact h j e he

/-- What is in some bucket has been added. -/
theorem Filed.count_pos (h : Filed key slot t) {j : ℕ} {e : K × α} (he : e ∈ t j) :
    0 < count key slot t e.2 := by
  obtain ⟨hkey, hslot⟩ := h j e he
  apply count_pos_iff.mpr
  rw [← hkey, hslot]
  exact he

theorem mem_of_count_pos (h : 0 < count key slot t a) : (key a, a) ∈ t (slot (key a)) :=
  count_pos_iff.mp h

theorem count_push_self : count key slot (push key slot t a) a = count key slot t a + 1 := by
  unfold count push
  rw [update_self, count_cons_self]

theorem count_push_of_ne (h : b ≠ a) :
    count key slot (push key slot t a) b = count key slot t b := by
  unfold count push
  by_cases hs : slot (key b) = slot (key a)
  · rw [hs, update_self, count_cons_of_ne]
    exact fun heq => h (congrArg Prod.snd heq).symm
  · rw [update_of_ne hs]

theorem count_drop_self : count key slot (drop key slot t a) a = count key slot t a - 1 := by
  unfold count drop
  rw [update_self, count_erase_self]

theorem count_drop_of_ne (h : b ≠ a) :
    count key slot (drop key slot t a) b = count key slot t b := by
  unfold count drop
  by_cases hs : slot (key b) = slot (key a)
  · rw [hs, update_self, count_erase_of_ne]
    exact fun heq => h (congrArg Prod.snd heq)
  · rw [update_of_ne hs]

/-- Adding all values of a list once. -/
theorem count_foldl_push {l : List α} (hl : l.Nodup) (t : ℕ → List (K × α)) (b : α) :
    count key slot (l.foldl (push key slot) t) b =
      count key slot t b + if b ∈ l then 1 else 0 := by
  induction l generalizing t with
  | nil => simp
  | cons a l ih =>
    obtain ⟨ha, hl⟩ := nodup_cons.mp hl
    rw [foldl_cons, ih hl]
    rcases eq_or_ne b a with rfl | hne
    · rw [count_push_self, if_neg ha, if_pos mem_cons_self]
    · rw [count_push_of_ne hne]
      simp [hne]

end Count

end Buckets
