import Mathlib.Data.List.Count
import Mathlib.Tactic.Linarith

/-!
# Speculative appends

A loop that filters a sequence into an array may write each element at the end of the array before
it tests the element, and move the end only if the test succeeds.  An element that fails the test
is then overwritten by the next one, but it is written all the same, even if the array is full.

This module follows such a loop through the outcomes of its tests.  `room` says what capacity the
array has for a write, which allows for arrays that grow.

## Main definitions

* `writes`: the writes of the loop, each with the capacity the array has at that time
* `InBounds`: every write is within the capacity

## Main results

* `inBounds_of_growing`: a loop that grows the array whenever it is full stays within
* `inBounds_fixed_iff`: a loop that does not grow the array stays within exactly if there is room
  for what passes before the last element, and one more
-/

namespace SpeculativeAppend

/-- The writes of the loop: the index written and the capacity at that time.  `k` elements have been
visited, `cap` is the capacity and `cnt` the number of elements kept. -/
def writes (room : ℕ → ℕ → ℕ → ℕ) : List Bool → ℕ → ℕ → ℕ → List (ℕ × ℕ)
  | [], _, _, _ => []
  | t :: ts, k, cap, cnt =>
    (cnt, room k cap cnt) :: writes room ts (k + 1) (room k cap cnt) (if t then cnt + 1 else cnt)

/-- Every write is within the capacity. -/
def InBounds (ws : List (ℕ × ℕ)) : Prop := ∀ w ∈ ws, w.1 < w.2

variable {room : ℕ → ℕ → ℕ → ℕ} {ts : List Bool} {k n cap cnt : ℕ}

/-- A loop over `n` elements that makes room for one more element whenever the array is full. -/
theorem inBounds_of_growing (hroom : ∀ k cap cnt, k < n → cnt ≤ cap → cnt < room k cap cnt)
    (hn : k + ts.length ≤ n) (hcnt : cnt ≤ cap) : InBounds (writes room ts k cap cnt) := by
  induction ts generalizing k cap cnt with
  | nil => exact fun w hw => nomatch hw
  | cons t ts ih =>
    rw [List.length_cons] at hn
    have hlt := hroom k cap cnt (by omega) hcnt
    rintro w (_ | ⟨_, hw⟩)
    · exact hlt
    · refine ih (by omega) ?_ w hw
      split_ifs <;> omega

/-- Without growth, the last write is the one furthest up. -/
theorem inBounds_fixed_iff (hne : ts ≠ []) :
    InBounds (writes (fun _ cap _ => cap) ts k cap cnt) ↔ cnt + ts.dropLast.count true < cap := by
  induction ts generalizing k cnt with
  | nil => exact absurd rfl hne
  | cons t ts ih =>
    rw [writes, InBounds, List.forall_mem_cons]
    rcases ts with _ | ⟨t', ts⟩
    · simp [writes]
    · have hrest : InBounds (writes (fun _ cap _ => cap) (t' :: ts) (k + 1) cap
          (if t then cnt + 1 else cnt)) ↔ _ := ih (by simp)
      rw [InBounds] at hrest
      rw [hrest]
      cases t <;> simp <;> omega

end SpeculativeAppend
