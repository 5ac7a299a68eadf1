import Mathlib.Data.List.Basic

/-!
# Moving an instruction

`moveInstruction` takes an instruction to another place of a MAL block.  On the way forwards, it
moves the others up all the same: the instruction is doubled, and the one at the target is lost.

## Main results

* `moveInstruction_eq_iff`: when the instruction is moved
* `instrs_insertInstruction`: inserting an instruction
-/

namespace MonetInR.Mal.Move

open List Function

variable {α : Type} {stmt : ℕ → α} {pc target stop : ℕ}

/-- `for (i = lo + n; i > lo; i--) stmt[i] = stmt[i - 1]` -/
def shiftUp (lo : ℕ) : ℕ → (ℕ → α) → ℕ → α
  | 0, stmt => stmt
  | n + 1, stmt => shiftUp lo n (update stmt (lo + n + 1) (stmt (lo + n)))

def moveInstruction (stmt : ℕ → α) (pc target : ℕ) : ℕ → α :=
  let p := stmt pc
  if target < pc then update (shiftUp target (pc - target) stmt) target p
  else update (shiftUp pc (target - pc) stmt) pc p

/-- `pushInstruction` has put the instruction behind the others. -/
def insertInstruction (stmt : ℕ → α) (stop : ℕ) (p : α) (pc : ℕ) : ℕ → α :=
  moveInstruction (update stmt stop p) stop pc

/-- The instructions of a block. -/
def instrs (stmt : ℕ → α) (stop : ℕ) : List α := (range stop).map stmt

theorem shiftUp_apply (lo n : ℕ) (stmt : ℕ → α) (i : ℕ) :
    shiftUp lo n stmt i = if lo < i ∧ i ≤ lo + n then stmt (i - 1) else stmt i := by
  induction n generalizing stmt with
  | zero => rw [shiftUp, if_neg (by omega)]
  | succ n ih =>
    rw [shiftUp, ih]
    grind

theorem moveInstruction_apply (stmt : ℕ → α) (pc target i : ℕ) :
    moveInstruction stmt pc target i = if i = min pc target then stmt pc
      else if min pc target < i ∧ i ≤ max pc target then stmt (i - 1) else stmt i := by
  rw [moveInstruction]
  split_ifs <;> grind [update_apply, shiftUp_apply]

/-- **When an instruction is moved**: backwards always, and forwards only past instructions that are
no others.  For a later target the source also shifts up, and writes the instruction back to its
old place. -/
theorem moveInstruction_eq_iff (hpc : pc < stop) (ht : target < stop) :
    instrs (moveInstruction stmt pc target) stop =
        ((instrs stmt stop).eraseIdx pc).insertIdx target (stmt pc) ↔
      target ≤ pc ∨ ∀ i, pc ≤ i → i ≤ target → stmt i = stmt pc := by
  have hplace : ((instrs stmt stop).eraseIdx pc).insertIdx target (stmt pc) =
      instrs (fun i => if i = target then stmt pc else if pc ≤ i ∧ i < target then stmt (i + 1)
        else if target < i ∧ i ≤ pc then stmt (i - 1) else stmt i) stop := by
    apply ext_getElem <;> grind [instrs]
  rw [hplace, instrs, instrs, map_inj_left]
  simp only [mem_range, moveInstruction_apply]
  constructor
  · intro h
    by_cases hle : target ≤ pc
    · exact .inl hle
    refine .inr fun i => ?_
    -- place `i - 1` should hold what was at `i`, and holds what was before it
    induction i using Nat.strongRecOn with
    | ind i ih =>
      have hplace := h (i - 1)
      grind
  · grind

theorem moveInstruction_eq_iff_two : instrs (moveInstruction id 1 0) 2 = [1, 0] :=
  (moveInstruction_eq_iff (by decide) (by decide)).mpr (.inl (by decide))

/-- The first of two instructions is doubled, and the second one is lost. -/
theorem moveInstruction_forwards :
    instrs (moveInstruction id 0 1) 2 ≠ ((instrs id 2).eraseIdx 0).insertIdx 1 0 := by
  decide

/-- **An instruction is inserted**, and those behind its place move up by one. -/
theorem instrs_insertInstruction (h : pc ≤ stop) (stmt : ℕ → α) (p : α) :
    instrs (insertInstruction stmt stop p pc) (stop + 1) = (instrs stmt stop).insertIdx pc p := by
  simp only [instrs, insertInstruction, ext_getElem_iff, getElem_map, getElem_range,
    moveInstruction_apply, update_apply, getElem_insertIdx]
  grind

theorem instrs_insertInstruction_front : instrs (insertInstruction id 2 9 0) 3 = [9, 0, 1] :=
  instrs_insertInstruction (by decide) id 9

end MonetInR.Mal.Move
