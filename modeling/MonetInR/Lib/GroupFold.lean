import Mathlib.Data.List.Nodup

/-!
# Accumulating rows in slots

A loop over rows finds a slot for each of them, or none, and adds the row to what is kept in the
slot.  What ends up in a slot is the fold over the rows that were given to it, in their order.  The
loop may also fail; then one of these folds does.

## Main definitions

* `accumulate`, `accumulateM`: the loop
* `assigned`: the slots that rows were given to

## Main results

* `accumulate_apply`, `accumulateM_eq_some`, `accumulateM_eq_none`
* `assigned_eq_iff`: two ways to find slots agree on the rows if they assign the same
-/

namespace GroupFold

open List Function

section Assigned

variable {κ β : Type*}

/-- The rows with the slots they are added to. -/
def assigned (slot : β → Option κ) (rows : List β) : List (κ × β) :=
  rows.filterMap fun i => (slot i).map (·, i)

variable {slot : β → Option κ} {rows : List β} {i : β}

@[simp] theorem assigned_nil : assigned slot ([] : List β) = [] := rfl

theorem assigned_cons_none (h : slot i = none) :
    assigned slot (i :: rows) = assigned slot rows := by
  simp [assigned, h]

theorem assigned_cons_some {k : κ} (h : slot i = some k) :
    assigned slot (i :: rows) = (k, i) :: assigned slot rows := by
  simp [assigned, h]

theorem mem_assigned {x : κ × β} : x ∈ assigned slot rows ↔ x.2 ∈ rows ∧ slot x.2 = some x.1 := by
  simp only [assigned, mem_filterMap, Option.map_eq_some_iff]
  constructor
  · rintro ⟨i, hi, k, hk, rfl⟩
    exact ⟨hi, hk⟩
  · rintro ⟨hi, hk⟩
    exact ⟨x.2, hi, x.1, hk, rfl⟩

theorem assigned_eq_nil : assigned slot rows = [] ↔ ∀ i ∈ rows, slot i = none := by
  simp [assigned]

/-- Two ways to find slots assign the same only if they agree. -/
theorem assigned_eq_iff {slot' : β → Option κ} :
    assigned slot rows = assigned slot' rows ↔ ∀ i ∈ rows, slot i = slot' i := by
  constructor
  · intro h i hi
    ext k
    have hmem : (k, i) ∈ assigned slot rows ↔ (k, i) ∈ assigned slot' rows := by rw [h]
    simpa [mem_assigned, hi] using hmem
  · intro h
    exact filterMap_congr fun i hi => by rw [h i hi]

end Assigned

section Slots

variable {κ β σ : Type*} [DecidableEq κ] (slot : β → Option κ)

/-- Add every row to its slot. -/
def accumulate (add : σ → β → σ) (rows : List β) (init : κ → σ) : κ → σ :=
  rows.foldl (fun f i => match slot i with
    | none => f
    | some k => update f k (add (f k) i)) init

/-- Add every row to its slot, or fail. -/
def accumulateM (add : σ → β → Option σ) (rows : List β) (init : κ → σ) : Option (κ → σ) :=
  rows.foldlM (fun f i => match slot i with
    | none => some f
    | some k => (add (f k) i).map (update f k)) init

/-- The rows of one slot. -/
def rowsOf (l : List (κ × β)) (k : κ) : List β := (l.filter fun x => x.1 = k).map Prod.snd

variable {slot} {add : σ → β → σ} {rows : List β} {init : κ → σ} {i : β} {k : κ}

theorem rowsOf_cons_self (k : κ) (i : β) (l : List (κ × β)) :
    rowsOf ((k, i) :: l) k = i :: rowsOf l k := by
  simp [rowsOf]

theorem rowsOf_cons_of_ne {k' : κ} (i : β) (l : List (κ × β)) (h : k' ≠ k) :
    rowsOf ((k', i) :: l) k = rowsOf l k := by
  simp [rowsOf, h]

/-- The rows of a slot are those that the slot was found for. -/
theorem rowsOf_assigned (k : κ) :
    rowsOf (assigned slot rows) k = rows.filter fun i => slot i = some k := by
  induction rows with
  | nil => rfl
  | cons i rows ih =>
    rw [filter_cons]
    cases hi : slot i with
    | none => simp [assigned_cons_none hi, ih]
    | some k' =>
      rw [assigned_cons_some hi]
      by_cases hk : k' = k
      · subst hk
        simp [rowsOf_cons_self, ih]
      · simp [rowsOf_cons_of_ne i _ hk, ih, hk]

/-- Renaming the slots does not move rows. -/
theorem rowsOf_assigned_map {κ' : Type*} [DecidableEq κ'] {φ : κ → κ'}
    (hφ : Function.Injective φ) (k : κ) :
    rowsOf (assigned (fun i => (slot i).map φ) rows) (φ k) = rowsOf (assigned slot rows) k := by
  rw [rowsOf_assigned, rowsOf_assigned]
  refine filter_congr fun i _ => ?_
  cases slot i with
  | none => rfl
  | some k' => simp [hφ.eq_iff]

theorem mem_of_mem_rowsOf (h : i ∈ rowsOf (assigned slot rows) k) : i ∈ rows := by
  rw [rowsOf_assigned] at h
  exact mem_of_mem_filter h

/-! ## What is in a slot -/

theorem accumulate_cons_none (h : slot i = none) :
    accumulate slot add (i :: rows) init = accumulate slot add rows init := by
  simp only [accumulate, foldl_cons, h]

theorem accumulate_cons_some (h : slot i = some k) :
    accumulate slot add (i :: rows) init =
      accumulate slot add rows (update init k (add (init k) i)) := by
  simp only [accumulate, foldl_cons, h]

/-- **A slot holds the fold over its rows.** -/
theorem accumulate_apply (k : κ) : accumulate slot add rows init k =
    (rowsOf (assigned slot rows) k).foldl add (init k) := by
  induction rows generalizing init with
  | nil => rfl
  | cons i rows ih =>
    cases hi : slot i with
    | none =>
      rw [accumulate_cons_none hi, assigned_cons_none hi]
      exact ih
    | some k' =>
      rw [accumulate_cons_some hi, assigned_cons_some hi]
      refine ih.trans ?_
      by_cases hk : k' = k
      · subst hk
        rw [update_self, rowsOf_cons_self, foldl_cons]
      · rw [update_of_ne (Ne.symm hk), rowsOf_cons_of_ne i _ hk]

section Failing

variable {add : σ → β → Option σ}

theorem accumulateM_cons_none (h : slot i = none) :
    accumulateM slot add (i :: rows) init = accumulateM slot add rows init := by
  simp only [accumulateM, foldlM_cons, h]
  rfl

theorem accumulateM_cons_some (h : slot i = some k) :
    accumulateM slot add (i :: rows) init =
      (add (init k) i).bind fun x => accumulateM slot add rows (update init k x) := by
  simp only [accumulateM, foldlM_cons, h]
  cases add (init k) i <;> rfl

/-- If the loop succeeds, so does the fold of every slot. -/
theorem accumulateM_eq_some {f : κ → σ} (h : accumulateM slot add rows init = some f) (k : κ) :
    (rowsOf (assigned slot rows) k).foldlM add (init k) = some (f k) := by
  induction rows generalizing init with
  | nil =>
    obtain rfl := Option.some.inj h
    rfl
  | cons i rows ih =>
    cases hi : slot i with
    | none =>
      rw [accumulateM_cons_none hi] at h
      rw [assigned_cons_none hi]
      exact ih h
    | some k' =>
      rw [accumulateM_cons_some hi] at h
      obtain ⟨x, hx, h⟩ := Option.bind_eq_some_iff.mp h
      rw [assigned_cons_some hi]
      have hrest := ih h
      by_cases hk : k' = k
      · subst hk
        rw [update_self] at hrest
        rw [rowsOf_cons_self, foldlM_cons, hx]
        exact hrest
      · rwa [update_of_ne (Ne.symm hk), ← rowsOf_cons_of_ne i _ hk] at hrest

/-- If the loop fails, so does the fold of some slot. -/
theorem accumulateM_eq_none (h : accumulateM slot add rows init = none) :
    ∃ k, (rowsOf (assigned slot rows) k).foldlM add (init k) = none := by
  induction rows generalizing init with
  | nil => cases h
  | cons i rows ih =>
    cases hi : slot i with
    | none =>
      rw [accumulateM_cons_none hi] at h
      rw [assigned_cons_none hi]
      exact ih h
    | some k' =>
      rw [accumulateM_cons_some hi] at h
      rw [assigned_cons_some hi]
      cases hx : add (init k') i with
      | none =>
        refine ⟨k', ?_⟩
        rw [rowsOf_cons_self, foldlM_cons, hx]
        rfl
      | some x =>
        rw [hx] at h
        obtain ⟨k, hk⟩ := ih h
        refine ⟨k, ?_⟩
        by_cases hkk : k' = k
        · subst hkk
          rw [update_self] at hk
          rw [rowsOf_cons_self, foldlM_cons, hx]
          exact hk
        · rwa [update_of_ne (Ne.symm hkk), ← rowsOf_cons_of_ne i _ hkk] at hk

end Failing

end Slots

end GroupFold
