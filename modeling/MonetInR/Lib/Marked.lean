import Mathlib.Data.List.Basic

/-!
# Sequences with marks

A sequence of values in which marks stand between some of them: the values are `some x`, a mark is
`none`.  A reader takes values up to the next mark, and either takes a mark on its own or together
with the values before it.

## Main definitions

* `Marked.fill`: the values before the next mark, up to a number of them
* `Marked.read`: take values, or the mark if there are none before it
* `Marked.next`: take values, and the mark that follows them
* `Marked.taken`: what a read has taken

## Main results

* `read_append`, `next_append`: nothing is lost, and nothing is taken twice
-/

namespace Marked

variable {β : Type*} {k : ℕ} {ev rest : List (Option β)}

/-- The values before the next mark, at most `k` of them, and what follows. -/
def fill : ℕ → List (Option β) → List β × List (Option β)
  | k + 1, some x :: ev => (x :: (fill k ev).1, (fill k ev).2)
  | _, ev => ([], ev)

/-- Take at most `k` values, or the mark if it comes first. -/
def read (k : ℕ) : List (Option β) → List β × List (Option β)
  | none :: ev => ([], ev)
  | ev => fill k ev

/-- Take at most `k` values, and the mark if it comes next. -/
def next (k : ℕ) (ev : List (Option β)) : List β × Bool × List (Option β) :=
  match (fill k ev).2 with
  | none :: rest => ((fill k ev).1, true, rest)
  | rest => ((fill k ev).1, false, rest)

section Fill

@[simp] theorem fill_zero (ev : List (Option β)) : fill 0 ev = ([], ev) := by
  cases ev <;> rfl

@[simp] theorem fill_mark (k : ℕ) (ev : List (Option β)) :
    fill k (none :: ev) = ([], none :: ev) := by
  cases k <;> rfl

/-- The values that are there are taken first. -/
theorem fill_map_append (k : ℕ) (xs : List β) (ev : List (Option β)) : fill k (xs.map some ++ ev) =
      (xs.take k ++ (fill (k - xs.length) ev).1,
        (xs.drop k).map some ++ (fill (k - xs.length) ev).2) := by
  induction k generalizing xs with
  | zero => simp
  | succ k ih =>
    cases xs with
    | nil => simp
    | cons x xs => simp [fill, ih]

theorem fill_append (k : ℕ) (ev : List (Option β)) :
    (fill k ev).1.map some ++ (fill k ev).2 = ev := by
  fun_induction fill k ev with
  | case1 k x ev ih => rw [List.map_cons, List.cons_append, ih]
  | case2 k ev hne => rfl

/-- Something is taken unless a mark comes first. -/
theorem fill_ne_nil (hk : 0 < k) (hne : ev ≠ []) (hmark : ∀ rest, ev ≠ none :: rest) :
    (fill k ev).1 ≠ [] := by
  obtain ⟨k, rfl⟩ := Nat.exists_eq_add_of_lt hk
  match ev with
  | [] => exact absurd rfl hne
  | none :: rest => exact absurd rfl (hmark rest)
  | some x :: rest => simp [fill]

end Fill

section Reads

/-- What a read takes: the mark, if it returns no values. -/
def taken : List β → List (Option β)
  | [] => [none]
  | xs => xs.map some

theorem taken_of_ne_nil {xs : List β} (h : xs ≠ []) : taken xs = xs.map some := by
  cases xs with
  | nil => exact absurd rfl h
  | cons => rfl

/-- **A read takes the first part**, and a mark exactly if it returns nothing. -/
theorem read_append (hk : 0 < k) (hne : ev ≠ []) : taken (read k ev).1 ++ (read k ev).2 = ev := by
  match ev with
  | [] => exact absurd rfl hne
  | none :: rest => rfl
  | some x :: rest =>
    have hfill : (fill k (some x :: rest)).1 ≠ [] := fill_ne_nil hk hne nofun
    rw [read, taken_of_ne_nil hfill, fill_append]
    exact nofun

/-- **So does a read that takes the mark with the values**, and it says whether it did. -/
theorem next_append (k : ℕ) (ev : List (Option β)) :
    (next k ev).1.map some ++ (if (next k ev).2.1 then [none] else []) ++ (next k ev).2.2 = ev := by
  rw [next]
  split
  · next rest hrest => simpa [hrest] using fill_append k ev
  · simpa using fill_append k ev

theorem next_of_mark (h : (fill k ev).2 = none :: rest) :
    next k ev = ((fill k ev).1, true, rest) := by
  rw [next, h]

theorem next_of_value {x : β} (h : (fill k ev).2 = some x :: rest) :
    next k ev = ((fill k ev).1, false, some x :: rest) := by
  rw [next, h]

end Reads

end Marked
