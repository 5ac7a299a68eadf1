import Mathlib.Data.List.Nodup
import Mathlib.Tactic.Linarith

/-!
# Singly linked chains in an array of links

Many structures keep linked lists in one array: entry `next a` is the node after `a`, and a
reserved number `stop` ends every chain.  `Chain next stop a l` says that starting at `a` the
links run through exactly the nodes of `l`.  Chains are finite by definition and determined by
their start, hence acyclic.  The rest of the module says what single writes to the array do to
a chain: a write elsewhere, a push at the front, an unlink, and renaming a node.

## Main definitions

* `Chain`: the nodes met from a start
* `walk`: follow the links for a bounded number of steps
* `findPred`: look for the node whose link is a given one

## Main results

* `Chain.unique`, `Chain.nodup`: a chain is determined by its start and visits no node twice
* `Chain.update_of_notMem`, `Chain.push`, `Chain.unlink`, `Chain.rename`: effect of writes
* `Chain.walk_eq`, `Chain.findPred_eq`: both loops do what they say on a chain
-/

namespace LinkArray

open List Function

/-- From `a`, the links in `next` run through the nodes `l` and end at `stop`. -/
inductive Chain (next : ℕ → ℕ) (stop : ℕ) : ℕ → List ℕ → Prop
  | nil : Chain next stop stop []
  | cons {a : ℕ} {l : List ℕ} : a ≠ stop → Chain next stop (next a) l → Chain next stop a (a :: l)

variable {next next' : ℕ → ℕ} {stop a i j p n : ℕ} {l l' xs ys : List ℕ}

theorem Chain.of_cons (h : Chain next stop a (i :: l)) : Chain next stop (next i) l := by
  cases h with
  | cons _ ht => exact ht

theorem Chain.start_mem (h : Chain next stop a l) : a = stop ∨ a ∈ l := by
  cases h with
  | nil => exact .inl rfl
  | cons _ _ => exact .inr mem_cons_self

/-- The start determines the chain. -/
theorem Chain.unique (h : Chain next stop a l) (h' : Chain next stop a l') : l = l' := by
  induction h generalizing l' with
  | nil =>
    cases h' with
    | nil => rfl
    | cons hne _ => exact absurd rfl hne
  | cons hne _ ih =>
    cases h' with
    | nil => exact absurd rfl hne
    | cons _ ht => rw [ih ht]

/-- No element of a chain is followed by itself. -/
theorem Chain.next_ne (h : Chain next stop a l) (ha : a ≠ stop) : next a ≠ a := by
  intro hloop
  cases h with
  | nil => exact ha rfl
  | cons _ ht =>
    rw [hloop] at ht
    exact cons_ne_self _ _ ((Chain.cons ha (hloop.symm ▸ ht)).unique ht)

/-- Every node of a chain starts the rest of it. -/
theorem Chain.of_append (h : Chain next stop a (xs ++ i :: ys)) : Chain next stop i (i :: ys) := by
  induction xs generalizing a with
  | nil =>
    cases h with
    | cons hne ht => exact .cons hne ht
  | cons x xs ih =>
    cases h with
    | cons _ ht => exact ih ht

section

variable (h : Chain next stop a l)

include h

/-- **Chains are acyclic**: no node is met twice. -/
theorem Chain.nodup : l.Nodup := by
  induction h with
  | nil => exact nodup_nil
  | @cons b t hne ht ih =>
    refine nodup_cons.mpr ⟨fun hmem => ?_, ih⟩
    obtain ⟨us, vs, rfl⟩ := append_of_mem hmem
    -- the chain from `b` would equal a proper part of itself
    have heq := (Chain.cons hne ht).unique ht.of_append
    have hlen := congrArg length heq
    simp only [length_cons, length_append] at hlen
    omega

/-- The link of a node leads to another node or ends the chain. -/
theorem Chain.next_mem (hi : i ∈ l) : next i = stop ∨ next i ∈ l := by
  obtain ⟨xs, ys, rfl⟩ := append_of_mem hi
  exact h.of_append.of_cons.start_mem.imp_right fun hmem => by simp [hmem]

/-- A node whose link is `i` stands right before `i`. -/
theorem Chain.split_of_next (hp : p ∈ l) (hi : i ≠ stop) (hpi : next p = i) :
    ∃ xs ys, l = xs ++ p :: i :: ys := by
  obtain ⟨xs, ys, rfl⟩ := append_of_mem hp
  have htail := h.of_append
  cases htail with
  | cons _ hrest =>
    rw [hpi] at hrest
    cases hrest with
    | nil => exact absurd rfl hi
    | cons _ _ => exact ⟨xs, _, rfl⟩

/-- A node other than the first one has a node before it. -/
theorem Chain.split_of_mem (hi : i ∈ l) (ha : a ≠ i) : ∃ xs p ys, l = xs ++ p :: i :: ys := by
  obtain ⟨xs, ys, rfl⟩ := append_of_mem hi
  rcases eq_nil_or_concat xs with rfl | ⟨xs, p, rfl⟩
  · cases h with
    | cons _ _ => exact absurd rfl ha
  · exact ⟨xs, p, ys, by simp⟩

/-- A chain only depends on the links of its own nodes. -/
theorem Chain.congr (heq : ∀ b ∈ l, next b = next' b) :
    Chain next' stop a l := by
  induction h with
  | nil => exact .nil
  | @cons b t hne _ ih =>
    refine .cons hne ?_
    rw [← heq b mem_cons_self]
    exact ih fun c hc => heq c (mem_cons_of_mem b hc)

/-! ## Single writes -/

theorem Chain.update_of_notMem (hi : i ∉ l) (x : ℕ) : Chain (update next i x) stop a l :=
  h.congr fun b hb => by
    have hne : b ≠ i := fun he => hi (he ▸ hb)
    rw [update_of_ne hne]

/-- Linking a fresh node to the start of a chain puts it in front. -/
theorem Chain.push (hi : i ∉ l) (hs : i ≠ stop) :
    Chain (update next i a) stop i (i :: l) := by
  refine .cons hs ?_
  rw [update_self]
  exact h.update_of_notMem hi a

end

/-- The part of a chain before a node `p` stays when only links from `p` on change. -/
theorem Chain.replace_tail (h : Chain next stop a (xs ++ i :: ys))
    (hx : ∀ b ∈ xs, next b = next' b) (ht : Chain next' stop i l) :
    Chain next' stop a (xs ++ l) := by
  induction xs generalizing a with
  | nil =>
    cases h with
    | cons _ _ => exact ht
  | cons x xs ih =>
    cases h with
    | cons hne hrest =>
      refine .cons hne ?_
      rw [← hx x mem_cons_self]
      exact ih hrest fun b hb => hx b (mem_cons_of_mem x hb)

section

variable (h : Chain next stop a (xs ++ p :: i :: ys))

include h

/-- The nodes before and behind a link of the chain. -/
theorem Chain.at_link :
    p ≠ stop ∧ (∀ b ∈ xs, b ≠ p) ∧ p ∉ ys ∧ Chain next stop (next i) ys := by
  have hnd := h.nodup
  rw [nodup_append, nodup_cons] at hnd
  obtain ⟨-, ⟨hp, -⟩, hdisj⟩ := hnd
  have hpt := h.of_append
  cases hpt with
  | cons hne hrest =>
    cases hrest with
    | cons _ htail =>
      exact ⟨hne, fun b hb => hdisj b hb p mem_cons_self,
        fun hm => hp (mem_cons_of_mem _ hm), htail⟩

/-- Rerouting the link of the node before `i` past it takes `i` out of the chain. -/
theorem Chain.unlink :
    Chain (update next p (next i)) stop a (xs ++ p :: ys) := by
  obtain ⟨hne, hbefore, hp, htail⟩ := h.at_link
  refine h.replace_tail (fun b hb => ?_) (.cons hne ?_)
  · rw [update_of_ne (hbefore b hb)]
  · rw [update_self]
    exact htail.update_of_notMem hp _

/-- A fresh node `j` takes the place of `i`: the link to `i` is pointed at `j` and the link of
`i` is copied to `j`. -/
theorem Chain.rename (hs : j ≠ stop)
    (hj : j ∉ xs ++ p :: i :: ys) :
    Chain (update (update next p j) j (next i)) stop a (xs ++ p :: j :: ys) := by
  obtain ⟨hne, hbefore, hp, htail⟩ := h.at_link
  simp only [mem_append, mem_cons, not_or] at hj
  obtain ⟨hjx, hjp, -, hjy⟩ := hj
  refine h.replace_tail (fun b hb => ?_) (.cons hne ?_)
  · have hbj : b ≠ j := fun he => hjx (he ▸ hb)
    rw [update_of_ne hbj, update_of_ne (hbefore b hb)]
  · rw [update_of_ne (Ne.symm hjp), update_self]
    refine .cons hs ?_
    rw [update_self]
    exact (htail.update_of_notMem hp _).update_of_notMem hjy _

end

/-! ## The two loops -/

/-- The nodes met from `a` in at most `n` steps. -/
def walk (next : ℕ → ℕ) (stop : ℕ) : ℕ → ℕ → List ℕ
  | 0, _ => []
  | n + 1, a => if a = stop then [] else a :: walk next stop n (next a)

/-- The first node met from `a`, in at most `n` steps, whose link is `i`. -/
def findPred (next : ℕ → ℕ) (stop i : ℕ) : ℕ → ℕ → Option ℕ
  | 0, _ => none
  | n + 1, a =>
    if a = stop then none else if next a = i then some a else findPred next stop i n (next a)

theorem Chain.walk_eq (h : Chain next stop a l) (hn : l.length ≤ n) : walk next stop n a = l := by
  induction h generalizing n with
  | nil =>
    cases n with
    | zero => rfl
    | succ n => rw [walk, if_pos rfl]
  | @cons b t hne _ ih =>
    cases n with
    | zero => simp at hn
    | succ n =>
      rw [walk, if_neg hne, ih (by simpa using hn)]

theorem Chain.findPred_eq (h : Chain next stop a (xs ++ p :: i :: ys))
    (hn : (xs ++ p :: i :: ys).length ≤ n) : findPred next stop i n a = some p := by
  induction xs generalizing a n with
  | nil =>
    cases h with
    | cons hne hrest =>
      cases hrest with
      | cons _ _ =>
        cases n with
        | zero => simp at hn
        | succ n => rw [findPred, if_neg hne, if_pos rfl]
  | cons x xs ih =>
    rw [cons_append] at h
    cases h with
    | cons hne hrest =>
      cases n with
      | zero => simp at hn
      | succ n =>
        have hxi : next x ≠ i := by
          rintro rfl
          -- then the rest of the chain would be a proper part of itself
          rw [append_cons] at hrest
          have hlen := congrArg length (hrest.unique hrest.of_append)
          simp only [length_append, length_cons] at hlen
          omega
        rw [findPred, if_neg hne, if_neg hxi]
        exact ih hrest (by simpa using hn)

end LinkArray
