import Mathlib.Logic.Relation

/-!
# Runs of a step relation

A system is given by what one step may do, `step s a s'`, where `a` is the action taken.  A run
takes steps that meet a side condition `ok`, which may depend on the state and the action.  What
every such step preserves holds in every state a run reaches.

An operation of a system may itself be a sequence of smaller steps.  `Trace` lists them, each with
the state it is taken in, so that a side condition can speak about each of them.
-/

namespace Runs

variable {S A : Type*} {step : S → A → S → Prop} {ok : S → A → Prop} {s s' : S} {Inv : S → Prop}

/-- A run from `s` ends in `s'`. -/
inductive Reaches (step : S → A → S → Prop) (ok : S → A → Prop) (s : S) : S → Prop
  | refl : Reaches step ok s s
  | tail {s₁ s₂ : S} {a : A} : Reaches step ok s s₁ → ok s₁ a → step s₁ a s₂ → Reaches step ok s s₂

/-- **An invariant of the steps is an invariant of the runs.** -/
theorem Reaches.invariant (h : Reaches step ok s s')
    (hstep : ∀ s a s', Inv s → ok s a → step s a s' → Inv s') (hs : Inv s) : Inv s' := by
  induction h with
  | refl => exact hs
  | tail _ hok ht ih => exact hstep _ _ _ ih hok ht

theorem Reaches.mono {ok' : S → A → Prop} (h : Reaches step ok s s')
    (hok : ∀ s a, ok s a → ok' s a) : Reaches step ok' s s' := by
  induction h with
  | refl => exact .refl
  | tail _ ha ht ih => exact .tail ih (hok _ _ ha) ht

/-- The list `tr` of steps leads from `s` to `s'`. -/
inductive Trace (step : S → A → S → Prop) : S → List (S × A) → S → Prop
  | nil (s : S) : Trace step s [] s
  | cons {s s₁ s₂ : S} {a : A} {tr : List (S × A)} : step s a s₁ → Trace step s₁ tr s₂ →
      Trace step s ((s, a) :: tr) s₂

namespace Trace

variable {s₁ s₂ : S} {a : A} {tr tr' : List (S × A)}

theorem single (h : step s a s₁) : Trace step s [(s, a)] s₁ := .cons h (.nil s₁)

theorem append (h : Trace step s tr s₁) (h' : Trace step s₁ tr' s₂) :
    Trace step s (tr ++ tr') s₂ := by
  induction h with
  | nil => exact h'
  | cons ha _ ih => exact .cons ha (ih h')

theorem snoc (h : Trace step s tr s₁) (ha : step s₁ a s₂) : Trace step s (tr ++ [(s₁, a)]) s₂ :=
  h.append (.single ha)

/-- **An invariant of the steps is an invariant of a trace.** -/
theorem invariant (h : Trace step s tr s') (hstep : ∀ s a s', Inv s → ok s a → step s a s' → Inv s')
    (hok : ∀ x ∈ tr, ok x.1 x.2) (hs : Inv s) : Inv s' := by
  induction h with
  | nil => exact hs
  | cons ha _ ih =>
    refine ih (fun x hx => hok x (List.mem_cons_of_mem _ hx)) ?_
    exact hstep _ _ _ hs (hok _ List.mem_cons_self) ha

end Trace

end Runs
