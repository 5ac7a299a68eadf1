import MonetInR.Gdk.Select.Scan

/-!
# What the bounds of a selection mean

The documentation of `BATsubselect` lists in a table which values each combination of bounds and
switches selects; `Selects` is that table.  `Bounds.Means` is the test that the variables of
`BATsubselect` describe at a point of its execution (it is the test the kernel uses for types
without normalisation).

`NORMALIZE` turns the bounds into a closed range, or into the two outer parts of a complement.
It keeps what the bounds describe, unless the lower one is overwritten while the upper one points
to the same variable.

## Main definitions

* `Selects`: the documented table
* `Bounds.Means`: what the variables describe
* `Bounds.Ready`: what the variables are like when normalisation starts
* `IgnoresNil`, `Aliased`, `Adjacent`: three kinds of arguments that are handled wrongly
* `Bounds.IsRange`: the variables describe a closed range
* `Bounds.Normalized`: the ways normalisation can end

## Main results

* `selected_antiSelect_init`: the variables describe the table before normalisation
* `normalized_normalize`: how normalisation ends
* `scanTest_iff_means`: the test chosen by the scan is the one the variables describe
* `assertion_iff`: when the assertion of the scan holds
-/

namespace MonetInR.Gdk

open Bounds

/-! ## The documented table -/

/-- A point selection of `v`, where `incl` says that all bounds are included. -/
def SelectsPoint (nil v : ℤ) (incl anti : Bool) (x : ℤ) : Prop :=
  if anti then x ≠ nil ∧ (incl → x ≠ v) else incl ∧ x = v
  deriving Decidable

/-- The rows of the table with an upper bound. -/
def SelectsRange (nil tl th : ℤ) (li hi anti : Bool) (x : ℤ) : Prop :=
  if tl = nil then
    if th = nil then x ≠ nil ∧ ¬ anti
    else
      x ≠ nil ∧ (if anti then (if hi then th < x else th ≤ x) else (if hi then x ≤ th else x < th))
  else if th = nil then
    x ≠ nil ∧ (if anti then (if li then x < tl else x ≤ tl) else (if li then tl ≤ x else tl < x))
  else if tl = th then SelectsPoint nil tl (li && hi) anti x
  else if tl < th then
    if anti then x ≠ nil ∧ ((if li then x < tl else x ≤ tl) ∨ (if hi then th < x else th ≤ x))
    else (if li then tl ≤ x else tl < x) ∧ (if hi then x ≤ th else x < th)
  else False
  deriving Decidable

/-- The values selected by the bounds `tl` and `th` (`none` for a missing upper bound), where
`nil` is the nil of the type.  A nil bound means that there is none, except that a nil alone
selects the nils. -/
def Selects (nil tl : ℤ) (th : Option ℤ) (li hi anti : Bool) (x : ℤ) : Prop :=
  match th with
  | none => if tl = nil then (if anti then x ≠ nil else x = nil) else SelectsPoint nil tl li anti x
  | some th => SelectsRange nil tl th li hi anti x

instance (nil tl : ℤ) (th : Option ℤ) (li hi anti : Bool) (x : ℤ) :
    Decidable (Selects nil tl th li hi anti x) :=
  match th with
  | none => inferInstanceAs (Decidable
      (if tl = nil then (if anti then x ≠ nil else x = nil) else SelectsPoint nil tl li anti x))
  | some th => inferInstanceAs (Decidable (SelectsRange nil tl th li hi anti x))

/-! ## What the variables describe -/

namespace Bounds

/-- The test described by the variables: the one of `fullscan_any`. -/
def Means (b : Bounds) (nil x : ℤ) : Prop :=
  if b.equi then x = b.low
  else if b.anti then
    x ≠ nil ∧ ((b.lval ∧ (x < b.low ∨ (¬ b.li ∧ x = b.low))) ∨
      (b.hval ∧ (b.high < x ∨ (¬ b.hi ∧ x = b.high))))
  else
    x ≠ nil ∧ (b.lval → b.low < x ∨ (b.li ∧ x = b.low)) ∧
      (b.hval → x < b.high ∨ (b.hi ∧ x = b.high))

/-- What is selected after `antiSelect` and the test for an empty range. -/
def Selected (nil x : ℤ) : Option Bounds → Prop
  | none => False
  | some b => b.isEmpty = false ∧ b.Means nil x

/-- What the variables are like when normalisation starts. -/
structure Ready (b : Bounds) (nil mx : ℤ) : Prop where
  tl_arg : b.tl = .tlArg ∨ b.tl = .thArg
  th_arg : b.th = .tlArg ∨ b.th = .thArg
  low_le : b.low ≤ mx
  high_le : b.high ≤ mx
  /-- A point has both bounds, included and the same. -/
  equi_point : b.equi = true → b.anti = false ∧ b.lval = true ∧ b.hval = true ∧ b.li = true ∧
    b.hi = true ∧ b.low = b.high
  /-- A complement has both bounds. -/
  anti_both : b.anti = true → b.lval = true ∧ b.hval = true ∧ b.low ≤ b.high
  low_gt : b.equi = false → b.lval = true → nil < b.low
  high_gt : b.equi = false → b.hval = true → nil < b.high
  /-- Two bounds that are equal make a point or its complement. -/
  range : b.equi = false → b.anti = false → b.lval = true → b.hval = true → b.low < b.high

end Bounds

/-- A selection of the nils with an excluded bound: the table ignores `li`, the code does not. -/
def IgnoresNil (nil tl : ℤ) (th : Option ℤ) (li anti : Bool) : Prop :=
  tl = nil ∧ th = none ∧ li = false ∧ anti = false

section Init

variable {nil mx tl th x : ℤ} {li hi anti : Bool}

theorem selected_init_none : Bounds.Selected nil x ((init nil tl none li hi anti).antiSelect nil) ↔
      Selects nil tl none li hi anti x ∧ ¬ IgnoresNil nil tl none li anti := by
  by_cases h : tl = nil
  · subst h
    cases li <;> cases anti <;>
      simp [init, antiSelect, isEmpty, Selects, IgnoresNil,
        Bounds.Selected, Bounds.Means, low, high, deref]
  · cases li <;> cases anti <;>
      simp [init, antiSelect, isEmpty, Selects, SelectsPoint, IgnoresNil,
        Bounds.Selected, Bounds.Means, low, high, deref, h]

theorem selected_init_half (h1 : nil ≤ tl) (h2 : nil ≤ th) (h : tl = nil ∨ th = nil) :
    Bounds.Selected nil x ((init nil tl (some th) li hi anti).antiSelect nil) ↔
      SelectsRange nil tl th li hi anti x := by
  by_cases hl : tl = nil
  · subst hl
    by_cases hh : th = tl
    · subst hh
      cases anti <;>
        simp [init, antiSelect, isEmpty, SelectsRange, Bounds.Selected, Bounds.Means]
    · cases anti <;> cases hi <;>
        simp [init, antiSelect, isEmpty, SelectsRange, Bounds.Selected,
          Bounds.Means, low, high, deref, hh, not_lt.mpr h2] <;> omega
  · obtain rfl := h.resolve_left hl
    have hb' : (th == tl) = false := by simpa using Ne.symm hl
    cases anti <;> cases li <;>
      simp [init, antiSelect, isEmpty, SelectsRange, Bounds.Selected,
        Bounds.Means, low, high, deref, hl, hb', not_lt.mpr h1] <;> omega

theorem selected_init_both (h1 : nil < tl) (h2 : nil < th) :
    Bounds.Selected nil x ((init nil tl (some th) li hi anti).antiSelect nil) ↔
      SelectsRange nil tl th li hi anti x := by
  have hl : (tl == nil) = false := by simpa using h1.ne'
  rcases lt_trichotomy tl th with h | rfl | h
  · have hb : (th == tl) = false := by simpa using h.ne'
    cases anti <;> cases li <;> cases hi <;>
      simp [init, antiSelect, isEmpty, SelectsRange, Bounds.Selected,
        Bounds.Means, low, high, deref, h1.ne', h2.ne', h.ne, hl, hb,
        h.not_gt] <;> omega
  · cases anti <;> cases li <;> cases hi <;>
      simp [init, antiSelect, isEmpty, SelectsRange, SelectsPoint,
        Bounds.Selected, Bounds.Means, low, high, deref, h1.ne']
  · have hb : (th == tl) = false := by simpa using h.ne
    cases anti <;>
      simp [init, antiSelect, isEmpty, SelectsRange, Bounds.Selected,
        low, high, deref, h1.ne', h2.ne', h.ne', h, hl, hb, h.not_gt]

/-- **Before normalisation the variables select what the table says, except that the nils are
missed if they are asked for with an excluded bound.** -/
theorem selected_antiSelect_init {th : Option ℤ} (h1 : nil ≤ tl) (h2 : ∀ v ∈ th, nil ≤ v) :
    Bounds.Selected nil x ((init nil tl th li hi anti).antiSelect nil) ↔
      Selects nil tl th li hi anti x ∧ ¬ IgnoresNil nil tl th li anti := by
  rcases th with _ | th
  · exact selected_init_none
  · have hth : nil ≤ th := h2 th rfl
    have hnot : ¬ IgnoresNil nil tl (some th) li anti := fun h => absurd h.2.1 (by simp)
    rw [and_iff_left hnot]
    by_cases h : tl = nil ∨ th = nil
    · exact selected_init_half h1 hth h
    · rw [not_or] at h
      exact selected_init_both (lt_of_le_of_ne h1 (Ne.symm h.1)) (lt_of_le_of_ne hth (Ne.symm h.2))

end Init

/-! ## The variables in terms of the arguments -/

section Arguments

variable {nil mx tl : ℤ} {th : Option ℤ} {li hi anti : Bool} {b : Bounds}

/-- A complement with included bounds, the upper one the greatest number and the lower one not
the least. -/
def Aliased (nil mx tl : ℤ) (th : Option ℤ) (li hi anti : Bool) : Prop :=
  anti = true ∧ li = true ∧ tl ≠ nil ∧ tl ≠ nil + 1 ∧
    ((th = none ∧ tl = mx) ∨ (th = some mx ∧ hi = true))

/-- Two neighbours as excluded bounds. -/
def Adjacent (nil tl : ℤ) (th : Option ℤ) (li hi anti : Bool) : Prop :=
  anti = false ∧ li = false ∧ hi = false ∧ tl ≠ nil ∧ th = some (tl + 1)

/-- How the variables after `antiSelect` depend on the arguments. -/
structure Prepared (nil tl : ℤ) (th : Option ℤ) (li hi anti : Bool) (b : Bounds) : Prop where
  anti_iff : b.anti = true ↔ anti = true ∧ tl ≠ nil ∧ th ≠ some nil ∧
    ((th = none ∨ th = some tl) → li = true ∧ (th = some tl → hi = true))
  range_iff : (b.equi = false ∧ b.anti = false ∧ b.lval = true ∧ b.hval = true) ↔
    anti = false ∧ tl ≠ nil ∧ th ≠ none ∧ th ≠ some nil ∧ th ≠ some tl
  /-- Two bounds are those of the caller. -/
  bounds : b.equi = false → b.lval = true → b.hval = true →
    b.li = li ∧ b.hi = (if th.isNone then li else hi) ∧ b.low = tl ∧ b.high = th.getD tl
  nils_iff : (b.equi && b.lnil) = true ↔ tl = nil ∧ th = none ∧ anti = false
  all_iff : (!b.equi && !b.lval && !b.hval && b.lnil) = true ↔
    tl = nil ∧ ((th = some nil ∧ anti = false) ∨ (th = none ∧ anti = true))

end Arguments

section Prepared

variable {nil mx tl th : ℤ} {li hi anti : Bool} {b : Bounds}

theorem prepared_init_none (h1 : nil ≤ tl) (h3 : tl ≤ mx)
    (hb : (init nil tl none li hi anti).antiSelect nil = some b) (he : b.isEmpty = false) :
    b.Ready nil mx ∧ Prepared nil tl none li hi anti b := by
  by_cases h : tl = nil
  · subst h
    cases li <;> cases anti <;> simp [init, antiSelect] at hb <;> subst hb <;>
      simp [isEmpty] at he <;> constructor <;> constructor <;>
      simp [low, high, deref, h3]
  · have hl : (tl == nil) = false := by simpa using h
    cases li <;> cases anti <;> simp [init, antiSelect, hl] at hb <;> subst hb <;>
      simp [isEmpty] at he <;> constructor <;> constructor <;>
      simp [h, low, high, deref] <;> omega

theorem prepared_init_half (h1 : nil ≤ tl) (h2 : nil ≤ th) (h3 : tl ≤ mx) (h4 : th ≤ mx)
    (h : tl = nil ∨ th = nil)
    (hb : (init nil tl (some th) li hi anti).antiSelect nil = some b) :
    b.Ready nil mx ∧ Prepared nil tl (some th) li hi anti b := by
  by_cases hl : tl = nil
  · subst hl
    by_cases hh : th = tl
    · subst hh
      cases anti <;> simp [init, antiSelect] at hb
      subst hb
      constructor <;> constructor <;> simp [low, high, deref, h3]
    · have hne : (some th != some tl) = true := by simpa using hh
      cases anti <;> simp [init, antiSelect, hne] at hb <;> subst hb <;>
        constructor <;> constructor <;> simp [hh, low, high, deref] <;> omega
  · obtain rfl := h.resolve_left hl
    have hne : (tl == th) = false := by simpa using hl
    have hne' : (th == tl) = false := by simpa using Ne.symm hl
    cases anti <;> simp [init, antiSelect, hne, hne'] at hb <;> subst hb <;>
      constructor <;> constructor <;> simp [hl, low, high, deref] <;> omega

theorem prepared_init_both (h1 : nil < tl) (h2 : nil < th) (h3 : tl ≤ mx) (h4 : th ≤ mx)
    (hb : (init nil tl (some th) li hi anti).antiSelect nil = some b)
    (he : b.isEmpty = false) : b.Ready nil mx ∧ Prepared nil tl (some th) li hi anti b := by
  have hl : (tl == nil) = false := by simpa using h1.ne'
  have hh : (some th != some nil) = true := by simpa using h2.ne'
  rcases lt_trichotomy tl th with h | rfl | h
  · have hne : (th == tl) = false := by simpa using h.ne'
    cases anti <;> simp [init, antiSelect, hl, hh, hne] at hb <;> subst hb <;>
      constructor <;> constructor <;>
      simp [h1.ne', h2.ne', h.ne', low, high, deref] <;> omega
  · cases anti <;> cases li <;> cases hi <;> simp [init, antiSelect, hl] at hb <;>
      subst hb <;> simp [isEmpty] at he <;> constructor <;> constructor <;>
      simp [h1.ne', low, high, deref] <;> omega
  · -- the bounds are in the wrong order
    have hne : (th == tl) = false := by simpa using h.ne
    cases anti <;> simp [init, antiSelect, hl, hh, hne] at hb <;> subst hb <;>
      simp [isEmpty, low, high, deref, h] at he

/-- What is left after `antiSelect` and is not empty is ready to be normalised. -/
theorem prepared_antiSelect_init {th : Option ℤ} (h1 : nil ≤ tl) (h2 : ∀ v ∈ th, nil ≤ v)
    (h3 : tl ≤ mx) (h4 : ∀ v ∈ th, v ≤ mx)
    (hb : (init nil tl th li hi anti).antiSelect nil = some b) (he : b.isEmpty = false) :
    b.Ready nil mx ∧ Prepared nil tl th li hi anti b := by
  rcases th with _ | th
  · exact prepared_init_none h1 h3 hb he
  · have hth : nil ≤ th := h2 th rfl
    by_cases h : tl = nil ∨ th = nil
    · exact prepared_init_half h1 hth h3 (h4 th rfl) h hb
    · rw [not_or] at h
      exact prepared_init_both (lt_of_le_of_ne h1 (Ne.symm h.1)) (lt_of_le_of_ne hth (Ne.symm h.2))
        h3 (h4 th rfl) hb he

end Prepared

namespace Bounds

variable {b b' : Bounds} {nil mn mx x : ℤ}

/-- The least number of a range that is not a complement. -/
def least (b : Bounds) (mn : ℤ) : ℤ :=
  if b.lval then (if b.li then b.low else b.low + 1) else mn

/-- The greatest number of a range that is not a complement. -/
def greatest (b : Bounds) (mx : ℤ) : ℤ :=
  if b.hval then (if b.hi then b.high else b.high - 1) else mx

/-- The variables describe the closed range from `l` to `u`. -/
structure IsRange (b : Bounds) (l u : ℤ) : Prop where
  equi : b.equi = false
  anti : b.anti = false
  li : b.li = true
  hi : b.hi = true
  lval : b.lval = true
  hval : b.hval = true
  low : b.low = l
  high : b.high = u

theorem closeLow_switches (h : b.closeLow mn mx = some b') :
    b'.li = true ∧ b'.lval = true ∧ b'.hi = b.hi ∧ b'.hval = b.hval ∧ b'.equi = b.equi ∧
      b'.anti = b.anti := by
  unfold closeLow at h
  split_ifs at h with h1 h2 h3 <;> obtain rfl := Option.some.inj h
  · simp [h1]
  · simpa [h1] using h2
  · simp

theorem closeHigh_switches (h : b.closeHigh mn mx = some b') :
    b'.hi = true ∧ b'.hval = true ∧ b'.li = b.li ∧ b'.lval = b.lval ∧ b'.equi = b.equi ∧
      b'.anti = b.anti := by
  unfold closeHigh at h
  split_ifs at h with h1 h2 h3 <;> obtain rfl := Option.some.inj h
  · simp [h1]
  · simpa [h1] using h2
  · simp

theorem closeLow_none (h : b.closeLow mn mx = none) : mx < b.least mn := by
  unfold closeLow at h
  split_ifs at h with h1 h2 h3
  simp_all [least]

theorem closeHigh_none (h : b.closeHigh mn mx = none) : b.greatest mx < mn := by
  unfold closeHigh at h
  split_ifs at h with h1 h2 h3
  simp_all [greatest]

/-- Closing the lower end, as long as `th` does not point to the variable that is written. -/
theorem closeLow_some (hth : b.th ≠ .vl) (hmx : mn ≤ mx) (hle : b.low ≤ mx)
    (h : b.closeLow mn mx = some b') :
    b.least mn ≤ mx ∧ b'.low = b.least mn ∧ b'.high = b.high ∧ (b'.tl = .vl ∨ b'.tl = b.tl) := by
  have hhigh : ∀ v l m, ({ b with vl := v, li := l, tl := .vl, lval := m } : Bounds).high =
      b.high := by
    cases h : b.th <;> simp [high, deref, h] at hth ⊢
  unfold closeLow at h
  split_ifs at h with h1 h2 h3 <;> obtain rfl := Option.some.inj h
  · rw [least, if_pos h1, if_neg (by simpa using h2)]
    exact ⟨by omega, rfl, hhigh _ _ b.lval, .inl rfl⟩
  · rw [least, if_pos h1, if_pos (by simpa using h2)]
    exact ⟨hle, rfl, rfl, .inr rfl⟩
  · rw [least, if_neg h1]
    exact ⟨hmx, rfl, hhigh _ _ true, .inl rfl⟩

theorem closeHigh_some (htl : b.tl ≠ .vh) (hmx : mn ≤ mx) (hge : b.hval = true → mn ≤ b.high)
    (h : b.closeHigh mn mx = some b') :
    mn ≤ b.greatest mx ∧ b'.high = b.greatest mx ∧ b'.low = b.low := by
  have hlow : ∀ v l m, ({ b with vh := v, hi := l, th := .vh, hval := m } : Bounds).low =
      b.low := by
    cases h : b.tl <;> simp [low, deref, h] at htl ⊢
  unfold closeHigh at h
  split_ifs at h with h1 h2 h3 <;> obtain rfl := Option.some.inj h
  · have := hge h1
    rw [greatest, if_pos h1, if_neg (by simpa using h2)]
    exact ⟨by omega, rfl, hlow _ _ b.hval⟩
  · rw [greatest, if_pos h1, if_pos (by simpa using h2)]
    exact ⟨hge h1, rfl, rfl⟩
  · rw [greatest, if_neg h1]
    exact ⟨hmx, rfl, hlow _ _ true⟩

theorem close_spec (he : b.equi = false) (ha : b.anti = false) (hth : b.th ≠ .vl)
    (htl : b.tl ≠ .vh) (hmx : mn ≤ mx) (hle : b.low ≤ mx) (hge : b.hval = true → mn ≤ b.high) :
    ((b.closeLow mn mx).bind (fun b => b.closeHigh mn mx) = none ∧
        (mx < b.least mn ∨ b.greatest mx < mn)) ∨
      ∃ b', (b.closeLow mn mx).bind (fun b => b.closeHigh mn mx) = some b' ∧
        b'.IsRange (b.least mn) (b.greatest mx) ∧ b.least mn ≤ mx ∧ mn ≤ b.greatest mx := by
  cases h1 : b.closeLow mn mx with
  | none => exact .inl ⟨rfl, .inl (closeLow_none h1)⟩
  | some b₁ =>
    obtain ⟨hli, hlval, hhi, hhval, heq, hanti⟩ := closeLow_switches h1
    obtain ⟨hleast, hlow, hhigh, htl1⟩ := closeLow_some hth hmx hle h1
    have htl' : b₁.tl ≠ .vh := by
      rcases htl1 with h | h
      · simp [h]
      · rwa [h]
    have hg : b₁.greatest mx = b.greatest mx := by rw [greatest, greatest, hhval, hhi, hhigh]
    rw [Option.bind_some]
    cases h2 : b₁.closeHigh mn mx with
    | none => exact .inl ⟨rfl, .inr (hg ▸ closeHigh_none h2)⟩
    | some b₂ =>
      obtain ⟨hhi2, hhval2, hli2, hlval2, heq2, hanti2⟩ := closeHigh_switches h2
      obtain ⟨hgreat, hhigh2, hlow2⟩ := closeHigh_some htl' hmx (by rwa [hhval, hhigh]) h2
      refine .inr ⟨b₂, rfl, ?_, hleast, hg ▸ hgreat⟩
      exact ⟨heq2.trans (heq.trans he), hanti2.trans (hanti.trans ha), hli2.trans hli, hhi2,
        hlval2.trans hlval, hhval2, hlow2.trans hlow, hhigh2.trans hg⟩

/-- A complement with included bounds, the upper one the greatest number and the lower one not
the least: `th` is made to point to `vl`, which is then overwritten by the least number. -/
def Aliases (b : Bounds) (nil mx : ℤ) : Prop :=
  b.anti = true ∧ b.li = true ∧ b.hi = true ∧ b.low ≠ nil + 1 ∧ b.high = mx

/-- Two neighbours as excluded bounds: nothing lies between them. -/
def Neighbours (b : Bounds) : Prop :=
  b.equi = false ∧ b.anti = false ∧ b.lval = true ∧ b.hval = true ∧ b.li = false ∧ b.hi = false ∧
    b.high = b.low + 1

theorem not_neighbours (ha : b.anti = true) : ¬ b.Neighbours :=
  fun h => absurd h.2.1 (by simp [ha])

/-- The ways normalisation can end, with what the bounds described before it. -/
inductive Normalized (b : Bounds) (nil mx : ℤ) : Option Bounds → Prop
  | point (he : b.equi = true) : Normalized b nil mx (some b)
  | empty (hm : ∀ x, nil ≤ x → x ≤ mx → ¬ b.Means nil x) (hn : ¬ b.Neighbours)
      (ha : ¬ b.Aliases nil mx) : Normalized b nil mx none
  | range {b' : Bounds} {l u : ℤ} (hb : b'.IsRange l u) (hl : nil < l) (hu : u ≤ mx)
      (hlu : l ≤ u ↔ ¬ b.Neighbours)
      (hm : ∀ x, nil ≤ x → x ≤ mx → (b.Means nil x ↔ l ≤ x ∧ x ≤ u)) (ha : ¬ b.Aliases nil mx) :
      Normalized b nil mx (some b')
  | outside {b' : Bounds} (he : b'.equi = false) (ha : b'.anti = true) (hle : b'.low ≤ b'.high)
      (ht : b'.li = false ∧ b'.hi = false ∧ b'.lval = true ∧ b'.hval = true)
      (hm : ∀ x, b.Means nil x ↔ x ≠ nil ∧ (x ≤ b'.low ∨ b'.high ≤ x)) (ha' : ¬ b.Aliases nil mx)
      (hn : b.anti = true) :
      Normalized b nil mx (some b')
  | aliased {b' : Bounds} (ha : b.Aliases nil mx) (hb : b'.IsRange (nil + 1) (nil + 1)) :
      Normalized b nil mx (some b')

namespace Ready

variable (hr : b.Ready nil mx)

include hr

theorem equi_of_anti (ha : b.anti = true) : b.equi = false := by
  cases h : b.equi with
  | false => rfl
  | true => exact absurd (hr.equi_point h).1 (by simp [ha])

theorem th_ne : b.th ≠ .vl ∧ b.th ≠ .vh := by
  rcases hr.th_arg with h | h <;> simp [h]

theorem tl_ne : b.tl ≠ .vl ∧ b.tl ≠ .vh := by
  rcases hr.tl_arg with h | h <;> simp [h]

theorem normalize_point (he : b.equi = true) : b.normalize mn mx = some b := by
  obtain ⟨ha, hl, hh, hli, hhi, -⟩ := hr.equi_point he
  simp [normalize, normLow, normHigh, closeLow, closeHigh, ha, hl, hh, hli, hhi]

end Ready

/-- A range that is not a complement has a least and a greatest number. -/
theorem means_iff_range (he : b.equi = false) (ha : b.anti = false) (h1 : nil ≤ x) (h2 : x ≤ mx) :
    b.Means nil x ↔ x ≠ nil ∧ b.least (nil + 1) ≤ x ∧ x ≤ b.greatest mx := by
  rw [Means, if_neg (by simp [he]), if_neg (by simp [ha]), least, greatest]
  cases hl : b.lval <;> cases hli : b.li <;> cases hh : b.hval <;> cases hhi : b.hi <;>
    simp <;> omega

/-- Closing variables `b₁` that describe the same range as `b` did. -/
theorem normalized_of_close {b₁ : Bounds} (he : b₁.equi = false) (ha : b₁.anti = false)
    (hth : b₁.th ≠ .vl) (htl : b₁.tl ≠ .vh) (hmx : nil < mx) (hle : b₁.low ≤ mx)
    (hge : b₁.hval = true → nil < b₁.high) (hal : ¬ b.Aliases nil mx)
    (hl : nil < b₁.least (nil + 1)) (hu : b₁.greatest mx ≤ mx)
    (hn : b.Neighbours → b₁.least (nil + 1) ≤ mx ∧ nil + 1 ≤ b₁.greatest mx)
    (hlu : b₁.least (nil + 1) ≤ mx → nil + 1 ≤ b₁.greatest mx →
      (b₁.least (nil + 1) ≤ b₁.greatest mx ↔ ¬ b.Neighbours)) (hm : ∀ x, nil ≤ x → x ≤ mx →
      (b.Means nil x ↔ x ≠ nil ∧ b₁.least (nil + 1) ≤ x ∧ x ≤ b₁.greatest mx)) :
    b.Normalized nil mx ((b₁.closeLow (nil + 1) mx).bind fun b => b.closeHigh (nil + 1) mx) := by
  rcases close_spec he ha hth htl hmx hle hge with ⟨hnone, hempty⟩ | ⟨b', hsome, hb', h1, h2⟩
  · rw [hnone]
    refine .empty (fun x h1 h2 => ?_) (fun h => ?_) hal
    · rw [hm x h1 h2]
      omega
    · obtain ⟨h1, h2⟩ := hn h
      omega
  · rw [hsome]
    refine .range hb' hl hu (hlu h1 h2) (fun x h3 h4 => ?_) hal
    rw [hm x h3 h4, and_iff_right_iff_imp]
    rintro ⟨h, -⟩ rfl
    exact absurd h (not_le.mpr hl)

section

variable (hr : b.Ready nil mx)

include hr

/-- The ends of a range that is ready are numbers, and they are in order unless they come from
two neighbours. -/
theorem least_greatest (he : b.equi = false) (ha : b.anti = false) :
    nil < b.least (nil + 1) ∧ b.greatest mx ≤ mx ∧
      (b.Neighbours → b.least (nil + 1) ≤ mx ∧ nil + 1 ≤ b.greatest mx) ∧
      (b.least (nil + 1) ≤ mx → nil + 1 ≤ b.greatest mx →
        (b.least (nil + 1) ≤ b.greatest mx ↔ ¬ b.Neighbours)) := by
  have hl := hr.low_gt he
  have hlh := hr.range he ha
  have hhigh := hr.high_le
  refine ⟨?_, ?_, ?_, fun h1 h2 => ?_⟩
  · rw [least]
    split_ifs with h h'
    · exact hl h
    · exact (hl h).trans (lt_add_one _)
    · exact lt_add_one _
  · rw [greatest]
    split_ifs <;> omega
  · rintro ⟨-, -, hlv, hhv, hli, hhi, h⟩
    have := hl hlv
    simp only [least, greatest]
    omega
  · rw [least, greatest] at *
    cases hlv : b.lval <;> cases hhv : b.hval <;> cases hli : b.li <;> cases hhi : b.hi <;>
      simp [hlv, hhv, hli, hhi, he, ha, Neighbours] at * <;> omega

theorem normalized_range (hmx : nil < mx) (he : b.equi = false) (ha : b.anti = false) :
    b.Normalized nil mx (b.normalize (nil + 1) mx) := by
  have hstep : b.normalize (nil + 1) mx =
      (b.closeLow (nil + 1) mx).bind fun b => b.closeHigh (nil + 1) mx := by
    simp [normalize, normLow, normHigh, ha]
  obtain ⟨hl, hu, hn, hlu⟩ := least_greatest hr he ha
  rw [hstep]
  exact normalized_of_close he ha hr.th_ne.1 hr.tl_ne.2 hmx hr.low_le (hr.high_gt he)
    (fun h => absurd h.1 (by simp [ha])) hl hu hn hlu fun x h1 h2 => means_iff_range he ha h1 h2

section

variable (ha : b.anti = true)

include ha

theorem means_iff_outside :
    b.Means nil x ↔ x ≠ nil ∧ (x ≤ (if b.li then b.low - 1 else b.low) ∨
      (if b.hi then b.high + 1 else b.high) ≤ x) := by
  obtain ⟨hl, hh, -⟩ := hr.anti_both ha
  rw [Means, if_neg (by simp [hr.equi_of_anti ha]), if_pos ha]
  cases hli : b.li <;> cases hhi : b.hi <;> simp [hl, hh] <;> omega

theorem normalized_above (hmx : nil < mx) (hli : b.li = true) (hlow : b.low = nil + 1) :
    b.Normalized nil mx (b.normalize (nil + 1) mx) := by
  have he := hr.equi_of_anti ha
  obtain ⟨hlv, hhv, hlh⟩ := hr.anti_both ha
  have hle := hr.high_le
  have hn := not_neighbours ha
  set b₁ : Bounds := { b with anti := false, tl := b.th, li := !b.hi, hval := false } with hb1
  have hstep : b.normalize (nil + 1) mx =
      (b₁.closeLow (nil + 1) mx).bind fun b => b.closeHigh (nil + 1) mx := by
    simp [normalize, normLow, normHigh, ha, hli, hlow, hb1]
  have hleast : b₁.least (nil + 1) = if b.hi then b.high + 1 else b.high := by
    cases hhi : b.hi <;> simp [least, hb1, hlv, hhi, low, high, deref]
  have hgreat : b₁.greatest mx = mx := rfl
  rw [hstep]
  refine normalized_of_close he rfl hr.th_ne.1 hr.th_ne.2 hmx hle (by simp [hb1])
    (fun h => h.2.2.2.1 hlow) ?_ hgreat.le (fun h => absurd h hn) (fun h _ => ?_)
    fun x h1 h2 => ?_
  · rw [hleast]
    split_ifs <;> omega
  · rwa [hgreat, iff_true_left h]
  · rw [means_iff_outside hr ha, hli, if_pos rfl]
    omega

/-- A complement with nothing above its range, the lower bound of which is excluded. -/
theorem normalized_below (hmx : nil < mx) (hli : b.li = false) (hhi : b.hi = true)
    (hhigh : b.high = mx) :
    b.Normalized nil mx (b.normalize (nil + 1) mx) := by
  have he := hr.equi_of_anti ha
  obtain ⟨hlv, hhv, hlh⟩ := hr.anti_both ha
  have hlow := hr.low_gt he hlv
  have hn := not_neighbours ha
  set b₁ : Bounds := { b with anti := false, th := b.tl, hi := true, lval := false } with hb1
  have hstep : b.normalize (nil + 1) mx =
      (b₁.closeLow (nil + 1) mx).bind fun b => b.closeHigh (nil + 1) mx := by
    simp [normalize, normLow, normHigh, ha, hli, hhi, hhigh, hb1]
  have hleast : b₁.least (nil + 1) = nil + 1 := rfl
  have hgreat : b₁.greatest mx = b.low := by simp [greatest, hb1, hhv, low, high, deref]
  rw [hstep]
  refine normalized_of_close he rfl hr.tl_ne.1 hr.tl_ne.2 hmx hr.low_le (fun _ => hlow)
    (fun h => absurd h.2.1 (by simp [hli])) (by omega)
    (by rw [hgreat]; exact hr.low_le)
    (fun h => absurd h hn) (fun _ h => ?_) fun x h1 h2 => ?_
  · rwa [hleast, iff_true_left h]
  · rw [means_iff_outside hr ha, hli, hhi, if_pos rfl, if_neg (by simp)]
    omega

/-- The lower bound of a complement is excluded, unless nothing lies below it. -/
theorem normLow_spec (hl : ¬ (b.li = true ∧ b.low = mn)) :
    ∃ v p, b.normLow mn = { b with vl := v, tl := p, li := false } ∧ p ≠ .vh ∧
      (b.li = true → p = .vl) ∧ (b.normLow mn).high = b.high ∧
      (b.normLow mn).low = if b.li then b.low - 1 else b.low := by
  cases hli : b.li with
  | false =>
    have hb : b.normLow mn = b := by simp [normLow, hli]
    refine ⟨b.vl, b.tl, ?_, hr.tl_ne.2, by simp, by rw [hb], by rw [hb]; rfl⟩
    rw [hb, ← hli]
  | true =>
    have hne : b.low ≠ mn := fun h => hl ⟨hli, h⟩
    have hb : b.normLow mn = { b with vl := b.low - 1, tl := .vl, li := false } := by
      simp [normLow, ha, hli, hne]
    refine ⟨_, _, hb, by simp, by simp, ?_, by rw [hb]; rfl⟩
    rw [hb]
    rcases hr.th_arg with h | h <;> simp [high, deref, h]

/-- Normalisation of a complement with numbers on both sides: both bounds are excluded. -/
theorem normalize_outside (hl : ¬ (b.li = true ∧ b.low = mn))
    (hh : ¬ (b.hi = true ∧ b.high = mx)) :
    ∃ b', b.normalize mn mx = some b' ∧ b'.equi = false ∧ b'.anti = true ∧
      (b'.li = false ∧ b'.hi = false ∧ b'.lval = true ∧ b'.hval = true) ∧
      b'.low = (if b.li then b.low - 1 else b.low) ∧
      b'.high = (if b.hi then b.high + 1 else b.high) := by
  have he := hr.equi_of_anti ha
  obtain ⟨hlv, hhv, hlh⟩ := hr.anti_both ha
  obtain ⟨v, p, hb, hp, -, hhigh1, hlow1⟩ := normLow_spec hr ha hl
  -- the upper bound is written to `vh`, to which `tl` does not point
  obtain ⟨w, q, hb', hlow', hhigh'⟩ : ∃ w q, (b.normLow mn).normHigh mx =
        { b with vl := v, vh := w, tl := p, th := q, li := false, hi := false } ∧
      ((b.normLow mn).normHigh mx).low = (if b.li then b.low - 1 else b.low) ∧
      ((b.normLow mn).normHigh mx).high = (if b.hi then b.high + 1 else b.high) := by
    cases hhi : b.hi with
    | false =>
      have hn : (b.normLow mn).normHigh mx = b.normLow mn := by
        rw [hb]
        simp [normHigh, hhi]
      refine ⟨b.vh, b.th, ?_, by rw [hn, hlow1], by rw [hn, hhigh1]; rfl⟩
      rw [hn, hb, hhi]
    | true =>
      have hn : (b.normLow mn).normHigh mx =
          { b with vl := v, vh := b.high + 1, tl := p, th := .vh, li := false, hi := false } := by
        rw [normHigh, hhigh1, if_neg (fun h => hh ⟨hhi, h⟩), hb]
        simp [ha, hhi]
      refine ⟨_, _, hn, ?_, by rw [hn]; rfl⟩
      rw [hn, ← hlow1, hb]
      cases p <;> simp [low, deref] at hp ⊢
  refine ⟨(b.normLow mn).normHigh mx, ?_, ?_, ?_, ?_, hlow', hhigh'⟩
  · rw [normalize, hb']
    simp [ha]
  · rw [hb']
    exact he
  · rw [hb']
    exact ha
  · rw [hb']
    exact ⟨rfl, rfl, hlv, hhv⟩

theorem normalized_outside (hl : ¬ (b.li = true ∧ b.low = nil + 1))
    (hh : ¬ (b.hi = true ∧ b.high = mx)) :
    b.Normalized nil mx (b.normalize (nil + 1) mx) := by
  obtain ⟨-, -, hlh⟩ := hr.anti_both ha
  obtain ⟨b', hstep, he, ha', ht, hlow, hhigh⟩ := normalize_outside hr ha hl hh
  rw [hstep]
  refine .outside he ha' ?_ ht (fun x => ?_) (fun h => hh ⟨h.2.2.1, h.2.2.2.2⟩) ha
  · rw [hlow]
    split_ifs <;> omega
  · rw [hlow, hhigh, means_iff_outside hr ha]

end

/-- A complement with nothing above its range, the lower bound of which is included. -/
theorem normalized_aliased (ha : b.Aliases nil mx) :
    b.Normalized nil mx (b.normalize (nil + 1) mx) := by
  obtain ⟨hanti, hli, hhi, hlow, hhigh⟩ := id ha
  obtain ⟨hlv, hhv, hlh⟩ := hr.anti_both hanti
  obtain ⟨v, p, hb, -, hp, hhigh1, -⟩ := normLow_spec hr hanti (fun h => hlow h.2)
  obtain rfl := hp hli
  have hstep : (b.normLow (nil + 1)).normHigh mx =
      { b with vl := v, tl := .vl, th := .vl, li := false, lval := false, anti := false } := by
    rw [normHigh, hhigh1, hhigh, hb]
    simp [hanti, hhi]
  have hend : b.normalize (nil + 1) mx = some { b with
      vl := nil + 1, tl := .vl, th := .vl, li := true, lval := true, anti := false } := by
    rw [normalize, hstep]
    simp [closeLow, closeHigh, hhi, hhv]
  rw [hend]
  exact .aliased ha ⟨hr.equi_of_anti hanti, rfl, rfl, hhi, rfl, hhv, rfl, rfl⟩

/-- **How normalisation ends.** -/
theorem normalized_normalize (hmx : nil < mx) :
    b.Normalized nil mx (b.normalize (nil + 1) mx) := by
  cases he : b.equi with
  | true =>
    rw [hr.normalize_point he]
    exact .point he
  | false =>
    cases ha : b.anti with
    | false => exact normalized_range hr hmx he ha
    | true =>
      by_cases hl : b.li = true ∧ b.low = nil + 1
      · exact normalized_above hr ha hmx hl.1 hl.2
      · by_cases hh : b.hi = true ∧ b.high = mx
        · cases hli : b.li with
          | false => exact normalized_below hr ha hmx hli hh.1 hh.2
          | true => exact normalized_aliased hr ⟨ha, hli, hh.1, fun h => hl ⟨hli, h⟩, hh.2⟩
        · exact normalized_outside hr ha hl hh

end

theorem IsRange.means_iff {l u : ℤ} (hb : b.IsRange l u) (hl : nil < l) :
    b.Means nil x ↔ l ≤ x ∧ x ≤ u := by
  rw [Means, if_neg (by simp [hb.equi]), if_neg (by simp [hb.anti]), hb.lval, hb.hval, hb.li, hb.hi,
    hb.low, hb.high]
  simp only [forall_const, true_and]
  omega

/-- Normalisation keeps what the variables describe, unless the bounds are aliased. -/
theorem Normalized.means_iff {b' : Bounds} (h : b.Normalized nil mx (some b'))
    (ha : ¬ b.Aliases nil mx) (h1 : nil ≤ x) (h2 : x ≤ mx) : b'.Means nil x ↔ b.Means nil x := by
  cases h with
  | point he => exact Iff.rfl
  | range hb hl _ _ hm => rw [hm x h1 h2, hb.means_iff hl]
  | aliased ha' => exact absurd ha' ha
  | outside he ha _ ht hm =>
    obtain ⟨hli, hhi, hlv, hhv⟩ := ht
    rw [hm x, Means, he, ha, hli, hhi, hlv, hhv]
    simp only [Bool.false_eq_true, if_false, if_true, not_false_eq_true, true_and]
    omega

theorem Normalized.means_of_aliases {b' : Bounds} (h : b.Normalized nil mx (some b'))
    (ha : b.Aliases nil mx) (hr : b.Ready nil mx) : b'.Means nil x ↔ x = nil + 1 := by
  cases h with
  | point he => exact absurd (hr.equi_of_anti ha.1) (by simp [he])
  | range _ _ _ _ _ ha' => exact absurd ha ha'
  | aliased _ hb =>
    rw [hb.means_iff (lt_add_one _)]
    omega
  | outside _ _ _ _ _ ha' => exact absurd ha ha'

theorem scanTest_iff_means {t : IntType} {nonil : Bool} {b' : Bounds} {x : ℤ}
    (h : b.Normalized t.min t.max (some b')) (h1 : t.min ≤ x) (h2 : x ≤ t.max)
    (hn : nonil = true → x ≠ t.min) :
    scanTest t nonil b'.equi b'.anti b'.low b'.high x = true ↔ b'.Means t.min x := by
  have hrange : ∀ {l u : ℤ}, b'.IsRange l u → t.min < l → u ≤ t.max →
      (scanTest t nonil b'.equi b'.anti b'.low b'.high x = true ↔ b'.Means t.min x) := by
    intro l u hb hl hu
    rw [hb.means_iff hl, scanTest, hb.equi, hb.anti, hb.low, hb.high]
    cases nonil with
    | false =>
      simp only [Bool.false_eq_true, if_false, Bool.false_and]
      split_ifs <;> simp
      omega
    | true =>
      have := hn rfl
      simp only [Bool.false_eq_true, if_false, Bool.true_and, decide_eq_true_eq]
      split_ifs <;> simp <;> omega
  cases h with
  | point he => simp [scanTest, Means, he]
  | range hb hl hu => exact hrange hb hl hu
  | aliased _ hb => exact hrange hb (lt_add_one _) t.min_lt_max
  | outside he ha _ ht =>
    obtain ⟨hli, hhi, hlv, hhv⟩ := ht
    rw [scanTest, Means, he, ha, hli, hhi, hlv, hhv]
    cases nonil with
    | false => simp; omega
    | true =>
      have := hn rfl
      simp; omega

/-- **The assertion of the scan fails for two neighbours as excluded bounds, and for nothing
else.** -/
theorem assertion_iff {b' : Bounds} (hr : b.Ready nil mx) (h : b.Normalized nil mx (some b')) :
    (!b'.lval || !b'.hval || b'.low ≤ b'.high) = true ↔ ¬ b.Neighbours := by
  cases h with
  | point he =>
    have hn : ¬ b.Neighbours := fun h => absurd he (by simp [h.1])
    simp [hn, (hr.equi_point he).2.2.2.2.2]
  | range hb _ _ hlu => simp [hb.lval, hb.hval, hb.low, hb.high, hlu]
  | aliased ha hb =>
    simp [not_neighbours ha.1, hb.low, hb.high]
  | outside _ _ hle _ _ _ ha => simp [not_neighbours ha, hle]

end Bounds

section Arguments

variable {nil mx tl : ℤ} {th : Option ℤ} {li hi anti : Bool} {b : Bounds}

theorem aliases_iff (hp : Prepared nil tl th li hi anti b) (hr : b.Ready nil mx) (hmx : nil < mx) :
    b.Aliases nil mx ↔ Aliased nil mx tl th li hi anti := by
  constructor
  · rintro ⟨ha, hli, hhi, hlow, hhigh⟩
    obtain ⟨h1, h2, h3, -⟩ := hp.anti_iff.mp ha
    obtain ⟨hlv, hhv, -⟩ := hr.anti_both ha
    obtain ⟨e₁, e₂, e₃, e₄⟩ := hp.bounds (hr.equi_of_anti ha) hlv hhv
    refine ⟨h1, e₁ ▸ hli, h2, e₃ ▸ hlow, ?_⟩
    rcases th with _ | th
    · exact .inl ⟨rfl, e₄.symm.trans hhigh⟩
    · exact .inr ⟨congrArg some (e₄.symm.trans hhigh), e₂.symm.trans hhi⟩
  · rintro ⟨rfl, rfl, h1, h2, hth⟩
    have ha : b.anti = true := by
      refine hp.anti_iff.mpr ⟨rfl, h1, ?_, fun _ => ⟨rfl, ?_⟩⟩
      · rcases hth with ⟨rfl, -⟩ | ⟨rfl, -⟩
        · simp
        · simpa using hmx.ne'
      · rcases hth with ⟨rfl, -⟩ | ⟨rfl, rfl⟩ <;> simp
    obtain ⟨hlv, hhv, -⟩ := hr.anti_both ha
    obtain ⟨e₁, e₂, e₃, e₄⟩ := hp.bounds (hr.equi_of_anti ha) hlv hhv
    refine ⟨ha, e₁, ?_, e₃ ▸ h2, ?_⟩
    · rcases hth with ⟨rfl, -⟩ | ⟨rfl, rfl⟩ <;> exact e₂
    · rcases hth with ⟨rfl, h⟩ | ⟨rfl, -⟩
      · exact e₄.trans h
      · exact e₄

theorem neighbours_iff (hp : Prepared nil tl th li hi anti b) (h1 : nil ≤ tl) :
    b.Neighbours ↔ Adjacent nil tl th li hi anti := by
  constructor
  · rintro ⟨he, ha, hlv, hhv, hli, hhi, hhigh⟩
    obtain ⟨h1, h2, h3, -, -⟩ := hp.range_iff.mp ⟨he, ha, hlv, hhv⟩
    obtain ⟨e₁, e₂, e₃, e₄⟩ := hp.bounds he hlv hhv
    obtain ⟨th, rfl⟩ := Option.ne_none_iff_exists'.mp h3
    refine ⟨h1, e₁ ▸ hli, e₂.symm.trans hhi, h2, ?_⟩
    rw [← e₃, ← hhigh, e₄]
    rfl
  · rintro ⟨rfl, rfl, rfl, h2, rfl⟩
    obtain ⟨he, ha, hlv, hhv⟩ := hp.range_iff.mpr ⟨rfl, h2, by simp, by simp; omega, by simp⟩
    obtain ⟨e₁, e₂, e₃, e₄⟩ := hp.bounds he hlv hhv
    exact ⟨he, ha, hlv, hhv, e₁, e₂, by rw [e₃, e₄]; rfl⟩

end Arguments

end MonetInR.Gdk
