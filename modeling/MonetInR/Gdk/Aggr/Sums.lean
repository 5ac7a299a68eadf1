import MonetInR.Gdk.Aggr.Accounting
import MonetInR.Gdk.Calc.BulkConvert

/-!
# Sums of groups

The sum of some values is nil if there are none, or if one of them is nil and nils are not skipped.
Overflow of an intermediate sum is an error, or makes the sum nil.  Each of the paths of
`BATgroupsum` computes this for some values only:

* the loop for several groups takes the sum of nils that are skipped to be 0;
* the loop for a single group with an array of candidates goes on adding to a sum that is nil;
* the conversion of the column is right for the candidates that `BATconvert` handles.

A grouped aggregate is to account every candidate row to the group recorded for it, and to no other.

## Main definitions

* `sumValues`: the sum
* `SumsRightly`: the inputs for which the sums are right

## Main results

* `sumValues_eq_sum`
* `BATgroupsum_spec`
* `group_aggregates`: what the functions return, and when they account every row to its group
-/

namespace MonetInR.Gdk

open GroupFold List Option

/-! ## The sum of some values

The specification adds the values in their order and checks every intermediate sum, as the loops do.
A sum that has become nil stays nil. -/

section Values

variable {t t' : IntType} {skipNils abort : Bool}

/-- Add a value to a sum, which is `none` before the first one. -/
def addValue (t t' : IntType) (skipNils abort : Bool) (acc : Option ℤ) (x : ℤ) :
    Option (Option ℤ) :=
  if x = t.min then if skipNils then some acc else some (some t'.min)
  else if acc = some t'.min then some acc
  else (ADD_WITH_CHECK t' abort x (acc.getD 0)).map fun r => some r.1

/-- **The sum of some values**, or `none` for an overflow error. -/
def sumValues (t t' : IntType) (skipNils abort : Bool) (xs : List ℤ) : Option ℤ :=
  (xs.foldlM (addValue t t' skipNils abort) none).map fun acc => acc.getD t'.min

theorem addWithCheck_cases (abort : Bool) {lft : ℤ} (rgt : ℤ) (h : t'.min ≤ lft) :
    ADD_WITH_CHECK t' abort lft rgt = none ∧ abort = true ∨
    ADD_WITH_CHECK t' abort lft rgt = some (t'.min, true) ∨
    ADD_WITH_CHECK t' abort lft rgt = some (lft + rgt, false) ∧ lft + rgt ≠ t'.min := by
  unfold ADD_WITH_CHECK
  by_cases hover : addOverflows t' lft rgt
  · simp only [if_pos hover]
    cases abort
    · exact .inr (.inl rfl)
    · exact .inl ⟨rfl, rfl⟩
  · rw [if_neg hover]
    refine .inr (.inr ⟨rfl, ?_⟩)
    unfold addOverflows at hover
    split_ifs at hover <;> omega

variable {x : ℤ} {acc : Option ℤ} {xs : List ℤ} {st : SumState}

theorem addValue_nil (hx : x = t.min) :
    addValue t t' skipNils abort acc x = some (if skipNils then acc else some t'.min) := by
  rw [addValue, if_pos hx]
  cases skipNils <;> rfl

theorem addValue_number (hx : x ≠ t.min) (hacc : acc ≠ some t'.min) :
    addValue t t' skipNils abort acc x =
      (ADD_WITH_CHECK t' abort x (acc.getD 0)).map fun r => some r.1 := by
  rw [addValue, if_neg hx, if_neg hacc]

theorem addValue_of_nil (x : ℤ) :
    addValue t t' skipNils abort (some t'.min) x = some (some t'.min) := by
  unfold addValue
  rw [if_pos rfl]
  split_ifs <;> rfl

theorem foldlM_addValue_nil (xs : List ℤ) :
    xs.foldlM (addValue t t' skipNils abort) (some t'.min) = some (some t'.min) := by
  induction xs with
  | nil => rfl
  | cons x xs ih =>
    rw [foldlM_cons, addValue_of_nil]
    exact ih

/-! ## A single group

The loop keeps a sum and whether it has seen a value.  As long as the sum is not nil, this is the
sum of the specification; a loop that leaves as soon as it is nil agrees to the end. -/

/-- Before the first nil, the loop for a single group has the sum. -/
def SumRel (t' : IntType) (st : SumState) (acc : Option ℤ) : Prop :=
  st.nils = false ∧ (acc = none ∧ st.sum = 0 ∧ st.seenval = false ∨
    acc = some st.sum ∧ st.sum ≠ t'.min ∧ st.seenval = true)

theorem SumRel.ne_nil (h : SumRel t' st acc) :
    acc ≠ some t'.min ∧ acc.getD 0 = st.sum := by
  rcases h.2 with ⟨rfl, hsum, -⟩ | ⟨rfl, hne, -⟩
  · exact ⟨nofun, hsum.symm⟩
  · exact ⟨fun heq => hne (some.inj heq), rfl⟩

/-- What is stored at the end. -/
def SumState.result (t' : IntType) (st : SumState) : ℤ := if st.seenval then st.sum else t'.min

theorem SumRel.result (h : SumRel t' st acc) :
    st.result t' = acc.getD t'.min := by
  unfold SumState.result
  rcases h.2 with ⟨rfl, -, hseen⟩ | ⟨rfl, -, hseen⟩ <;> simp [hseen]

/-- One step keeps the relation, fails on both sides, or makes both sums nil. -/
theorem singleStep_spec (t : IntType) (skipNils abort : Bool)
    (h : SumRel t' st acc) (hx : t'.min ≤ x) :
    singleStep t t' skipNils abort false st x = none ∧ addValue t t' skipNils abort acc x = none ∨
    (∃ st' acc', singleStep t t' skipNils abort false st x = some st' ∧
        addValue t t' skipNils abort acc x = some acc' ∧ SumRel t' st' acc') ∨
    ∃ st', singleStep t t' skipNils abort false st x = some st' ∧
        addValue t t' skipNils abort acc x = some (some t'.min) ∧ st'.nils = true ∧
        st'.sum = t'.min := by
  obtain ⟨hacc, hsum⟩ := h.ne_nil
  by_cases hnil : x = t.min
  · rw [singleStep, if_pos ⟨rfl, hnil⟩, addValue_nil hnil]
    cases skipNils
    · exact .inr (.inr ⟨_, rfl, rfl, rfl, rfl⟩)
    · exact .inr (.inl ⟨st, acc, rfl, rfl, h⟩)
  rw [singleStep, if_neg (fun hc => hnil hc.2), addValue_number hnil hacc, hsum]
  rcases addWithCheck_cases abort st.sum hx with ⟨hadd, -⟩ | hadd | ⟨hadd, hne⟩
  · exact .inl ⟨by rw [hadd]; rfl, by rw [hadd]; rfl⟩
  · exact .inr (.inr ⟨_, by rw [hadd]; rfl, by rw [hadd]; rfl, Bool.or_true _, rfl⟩)
  · refine .inr (.inl ⟨_, _, by rw [hadd]; rfl, by rw [hadd]; rfl, ?_, .inr ⟨rfl, hne, rfl⟩⟩)
    rw [h.1]
    rfl

theorem singleLoop_eq (h : SumRel t' st acc) (hxs : ∀ x ∈ xs, t'.min ≤ x) :
    (singleLoop t t' skipNils abort false xs st).map (SumState.result t') =
      (xs.foldlM (addValue t t' skipNils abort) acc).map fun acc => acc.getD t'.min := by
  induction xs generalizing st acc with
  | nil => exact congrArg some h.result
  | cons x xs ih =>
    rw [singleLoop, if_neg (by simp [h.1]), foldlM_cons]
    rcases singleStep_spec t skipNils abort h (hxs x mem_cons_self) with
      ⟨h1, h2⟩ | ⟨st', acc', h1, h2, hrel⟩ | ⟨st', h1, h2, hnils, hsum⟩
    · rw [h1, h2]
      rfl
    · rw [h1, h2]
      exact ih hrel fun y hy => hxs y (mem_cons_of_mem x hy)
    rw [h1, h2]
    -- the loop ends here, and the sum stays nil
    have hend : singleLoop t t' skipNils abort false xs st' = some st' := by
      cases xs with
      | nil => rfl
      | cons y ys => rw [singleLoop, if_pos hnils]
    change (singleLoop t t' skipNils abort false xs st').map _ =
      (xs.foldlM (addValue t t' skipNils abort) (some t'.min)).map _
    rw [hend, foldlM_addValue_nil, map_some, SumState.result, hsum]
    simp

/-- Without nils in the column there is no test for nil, and `seen` is set beforehand. -/
theorem singleLoop_nonil (hxs : ∀ x ∈ xs, x ≠ t.min) (st : SumState) :
    singleLoop t t' skipNils abort true xs st = singleLoop t t' skipNils abort false xs st := by
  induction xs generalizing st with
  | nil => rfl
  | cons x xs ih =>
    have hstep : singleStep t t' skipNils abort true st x =
        singleStep t t' skipNils abort false st x := by
      rw [singleStep, singleStep, if_neg (fun hc => nomatch hc.1),
        if_neg fun hc => hxs x mem_cons_self hc.2]
    refine ite_congr rfl (fun _ => rfl) fun _ => ?_
    congr 1
    funext st'
    exact ih (fun y hy => hxs y (mem_cons_of_mem x hy)) st'

theorem singleLoop_seen (hx : x ≠ t.min) (xs : List ℤ) (seen : Bool) :
    singleLoop t t' skipNils abort false (x :: xs) ⟨0, false, seen⟩ =
      singleLoop t t' skipNils abort false (x :: xs) ⟨0, false, false⟩ := by
  have hstep : ∀ seen, singleStep t t' skipNils abort false ⟨0, false, seen⟩ x =
      (ADD_WITH_CHECK t' abort x 0).map fun r => ⟨r.1, r.2, true⟩ := fun seen => by
    rw [singleStep, if_neg fun hc => hx hc.2]
    simp
  rw [singleLoop, singleLoop, hstep, hstep]
  rfl

/-- **No value follows a nil sum**: once the sum is nil, by a nil that is not skipped or by an
overflow, all other values are nil. -/
def NoneAfterNil (t t' : IntType) (skipNils abort : Bool) (acc : Option ℤ) (xs : List ℤ) : Prop :=
  ∀ pre x post, xs = pre ++ x :: post → x ≠ t.min →
    pre.foldlM (addValue t t' skipNils abort) acc ≠ some (some t'.min)

/-- Nils leave a sum alone that is nil. -/
theorem foldlM_singleStep_nils (hxs : ∀ x ∈ xs, x = t.min) (hsum : st.sum = t'.min) :
    (xs.foldlM (singleStep t t' skipNils abort false) st).map (SumState.result t') =
      some t'.min := by
  induction xs generalizing st with
  | nil => simp [SumState.result, hsum]
  | cons x xs ih =>
    obtain ⟨hx, hxs⟩ := forall_mem_cons.mp hxs
    rw [foldlM_cons, singleStep, if_pos ⟨rfl, hx⟩]
    cases skipNils
    · exact ih hxs rfl
    · exact ih hxs hsum

/-- The loop with an array of candidates computes the sum if nothing is added to a sum that is
nil. -/
theorem foldlM_singleStep (h : SumRel t' st acc) (hxs : ∀ x ∈ xs, t'.min ≤ x)
    (hnil : NoneAfterNil t t' skipNils abort acc xs) :
    (xs.foldlM (singleStep t t' skipNils abort false) st).map (SumState.result t') =
      (xs.foldlM (addValue t t' skipNils abort) acc).map fun acc => acc.getD t'.min := by
  induction xs generalizing st acc with
  | nil => exact congrArg some h.result
  | cons x xs ih =>
    rw [foldlM_cons, foldlM_cons]
    rcases singleStep_spec t skipNils abort h (hxs x mem_cons_self) with
      ⟨h1, h2⟩ | ⟨st', acc', h1, h2, hrel⟩ | ⟨st', h1, h2, -, hsum⟩
    · rw [h1, h2]
      rfl
    · rw [h1, h2]
      refine ih hrel (fun y hy => hxs y (mem_cons_of_mem x hy)) fun pre y post heq hy hpre => ?_
      refine hnil (x :: pre) y post (by rw [heq, cons_append]) hy ?_
      rw [foldlM_cons, h2]
      exact hpre
    · -- the sum is nil, so that only nils are left
      have hrest : ∀ y ∈ xs, y = t.min := by
        intro y hy
        obtain ⟨pre, post, rfl⟩ := append_of_mem hy
        by_contra hne
        refine hnil (x :: pre) y post rfl hne ?_
        rw [foldlM_cons, h2]
        exact foldlM_addValue_nil pre
      rw [h1, h2]
      refine (foldlM_singleStep_nils hrest hsum).trans ?_
      change _ = (xs.foldlM (addValue t t' skipNils abort) (some t'.min)).map _
      rw [foldlM_addValue_nil]
      rfl

/-! ## Several groups

A group is set to 0 when its first row is met, whether the value of that row is nil or not.  This is
why a group of skipped nils gets the sum 0. -/

theorem groupStep_first (y x : ℤ) : groupStep t t' skipNils abort true (y, false) x =
      groupStep t t' skipNils abort true (0, true) x := by
  simp [groupStep]

/-- The loop for several groups has the sum of a group that it has seen, with 0 for no values. -/
theorem groupStep_spec {st : ℤ × Bool} (hseen : st.2 = true) (hst : st.1 = acc.getD 0) (x : ℤ) :
    groupStep t t' skipNils abort true st x =
      (addValue t t' skipNils abort acc x).map fun acc => (acc.getD 0, true) := by
  obtain ⟨sum, seen⟩ := st
  obtain rfl : seen = true := hseen
  obtain rfl : sum = acc.getD 0 := hst
  have hzero : (0 : ℤ) ≠ t'.min := by cases t' <;> decide
  have hnil : acc.getD 0 = t'.min ↔ acc = some t'.min := by
    cases acc with
    | none => simp [hzero]
    | some v => simp
  by_cases hx : x = t.min
  · rw [addValue_nil hx]
    simp only [groupStep, hx]
    cases skipNils <;> simp
  by_cases hacc : acc = some t'.min
  · subst hacc
    rw [addValue_of_nil]
    simp [groupStep]
  · rw [addValue_number hx hacc]
    have hne : acc.getD 0 ≠ t'.min := fun heq => hacc (hnil.mp heq)
    simp [groupStep, hx, hne, Function.comp_def]

theorem foldlM_groupStep_seen {st : ℤ × Bool} (hseen : st.2 = true) (hst : st.1 = acc.getD 0) :
    (xs.foldlM (groupStep t t' skipNils abort true) st).map Prod.fst =
      (xs.foldlM (addValue t t' skipNils abort) acc).map fun acc => acc.getD 0 := by
  induction xs generalizing st acc with
  | nil => exact congrArg some hst
  | cons x xs ih =>
    rw [foldlM_cons, foldlM_cons, groupStep_spec hseen hst]
    cases addValue t t' skipNils abort acc x with
    | none => rfl
    | some acc' => exact ih rfl rfl

/-- There is no sum only if all values are nils that are skipped. -/
theorem foldlM_addValue_none (h : xs.foldlM (addValue t t' skipNils abort) acc = some none) :
    acc = none ∧ ∀ x ∈ xs, x = t.min ∧ skipNils = true := by
  induction xs generalizing acc with
  | nil => exact ⟨some.inj h, by simp⟩
  | cons x xs ih =>
    obtain ⟨acc₁, hstep, hrest⟩ := bind_eq_some_iff.mp h
    obtain ⟨rfl, hxs⟩ := ih hrest
    by_cases hx : x = t.min
    · rw [addValue_nil hx] at hstep
      cases skipNils
      · cases some.inj hstep
      · exact ⟨some.inj hstep, forall_mem_cons.mpr ⟨⟨hx, rfl⟩, hxs⟩⟩
    · unfold addValue at hstep
      split_ifs at hstep with hacc
      · rw [hacc] at hstep
        cases some.inj hstep
      · obtain ⟨r, -, hr⟩ := map_eq_some_iff.mp hstep
        cases hr

theorem sumValues_nils (hxs : ∀ x ∈ xs, x = t.min) :
    sumValues t t' true abort xs = some t'.min := by
  have hfold : xs.foldlM (addValue t t' true abort) none = some none := by
    induction xs with
    | nil => rfl
    | cons x xs ih =>
      obtain ⟨hx, hxs⟩ := forall_mem_cons.mp hxs
      rw [foldlM_cons, addValue_nil hx]
      exact ih hxs
  rw [sumValues, hfold]
  rfl

/-- **The loop for several groups computes the sum** of a group, unless it has rows and they all are
nils that are skipped. -/
theorem foldlM_groupStep (h : skipNils = true → xs ≠ [] → ∃ x ∈ xs, x ≠ t.min) :
    (xs.foldlM (groupStep t t' skipNils abort true) (t'.min, false)).map Prod.fst =
      sumValues t t' skipNils abort xs := by
  cases xs with
  | nil => rfl
  | cons x xs =>
    have hfirst : (x :: xs).foldlM (groupStep t t' skipNils abort true) (t'.min, false) =
        (x :: xs).foldlM (groupStep t t' skipNils abort true) (0, true) := by
      rw [foldlM_cons, foldlM_cons, groupStep_first]
    have hseen : ((x :: xs).foldlM (groupStep t t' skipNils abort true) (0, true)).map Prod.fst =
        ((x :: xs).foldlM (addValue t t' skipNils abort) none).map fun acc => acc.getD 0 :=
      foldlM_groupStep_seen rfl rfl
    rw [hfirst, hseen, sumValues]
    cases hacc : (x :: xs).foldlM (addValue t t' skipNils abort) none with
    | none => rfl
    | some acc =>
      cases acc with
      | some v => rfl
      | none =>
        -- every value would be a nil that is skipped
        have hall := (foldlM_addValue_none hacc).2
        obtain ⟨y, hy, hne⟩ := h (hall x mem_cons_self).2 (cons_ne_nil x xs)
        exact absurd (hall y hy).1 hne

theorem abort_of_foldlM (hxs : ∀ x ∈ xs, t'.min ≤ x)
    (h : xs.foldlM (addValue t t' skipNils abort) acc = none) : abort = true := by
  induction xs generalizing acc with
  | nil => cases h
  | cons x xs ih =>
    rw [foldlM_cons] at h
    cases hstep : addValue t t' skipNils abort acc x with
    | some acc' =>
      rw [hstep] at h
      exact ih (fun y hy => hxs y (mem_cons_of_mem x hy)) h
    | none =>
      unfold addValue at hstep
      split_ifs at hstep
      rcases addWithCheck_cases abort (acc.getD 0) (hxs x mem_cons_self) with
        ⟨-, habort⟩ | hadd | ⟨hadd, -⟩
      · exact habort
      · rw [hadd] at hstep
        cases hstep
      · rw [hadd] at hstep
        cases hstep

theorem abort_of_sumValues (hxs : ∀ x ∈ xs, t'.min ≤ x)
    (h : sumValues t t' skipNils abort xs = none) : abort = true :=
  abort_of_foldlM hxs (map_eq_none_iff.mp h)

theorem sumValues_singleton {v : IntVal t} (hbits : t.bits ≤ t'.bits) :
    sumValues t t' skipNils abort [v.1] = some ((convertValue (.num t') v).store t'.min) := by
  rw [← enlargeValue_eq v hbits, sumValues, foldlM_cons]
  unfold enlargeValue
  by_cases hx : v.1 = t.min
  · rw [addValue_nil hx, if_pos hx]
    cases skipNils <;> rfl
  have hnone : (none : Option ℤ) ≠ some t'.min := nofun
  rw [addValue_number hx hnone, if_neg hx]
  have hrange := IntType.range_mono hbits
  have hv := v.2
  have hover : ¬ addOverflows t' v.1 ((none : Option ℤ).getD 0) := by
    simp only [addOverflows, getD_none]
    rw [if_pos (by decide)]
    omega
  rw [ADD_WITH_CHECK, if_neg hover]
  simp [Conv.store]

end Values

/-! ## BATgroupsum

The three paths are put together: the conversion, the loop for a single group and the loop for
several.  The condition has one clause for each of them. -/

section Sum

variable {t t' : IntType} {b : IntColumn t} {g : GroupColumn} {e : Option Extents}
  {s : Option Candidates} {a : AggrInit} {skipNils abort : Bool}

/-- The values of some rows. -/
def rowValues (b : IntColumn t) (rows : List ℕ) : List ℤ := rows.map fun i => (b.value i).1

/-- The sum of some rows. -/
def IsSum (b : IntColumn t) (t' : IntType) (skipNils abort : Bool) (rows : List ℕ)
    (x : Option ℤ) : Prop :=
  ∃ v, sumValues t t' skipNils abort (rowValues b rows) = some v ∧ x = some v

/-- **The inputs for which the sums of the rows in `acct` are right.**  The conversion handles the
candidates; the loop for a single group with an array of candidates adds nothing to a sum that is
nil; and in the loop for several groups one of the sums overflows, or no group consists of nils that
are skipped. -/
def SumsRightly (b : IntColumn t) (g : GroupColumn) (e : Option Extents) (s : Option Candidates)
    (a : AggrInit) (t' : IntType) (skipNils abort : Bool) (acct : List (ℕ × ℕ)) : Prop :=
  b.count = 0 ∨ a.ngrp = 0 ∨
    if singletons b.toColumn g e then
      s = none ∧ t = t' ∨ NumbersAligned b s (.num t')
    else if a.ngrp = 1 then
      a.cands.cand.isSome →
        NoneAfterNil t t' skipNils abort none (rowValues b (rowsOf acct a.min))
    else
      (∃ k, sumValues t t' skipNils abort (rowValues b (rowsOf acct (a.min + k))) = none) ∨
        (skipNils = true → ∀ k, rowsOf acct k ≠ [] → ∃ i ∈ rowsOf acct k, b.value i ≠ ⊥)

/-- What `BATgroupsum` is to return: sums, or an error if one of them overflows. -/
def SumResult (b : IntColumn t) (t' : IntType) (skipNils abort : Bool) (acct : List (ℕ × ℕ))
    (head : ℕ × ℕ) : Except AggrError (GroupResult (Option ℤ)) → Prop
  | .ok r => Summarizes (IsSum b t' skipNils abort) acct head r
  | .error err => err = .message "22003!overflow in calculation.\n" ∧ abort = true ∧
      ∃ k, sumValues t t' skipNils abort (rowValues b (rowsOf acct k)) = none

theorem min_le_rowValues (hbits : t.bits ≤ t'.bits) (rows : List ℕ) :
    ∀ x ∈ rowValues b rows, t'.min ≤ x := by
  intro x hx
  obtain ⟨i, -, rfl⟩ := mem_map.mp hx
  exact (IntType.range_mono hbits).1.trans (b.value i).2.1

theorem value_eq_bot {i : ℕ} : b.value i = ⊥ ↔ (b.value i).1 = t.min := Subtype.ext_iff

/-! ### The conversion -/

theorem BATconvert_numbers (hs : Proper s) (hvoid : b.ttype ≠ typeVoid)
    (h : s = none ∧ t = t' ∨ NumbersAligned b s (.num t')) :
    Converts b s (.num t') abort (BATconvert b s (.num t') abort) := by
  unfold BATconvert
  by_cases hcopy : s = none ∧ CalcType.num t' ≠ .bit ∧ b.ttype ≠ typeVoid ∧
      t = (CalcType.num t').storage
  · rw [if_pos hcopy]
    obtain ⟨rfl, hbit, -, ht⟩ := hcopy
    exact convertCopy_converts ht hbit nofun
  · rw [if_neg hcopy, if_neg hvoid]
    refine (convertTypeswitchloop_converts (ready_candinit hs)).1 (h.resolve_left ?_)
    rintro ⟨hs, ht⟩
    exact hcopy ⟨hs, nofun, hvoid, ht⟩

theorem rowsOf_oids (base k : ℕ) {rows : List ℕ} (hrows : rows.Nodup) :
    rowsOf (assigned (fun i => some (base + i)) rows) (base + k) =
      if k ∈ rows then [k] else [] := by
  have hiff : ∀ i, some (base + i) = some (base + k) ↔ i = k := by simp
  rw [rowsOf_assigned]
  simp only [hiff]
  split_ifs with hk
  · rw [filter_eq, count_eq_one_of_mem hrows hk]
    rfl
  · refine filter_eq_nil_iff.mpr fun i hi heq => hk ?_
    rw [← of_decide_eq_true heq]
    exact hi

theorem groupsum_converts (skipNils : Bool) (hs : Proper s) (hvoid : b.ttype ≠ typeVoid)
    (hbits : t.bits ≤ t'.bits) (h : s = none ∧ t = t' ∨ NumbersAligned b s (.num t')) :
    ∃ r, BATconvert b s (.num t') abort = some r ∧ Summarizes (IsSum b t' skipNils abort)
      (assigned (fun i => some (b.hseqbase + i)) (wantedRows b.toColumn s)) (b.hseqbase, b.count)
      ⟨r.hseqbase, r.count, r.slot⟩ := by
  have hconv : Converts b s (.num t') abort (BATconvert b s (.num t') abort) :=
    BATconvert_numbers hs hvoid h
  cases hr : BATconvert b s (.num t') abort with
  | none =>
    rw [hr] at hconv
    obtain ⟨-, p, -, -, hover⟩ := hconv
    -- a type that is not narrower cannot overflow
    rw [← enlargeValue_eq _ hbits] at hover
    exact absurd hover (enlargeValue_ne_overflow _)
  | some r =>
    rw [hr] at hconv
    obtain ⟨-, hresult⟩ := hconv
    refine ⟨r, rfl, hresult.hseqbase, hresult.count, fun k hk => ?_⟩
    have hk : k < b.count := hresult.count ▸ hk
    -- each group has the one row with its oid, or none
    have hnodup : (wantedRows b.toColumn s).Nodup := pairwise_wantedRows.imp fun hlt => hlt.ne
    rw [hresult.hseqbase, rowsOf_oids _ _ hnodup]
    split_ifs with hmem
    · refine ⟨_, sumValues_singleton hbits, ?_⟩
      refine hresult.wanted k hk ⟨⟨Nat.le_add_right _ _, Nat.add_lt_add_left hk _⟩, ?_⟩
      exact (mem_wantedRows.mp hmem).2
    · refine ⟨t'.min, rfl, hresult.others k hk fun hwanted => hmem ?_⟩
      exact mem_wantedRows.mpr ⟨hk, hwanted.2⟩

/-! ### The loops -/

theorem AGGR_SUM_single (hs : Proper s) (hinit : BATgroupaggrinit b.toColumn (some g) e s = .ok a)
    (hbits : t.bits ≤ t'.bits) (hone : a.ngrp = 1) (h : a.cands.cand.isSome →
      NoneAfterNil t t' skipNils abort none (rowValues b (aggrRows a.cands b.hseqbase))) :
    (AGGR_SUM t t' skipNils abort (fun i => (b.value i).1) b.tnonil g a b.hseqbase true
      fun _ => t'.min).map (fun sums => sums 0) =
      sumValues t t' skipNils abort (rowValues b (aggrRows a.cands b.hseqbase)) := by
  have hxs := min_le_rowValues (b := b) hbits (aggrRows a.cands b.hseqbase)
  have hrel : SumRel t' ⟨0, false, false⟩ none := ⟨rfl, .inl ⟨rfl, rfl, rfl⟩⟩
  have hstore : ∀ r : Option SumState, (r.map fun st : SumState =>
      if st.seenval then Function.update (fun _ => t'.min) 0 st.sum else fun _ => t'.min).map
        (fun sums => sums 0) = r.map (SumState.result t') := by
    intro r
    cases r with
    | none => rfl
    | some st =>
      simp only [map_some, SumState.result]
      split_ifs <;> simp
  rw [AGGR_SUM, if_pos hone, hstore]
  cases hcand : a.cands.cand with
  | some cand => exact foldlM_singleStep hrel hxs (h (by rw [hcand]; rfl))
  | none =>
    have hbase : (singleLoop t t' skipNils abort false (rowValues b (aggrRows a.cands b.hseqbase))
        ⟨0, false, false⟩).map (SumState.result t') = sumValues t t' skipNils abort
          (rowValues b (aggrRows a.cands b.hseqbase)) := singleLoop_eq hrel hxs
    cases hnonil : b.tnonil with
    | false => exact hbase
    | true =>
      rw [← hbase]
      have hrows := (aggrRows_ordered hs hinit).2
      have hne : ∀ x ∈ rowValues b (aggrRows a.cands b.hseqbase), x ≠ t.min := by
        intro x hx
        obtain ⟨i, hi, rfl⟩ := mem_map.mp hx
        exact fun heq => b.nonil_true hnonil i (hrows i hi) (value_eq_bot.mpr heq)
      congr 1
      rw [Bool.true_and]
      refine (singleLoop_nonil hne _).trans ?_
      -- `seen` says that there is a row
      have hlen : aggrRows a.cands b.hseqbase =
          range' a.cands.start (a.cands.stop - a.cands.start) := by
        rw [aggrRows, hcand]
      cases hrows' : rowValues b (aggrRows a.cands b.hseqbase) with
      | nil =>
        have hempty : ¬ a.cands.start < a.cands.stop := by
          have hzero := map_eq_nil_iff.mp hrows'
          rw [hlen, range'_eq_nil_iff] at hzero
          omega
        rw [decide_eq_false hempty]
      | cons x xs => exact singleLoop_seen (hne x (hrows' ▸ mem_cons_self)) xs _

theorem AGGR_SUM_groups (b : IntColumn t) (g : GroupColumn) (t' : IntType) (abort : Bool)
    {rows : ℕ → List ℕ} (hrows : ∀ k,
      rowsOf (assigned (rowSlot g a) (aggrRows a.cands b.hseqbase)) k = rows k)
    (hmany : a.ngrp ≠ 1)
    (h : (∃ k, sumValues t t' skipNils abort (rowValues b (rows k)) = none) ∨
      (skipNils = true → ∀ k, rows k ≠ [] → ∃ i ∈ rows k, b.value i ≠ ⊥)) :
    match AGGR_SUM t t' skipNils abort (fun i => (b.value i).1) b.tnonil g a b.hseqbase true
      (fun _ => t'.min) with
    | none => ∃ k, sumValues t t' skipNils abort (rowValues b (rows k)) = none
    | some sums => ∀ k, sumValues t t' skipNils abort (rowValues b (rows k)) = some (sums k) := by
  -- what the loop does with the rows of one group
  have hgroup : ∀ k, (skipNils = true → rowValues b (rows k) ≠ [] →
      ∃ x ∈ rowValues b (rows k), x ≠ t.min) → ((rows k).foldlM
      (fun st i => groupStep t t' skipNils abort true st (b.value i).1) (t'.min, false)).map
        Prod.fst = sumValues t t' skipNils abort (rowValues b (rows k)) := by
    intro k hvalue
    rw [← foldlM_groupStep hvalue, rowValues, foldlM_map]
  have hne : (skipNils = true → ∀ k, rows k ≠ [] → ∃ i ∈ rows k, b.value i ≠ ⊥) → ∀ k,
      skipNils = true → rowValues b (rows k) ≠ [] → ∃ x ∈ rowValues b (rows k), x ≠ t.min := by
    intro h k hskip hne
    obtain ⟨i, hi, hbot⟩ := h hskip k fun heq => hne (by rw [heq]; rfl)
    exact ⟨_, mem_map_of_mem hi, fun heq => hbot (value_eq_bot.mpr heq)⟩
  rw [AGGR_SUM, if_neg hmany]
  cases hacc : accumulateM (rowSlot g a)
      (fun st i => groupStep t t' skipNils abort true st (b.value i).1)
      (aggrRows a.cands b.hseqbase) fun _ => (t'.min, false) with
  | none =>
    rcases h with h | h
    · exact h
    obtain ⟨k, hk⟩ := accumulateM_eq_none hacc
    refine ⟨k, ?_⟩
    rw [← hgroup k (hne h k), ← hrows k, hk]
    rfl
  | some f =>
    intro k
    rcases h with ⟨j, hj⟩ | h
    · -- a sum that overflows is that of a value
      have hsome := accumulateM_eq_some hacc j
      have hnone := hgroup j fun hskip _ => by
        subst hskip
        by_contra hnil
        push Not at hnil
        rw [sumValues_nils hnil] at hj
        cases hj
      rw [hj, ← hrows j, hsome] at hnone
      cases hnone
    rw [← hgroup k (hne h k), ← hrows k, accumulateM_eq_some hacc k]
    rfl

/-- **Sums by groups** are those of the rows accounted to each group, for all inputs for which they
are computed rightly. -/
theorem BATgroupsum_spec (hs : Proper s)
    (hinit : BATgroupaggrinit b.toColumn (some g) e s = .ok a) (hvoid : b.ttype ≠ typeVoid)
    (hbits : t.bits ≤ t'.bits)
    (h : SumsRightly b g e s a t' skipNils abort (accounted b.toColumn g e a .sum)) :
    SumResult b t' skipNils abort (accounted b.toColumn g e a .sum)
      (resultHead b.toColumn g e a .sum) (BATgroupsum b (some g) e s t' skipNils abort) := by
  unfold BATgroupsum
  rw [groupSetup_eq hinit]
  change SumResult _ _ _ _ _ _ (ite _ _ _)
  by_cases htriv : b.count = 0 ∨ a.ngrp = 0
  · rw [if_pos htriv]
    exact summarizes_trivial htriv ⟨t'.min, rfl, rfl⟩
  have h := (h.resolve_left fun h0 => htriv (.inl h0)).resolve_left fun h0 => htriv (.inr h0)
  have hacct : accounted b.toColumn g e a .sum =
      assigned (accountedTo b.toColumn g e a .sum) (aggrRows a.cands b.hseqbase) := if_neg htriv
  rw [if_neg htriv]
  by_cases hsingle : singletons b.toColumn g e = true
  · -- the conversion of the column
    have hc : Aggregate.converts b.toColumn g e .sum := ⟨rfl, hsingle⟩
    rw [if_pos hsingle] at h
    have hto : accountedTo b.toColumn g e a .sum = fun i => some (b.hseqbase + i) := by
      funext i
      rw [accountedTo, if_pos hc]
    have hrows : aggrRows a.cands b.hseqbase = wantedRows b.toColumn s := by
      rw [(aggrinit_ok hinit).2.1]
      by_cases hbelow : CandsBelow b.toColumn s
      · -- the loop ends at once, and there are no rows
        rw [(aggrRows_candinit hs).1 hbelow, eq_comm, eq_nil_iff_forall_not_mem]
        rcases h with ⟨rfl, -⟩ | hnone | ⟨-, hbelow'⟩
        · exact absurd hbelow not_candsBelow_none
        · intro p hp
          obtain ⟨hp, hcand⟩ := mem_wantedRows.mp hp
          exact hnone p hp ⟨⟨Nat.le_add_right _ _, Nat.add_lt_add_left hp _⟩, hcand⟩
        · exact absurd hbelow hbelow'
      · exact (aggrRows_candinit hs).2 hbelow
    obtain ⟨r, hr, hsum⟩ := groupsum_converts skipNils hs hvoid hbits h
    rw [if_pos hsingle, hr, hacct, hto, hrows, resultHead, if_neg htriv, if_pos hc]
    exact hsum
  have hc : ¬ Aggregate.converts b.toColumn g e .sum := fun hc => hsingle hc.2
  rw [if_neg hsingle] at h
  rw [if_neg hsingle, resultHead_slots htriv hc, dosum, if_neg (not_lt.mpr hbits)]
  by_cases hone : a.ngrp = 1
  · -- a single group
    have hto : accountedTo b.toColumn g e a .sum = fun _ => some a.min := by
      funext i
      rw [accountedTo, if_neg hc, if_pos ⟨rfl, hone⟩]
    have hrows : rowsOf (accounted b.toColumn g e a .sum) a.min = aggrRows a.cands b.hseqbase := by
      rw [hacct, hto, rowsOf_assigned]
      exact filter_eq_self.mpr fun _ _ => decide_eq_true rfl
    rw [if_pos hone, hrows] at h
    have hsum := AGGR_SUM_single hs hinit hbits hone h
    cases hr : AGGR_SUM t t' skipNils abort (fun i => (b.value i).1) b.tnonil g a b.hseqbase true
        fun _ => t'.min with
    | none =>
      rw [hr] at hsum
      refine ⟨rfl, abort_of_sumValues (min_le_rowValues hbits _) hsum.symm, a.min, ?_⟩
      rw [hrows]
      exact hsum.symm
    | some sums =>
      rw [hr] at hsum
      refine ⟨rfl, rfl, fun k hk => ?_⟩
      obtain rfl : k = 0 := Nat.lt_one_iff.mp (hone ▸ hk)
      refine ⟨sums 0, ?_, rfl⟩
      change sumValues _ _ _ _ (rowValues b (rowsOf _ a.min)) = _
      rw [hrows]
      exact hsum.symm
  · -- several groups
    have hrows := accounted_slots (f := .sum) htriv hc fun h1 => hone h1.2
    rw [if_neg hone] at h
    have hgroups := AGGR_SUM_groups b g t' abort (fun k => (hrows k).symm) hone
      (h.imp_right fun h hskip k => h hskip _)
    cases hr : AGGR_SUM t t' skipNils abort (fun i => (b.value i).1) b.tnonil g a b.hseqbase true
        fun _ => t'.min with
    | none =>
      rw [hr] at hgroups
      obtain ⟨k, hk⟩ := hgroups
      exact ⟨rfl, abort_of_sumValues (min_le_rowValues hbits _) hk, a.min + k, hk⟩
    | some sums =>
      rw [hr] at hgroups
      exact ⟨rfl, rfl, fun k _ => ⟨sums k, hgroups k, rfl⟩⟩

end Sum

/-! ## The aggregates -/

/-- **Grouped aggregates.**  The groups are those of the ids in the range, which without extents is
that of all ids.  Counts, minima and maxima are those of the rows that a function accounts to each
group, and these are the right ones exactly for the inputs it handles.  So are sums, which are right
if they also are computed rightly. -/
theorem group_aggregates {α : Type*} [Atom α] (g : GroupColumn) (e : Option Extents)
    (s : Option Candidates) (hs : Proper s) (skipNils : Bool) :
    (∀ (b : Column α) (a : AggrInit), BATgroupaggrinit b (some g) e s = .ok a →
      (∀ i < g.count, (g.tail i = oidNil → groupOf g a i = none) ∧
        (e = none → g.tail i ≠ oidNil → groupOf g a i = some (g.tail i))) ∧
      (∃ r, BATgroupcount b (some g) e s skipNils = .ok r ∧ Summarizes (IsCount b skipNils)
        (accounted b g e a .count) (resultHead b g e a .count) r) ∧
      (∃ r, BATgroupmin b (some g) e s skipNils = .ok r ∧ Summarizes (IsBest b skipNils 1)
        (accounted b g e a .min) (resultHead b g e a .min) r) ∧
      (∃ r, BATgroupmax b (some g) e s skipNils = .ok r ∧ Summarizes (IsBest b skipNils (-1))
        (accounted b g e a .max) (resultHead b g e a .max) r) ∧
      ∀ f, IsAccount b g e s a f ↔ Accounts b g e s a f) ∧
    (∀ (t t' : IntType) (b : IntColumn t) (a : AggrInit) (abort : Bool),
      BATgroupaggrinit b.toColumn (some g) e s = .ok a → b.ttype ≠ typeVoid → t.bits ≤ t'.bits →
      (IsAccount b.toColumn g e s a .sum ↔ Accounts b.toColumn g e s a .sum) ∧
      (Accounts b.toColumn g e s a .sum →
        SumsRightly b g e s a t' skipNils abort (owed b.toColumn g s a) →
        SumResult b t' skipNils abort (owed b.toColumn g s a) (resultHead b.toColumn g e a .sum)
          (BATgroupsum b (some g) e s t' skipNils abort))) := by
  refine ⟨fun b a hinit => ⟨fun i hi => groupOf_spec hinit hi, BATgroupcount_spec hinit skipNils,
    groupCmp_spec hs hinit (.inl rfl) skipNils _ nofun,
    groupCmp_spec hs hinit (.inr rfl) skipNils _ nofun, isAccount_iff hs hinit⟩, ?_⟩
  intro t t' b a abort hinit hvoid hbits
  have hiff := isAccount_iff hs hinit .sum
  refine ⟨hiff, fun hacc hright => ?_⟩
  have hrows := (hiff.mpr hacc).rows
  rw [← hrows] at hright ⊢
  exact BATgroupsum_spec hs hinit hvoid hbits hright

/-! ## Three rows in two groups -/

/-- The first and the last row are in group 0, the second one in group 1. -/
def twoGroups : GroupColumn where
  hdense := true
  hseqbase := 0
  count := 3
  tseq := none
  tail i := if i = 1 then 1 else 0
  tsorted := false
  tkey := false
  tnonil := true
  small i _ := by
    split_ifs <;> decide
  dense_true := nofun
  dense_small := nofun
  sorted_true := nofun
  key_true := nofun
  nonil_true _ i _ := by
    split_ifs <;> decide

/-- What is found for them. -/
def twoGroupsInit (s : Option Candidates) : AggrInit := ⟨0, 1, 2, CANDINIT threeBytes.toColumn s⟩

theorem aggrinit_twoGroups (s : Option Candidates) :
    BATgroupaggrinit threeBytes.toColumn (some twoGroups) none s = .ok (twoGroupsInit s) := rfl

/-- Without candidates, all rows are accounted and summed up rightly. -/
theorem group_aggregates_three :
    IsAccount threeBytes.toColumn twoGroups none none (twoGroupsInit none) .count ∧
      SumResult threeBytes .int true true
        (owed threeBytes.toColumn twoGroups none (twoGroupsInit none)) (0, 2)
        (BATgroupsum threeBytes (some twoGroups) none none .int true true) := by
  have hrow : ∀ f : Aggregate, ∀ i, RowRight threeBytes.toColumn twoGroups none
      (twoGroupsInit none) f i := by
    intro f i
    have hc : ¬ f.converts threeBytes.toColumn twoGroups none := fun hc => absurd hc.2 (by decide)
    rw [RowRight, if_neg hc, if_neg fun h => absurd h.2 (by decide)]
    change groupOf twoGroups (twoGroupsInit none) (0 + i) = _
    rw [Nat.zero_add]
  have hacc : ∀ f : Aggregate, Accounts threeBytes.toColumn twoGroups none none
      (twoGroupsInit none) f := by
    intro f
    refine .inr (.inr ⟨fun hc => absurd hc.2 (by decide),
      fun i _ => .inr ⟨not_candsBelow_none, ?_⟩⟩)
    exact hrow f i
  have hsums : SumsRightly threeBytes twoGroups none none (twoGroupsInit none) .int true true
      (owed threeBytes.toColumn twoGroups none (twoGroupsInit none)) := by
    refine .inr (.inr (.inr ?_))
    intro _ k hne
    obtain ⟨i, hi⟩ := exists_mem_of_ne_nil _ hne
    refine ⟨i, hi, ?_⟩
    have hvalues : ∀ i < 3, threeBytes.value i ≠ ⊥ := by decide
    exact hvalues i (mem_wantedRows.mp (mem_of_mem_rowsOf hi)).1
  obtain ⟨hpos, hsum⟩ :=
    @group_aggregates (IntVal .bte) _ twoGroups none none (by simp [Proper]) true
  have hcount := hpos threeBytes.toColumn _ (aggrinit_twoGroups none)
  refine ⟨(hcount.2.2.2.2 .count).mpr (hacc .count), ?_⟩
  exact (hsum .bte .int threeBytes _ true (aggrinit_twoGroups none) (by decide) (by decide)).2
    (hacc .sum) hsums

/-- **Only the second row is a candidate.**  It is in group 1, but is counted for group 0. -/
theorem BATgroupcount_second :
    ((BATgroupcount threeBytes.toColumn (some twoGroups) none (some (rowsFrom 1 1 (by decide)))
      true).toOption.map fun r => [r.slot 0, r.slot 1]) = some [1, 0] ∧
    rowsOf (owed threeBytes.toColumn twoGroups (some (rowsFrom 1 1 (by decide)))
      (twoGroupsInit (some (rowsFrom 1 1 (by decide))))) 0 = [] ∧
    rowsOf (owed threeBytes.toColumn twoGroups (some (rowsFrom 1 1 (by decide)))
      (twoGroupsInit (some (rowsFrom 1 1 (by decide))))) 1 = [1] := by
  decide

end MonetInR.Gdk
