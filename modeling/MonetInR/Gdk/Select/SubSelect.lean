import MonetInR.Gdk.Select.Normalize

/-!
# BATsubselect

A selection returns the candidates in the column whose values the documented table selects, and
the scan is called with bounds in order, except for four kinds of arguments:

* two neighbours as excluded bounds trip the assertion of the scan,
* a selection of everything returns the candidate list as it is, with oids that are not in the
  column,
* nil alone with an excluded bound selects nothing,
* a complement with included bounds up to the greatest number finds only the least number.

## Main definitions

* `IsSelection`: what is specified
* `SelectExact`: when the specification is met

## Main results

* `isSelection_BATsubselect_iff`: the specification is met exactly under `SelectExact`
-/

namespace MonetInR.Gdk

open Bounds Subtype

/-! ## The plan -/

/-- Every value but nil is asked for. -/
def AsksAll (nil tl : ℤ) (th : Option ℤ) (anti : Bool) : Prop :=
  tl = nil ∧ ((th = some nil ∧ anti = false) ∨ (th = none ∧ anti = true))

section Plan

variable {t : IntType} {nonil : Bool} {tl x : ℤ} {th : Option ℤ} {li hi anti : Bool} {b : Bounds}

theorem AsksAll.selects (h : AsksAll t.min tl th anti) :
    Selects t.min tl th li hi anti x ↔ x ≠ t.min := by
  obtain ⟨rfl, ⟨rfl, rfl⟩ | ⟨rfl, rfl⟩⟩ := h <;> simp [Selects, SelectsRange]

theorem Aliased.selects (h : Aliased t.min t.max tl th li hi anti) (h1 : tl ≤ t.max)
    (h2 : x ≤ t.max) : Selects t.min tl th li hi anti x ↔ x ≠ t.min ∧ x < tl := by
  obtain ⟨rfl, rfl, h3, -, ⟨rfl, rfl⟩ | ⟨rfl, rfl⟩⟩ := h
  · simp only [Selects, if_neg h3, SelectsPoint, if_true, forall_const]
    omega
  · simp only [Selects, SelectsRange, SelectsPoint]
    split_ifs <;> simp <;> omega

/-- The arguments are values of the type. -/
structure InType (t : IntType) (tl : ℤ) (th : Option ℤ) : Prop where
  min_le_low : t.min ≤ tl
  low_le_max : tl ≤ t.max
  min_le_high : ∀ v ∈ th, t.min ≤ v
  high_le_max : ∀ v ∈ th, v ≤ t.max

/-- What the plan means for the value `x` of a row. -/
inductive PlanMeans (t : IntType) (nonil : Bool) (tl : ℤ) (th : Option ℤ) (li hi anti : Bool)
    (x : ℤ) : SelectPlan → Prop
  | nothing (hadj : ¬ Adjacent t.min tl th li hi anti)
      (hal : ¬ Aliased t.min t.max tl th li hi anti)
      (hall : ¬ (nonil = true ∧ AsksAll t.min tl th anti))
      (h : Selects t.min tl th li hi anti x ↔ IgnoresNil t.min tl th li anti ∧ x = t.min) :
      PlanMeans t nonil tl th li hi anti x .nothing
  | everything (hadj : ¬ Adjacent t.min tl th li hi anti)
      (hal : ¬ Aliased t.min t.max tl th li hi anti)
      (hall : nonil = true ∧ AsksAll t.min tl th anti)
      (hnil : ¬ IgnoresNil t.min tl th li anti) :
      PlanMeans t nonil tl th li hi anti x .everything
  | lookup {b : Bounds} (hadj : (!b.lval || !b.hval || b.low ≤ b.high) = true ↔
        ¬ Adjacent t.min tl th li hi anti)
      (hall : ¬ (nonil = true ∧ AsksAll t.min tl th anti))
      (hnil : ¬ IgnoresNil t.min tl th li anti)
      (hal : Aliased t.min t.max tl th li hi anti →
        (scanTest t nonil b.equi b.anti b.low b.high x = true ↔ x = t.min + 1))
      (h : ¬ Aliased t.min t.max tl th li hi anti →
        (scanTest t nonil b.equi b.anti b.low b.high x = true ↔ Selects t.min tl th li hi anti x)) :
      PlanMeans t nonil tl th li hi anti x (.lookup b)

theorem IgnoresNil.selects (h : IgnoresNil t.min tl th li anti) :
    Selects t.min tl th li hi anti x ↔ x = t.min := by
  obtain ⟨rfl, rfl, rfl, rfl⟩ := h
  simp [Selects]

/-- Nothing is planned if nothing is asked for, up to the nils that are ignored. -/
theorem planMeans_nothing (hin : InType t tl th) (h : ∀ y, t.min ≤ y → y ≤ t.max →
      ¬ (Selects t.min tl th li hi anti y ∧ ¬ IgnoresNil t.min tl th li anti))
    (hadj : ¬ Adjacent t.min tl th li hi anti) (h1 : t.min ≤ x) (h2 : x ≤ t.max) :
    PlanMeans t nonil tl th li hi anti x .nothing := by
  have hmx := t.min_lt_max
  -- the least number shows that neither an aliased complement nor everything is asked for
  have hleast := h (t.min + 1) (by omega) (by omega)
  refine .nothing hadj (fun hal => hleast ⟨?_, ?_⟩) (fun hall => hleast ⟨?_, ?_⟩) ?_
  · rw [hal.selects hin.low_le_max (by omega)]
    have := hin.min_le_low
    have := hal.2.2
    omega
  · exact fun hnil => absurd hal.1 (by simp [hnil.2.2.2])
  · rw [hall.2.selects]
    omega
  · rintro ⟨-, hth, -, hanti⟩
    rcases hall.2.2 with h | h
    · simp [hth] at h
    · simp [hanti] at h
  · constructor
    · intro hsel
      have hnil : IgnoresNil t.min tl th li anti := by
        by_contra hnil
        exact h x h1 h2 ⟨hsel, hnil⟩
      exact ⟨hnil, hnil.selects.mp hsel⟩
    · rintro ⟨hnil, hx⟩
      exact hnil.selects.mpr hx

theorem Adjacent.isEmpty_eq_false (h : Adjacent t.min tl th li hi anti) (hin : InType t tl th) :
    ∃ b, (init t.min tl th li hi anti).antiSelect t.min = some b ∧ b.isEmpty = false := by
  obtain ⟨rfl, rfl, rfl, h, rfl⟩ := h
  refine ⟨init t.min tl (some (tl + 1)) false false false, rfl, ?_⟩
  simp [isEmpty, init, high, low, deref]

theorem IgnoresNil.isEmpty (h : IgnoresNil t.min tl th li anti)
    (hb : (init t.min tl th li hi anti).antiSelect t.min = some b) : b.isEmpty = true := by
  obtain ⟨rfl, rfl, rfl, rfl⟩ := h
  simp only [antiSelect, init] at hb
  obtain rfl : _ = b := by simpa using hb
  simp [isEmpty]

section

variable (hin : InType t tl th) (hb : (init t.min tl th li hi anti).antiSelect t.min = some b)
  (he : b.isEmpty = false)

include hin hb he

theorem InType.prepared :
    b.Ready t.min t.max ∧ Prepared t.min tl th li hi anti b :=
  prepared_antiSelect_init hin.min_le_low hin.min_le_high hin.low_le_max hin.high_le_max hb he

theorem planMeans_normalize (hall : ¬ (nonil = true ∧ AsksAll t.min tl th anti)) (h1 : t.min ≤ x)
    (h2 : x ≤ t.max)
    (hn : nonil = true → x ≠ t.min) :
    PlanMeans t nonil tl th li hi anti x (match b.normalize (t.min + 1) t.max with
        | none => .nothing
        | some b => .lookup b) := by
  obtain ⟨hr, hp⟩ := hin.prepared hb he
  have hsel : ∀ y, b.Means t.min y ↔
      Selects t.min tl th li hi anti y ∧ ¬ IgnoresNil t.min tl th li anti := by
    intro y
    rw [← selected_antiSelect_init hin.min_le_low hin.min_le_high, hb]
    exact (and_iff_right he).symm
  have hnorm := normalized_normalize hr t.min_lt_max
  rcases hres : b.normalize (t.min + 1) t.max with _ | b'
  · rw [hres] at hnorm
    rcases hnorm with _ | ⟨hm, hadj, -⟩
    refine planMeans_nothing hin (fun y h3 h4 => ?_) ?_ h1 h2
    · rw [← hsel]
      exact hm y h3 h4
    · rwa [← neighbours_iff hp hin.min_le_low]
  · rw [hres] at hnorm
    have hnil : ¬ IgnoresNil t.min tl th li anti := fun hnil =>
      absurd (hnil.isEmpty hb) (by simp [he])
    have htest := scanTest_iff_means hnorm h1 h2 hn
    refine .lookup ?_ hall hnil (fun hal => ?_) fun hal => ?_
    · rw [assertion_iff hr hnorm, neighbours_iff hp hin.min_le_low]
    · rw [htest, hnorm.means_of_aliases ((aliases_iff hp hr t.min_lt_max).mpr hal) hr]
    · rw [← aliases_iff hp hr t.min_lt_max] at hal
      rw [htest, hnorm.means_iff hal h1 h2, hsel, and_iff_left hnil]

end

/-- **What `BATsubselect` plans.** -/
theorem planMeans_selectPlan (hin : InType t tl th) (h1 : t.min ≤ x) (h2 : x ≤ t.max)
    (hn : nonil = true → x ≠ t.min) :
    PlanMeans t nonil tl th li hi anti x (selectPlan t nonil tl th li hi anti) := by
  have hsel : ∀ y, Bounds.Selected t.min y ((init t.min tl th li hi anti).antiSelect t.min) ↔
      Selects t.min tl th li hi anti y ∧ ¬ IgnoresNil t.min tl th li anti :=
    fun y => selected_antiSelect_init hin.min_le_low hin.min_le_high
  rw [selectPlan, selectPlanOf]
  rcases hb : (init t.min tl th li hi anti).antiSelect t.min with _ | b
  -- the complement of everything
  · refine planMeans_nothing hin (fun y _ _ => ?_) (fun hadj => ?_) h1 h2
    · rw [← hsel, hb]
      exact id
    · obtain ⟨b, hb', -⟩ := hadj.isEmpty_eq_false hin
      simp [hb] at hb'
  · dsimp only
    split_ifs with he hnils hall
    -- an empty range
    · refine planMeans_nothing hin (fun y _ _ => ?_) (fun hadj => ?_) h1 h2
      · rw [← hsel, hb]
        exact fun h => absurd h.1 (by simp [he])
      · obtain ⟨b', hb', he'⟩ := hadj.isEmpty_eq_false hin
        rw [hb, Option.some_inj] at hb'
        exact absurd he (by simp [hb', he'])
    -- the nils of a column without nils
    · have he' : b.isEmpty = false := by simpa using he
      rw [Bool.and_eq_true, (hin.prepared hb he').2.nils_iff] at hnils
      obtain ⟨⟨rfl, rfl, rfl⟩, hnonil⟩ := hnils
      refine .nothing (fun h => h.2.2.2.1 rfl) (fun h => h.2.2.1 rfl) ?_ ?_
      · rintro ⟨-, -, ⟨h, -⟩ | ⟨-, h⟩⟩ <;> simp at h
      · simp [Selects, hn hnonil]
    -- all values of such a column
    · have he' : b.isEmpty = false := by simpa using he
      rw [Bool.and_eq_true, (hin.prepared hb he').2.all_iff] at hall
      have hasks : AsksAll t.min tl th anti := hall.1
      refine .everything (fun h => h.2.2.2.1 hasks.1) (fun h => h.2.2.1 hasks.1) ⟨hall.2, hasks⟩ ?_
      rintro ⟨-, hth, -, hanti⟩
      rcases hasks.2 with h | h
      · simp [hth] at h
      · simp [hanti] at h
    · have he' : b.isEmpty = false := by simpa using he
      rw [Bool.and_eq_true, (hin.prepared hb he').2.all_iff] at hall
      exact planMeans_normalize hin hb he' (fun h => hall ⟨h.2, h.1⟩) h1 h2 hn

end Plan

/-! ## The result -/

section Result

variable {t : IntType} {b : Column (IntVal t)} {s : Option Candidates} {tl : IntVal t}
  {th : Option (IntVal t)} {li hi anti : Bool} {o : ℕ}

/-- What is specified: the candidates in the column with a value that the table selects, in their
order (an ascending one, `pairwise_candidateOids`), and a scan only with bounds in order. -/
structure IsSelection (b : Column (IntVal t)) (s : Option Candidates) (tl : IntVal t)
    (th : Option (IntVal t)) (li hi anti : Bool) (r : Selection) : Prop where
  oids : r.oids = (candidateOids b s).filter fun o =>
    Selects t.min tl.1 (th.map val) li hi anti (b.atOid o).1
  assertion : ∀ c, r.scan = some c → c.assertion = true

/-- A candidate row with a value that satisfies `P`. -/
def HasRow (b : Column (IntVal t)) (s : Option Candidates) (P : ℤ → Prop) : Prop :=
  ∃ o ∈ candidateOids b s, P (b.atOid o).1

/-- When a selection is right. -/
structure SelectExact (b : Column (IntVal t)) (s : Option Candidates) (tl : IntVal t)
    (th : Option (IntVal t)) (li hi anti : Bool) : Prop where
  /-- The bounds are not two excluded neighbours. -/
  not_adjacent : ¬ Adjacent t.min tl.1 (th.map val) li hi anti
  /-- If everything is asked for and no value is nil, all candidates lie in the column. -/
  within : b.tnonil = true → AsksAll t.min tl.1 (th.map val) anti →
    ∀ o ∈ everything b s, b.Contains o
  /-- The nils are not asked for with an excluded bound, if there are any. -/
  nils : IgnoresNil t.min tl.1 (th.map val) li anti → ¬ HasRow b s (· = t.min)
  /-- No value but the least number is below the range of an aliased complement. -/
  aliased : Aliased t.min t.max tl.1 (th.map val) li hi anti →
    ¬ HasRow b s fun x => t.min + 1 < x ∧ x < tl.1

theorem inType : InType t tl.1 (th.map val) where
  min_le_low := tl.2.1
  low_le_max := tl.2.2
  min_le_high := by
    intro v hv
    obtain ⟨w, -, rfl⟩ := Option.mem_map.mp hv
    exact w.2.1
  high_le_max := by
    intro v hv
    obtain ⟨w, -, rfl⟩ := Option.mem_map.mp hv
    exact w.2.2

theorem atOid_ne_nil (hn : b.tnonil = true) (ho : o ∈ candidateOids b s) :
    (b.atOid o).1 ≠ t.min := by
  have hc : b.Contains o := of_decide_eq_true (List.mem_filter.mp ho).2
  intro h
  refine b.nonil_true hn (o - b.hseqbase) ?_ (Subtype.ext h)
  have := hc.1
  have := hc.2
  omega

variable (tl th li hi anti) in
theorem planMeans_row (ho : o ∈ candidateOids b s) :
    PlanMeans t b.tnonil tl.1 (th.map val) li hi anti (b.atOid o).1
      (selectPlan t b.tnonil tl.1 (th.map val) li hi anti) :=
  planMeans_selectPlan inType (b.atOid o).2.1 (b.atOid o).2.2 fun hn => atOid_ne_nil hn ho

variable (b tl th li hi anti) in
theorem planMeans_least : PlanMeans t b.tnonil tl.1 (th.map val) li hi anti (t.min + 1)
      (selectPlan t b.tnonil tl.1 (th.map val) li hi anti) :=
  planMeans_selectPlan inType (by omega) t.min_lt_max fun _ => by omega

/-- A selection that takes no scan and finds nothing. -/
theorem isSelection_nothing_iff
    (hplan : selectPlan t b.tnonil tl.1 (th.map val) li hi anti = .nothing) :
    IsSelection b s tl th li hi anti ⟨[], none⟩ ↔ SelectExact b s tl th li hi anti := by
  have hrow : ∀ o ∈ candidateOids b s, (Selects t.min tl.1 (th.map val) li hi anti (b.atOid o).1 ↔
        IgnoresNil t.min tl.1 (th.map val) li anti ∧ (b.atOid o).1 = t.min) := by
    intro o ho
    have hmeans := planMeans_row tl th li hi anti ho
    rw [hplan] at hmeans
    cases hmeans with
    | nothing _ _ _ h => exact h
  have hleast := planMeans_least b tl th li hi anti
  rw [hplan] at hleast
  cases hleast with
  | nothing hadj hal hall _ =>
    constructor
    · intro h
      refine ⟨hadj, fun hn ha => absurd ⟨hn, ha⟩ hall, ?_, fun ha => absurd ha hal⟩
      rintro hnil ⟨o, ho, hx⟩
      have := List.filter_eq_nil_iff.mp h.oids.symm o ho
      exact this (decide_eq_true ((hrow o ho).mpr ⟨hnil, hx⟩))
    · intro h
      refine ⟨(List.filter_eq_nil_iff.mpr fun o ho => ?_).symm, by simp⟩
      rw [decide_eq_true_iff, hrow o ho]
      rintro ⟨hnil, hx⟩
      exact h.nils hnil ⟨o, ho, hx⟩

theorem isSelection_everything_iff
    (hplan : selectPlan t b.tnonil tl.1 (th.map val) li hi anti = .everything) :
    IsSelection b s tl th li hi anti ⟨everything b s, none⟩ ↔
      SelectExact b s tl th li hi anti := by
  have hleast := planMeans_least b tl th li hi anti
  rw [hplan] at hleast
  cases hleast with
  | everything hadj hal hall hnil =>
    -- every candidate in the column is selected
    have hself : ((candidateOids b s).filter fun o =>
        Selects t.min tl.1 (th.map val) li hi anti (b.atOid o).1) = candidateOids b s := by
      refine List.filter_eq_self.mpr fun o ho => ?_
      rw [decide_eq_true_iff, hall.2.selects]
      exact atOid_ne_nil hall.1 ho
    have hfilter : everything b s = candidateOids b s ↔ ∀ o ∈ everything b s, b.Contains o := by
      rw [candidateOids, eq_comm]
      simp
    constructor
    · intro h
      exact ⟨hadj, fun _ _ => hfilter.mp (h.oids.trans hself), fun h => absurd h hnil,
        fun h => absurd h hal⟩
    · intro h
      exact ⟨(hfilter.mpr (h.within hall.1 hall.2)).trans hself.symm, by simp⟩

theorem isSelection_lookup_iff {bd : Bounds}
    (hplan : selectPlan t b.tnonil tl.1 (th.map val) li hi anti = .lookup bd) :
    IsSelection b s tl th li hi anti ⟨(candidateOids b s).filter fun o =>
            scanTest t b.tnonil bd.equi bd.anti bd.low bd.high (b.atOid o).1,
          some ⟨bd, !bd.lval || !bd.hval || bd.low ≤ bd.high⟩⟩ ↔
      SelectExact b s tl th li hi anti := by
  have hrow : ∀ o ∈ candidateOids b s, PlanMeans t b.tnonil tl.1 (th.map val) li hi anti
      (b.atOid o).1 (.lookup bd) := by
    intro o ho
    rw [← hplan]
    exact planMeans_row tl th li hi anti ho
  have hleast := planMeans_least b tl th li hi anti
  rw [hplan] at hleast
  cases hleast with
  | lookup hadj hall hnil _ _ =>
    -- the scan is right on a row unless the complement is aliased and the value is missed
    have hsame : ∀ o ∈ candidateOids b s,
        (scanTest t b.tnonil bd.equi bd.anti bd.low bd.high (b.atOid o).1 =
            decide (Selects t.min tl.1 (th.map val) li hi anti (b.atOid o).1) ↔
          ¬ (Aliased t.min t.max tl.1 (th.map val) li hi anti ∧
            t.min + 1 < (b.atOid o).1 ∧ (b.atOid o).1 < tl.1)) := by
      intro o ho
      cases hrow o ho with
      | lookup _ _ _ hal h =>
        rw [Bool.eq_iff_iff, decide_eq_true_iff]
        by_cases ha : Aliased t.min t.max tl.1 (th.map val) li hi anti
        · rw [hal ha, ha.selects tl.2.2 (b.atOid o).2.2]
          have h1 := (b.atOid o).2.1
          have h2 := tl.2.1
          have h3 := ha.2.2.1
          have h4 := ha.2.2.2.1
          simp only [ha, true_and]
          omega
        · simp [h ha, ha]
    constructor
    · intro h
      refine ⟨hadj.mp (h.assertion _ rfl), fun hn ha => absurd ⟨hn, ha⟩ hall,
        fun h => absurd h hnil, ?_⟩
      rintro ha ⟨o, ho, hx⟩
      have hmem := congrArg (o ∈ ·) h.oids
      simp only [List.mem_filter, ho, true_and, eq_iff_iff] at hmem
      exact (hsame o ho).mp (Bool.eq_iff_iff.mpr hmem) ⟨ha, hx⟩
    · intro h
      refine ⟨List.filter_congr fun o ho => (hsame o ho).mpr ?_, ?_⟩
      · rintro ⟨ha, hx⟩
        exact h.aliased ha ⟨o, ho, hx⟩
      · rintro c hc
        cases hc
        exact hadj.mpr h.not_adjacent

/-- **A selection is right exactly under `SelectExact`, if there is anything to look at.**  The
hypotheses are the two that `BATsubselect` checks; all the rest, the empty selections included, is
decided by the bounds and by the candidates. -/
theorem isSelection_BATsubselect_iff (hd : b.hdense = true)
    (hs : ∀ c, s = some c → c.tsorted = true) :
    (∃ r, BATsubselect b s tl th li hi anti = .ok r ∧ IsSelection b s tl th li hi anti r) ↔
      triviallyEmpty b s = true ∨ SelectExact b s tl th li hi anti := by
  have hs' : ¬ (s.any fun s => !s.tsorted) = true := by
    rcases s with _ | c
    · simp
    · simp [hs c rfl]
  rw [BATsubselect, if_neg (by simp [hd])]
  split_ifs with hne
  · refine iff_of_true ⟨_, rfl, ?_, by simp⟩ (.inl hne)
    rw [candidateOids_of_triviallyEmpty hne]
    rfl
  rw [or_iff_right hne]
  rcases hplan : selectPlan t b.tnonil tl.1 (th.map val) li hi anti with _ | _ | bd
  · simpa using isSelection_nothing_iff hplan
  · simpa using isSelection_everything_iff hplan
  · have hscan := BAT_scanselect_eq (fun v : IntVal t =>
      scanTest t b.tnonil bd.equi bd.anti bd.low bd.high v.1) hs (by simpa using hne)
    rw [← isSelection_lookup_iff hplan, ← hscan]
    simp

end Result

/-! ## A failing input -/

/-- The values 7, 1 and 9, with no flag set. -/
def sevenOneNine : Column (IntVal .bte) :=
  bteColumn [⟨7, by decide⟩, ⟨1, bte_one⟩, ⟨9, by decide⟩] false false (by decide) (by decide)
    (by decide)

/-- The values that are not between 5 and 127.  The 1 is one of them, but the lower bound and the
upper bound both end up as the least number. -/
theorem BATsubselect_loses_row :
    ¬ ∃ r, BATsubselect sevenOneNine none ⟨5, by decide⟩ (some ⟨127, by decide⟩) true true true =
        .ok r ∧
      IsSelection sevenOneNine none ⟨5, by decide⟩ (some ⟨127, by decide⟩) true true true r := by
  rintro ⟨r, hr, hsel⟩
  have hoids : (BATsubselect sevenOneNine none ⟨5, by decide⟩ (some ⟨127, by decide⟩) true true
      true).map Selection.oids = .ok [] := by decide
  rw [hr] at hoids
  have hnil : r.oids = [] := by simpa [Except.map] using hoids
  have hspec := hsel.oids
  rw [hnil] at hspec
  exact absurd hspec (by decide)

/-- The values from 1 to 7. -/
theorem BATsubselect_sevenOneNine :
    ∃ r, BATsubselect sevenOneNine none ⟨1, by decide⟩ (some ⟨7, by decide⟩) true true false =
        .ok r ∧
      IsSelection sevenOneNine none ⟨1, by decide⟩ (some ⟨7, by decide⟩) true true false r := by
  refine (isSelection_BATsubselect_iff (by decide) (by simp)).mpr (.inr ⟨?_, ?_, ?_, ?_⟩)
  · exact fun h => absurd h.2.1 (by decide)
  · exact fun h => absurd h (by decide)
  · exact fun h => absurd h.2.1 (Option.some_ne_none _)
  · exact fun h => absurd h.1 (by decide)

end MonetInR.Gdk
