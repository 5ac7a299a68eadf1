import MonetInR.Gdk.Calc.Convert
import MonetInR.Gdk.Join.Rows

/-!
# Conversions of numbers

The loops of `BATconvert` that advance their pointers are right only if no row or every row is a
candidate.  Those that copy are right unless an array of candidates starts before the column.

## Main results

* `convertTypeswitchloop_converts`
-/

namespace MonetInR.Gdk

open Finset Option Nat

/-! ## One value

The functions for the pairs of types all compute the one conversion of the specification. -/

theorem IntType.range_mono {t t' : IntType} (h : t.bits ≤ t'.bits) :
    t'.min ≤ t.min ∧ t.max ≤ t'.max := by
  cases t <;> cases t' <;> first | decide | exact absurd h (by decide)

section Value

variable {t t' : IntType} (v : IntVal t) {tp : CalcType} (x : ℤ)

theorem ne_nil_of_convertNumber {x w : ℤ} (h : convertNumber tp x = .value w) : w ≠ tp.nil := by
  cases tp with
  | bit =>
    obtain rfl := Conv.value.inj h
    split_ifs <;> decide
  | oid =>
    rw [convertNumber] at h
    split_ifs at h with hpos
    obtain rfl := Conv.value.inj h
    have : CalcType.oid.nil < 0 := by decide
    omega
  | num t' =>
    rw [convertNumber] at h
    split_ifs at h with hrange
    obtain rfl := Conv.value.inj h
    exact hrange.1.ne'

theorem ne_nil_of_convertValue {w : ℤ} (h : convertValue tp v = .value w) : w ≠ tp.nil := by
  unfold convertValue at h
  split_ifs at h
  exact ne_nil_of_convertNumber h

theorem enlargeValue_eq (hbits : t.bits ≤ t'.bits) :
    enlargeValue t v.1 = convertValue (.num t') v := by
  apply ite_congr rfl (fun _ => rfl)
  intro hmin
  have hrange := IntType.range_mono hbits
  have hv := v.2
  exact (if_pos (by omega)).symm

theorem reduceValue_eq : reduceValue t t' v.1 = convertValue (.num t') v := by
  apply ite_congr rfl (fun _ => rfl)
  intro hmin
  rw [convertNumber]
  split_ifs <;> first | rfl | omega

theorem oidValue_eq : oidValue t v.1 = convertValue .oid v := by
  apply ite_congr rfl (fun _ => rfl)
  intro hmin
  rw [convertNumber]
  split_ifs <;> first | rfl | omega

theorem enlargeValue_ne_overflow : enlargeValue t x ≠ .overflow := by
  unfold enlargeValue
  split_ifs <;> exact nofun

theorem bitValue_ne_overflow : bitValue t x ≠ .overflow := by
  unfold bitValue
  split_ifs <;> exact nofun

end Value

/-! ## The candidates after CANDINIT -/

section Candidates

variable {t : IntType} {b : IntColumn t} {s : Option Candidates}

/-- The candidate list is sorted and has no duplicates. -/
def Proper (s : Option Candidates) : Prop := ∀ c, s = some c → c.tsorted = true ∧ c.tkey = true

/-- What the loops rely on after `CANDINIT`. -/
structure Ready (b : IntColumn t) (s : Option Candidates) (c : CandRange) : Prop where
  ascending : c.Ascending
  le : c.start ≤ c.stop
  stop_le : c.stop ≤ b.count
  below : c.Below b.hseqbase ↔ CandsBelow b.toColumn s
  wanted : ∀ p < b.count, Wanted b s p ↔ c.start ≤ p ∧ p < c.stop ∧ c.Names b.hseqbase p
  cursor : ∀ i ≤ c.start, ∀ stop, Cursor c b.hseqbase i 0 stop
  start_of_below : CandsBelow b.toColumn s → c.start = 0
  below_of_start : c.start = 0 → 0 < c.stop → ∀ a, c.cand = some a → a 0 ≤ b.hseqbase

theorem ready_candinit (hs : Proper s) : Ready b s (CANDINIT b.toColumn s) := by
  rcases candinit_cases b.toColumn s with
    ⟨start, stop, hinit, hle, hstop, harray, hmem⟩ | ⟨c, rfl, hseq, hpos, hinit⟩
  -- a range of rows: there is no array to look at
  · have hbelow : ¬ CandsBelow b.toColumn s := by
      rintro ⟨c, hc, hseq, hpos, -⟩
      exact hpos.ne' (harray c hc hseq)
    rw [hinit]
    refine ⟨⟨nofun, nofun, nofun⟩, hle, hstop, iff_of_false (fun ⟨_, h, _⟩ => nomatch h) hbelow,
      fun p hp => ?_, (fun i _ stop a ha => nomatch ha), fun hb => absurd hb hbelow,
      (fun _ _ a ha => nomatch ha)⟩
    rw [Wanted, hmem, add_le_add_iff_left, add_lt_add_iff_left]
    exact ⟨fun h => ⟨h.1, h.2, (fun a ha => nomatch ha)⟩, fun h => ⟨h.1, h.2.1⟩⟩
  -- an array, whose ends are those of its first and last entry
  · rw [hinit]
    have h1 := clip_eq (b := b.toColumn) (c.tail 0)
    have h2 := clip_eq (b := b.toColumn) (c.tail (c.count - 1) + 1)
    have hsorted := c.sorted_true (hs c rfl).1
    have hfirst : ∀ j < c.count, c.tail 0 ≤ c.tail j := fun j => hsorted 0 j (zero_le j)
    have hlast : ∀ j < c.count, c.tail j ≤ c.tail (c.count - 1) := fun j hj =>
      hsorted j _ (by omega) (by omega)
    have hends := hfirst (c.count - 1) (by omega)
    refine ⟨⟨?_, ?_, ?_⟩, by dsimp only; omega, by dsimp only; omega, ?_, fun p hp => ?_,
      fun i hi stop a ha => ?_, ?_, fun hz hz' a ha => ?_⟩
    · rintro a ha i j hij hj
      obtain rfl := some.inj ha
      exact lt_of_le_of_ne (hsorted i j hij.le hj) (c.key_true (hs c rfl).2 i j hij hj)
    · rintro a ha
      obtain rfl := some.inj ha
      exact c.small
    · exact fun _ _ => hpos
    · constructor
      · rintro ⟨a, ha, hlt'⟩
        obtain rfl := some.inj ha
        exact ⟨c, rfl, hseq, hpos, hlt'⟩
      · rintro ⟨c', hc', -, -, hlt'⟩
        obtain rfl := some.inj hc'
        exact ⟨c.tail, rfl, hlt'⟩
    · constructor
      · rintro ⟨-, hmem⟩
        obtain ⟨j, hj, heq⟩ := hmem c rfl
        have := hfirst j hj
        have := hlast j hj
        refine ⟨by dsimp only; omega, by dsimp only; omega, fun a ha => ?_⟩
        obtain rfl := some.inj ha
        exact ⟨j, hj, heq⟩
      · rintro ⟨-, -, hnames⟩
        refine ⟨⟨Nat.le_add_right _ _, Nat.add_lt_add_left hp _⟩, fun c' hc' => ?_⟩
        obtain rfl := some.inj hc'
        exact hnames c.tail rfl
    · obtain rfl := some.inj ha
      rcases lt_or_ge (c.tail 0) b.hseqbase with hlt' | hge
      · exact .inl ⟨hlt', rfl⟩
      · refine .inr ⟨hge, fun j hj => absurd hj (not_lt_zero j), fun j hj _ => ?_,
          fun _ => hpos⟩
        have := hfirst j hj
        dsimp only at hi
        omega
    · rintro ⟨c', hc', -, -, hlt'⟩
      obtain rfl := some.inj hc'
      exact if_pos hlt'.le
    · obtain rfl := some.inj ha
      dsimp only at hz hz'
      omega

end Candidates

/-! ## Results written row by row

The rows before the first candidate, those of the loop and those behind it are written by three
loops, which together write each row once. -/

section Written

variable {c : CandRange} {candoff cnt i stop p : ℕ} {abort : Bool} {nil : ℤ} {conv x : ℕ → Conv}
  {st st' : LoopState}

/-- Row `p` holds `x p`, and nothing is written behind the last row. -/
structure Written (nil : ℤ) (cnt : ℕ) (x : ℕ → Conv) (st : LoopState) : Prop where
  slot : ∀ p, st.slot p = if p < cnt then some ((x p).store nil) else none
  nils : st.nils = ∑ p ∈ range cnt, (x p).nils

theorem sum_nils_eq {lo hi : ℕ} (h : ∀ p ∈ Ico lo hi, x p = .nil) :
    ∑ p ∈ Ico lo hi, (x p).nils = hi - lo := by
  rw [sum_congr rfl fun p hp => congrArg Conv.nils (h p hp)]
  simp [Conv.nils]

theorem card_nils_eq (slot : ℕ → Option ℤ) (hslot : ∀ p < cnt, slot p = some ((x p).store nil))
    (hx : ∀ p < cnt, ∀ w, x p = .value w → w ≠ nil) :
    ((range cnt).filter fun p => slot p = some nil).card = ∑ p ∈ range cnt, (x p).nils := by
  rw [card_filter]
  refine sum_congr rfl fun p hp => ?_
  have hp := mem_range.mp hp
  rw [hslot p hp]
  cases hxp : x p with
  | value w => exact if_neg fun heq => hx p hp w hxp (some.inj heq)
  | nil => exact if_pos rfl
  | overflow => exact if_pos rfl

/-- What becomes of row `p` if the loop stops at `stop`. -/
noncomputable def tailCell (c : CandRange) (candoff : ℕ) (conv : ℕ → Conv) (stop p : ℕ) : Conv :=
  if p < stop then cell c candoff conv p else .nil

theorem Scanned.fill (h : Scanned c candoff nil conv i st st') (hi : i ≤ st.stop)
    (hcnt : st.stop ≤ cnt) :
    (∀ p, (CANDLOOP nil st'.stop cnt st').slot p = if i ≤ p ∧ p < cnt then
      some ((tailCell c candoff conv st.stop p).store nil) else st.slot p) ∧
    (CANDLOOP nil st'.stop cnt st').nils =
      st.nils + ∑ p ∈ Ico i cnt, (tailCell c candoff conv st.stop p).nils := by
  have hle := h.le_stop hi
  have hge := h.stop_le
  -- the rows between the two ends are no candidates
  have hrest : ∀ p, st'.stop ≤ p → tailCell c candoff conv st.stop p = .nil := fun p hp => by
    unfold tailCell
    split_ifs with hlt
    · exact if_neg (h.rest p hp hlt)
    · rfl
  have hcell : ∀ p, p < st'.stop → tailCell c candoff conv st.stop p = cell c candoff conv p :=
    fun p hp => if_pos (by omega)
  refine ⟨fun p => ?_, ?_⟩
  · change (if st'.moved + st'.stop ≤ p ∧ p < st'.moved + cnt then some nil else st'.slot p) = _
    rw [h.moved, h.slot p]
    rcases lt_or_ge p st'.stop with hlt | hge'
    · rw [if_neg (by omega), hcell p hlt]
      apply if_congr _ rfl rfl
      omega
    · rw [hrest p hge', if_neg (show ¬ (i ≤ p ∧ p < st'.stop) by omega)]
      apply if_congr _ rfl rfl
      omega
  · change st'.nils + (cnt - st'.stop) = _
    rw [h.nils, ← sum_Ico_consecutive _ hle (hge.trans hcnt),
      sum_nils_eq fun p hp => hrest p (mem_Ico.mp hp).1,
      sum_congr rfl fun p hp => congrArg Conv.nils (hcell p (mem_Ico.mp hp).2), add_assoc]

/-- What becomes of row `p` in all. -/
noncomputable def rowCell (c : CandRange) (candoff : ℕ) (conv : ℕ → Conv) (stop p : ℕ) : Conv :=
  if c.start ≤ p then tailCell c candoff conv stop p else .nil

theorem rowCell_eq_nil (h : ¬ (c.start ≤ p ∧ p < stop ∧ c.Seen candoff p)) :
    rowCell c candoff conv stop p = .nil := by
  unfold rowCell tailCell cell
  split_ifs with h1 h2 h3
  · exact absurd ⟨h1, h2, h3⟩ h
  all_goals rfl

theorem rowCell_eq (h : c.start ≤ p ∧ p < stop ∧ c.Seen candoff p) :
    rowCell c candoff conv stop p = conv p := by
  unfold rowCell tailCell cell
  rw [if_pos h.1, if_pos h.2.1, if_pos h.2.2]

/-- The rows before the first candidate and those from it on make all rows. -/
theorem written_of_prefix (hstart : c.start ≤ stop) (hcnt : stop ≤ cnt)
    (hslot : ∀ p, st.slot p = if c.start ≤ p ∧ p < cnt then
      some ((tailCell c candoff conv stop p).store nil) else
      (CANDLOOP nil 0 c.start ⟨fun _ => none, 0, 0, 0, stop⟩).slot p)
    (hnils : st.nils = (CANDLOOP nil 0 c.start ⟨fun _ => none, 0, 0, 0, stop⟩).nils +
      ∑ p ∈ Ico c.start cnt, (tailCell c candoff conv stop p).nils) :
    Written nil cnt (rowCell c candoff conv stop) st := by
  refine ⟨fun p => ?_, ?_⟩
  · rw [hslot p]
    change (if c.start ≤ p ∧ p < cnt then _ else if 0 + 0 ≤ p ∧ p < 0 + c.start then some nil
      else none) = _
    unfold rowCell
    rcases lt_or_ge p c.start with hlt | hge
    · rw [if_neg (by omega), if_pos (by omega), if_pos (by omega), if_neg (by omega)]
      rfl
    · rw [if_neg (show ¬ (0 + 0 ≤ p ∧ p < 0 + c.start) by omega), if_pos hge]
      apply if_congr _ rfl rfl
      omega
  · have hfirst : ∑ p ∈ Ico 0 c.start, (rowCell c candoff conv stop p).nils = c.start - 0 :=
      sum_nils_eq fun p hp => if_neg (not_le.mpr (mem_Ico.mp hp).2)
    change _ = 0 + (c.start - 0) + _ at hnils
    rw [hnils, zero_add, range_eq_Ico,
      ← sum_Ico_consecutive _ (zero_le c.start) (hstart.trans hcnt), hfirst]
    congr 1
    exact sum_congr rfl fun p hp => congrArg Conv.nils (if_pos (mem_Ico.mp hp).1).symm

/-- The conversion fails, or writes every row in its place. -/
def Writes (c : CandRange) (candoff : ℕ) (abort : Bool) (nil : ℤ) (conv : ℕ → Conv) (cnt : ℕ)
    (r : Option LoopState) : Prop :=
  (Fails c candoff abort conv c.start c.stop ∧ r = none) ∨
    (¬ Fails c candoff abort conv c.start c.stop ∧
      ∃ st, r = some st ∧ Written nil cnt (rowCell c candoff conv c.stop) st)

/-- **An indexing conversion** writes every row in its place. -/
theorem convertImpl_index (abort : Bool) (nil : ℤ) (conv : ℕ → Conv) (hasc : c.Ascending)
    (hsmall : candoff + cnt ≤ 2 ^ 63) (hle : c.start ≤ c.stop) (hcnt : c.stop ≤ cnt)
    (hcur : Cursor c candoff c.start 0 c.stop) :
    Writes c candoff abort nil conv cnt (convertImpl c candoff false abort nil conv cnt) := by
  rcases convertLoop_index abort nil conv hasc hsmall c.stop c.start
      (CANDLOOP nil 0 c.start (loopStart c)) rfl (le_add_left _ _) hcnt hcur with
    ⟨hfails, hrun⟩ | ⟨hfails, st', hrun, hscanned⟩
  · refine .inl ⟨hfails, ?_⟩
    unfold convertImpl
    rw [hrun]
    rfl
  refine .inr ⟨hfails, CANDLOOP nil st'.stop cnt st', ?_, ?_⟩
  · unfold convertImpl
    rw [hrun]
    rfl
  · obtain ⟨hslot, hnils⟩ := hscanned.fill hle hcnt
    exact written_of_prefix hle hcnt hslot hnils

/-- Without candidates it makes no difference whether the pointers move. -/
theorem convertImpl_moving_of_none (hasc : c.Ascending) (hsmall : candoff + cnt ≤ 2 ^ 63)
    (hcnt : c.stop ≤ cnt) (hcur : Cursor c candoff c.start 0 c.stop)
    (hnone : ∀ p, c.start ≤ p → p < c.stop → ¬ c.Seen candoff p) :
    convertImpl c candoff true abort nil conv cnt =
      convertImpl c candoff false abort nil conv cnt := by
  unfold convertImpl
  rw [convertLoop_moving_of_none hasc hsmall c.stop c.start
    (CANDLOOP nil 0 c.start (loopStart c)) hcnt hcur hnone]

/-- If all rows are candidates, moving pointers write every row in its place. -/
theorem convertImpl_moving_of_all (hasc : c.Ascending) (hsmall : candoff + cnt ≤ 2 ^ 63)
    (hstart : c.start = 0) (hstop : c.stop = cnt) (hcur : Cursor c candoff c.start 0 c.stop)
    (hall : ∀ p < cnt, c.Seen candoff p) :
    Writes c candoff abort nil conv cnt (convertImpl c candoff true abort nil conv cnt) := by
  have hmoving : convertLoop c candoff true abort nil conv c.stop c.start
        (CANDLOOP nil 0 c.start (loopStart c)) =
      (convertLoop c candoff false abort nil conv c.stop c.start
        (CANDLOOP nil 0 c.start (loopStart c))).map fun st' => { st' with moved := st'.stop } := by
    rw [hstart] at hcur ⊢
    exact convertLoop_moving_of_all hasc hsmall c.stop 0 (CANDLOOP nil 0 0 (loopStart c))
      hstop.le (zero_le _) (le_add_left _ _) hcur fun p _ hp => hall p (hstop ▸ hp)
  rcases convertLoop_index abort nil conv hasc hsmall c.stop c.start
      (CANDLOOP nil 0 c.start (loopStart c)) rfl (le_add_left _ _) hstop.le hcur with
    ⟨hfails, hrun⟩ | ⟨hfails, st', hrun, hscanned⟩
  · refine .inl ⟨hfails, ?_⟩
    unfold convertImpl
    rw [hmoving, hrun]
    rfl
  -- the last row ends the loop, so that nothing is filled in behind it
  have hend : st'.stop = cnt := by
    have hle : st'.stop ≤ c.stop := hscanned.stop_le
    by_contra hne
    exact hscanned.rest st'.stop le_rfl (show st'.stop < c.stop by omega)
      (hall st'.stop (by omega))
  obtain ⟨hslot, hnils⟩ := hscanned.fill (show c.start ≤ c.stop by omega) hstop.le
  have hwritten := written_of_prefix (by omega) hstop.le hslot hnils
  refine .inr ⟨hfails, CANDLOOP nil st'.stop cnt { st' with moved := st'.stop }, ?_, ?_⟩
  · unfold convertImpl
    rw [hmoving, hrun]
    rfl
  · refine ⟨fun p => ?_, hwritten.nils⟩
    have hp := hwritten.slot p
    rw [← hp, hend]
    change (if cnt + cnt ≤ p ∧ p < cnt + cnt then some nil else st'.slot p) =
      if st'.moved + cnt ≤ p ∧ p < st'.moved + cnt then some nil else st'.slot p
    rw [if_neg (by omega), if_neg (by omega)]

theorem convertImpl_moving (abort : Bool) (nil : ℤ) (hasc : c.Ascending)
    (hsmall : candoff + cnt ≤ 2 ^ 63)
    (hle : c.start ≤ c.stop) (hcnt : c.stop ≤ cnt) (hcur : Cursor c candoff c.start 0 c.stop)
    (hconv : ∀ p < cnt, ∃ v, conv p = .value v) :
    ∃ st, convertImpl c candoff true abort nil conv cnt = some (CANDLOOP nil st.stop cnt st) ∧
      st.stop ≤ c.stop ∧ Shifted c candoff nil c.start st.stop st := by
  have hstart : Shifted c candoff nil c.start c.start (CANDLOOP nil 0 c.start (loopStart c)) := by
    refine ⟨le_rfl, fun p _ => ?_, .inl fun p hp hp' => absurd hp' (not_lt.mpr hp),
      fun hlt => absurd hlt (lt_irrefl _)⟩
    change (if 0 + 0 ≤ p ∧ p < 0 + c.start then some nil else none) = none ∨
      (if 0 + 0 ≤ p ∧ p < 0 + c.start then some nil else none) = some nil
    split_ifs
    · exact .inr rfl
    · exact .inl rfl
  obtain ⟨st, hrun, hstop, hshift⟩ := convertLoop_moving abort nil hasc hsmall
    hconv c.stop c.start (CANDLOOP nil 0 c.start (loopStart c)) hcnt hle (le_add_left _ _)
    hcur hstart
  refine ⟨st, ?_, hstop, hshift⟩
  unfold convertImpl
  rw [hrun]
  rfl

/-- If nothing overflows, it makes no difference whether that would be an error. -/
theorem convertLoop_abort {moving : Bool} (hconv : ∀ p, conv p ≠ .overflow) (abort' : Bool) :
    ∀ fuel i st, convertLoop c candoff moving abort nil conv fuel i st =
      convertLoop c candoff moving abort' nil conv fuel i st := by
  intro fuel
  induction fuel with
  | zero => exact fun _ _ => rfl
  | succ fuel ih =>
    intro i st
    have hnot : ∀ a : Bool, ¬ (a = true ∧ conv (rowPlace moving i st) = .overflow) :=
      fun a h => hconv _ h.2
    rw [convertLoop, convertLoop, if_neg (hnot abort), if_neg (hnot abort'), ih, ih]

end Written

/-! ## Conversions of numbers -/

section Numbers

variable {t : IntType} {b : IntColumn t} {s : Option Candidates} {tp : CalcType} {abort : Bool}

/-- No row is a candidate. -/
def NoneWanted (b : IntColumn t) (s : Option Candidates) : Prop := ∀ p < b.count, ¬ Wanted b s p

/-- Every row is a candidate. -/
def AllWanted (b : IntColumn t) (s : Option Candidates) : Prop := ∀ p < b.count, Wanted b s p

/-- All conversion functions convert values in the same way; only copies index the arrays. -/
theorem convertTypeswitchloop_eq (c : CandRange) :
    convertTypeswitchloop t (fun i => (b.value i).1) b.count c b.hseqbase abort tp =
      convertImpl c b.hseqbase (decide (tp ≠ .num t)) abort tp.nil
        (fun i => convertValue tp (b.value i)) b.count := by
  cases tp with
  | bit =>
    change convertImpl c b.hseqbase true false _ (fun i => bitValue t (b.value i).1) _ = _
    unfold convertImpl
    rw [convertLoop_abort (fun p => bitValue_ne_overflow _) abort]
    rfl
  | oid =>
    change convertImpl c b.hseqbase true abort _ (fun i => oidValue t (b.value i).1) _ = _
    simp only [oidValue_eq]
    rfl
  | num t' =>
    rw [convertTypeswitchloop]
    split_ifs with heq hbits
    · subst heq
      rw [show decide (CalcType.num t ≠ .num t) = false from decide_eq_false (fun h => h rfl)]
      unfold convertimplCopy convertImpl
      rw [convertLoop_abort (fun p => enlargeValue_ne_overflow _) abort]
      simp only [enlargeValue_eq _ (le_refl t.bits)]
      rfl
    · rw [show decide (CalcType.num t' ≠ .num t) = true from
        decide_eq_true fun h => heq (CalcType.num.inj h).symm]
      unfold convertimplEnlarge convertImpl
      rw [convertLoop_abort (fun p => enlargeValue_ne_overflow _) abort]
      simp only [enlargeValue_eq _ hbits.le]
      rfl
    · rw [show decide (CalcType.num t' ≠ .num t) = true from
        decide_eq_true fun h => heq (CalcType.num.inj h).symm]
      unfold convertimplReduce
      simp only [reduceValue_eq]
      rfl

variable {c : CandRange} {x : ℕ → Conv} {st : LoopState} {p : ℕ}

/-- Rows written one by one are a conversion if what is stored for them is right, and no value
among them is nil. -/
theorem isConversion_of_stored (hw : Written tp.nil b.count x st)
    (hwanted : ∀ p < b.count, Wanted b s p →
      (x p).store tp.nil = (convertValue tp (b.value p)).store tp.nil)
    (hothers : ∀ p < b.count, ¬ Wanted b s p → (x p).store tp.nil = tp.nil)
    (hx : ∀ p < b.count, ∀ w, x p = .value w → w ≠ tp.nil) :
    IsConversion b s tp (convertResult b st) := by
  have hslot : ∀ p < b.count, st.slot p = some ((x p).store tp.nil) := fun p hp => by
    rw [hw.slot p, if_pos hp]
  refine ⟨rfl, rfl, fun p hp h => ?_, fun p hp h => ?_, fun p hp => ?_, fun n hn => ?_⟩
  · exact (hslot p hp).trans (by rw [hwanted p hp h])
  · exact (hslot p hp).trans (by rw [hothers p hp h])
  · exact (hw.slot p).trans (if_neg (not_lt.mpr hp))
  · obtain rfl : st.nils = n := some.inj hn
    exact hw.nils.trans (card_nils_eq st.slot hslot hx).symm

theorem isConversion_of_written (hw : Written tp.nil b.count x st)
    (hwanted : ∀ p < b.count, Wanted b s p → x p = convertValue tp (b.value p))
    (hothers : ∀ p < b.count, ¬ Wanted b s p → x p = .nil) :
    IsConversion b s tp (convertResult b st) := by
  refine isConversion_of_stored hw (fun p hp h => by rw [hwanted p hp h])
    (fun p hp h => by rw [hothers p hp h]; rfl) fun p hp w hx => ?_
  by_cases h : Wanted b s p
  · rw [hwanted p hp h] at hx
    exact ne_nil_of_convertValue _ hx
  · rw [hothers p hp h] at hx
    cases hx

/-- A conversion holds a value other than nil in the place of a candidate that has one. -/
theorem IsConversion.ne_nil {r : Converted} (h : IsConversion b s tp r) (hp : p < b.count)
    (hwanted : Wanted b s p) (hconv : ∃ v, convertValue tp (b.value p) = .value v) :
    r.slot p ≠ none ∧ r.slot p ≠ some tp.nil := by
  obtain ⟨v, hv⟩ := hconv
  rw [h.wanted p hp hwanted, hv]
  exact ⟨nofun, fun heq => ne_nil_of_convertValue _ hv (some.inj heq)⟩

/-- The candidate lists that a conversion of numbers handles. -/
def NumbersAligned (b : IntColumn t) (s : Option Candidates) (tp : CalcType) : Prop :=
  NoneWanted b s ∨ ((tp = .num t ∨ AllWanted b s) ∧ ¬ CandsBelow b.toColumn s)

section

variable (h : Ready b s c)

include h

section

variable (hbelow : NoneWanted b s ∨ ¬ CandsBelow b.toColumn s)

include hbelow

/-- The loops see the candidates, unless there is an array that starts before the column. -/
theorem Ready.wanted_iff (hp : p < b.count) :
    Wanted b s p ↔ c.start ≤ p ∧ p < c.stop ∧ c.Seen b.hseqbase p := by
  constructor
  · intro hwanted
    obtain ⟨h1, h2, hnames⟩ := (h.wanted p hp).mp hwanted
    refine ⟨h1, h2, hnames, fun hb => ?_⟩
    rcases hbelow with hnone | hnot
    · exact hnone p hp hwanted
    · exact hnot (h.below.mp hb)
  · exact fun ⟨h1, h2, hseen⟩ => (h.wanted p hp).mpr ⟨h1, h2, hseen.1⟩

theorem Ready.fails_iff :
    Fails c b.hseqbase abort (fun i => convertValue tp (b.value i)) c.start c.stop ↔
      abort = true ∧ Overflows b s tp := by
  refine and_congr_right fun _ => ⟨?_, ?_⟩
  · rintro ⟨p, h1, h2, hseen, hover⟩
    have hp := h2.trans_le h.stop_le
    exact ⟨p, hp, (h.wanted_iff hbelow hp).mpr ⟨h1, h2, hseen⟩, hover⟩
  · rintro ⟨p, hp, hwanted, hover⟩
    obtain ⟨h1, h2, hseen⟩ := (h.wanted_iff hbelow hp).mp hwanted
    exact ⟨p, h1, h2, hseen, hover⟩

/-- An indexing conversion is right unless an array starts before the column. -/
theorem convertImpl_converts {r : Option LoopState}
    (hr : Writes c b.hseqbase abort tp.nil (fun i => convertValue tp (b.value i)) b.count r) :
    Converts b s tp abort (r.map (convertResult b)) := by
  rw [Writes, h.fails_iff hbelow] at hr
  rcases hr with ⟨hover, rfl⟩ | ⟨hover, st, rfl, hw⟩
  · exact hover
  · refine ⟨hover, isConversion_of_written hw (fun p hp hwanted => ?_) fun p hp hwanted => ?_⟩
    · exact rowCell_eq ((h.wanted_iff hbelow hp).mp hwanted)
    · exact rowCell_eq_nil fun hrow => hwanted ((h.wanted_iff hbelow hp).mpr hrow)

end

/-- A conversion with moving pointers is right only if no row or every row is a candidate. -/
theorem all_of_moving (hconv : ∀ p < b.count, ∃ v, convertValue tp (b.value p) = .value v)
    (hstop : st.stop ≤ c.stop) (hshift : Shifted c b.hseqbase tp.nil c.start st.stop st)
    (hresult : IsConversion b s tp (convertResult b (CANDLOOP tp.nil st.stop b.count st))) :
    NoneWanted b s ∨ (AllWanted b s ∧ ¬ CandsBelow b.toColumn s) := by
  have hslot : ∀ p, (convertResult b (CANDLOOP tp.nil st.stop b.count st)).slot p =
    if st.moved + st.stop ≤ p ∧ p < st.moved + b.count then some tp.nil else st.slot p :=
    fun _ => rfl
  have hahead : ∀ p ≥ st.moved, p < b.count → ¬ Wanted b s p := by
    intro p hp hlt hwanted
    obtain ⟨hnone, hnil⟩ := hresult.ne_nil hlt hwanted (hconv p hlt)
    rw [hslot p] at hnone hnil
    split_ifs at hnone hnil
    · exact hnil rfl
    · exact (hshift.ahead p hp).elim hnone hnil
  rcases Nat.eq_zero_or_pos st.moved with hzero | hpos
  · exact .inl fun p hp => hahead p (by omega) hp
  have hmoved := hshift.moved_le
  -- nils are filled in behind the end of the result unless the loop has come to it
  have hcstop := h.stop_le
  have hend : st.stop = b.count := by
    by_contra hne
    have hbehind := hresult.behind (st.moved + (b.count - 1)) (by omega)
    rw [hslot, if_pos (by omega)] at hbehind
    cases hbehind
  have hlast : c.Seen b.hseqbase (b.count - 1) := by
    by_contra hseen
    rcases hshift.last (by omega) (by rw [hend]; exact hseen) with hzero | hne
    · omega
    · have hbehind := hresult.behind (st.moved + (b.count - 1)) (by omega)
      rw [hslot, if_neg (by omega), ← hend] at hbehind
      exact hne hbehind
  have hlastWanted : Wanted b s (b.count - 1) :=
    (h.wanted _ (by omega)).mpr ⟨by omega, by omega, hlast.1⟩
  have hfull : b.count ≤ st.moved := by
    by_contra hlt
    exact hahead (b.count - 1) (by omega) (by omega) hlastWanted
  rcases hshift.full with hall | hlt
  · refine .inr ⟨fun p hp => ?_, fun hbelow => hlast.2 (h.below.mpr hbelow)⟩
    exact (h.wanted p hp).mpr ⟨by omega, by omega, (hall p (by omega) (by omega)).1⟩
  · omega

/-- A conversion that may fail does so at an overflow that comes before any row that is no
candidate: up to there the pointers are at the row. -/
theorem convertTypeswitchloop_early (hbelow : ¬ CandsBelow b.toColumn s) (hp : p < b.count)
    (hwanted : ∀ q ≤ p, Wanted b s q) (hover : convertValue tp (b.value p) = .overflow) :
    convertTypeswitchloop t (fun i => (b.value i).1) b.count c b.hseqbase true tp = none := by
  have hrow := fun q (hq : q ≤ p) =>
    (h.wanted_iff (.inr hbelow) (hq.trans_lt hp)).mp (hwanted q hq)
  have hstart : c.start = 0 := Nat.le_zero.mp (hrow 0 (zero_le p)).1
  have hcur := h.cursor c.start le_rfl c.stop
  rw [convertTypeswitchloop_eq, convertImpl, Option.map_eq_none_iff]
  by_cases hcopy : tp = .num t
  · rw [hcopy, ← enlargeValue_eq _ le_rfl] at hover
    exact absurd hover (enlargeValue_ne_overflow _)
  · rw [decide_eq_true hcopy, hstart] at *
    exact convertLoop_moving_early h.ascending b.oids_small hover c.stop 0
      (CANDLOOP tp.nil 0 0 (loopStart c)) h.stop_le (le_add_left _ _) (zero_le p)
      (hrow p le_rfl).2.1 hcur fun q _ hq => (hrow q hq).2.2

/-- **Conversions of numbers** are right exactly for these, if all values have a conversion. -/
theorem convertTypeswitchloop_converts :
    (NumbersAligned b s tp → Converts b s tp abort
      ((convertTypeswitchloop t (fun i => (b.value i).1) b.count c b.hseqbase abort tp).map
        (convertResult b))) ∧
    ((∀ p < b.count, ∃ v, convertValue tp (b.value p) = .value v) → Converts b s tp abort
      ((convertTypeswitchloop t (fun i => (b.value i).1) b.count c b.hseqbase abort tp).map
        (convertResult b)) → NumbersAligned b s tp) := by
  rw [convertTypeswitchloop_eq]
  have hcur := h.cursor c.start le_rfl c.stop
  have hindex := convertImpl_index abort tp.nil (fun i => convertValue tp (b.value i)) h.ascending
    b.oids_small h.le h.stop_le hcur
  by_cases hcopy : tp = .num t
  · -- a copy
    rw [decide_eq_false (not_not.mpr hcopy)]
    refine ⟨fun hal => convertImpl_converts h (hal.imp_right And.right) hindex,
      fun hconv hresult => ?_⟩
    by_cases hbelow : CandsBelow b.toColumn s
    swap
    · exact .inr ⟨.inl hcopy, hbelow⟩
    left
    intro p hp hwanted
    rcases hindex with ⟨⟨-, q, -, -, hseen, -⟩, -⟩ | ⟨-, st, hrun, hw⟩
    · exact hseen.2 (h.below.mpr hbelow)
    · rw [hrun] at hresult
      have hne := hresult.2.ne_nil hp hwanted (hconv p hp)
      refine hne.2 ((hw.slot p).trans ?_)
      rw [if_pos hp, rowCell_eq_nil fun hrow => hrow.2.2.2 (h.below.mpr hbelow)]
      rfl
  · -- moving pointers
    rw [decide_eq_true hcopy]
    refine ⟨?_, fun hconv hresult => ?_⟩
    · rintro (hnone | ⟨hcopy' | hall, hbelow⟩)
      · rw [convertImpl_moving_of_none h.ascending b.oids_small h.stop_le hcur
          fun p h1 h2 hseen => ?_]
        · exact convertImpl_converts h (.inl hnone) hindex
        · exact hnone p (h2.trans_le h.stop_le)
            ((h.wanted p (h2.trans_le h.stop_le)).mpr ⟨h1, h2, hseen.1⟩)
      · exact absurd hcopy' hcopy
      · rcases Nat.eq_zero_or_pos b.count with hzero | hpos
        · have hstop := h.stop_le
          rw [convertImpl_moving_of_none h.ascending b.oids_small h.stop_le hcur
            fun p h1 h2 => by omega]
          exact convertImpl_converts h (.inr hbelow) hindex
        · have hfirst := (h.wanted_iff (.inr hbelow) hpos).mp (hall 0 hpos)
          have hlast := (h.wanted_iff (.inr hbelow) (show b.count - 1 < b.count by omega)).mp
            (hall _ (by omega))
          have hstop := h.stop_le
          refine convertImpl_converts h (.inr hbelow) (convertImpl_moving_of_all h.ascending
            b.oids_small (by omega) (by omega) hcur fun p hp => ?_)
          exact ((h.wanted_iff (.inr hbelow) hp).mp (hall p hp)).2.2
    · obtain ⟨st, hrun, hstop, hshift⟩ := convertImpl_moving abort tp.nil
        h.ascending b.oids_small h.le h.stop_le hcur hconv
      rw [hrun] at hresult
      exact (all_of_moving h hconv hstop hshift hresult.2).imp_right
        fun hall => ⟨.inr hall.1, hall.2⟩

end

end Numbers

end MonetInR.Gdk
