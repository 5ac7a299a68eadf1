import MonetInR.Gdk.Calc.ConvertNumbers

/-!
# Which conversions are aligned

A dense sequence is converted by loops of its own, with conditions of their own.  Together with
those for numbers they say which candidate lists `BATconvert` handles.

## Main definitions

* `Aligned`: the candidate lists that a conversion handles

## Main results

* `BATconvert_converts`
-/

namespace MonetInR.Gdk

open Finset Nat IntType

/-! ## The loop over a dense sequence -/

section VoidLoop

variable {c : CandRange} {candoff cnt i : ℕ}

theorem voidLoop_eq (nil : ℤ) (conv : ℕ → Conv) (st : LoopState) (hasc : c.Ascending)
    (hsmall : candoff + cnt ≤ 2 ^ 63) (hmoved : st.moved = 0)
    (hi : i ≤ st.stop) (hcnt : st.stop ≤ cnt) (hcur : Cursor c candoff i st.cand st.stop) :
    ∃ st', voidLoop c candoff nil conv cnt i st = some st' ∧
      (∀ p, st'.slot p = if i ≤ p ∧ p < cnt then
        some ((tailCell c candoff conv st.stop p).store nil) else st.slot p) ∧
      st'.nils = st.nils + ∑ p ∈ Ico i cnt, (tailCell c candoff conv st.stop p).nils := by
  rcases convertLoop_index false nil conv hasc hsmall st.stop i st
      hmoved (le_add_left _ _) hcnt hcur with ⟨hfails, -⟩ | ⟨-, st', hrun, hscanned⟩
  · cases hfails.1
  · refine ⟨CANDLOOP nil st'.stop cnt st', ?_, hscanned.fill hi hcnt⟩
    unfold voidLoop
    rw [hrun, Option.map_some, max_eq_right (hscanned.le_stop hi)]
    rfl

theorem voidLoop_behind (c : CandRange) (candoff cnt : ℕ) (nil : ℤ) (conv : ℕ → Conv)
    (st : LoopState) (hi : st.stop < i) :
    ∃ st', voidLoop c candoff nil conv cnt i st = some st' ∧
      st'.nils = st.nils + (cnt - st.stop) := by
  have hrun : convertLoop c candoff false false nil conv st.stop i st = some st := by
    cases st.stop with
    | zero => rfl
    | succ fuel =>
      rw [convertLoop, if_neg hi.not_gt]
  refine ⟨{ CANDLOOP nil (max i st.stop) cnt st with nils := st.nils + (cnt - st.stop) }, ?_, rfl⟩
  unfold voidLoop
  rw [hrun]
  rfl

end VoidLoop

/-! ## Dense sequences as numbers

The end of the loop is a difference that wraps around if already the first number is too large.  The
two cases have nothing in common, and each is settled on its own. -/

section Sequence

variable {t : IntType} {b : IntColumn t} {s : Option Candidates} {tp : CalcType} {abort : Bool}
  {c : CandRange} {p : ℕ}

theorem sequenceNumber_eq {seq i : ℕ} (h : seq + i < tp.storage.limit) :
    sequenceNumber tp seq i = .value (seq + i : ℕ) := by
  have hpow : 2 ^ tp.storage.bits = 2 * tp.storage.limit := by
    cases tp.storage <;> decide
  unfold sequenceNumber
  congr 1
  apply Int.bmod_eq_of_le_mul_two <;> omega

/-- The number of rows that are converted. -/
def voidStop (tp : CalcType) (b : IntColumn t) (c : CandRange) : ℕ :=
  min c.stop (voidCount tp.storage b.tseqbase b.count)

section

variable (hvoid : b.ttype = typeVoid)

include hvoid

theorem value_of_void (hseq : b.tseqbase ≠ oidNil) (hp : p < b.count) :
    convertValue tp (b.value p) = convertNumber tp (b.tseqbase + p : ℕ) := by
  obtain ⟨rfl, hval⟩ := b.void_true hvoid
  have hv : (b.value p).1 = (b.tseqbase + p : ℕ) := by
    refine (hval p hp).trans ?_
    rw [if_neg hseq, cast_add]
  unfold convertValue
  rw [hv]
  apply if_neg
  have : lng.min < 0 := by decide
  omega

theorem value_of_void_nil (hseq : b.tseqbase = oidNil) (hp : p < b.count) :
    convertValue tp (b.value p) = .nil := by
  obtain ⟨-, hval⟩ := b.void_true hvoid
  have hv : (b.value p).1 = t.min := (hval p hp).trans (if_pos hseq)
  exact if_pos hv

/-- The numbers of a sequence below the limit of the storage have a conversion. -/
theorem convertValue_of_void (hseq : b.tseqbase ≠ oidNil) (htp : tp ≠ .bit) (hp : p < b.count) :
    convertValue tp (b.value p) = if b.tseqbase + p < tp.storage.limit then
      .value (b.tseqbase + p : ℕ) else .overflow := by
  rw [value_of_void hvoid hseq hp]
  have hsmall := b.void_small hvoid hseq
  cases tp with
  | bit => exact absurd rfl htp
  | oid =>
    have hlimit : CalcType.oid.storage.limit = 2 ^ 63 := rfl
    rw [hlimit, convertNumber, if_pos (by omega), if_pos (by omega)]
  | num t' =>
    have hmax : t'.max + 1 = t'.limit := by
      cases t' <;> decide
    have hmin : t'.min < 0 := by
      cases t' <;> decide
    exact if_congr (by change _ ↔ b.tseqbase + p < t'.limit; omega) rfl rfl

/-- If the first number of a sequence is in reach, the rows that are converted are those whose
numbers are below the limit. -/
theorem lt_voidCount_iff (hseq : b.tseqbase ≠ oidNil) (hle : b.tseqbase ≤ tp.storage.limit)
    (hp : p < b.count) : p < voidCount tp.storage b.tseqbase b.count ↔
      b.tseqbase + p < tp.storage.limit := by
  have hsmall := b.void_small hvoid hseq
  have hlimit : tp.storage.limit < 2 ^ 64 ∧ (64 ≤ tp.storage.bits → tp.storage.limit = 2 ^ 63) := by
    cases tp.storage <;> decide
  unfold voidCount tooWide
  split_ifs with hwide
  · rw [sub64_of_le hle hlimit.1]
    omega
  · simp only [decide_eq_true_eq, not_and] at hwide
    rcases Nat.lt_or_ge tp.storage.bits 64 with hbits | hbits
    · have := hwide hbits
      omega
    · have := hlimit.2 hbits
      omega

/-- If it is not, the difference wraps around and all rows are converted. -/
theorem count_le_voidCount (hseq : b.tseqbase ≠ oidNil) (hlt : tp.storage.limit < b.tseqbase) :
    b.count ≤ voidCount tp.storage b.tseqbase b.count := by
  have hsmall := b.void_small hvoid hseq
  unfold voidCount
  split_ifs
  · unfold sub64
    omega
  · exact le_rfl

theorem convertVoidAny_nil (hseq : b.tseqbase = oidNil) :
    Converts b s tp abort ((convertVoidAny b.tseqbase b.count tp c b.hseqbase abort).map
      (convertResult b)) := by
  unfold convertVoidAny
  rw [if_pos hseq]
  refine ⟨?_, isConversion_of_written (x := fun _ => .nil) ⟨fun p => ?_, ?_⟩
    (fun p hp _ => (value_of_void_nil hvoid hseq hp).symm) fun _ _ _ => rfl⟩
  · rintro ⟨-, p, hp, -, hover⟩
    rw [value_of_void_nil hvoid hseq hp] at hover
    cases hover
  · change (if 0 + 0 ≤ p ∧ p < 0 + b.count then _ else _) = _
    apply if_congr _ rfl rfl
    omega
  · have hsum : ∑ _p ∈ Ico 0 b.count, Conv.nil.nils = b.count - 0 :=
      sum_nils_eq (x := fun _ => .nil) fun _ _ => rfl
    rw [range_eq_Ico, hsum]
    exact zero_add _

end

/-- What a conversion of a sequence to numbers returns.  The loop for `bte` starts with the first
row again, so no rows must have been counted before it. -/
theorem convertVoidAny_number (h : Ready b s c) (hseq : b.tseqbase ≠ oidNil) (hbit : tp ≠ .bit)
    (hbte : tp = .num .bte → c.start = 0) (hle : c.start ≤ voidStop tp b c)
    (habort : ¬ (tooWide tp.storage b.tseqbase b.count = true ∧ abort = true)) :
    ∃ st, convertVoidAny b.tseqbase b.count tp c b.hseqbase abort = some st ∧
      Written tp.nil b.count (rowCell c b.hseqbase
        (fun i => sequenceNumber tp b.tseqbase (i - c.start)) (voidStop tp b c)) st := by
  have hcnt : voidStop tp b c ≤ b.count := (min_le_left _ _).trans h.stop_le
  have hloop : convertVoidAny b.tseqbase b.count tp c b.hseqbase abort =
      voidLoop c b.hseqbase tp.nil (fun i => sequenceNumber tp b.tseqbase (i - c.start)) b.count
        c.start (voidStart tp.nil c.start (voidStop tp b c)) := by
    unfold convertVoidAny
    rw [if_neg hseq, if_neg habort]
    cases tp with
    | bit => exact absurd rfl hbit
    | oid => rfl
    | num t' =>
      cases t' with
      | bte =>
        rw [hbte rfl]
        rfl
      | sht => rfl
      | int => rfl
      | lng => rfl
  obtain ⟨st, hrun, hslot, hnils⟩ := voidLoop_eq tp.nil
    (fun i => sequenceNumber tp b.tseqbase (i - c.start))
    (voidStart tp.nil c.start (voidStop tp b c)) h.ascending b.oids_small rfl hle hcnt
    (h.cursor c.start le_rfl _)
  exact ⟨st, hloop.trans hrun, written_of_prefix hle hcnt hslot hnils⟩

/-- If the loop for `bte` starts again with the first row, the rows before the first candidate are
counted twice. -/
theorem convertVoidAny_bte (h : Ready b s c) (hseq : b.tseqbase ≠ oidNil)
    (habort : ¬ (tooWide .bte b.tseqbase b.count = true ∧ abort = true)) :
    ∃ st, convertVoidAny b.tseqbase b.count (.num .bte) c b.hseqbase abort = some st ∧
      (∀ p < b.count, st.slot p = some ((tailCell c b.hseqbase
        (sequenceNumber (.num .bte) b.tseqbase) (voidStop (.num .bte) b c) p).store bte.min)) ∧
      st.nils = c.start + ∑ p ∈ range b.count, (tailCell c b.hseqbase
        (sequenceNumber (.num .bte) b.tseqbase) (voidStop (.num .bte) b c) p).nils := by
  have hcnt : voidStop (.num .bte) b c ≤ b.count := (min_le_left _ _).trans h.stop_le
  obtain ⟨st, hrun, hslot, hnils⟩ := voidLoop_eq bte.min
    (sequenceNumber (.num .bte) b.tseqbase) (voidStart bte.min c.start (voidStop (.num .bte) b c))
    h.ascending b.oids_small rfl (zero_le _) hcnt (h.cursor 0 (zero_le _) _)
  refine ⟨st, ?_, fun p hp => (hslot p).trans (if_pos ⟨zero_le p, hp⟩), ?_⟩
  · unfold convertVoidAny
    rw [if_neg hseq]
    change (if tooWide .bte b.tseqbase b.count = true ∧ abort = true then _ else _) = _
    rw [if_neg habort]
    exact hrun
  · rw [hnils, range_eq_Ico]
    congr 1
    exact zero_add _

/-- If the first candidate is behind the rows that are converted, too many nils are counted. -/
theorem convertVoidAny_behind (hseq : b.tseqbase ≠ oidNil) (hbit : tp ≠ .bit)
    (hbte : tp ≠ .num .bte) (hlt : voidStop tp b c < c.start)
    (habort : ¬ (tooWide tp.storage b.tseqbase b.count = true ∧ abort = true)) :
    ∃ st, convertVoidAny b.tseqbase b.count tp c b.hseqbase abort = some st ∧
      st.nils = c.start + (b.count - voidStop tp b c) := by
  obtain ⟨st, hrun, hnils⟩ := voidLoop_behind c b.hseqbase b.count tp.nil
    (fun i => sequenceNumber tp b.tseqbase (i - c.start))
    (voidStart tp.nil c.start (voidStop tp b c)) hlt
  refine ⟨st, ?_, hnils.trans ?_⟩
  · unfold convertVoidAny
    rw [if_neg hseq, if_neg habort]
    cases tp with
    | bit => exact absurd rfl hbit
    | oid => exact hrun
    | num t' =>
      cases t' with
      | bte => exact absurd rfl hbte
      | sht => exact hrun
      | int => exact hrun
      | lng => exact hrun
  · change 0 + (c.start - 0) + (b.count - voidStop tp b c) = _
    omega

/-- The numbers of all candidates are beyond the limit of the storage. -/
def NoneFits (b : IntColumn t) (s : Option Candidates) (tp : CalcType) : Prop :=
  ∀ p < b.count, Wanted b s p → tp.storage.limit ≤ b.tseqbase + p

/-- The candidate lists that a conversion of a sequence to numbers handles.  If already the first
number is beyond the limit, the numbers are cut off. -/
def SequenceAligned (b : IntColumn t) (s : Option Candidates) (tp : CalcType) (c : CandRange) :
    Prop :=
  if b.tseqbase ≤ tp.storage.limit then
    c.start ≤ voidCount tp.storage b.tseqbase b.count ∧
      (c.start = 0 ∨ (tp ≠ .num .bte ∧ NoneFits b s tp)) ∧
      (NoneFits b s tp ∨ ¬ CandsBelow b.toColumn s)
  else (tp = .num .bte → c.start = 0) ∧ (NoneWanted b s ∨ CandsBelow b.toColumn s)

theorem not_overflows_of_values
    (hconv : ∀ p < b.count, ∃ v, convertValue tp (b.value p) = .value v) :
    ¬ Overflows b s tp := by
  rintro ⟨p, hp, -, hover⟩
  obtain ⟨v, hv⟩ := hconv p hp
  rw [hv] at hover
  cases hover

theorem IsConversion.nils_le {st : LoopState} (h : IsConversion b s tp (convertResult b st)) :
    st.nils ≤ b.count := by
  have hbound := card_filter_le (range b.count) fun p => (convertResult b st).slot p = some tp.nil
  rw [card_range, ← h.nils _ rfl] at hbound
  exact hbound

section

variable (h : Ready b s c) (hvoid : b.ttype = typeVoid) (hseq : b.tseqbase ≠ oidNil)
  (hbit : tp ≠ .bit) (habort : ¬ (tooWide tp.storage b.tseqbase b.count = true ∧ abort = true))

include h hvoid hseq hbit habort

omit h hbit in
/-- A sequence that is not too wide has no overflow. -/
theorem not_overflows_of_void (hbit : tp ≠ .bit) : ¬ (abort = true ∧ Overflows b s tp) := by
  rintro ⟨rfl, p, hp, -, hover⟩
  have hsmall := b.void_small hvoid hseq
  have hlimit : 64 ≤ tp.storage.bits → tp.storage.limit = 2 ^ 63 := by
    cases tp.storage <;> decide
  rw [convertValue_of_void hvoid hseq hbit hp, if_pos] at hover
  · cases hover
  simp only [tooWide, decide_eq_true_eq, and_true, not_and] at habort
  rcases Nat.lt_or_ge tp.storage.bits 64 with hbits | hbits
  · have := habort hbits
    omega
  · have := hlimit hbits
    omega

/-- **Conversions of a sequence to numbers**, if its first number is in reach. -/
theorem convertVoidAny_converts_iff (hreach : b.tseqbase ≤ tp.storage.limit) :
    Converts b s tp abort ((convertVoidAny b.tseqbase b.count tp c b.hseqbase abort).map
      (convertResult b)) ↔ SequenceAligned b s tp c := by
  have hover := not_overflows_of_void (s := s) hvoid hseq habort hbit
  have hfits : ∀ p < b.count, p < c.stop →
      (p < voidStop tp b c ↔ b.tseqbase + p < tp.storage.limit) := fun p hp hstop => by
    rw [← lt_voidCount_iff hvoid hseq hreach hp, voidStop, lt_min_iff, and_iff_right hstop]
  -- a number that is written is not negative
  have hnumber : ∀ p < b.count, p < voidStop tp b c → ∀ i ≤ p,
      sequenceNumber tp b.tseqbase (p - i) = .value (b.tseqbase + (p - i) : ℕ) := by
    intro p hp hstop i _
    have := (hfits p hp (hstop.trans_le (min_le_left _ _))).mp hstop
    exact sequenceNumber_eq (by omega)
  have hnil : tp.nil < 0 := by
    cases tp with
    | num t' => cases t' <;> decide
    | _ => decide
  rw [SequenceAligned, if_pos hreach]
  by_cases hbte : tp = .num .bte ∧ c.start ≠ 0
  · -- the rows before the first candidate are counted twice
    obtain ⟨rfl, hstart⟩ := hbte
    obtain ⟨st, hrun, hslot, hnils⟩ := convertVoidAny_bte h hseq habort
    rw [hrun]
    refine iff_of_false (fun hresult => hstart ?_) fun hal => ?_
    · have hcard := hresult.2.nils _ rfl
      have hcount := card_nils_eq st.slot hslot fun p hp w hw => by
        unfold tailCell cell at hw
        split_ifs at hw with hstop
        have hval := hnumber p hp hstop 0 (zero_le p)
        rw [Nat.sub_zero] at hval
        rw [hval] at hw
        obtain rfl := Conv.value.inj hw
        change bte.min < 0 at hnil
        omega
      change _ = ((range b.count).filter fun p => st.slot p = some bte.min).card at hcard
      omega
    · exact hal.2.1.elim hstart fun hne => hne.1 rfl
  rw [not_and, not_not] at hbte
  rcases lt_or_ge (voidStop tp b c) c.start with hlt | hle
  · -- the first candidate is behind the rows that are converted
    have hbte' : tp ≠ .num .bte := fun heq => by
      have := hbte heq
      omega
    have hle := h.le
    obtain ⟨st, hrun, hnils⟩ := convertVoidAny_behind hseq hbit hbte' hlt habort
    rw [hrun]
    refine iff_of_false (fun hresult => ?_) fun hal => not_le.mpr hlt (le_min h.le hal.1)
    have := hresult.2.nils_le
    have := h.stop_le
    omega
  obtain ⟨st, hrun, hw⟩ := convertVoidAny_number h hseq hbit hbte hle habort
  have hle' : c.start ≤ voidCount tp.storage b.tseqbase b.count := hle.trans (min_le_right _ _)
  rw [hrun, and_iff_right hle']
  constructor
  · rintro ⟨-, hresult⟩
    -- a candidate whose number fits is seen and written as it is
    have hrow : ∀ p < b.count, Wanted b s p → b.tseqbase + p < tp.storage.limit →
        ¬ CandsBelow b.toColumn s ∧ c.start = 0 := by
      intro p hp hwanted hlt
      obtain ⟨h1, h2, hnames⟩ := (h.wanted p hp).mp hwanted
      have hstop := (hfits p hp h2).mpr hlt
      have hslot := hresult.wanted p hp hwanted
      rw [convertValue_of_void hvoid hseq hbit hp, if_pos hlt] at hslot
      change st.slot p = _ at hslot
      rw [hw.slot p, if_pos hp] at hslot
      have hbelow : ¬ CandsBelow b.toColumn s := by
        intro hb
        rw [rowCell_eq_nil fun hrow => hrow.2.2.2 (h.below.mpr hb)] at hslot
        have hbad : tp.nil = (b.tseqbase + p : ℕ) := Option.some.inj hslot
        omega
      rw [rowCell_eq ⟨h1, hstop, hnames, fun hb => hbelow (h.below.mp hb)⟩,
        hnumber p hp hstop _ h1] at hslot
      have heq : (b.tseqbase + (p - c.start) : ℕ) = ((b.tseqbase + p : ℕ) : ℤ) :=
        Option.some.inj hslot
      exact ⟨hbelow, by omega⟩
    by_cases hnone : NoneFits b s tp
    · refine ⟨or_iff_not_imp_left.mpr fun hstart => ⟨fun heq => ?_, hnone⟩, .inl hnone⟩
      exact hstart (hbte heq)
    · unfold NoneFits at hnone
      push Not at hnone
      obtain ⟨p, hp, hwanted, hlt⟩ := hnone
      exact ⟨.inl (hrow p hp hwanted hlt).2, .inr (hrow p hp hwanted hlt).1⟩
  · rintro ⟨hstart, hbelow⟩
    refine ⟨hover, isConversion_of_stored hw (fun p hp hwanted => ?_) (fun p hp hwanted => ?_)
      fun p hp w hx => ?_⟩
    · obtain ⟨h1, h2, hnames⟩ := (h.wanted p hp).mp hwanted
      rw [convertValue_of_void hvoid hseq hbit hp]
      split_ifs with hlt
      · have hnone : ¬ NoneFits b s tp := fun hnone => not_le.mpr hlt (hnone p hp hwanted)
        have hstop := (hfits p hp h2).mpr hlt
        rw [rowCell_eq ⟨h1, hstop, hnames, fun hb => hbelow.resolve_left hnone (h.below.mp hb)⟩,
          hnumber p hp hstop _ h1, hstart.resolve_right fun hne => hnone hne.2, Nat.sub_zero]
      · rw [rowCell_eq_nil fun hrow => hlt ((hfits p hp h2).mp hrow.2.1)]
        rfl
    · have hstop : voidStop tp b c ≤ c.stop := min_le_left _ _
      rw [rowCell_eq_nil fun hrow => hwanted ((h.wanted p hp).mpr
        ⟨hrow.1, hrow.2.1.trans_le hstop, hrow.2.2.1⟩)]
      rfl
    · by_cases hrow : c.start ≤ p ∧ p < voidStop tp b c ∧ c.Seen b.hseqbase p
      · rw [rowCell_eq hrow, hnumber p hp hrow.2.1 _ hrow.1] at hx
        obtain rfl := Conv.value.inj hx
        omega
      · rw [rowCell_eq_nil hrow] at hx
        cases hx

/-- If the first number is beyond the limit, nothing must be seen as a candidate. -/
theorem convertVoidAny_beyond (hlt : tp.storage.limit < b.tseqbase)
    (hal : SequenceAligned b s tp c) :
    Converts b s tp abort ((convertVoidAny b.tseqbase b.count tp c b.hseqbase abort).map
      (convertResult b)) := by
  rw [SequenceAligned, if_neg (not_le.mpr hlt)] at hal
  have hstop : voidStop tp b c = c.stop :=
    min_eq_left (h.stop_le.trans (count_le_voidCount hvoid hseq hlt))
  obtain ⟨st, hrun, hw⟩ := convertVoidAny_number h hseq hbit hal.1 (hstop ▸ h.le) habort
  rw [hrun, hstop] at *
  have hcell : ∀ p < b.count, rowCell c b.hseqbase
      (fun i => sequenceNumber tp b.tseqbase (i - c.start)) c.stop p = .nil := fun p hp => by
    refine rowCell_eq_nil fun hrow => ?_
    have hwanted := (h.wanted p hp).mpr ⟨hrow.1, hrow.2.1, hrow.2.2.1⟩
    exact hal.2.elim (fun hnone => hnone p hp hwanted) fun hb => hrow.2.2.2 (h.below.mpr hb)
  refine ⟨not_overflows_of_void hvoid hseq habort hbit, isConversion_of_stored hw
    (fun p hp _ => ?_) (fun p hp _ => ?_) fun p hp w hx => ?_⟩
  · rw [hcell p hp, convertValue_of_void hvoid hseq hbit hp, if_neg (by omega)]
    rfl
  · rw [hcell p hp]
    rfl
  · rw [hcell p hp] at hx
    cases hx

end

/-! ## Dense sequences as bits

All numbers but 0 become 1, and only the first number can be 0.  The code tests this for the first
row, whether or not it is a candidate. -/

/-- The test for a first value of 0. -/
def FirstZero (b : IntColumn t) (c : CandRange) (stop : ℕ) : Prop :=
  c.start = 0 ∧ 0 < stop ∧ b.tseqbase = 0 ∧ ∀ a, c.cand = some a → a 0 ≠ b.hseqbase

open Classical in
/-- What becomes of row `p`. -/
noncomputable def bitCell (b : IntColumn t) (c : CandRange) (stop p : ℕ) : Conv :=
  if FirstZero b c stop ∧ p = 0 then .value 0
  else rowCell c b.hseqbase (fun _ => .value 1) stop p

section

variable (h : Ready b s c) (hseq : b.tseqbase ≠ oidNil)
  (habort : ¬ (tooWide .bte b.tseqbase b.count = true ∧ abort = true))

include h hseq habort

theorem convertVoidAny_bit (hle : c.start ≤ voidStop .bit b c) :
    ∃ st, convertVoidAny b.tseqbase b.count .bit c b.hseqbase abort = some st ∧
      Written bte.min b.count (bitCell b c (voidStop .bit b c)) st := by
  have hcnt : voidStop .bit b c ≤ b.count := (min_le_left _ _).trans h.stop_le
  unfold convertVoidAny
  rw [if_neg hseq]
  change ∃ st, (if tooWide .bte b.tseqbase b.count = true ∧ abort = true then none else
    if c.start = 0 ∧ 0 < voidStop .bit b c ∧ _ ∧ _ then
      voidLoop c b.hseqbase bte.min (fun _ => .value 1) b.count 1
        ((voidStart bte.min c.start (voidStop .bit b c)).set 0 0)
    else voidLoop c b.hseqbase bte.min (fun _ => .value 1) b.count c.start
      (voidStart bte.min c.start (voidStop .bit b c))) = some st ∧ _
  rw [if_neg habort]
  by_cases hzero : FirstZero b c (voidStop .bit b c)
  -- the first row becomes 0, and the loop starts behind it
  · obtain ⟨hstart, hpos, -, hne⟩ := id hzero
    have hpos' : 0 < c.stop := hpos.trans_le (min_le_left _ _)
    have hcur : Cursor c b.hseqbase 1 0 (voidStop .bit b c) := fun a ha =>
      .inl ⟨lt_of_le_of_ne (h.below_of_start hstart hpos' a ha) (hne a ha), rfl⟩
    obtain ⟨st, hrun, hslot, hnils⟩ := voidLoop_eq bte.min (fun _ => .value 1)
      ((voidStart bte.min c.start (voidStop .bit b c)).set 0 0) h.ascending b.oids_small rfl hpos
      hcnt
      hcur
    have hcell : ∀ p, 1 ≤ p → bitCell b c (voidStop .bit b c) p =
        tailCell c b.hseqbase (fun _ => .value 1) (voidStop .bit b c) p := fun p hp => by
      unfold bitCell rowCell
      rw [if_neg (by omega), if_pos (by omega)]
    have hcell0 : bitCell b c (voidStop .bit b c) 0 = .value 0 := if_pos ⟨hzero, rfl⟩
    refine ⟨st, (if_pos hzero).trans hrun, fun p => ?_, ?_⟩
    · rw [hslot p]
      rcases Nat.eq_zero_or_pos p with rfl | hp
      · rw [if_neg (by omega), if_pos (by omega), hcell0]
        rfl
      rw [hcell p hp]
      by_cases hlt : p < b.count
      · rw [if_pos ⟨hp, hlt⟩, if_pos hlt]
        rfl
      · rw [if_neg fun hp' => hlt hp'.2, if_neg hlt]
        change Function.update (voidStart _ c.start (voidStop .bit b c)).slot 0 _ p = none
        rw [Function.update_of_ne (by omega)]
        exact if_neg (by omega)
    · have hsplit := sum_eq_sum_Ico_succ_bot (show 0 < b.count by omega)
        fun p => (bitCell b c (voidStop .bit b c) p).nils
      rw [hnils, range_eq_Ico, hsplit, hcell0]
      rw [hstart]
      exact congrArg _ (sum_congr rfl fun p hp =>
        congrArg Conv.nils (hcell p (mem_Ico.mp hp).1).symm)
  · obtain ⟨st, hrun, hslot, hnils⟩ := voidLoop_eq bte.min (fun _ => .value 1)
      (voidStart bte.min c.start (voidStop .bit b c)) h.ascending b.oids_small rfl hle hcnt
      (h.cursor c.start le_rfl _)
    have hcell : bitCell b c (voidStop .bit b c) =
        rowCell c b.hseqbase (fun _ => .value 1) (voidStop .bit b c) :=
      funext fun p => if_neg fun hp => hzero hp.1
    refine ⟨st, (if_neg hzero).trans hrun, ?_⟩
    rw [hcell]
    exact written_of_prefix hle hcnt hslot hnils

omit h in
/-- If the first candidate is behind the rows that are converted, too many nils are counted. -/
theorem convertVoidAny_bit_behind (hlt : voidStop .bit b c < c.start) :
    ∃ st, convertVoidAny b.tseqbase b.count .bit c b.hseqbase abort = some st ∧
      b.count < st.nils := by
  have hzero : ¬ FirstZero b c (voidStop .bit b c) := fun hzero => by
    have := hzero.1
    omega
  obtain ⟨st, hrun, hnils⟩ := voidLoop_behind c b.hseqbase b.count bte.min
    (fun _ => .value 1) (voidStart bte.min c.start (voidStop .bit b c)) hlt
  refine ⟨st, ?_, ?_⟩
  · unfold convertVoidAny
    rw [if_neg hseq]
    change (if tooWide .bte b.tseqbase b.count = true ∧ abort = true then none else
      if c.start = 0 ∧ 0 < voidStop .bit b c ∧ _ ∧ _ then _
      else voidLoop c b.hseqbase bte.min (fun _ => .value 1) b.count c.start
        (voidStart bte.min c.start (voidStop .bit b c))) = some st
    rw [if_neg habort]
    exact (if_neg hzero).trans hrun
  · rw [hnils]
    change b.count < 0 + (c.start - 0) + (b.count - voidStop .bit b c)
    omega

end

/-- The candidate lists that a conversion of a sequence to bits handles. -/
structure BitAligned (b : IntColumn t) (s : Option Candidates) (c : CandRange) : Prop where
  start_le : c.start ≤ voidCount .bte b.tseqbase b.count
  wanted_lt : ∀ p < b.count, Wanted b s p → p < voidCount .bte b.tseqbase b.count
  /-- The first row becomes 0 even if the array starts before the column. -/
  below : CandsBelow b.toColumn s → if b.tseqbase = 0 ∧ 0 < c.stop then
    ∀ p < b.count, Wanted b s p ↔ p = 0 else NoneWanted b s
  /-- But not if it is the first entry of the array. -/
  first : ¬ CandsBelow b.toColumn s → c.cand ≠ none → b.tseqbase = 0 → 0 < b.count → ¬ Wanted b s 0

theorem bit_of_void (hvoid : b.ttype = typeVoid) (hseq : b.tseqbase ≠ oidNil) (hp : p < b.count) :
    convertValue .bit (b.value p) = .value (if b.tseqbase + p = 0 then 0 else 1) := by
  rw [value_of_void hvoid hseq hp, convertNumber]
  congr 1
  split_ifs <;> omega

/-- If the first row becomes 0 and no array starts before the column, there is no array. -/
theorem FirstZero.cand_eq_none (hzero : FirstZero b c (voidStop .bit b c)) (h : Ready b s c)
    (hbelow : ¬ CandsBelow b.toColumn s) : c.cand = none := by
  obtain ⟨hstart, hpos, -, hne⟩ := hzero
  by_contra hcand
  obtain ⟨a, ha⟩ := Option.ne_none_iff_exists'.mp hcand
  have hle := h.below_of_start hstart (hpos.trans_le (min_le_left _ _)) a ha
  exact hbelow (h.below.mp ⟨a, ha, lt_of_le_of_ne hle (hne a ha)⟩)

section

variable (h : Ready b s c)

include h

theorem firstZero_of_below (hbelow : CandsBelow b.toColumn s) (hseq : b.tseqbase = 0)
    (hstop : 0 < c.stop) :
    FirstZero b c (voidStop .bit b c) := by
  refine ⟨h.start_of_below hbelow, ?_, hseq, fun a ha heq => ?_⟩
  · unfold voidStop voidCount
    rw [hseq]
    have := h.stop_le
    refine lt_min hstop ?_
    split_ifs
    · decide
    · omega
  · obtain ⟨a', ha', hlt⟩ := h.below.mpr hbelow
    rw [ha] at ha'
    obtain rfl := Option.some.inj ha'
    omega

theorem bitCell_of_wanted (hvoid : b.ttype = typeVoid) (hseq : b.tseqbase ≠ oidNil)
    (hal : BitAligned b s c) (hp : p < b.count) (hwanted : Wanted b s p) :
    bitCell b c (voidStop .bit b c) p = convertValue .bit (b.value p) := by
  rw [bit_of_void hvoid hseq hp]
  obtain ⟨h1, h2, hnames⟩ := (h.wanted p hp).mp hwanted
  have hstop : p < voidStop .bit b c := lt_min h2 (hal.wanted_lt p hp hwanted)
  by_cases hbelow : CandsBelow b.toColumn s
  · have hrows := hal.below hbelow
    split_ifs at hrows with hcond
    · obtain rfl := (hrows p hp).mp hwanted
      rw [if_pos (by omega)]
      exact if_pos ⟨firstZero_of_below h hbelow hcond.1 hcond.2, rfl⟩
    · exact absurd hwanted (hrows p hp)
  · have hseen : c.Seen b.hseqbase p := ⟨hnames, fun hb => hbelow (h.below.mp hb)⟩
    unfold bitCell
    by_cases hfirst : FirstZero b c (voidStop .bit b c) ∧ p = 0
    · have := hfirst.1.2.2.1
      rw [if_pos hfirst, if_pos (by omega)]
    rw [if_neg hfirst, rowCell_eq ⟨h1, hstop, hseen⟩, if_neg]
    -- the first value is 0, but the row is taken as a candidate like any other
    intro hsum
    obtain rfl : p = 0 := by omega
    refine hal.first hbelow (fun hcand => hfirst ⟨⟨by omega, hstop, by omega, ?_⟩, rfl⟩)
      (by omega) hp hwanted
    intro a ha
    rw [hcand] at ha
    cases ha

theorem bitCell_of_not_wanted (hal : BitAligned b s c) (hp : p < b.count) (hwanted : ¬ Wanted b s p)
    : bitCell b c (voidStop .bit b c) p = .nil := by
  have hle : voidStop .bit b c ≤ c.stop := min_le_left _ _
  unfold bitCell
  rw [if_neg, rowCell_eq_nil]
  · exact fun hrow => hwanted ((h.wanted p hp).mpr ⟨hrow.1, hrow.2.1.trans_le hle, hrow.2.2.1⟩)
  rintro ⟨hzero, rfl⟩
  have hpos := hzero.2.1.trans_le hle
  apply hwanted
  by_cases hbelow : CandsBelow b.toColumn s
  · have hrows := hal.below hbelow
    rw [if_pos ⟨hzero.2.2.1, hpos⟩] at hrows
    exact (hrows 0 hp).mpr rfl
  · refine (h.wanted 0 hp).mpr ⟨hzero.1.le, hpos, fun a ha => ?_⟩
    rw [hzero.cand_eq_none h hbelow] at ha
    cases ha

theorem bitAligned_of_cells (hvoid : b.ttype = typeVoid) (hseq : b.tseqbase ≠ oidNil)
    (hle : c.start ≤ voidStop .bit b c) (hwanted : ∀ p < b.count, Wanted b s p →
      bitCell b c (voidStop .bit b c) p = convertValue .bit (b.value p))
    (hothers : ∀ p < b.count, ¬ Wanted b s p → bitCell b c (voidStop .bit b c) p = .nil) :
    BitAligned b s c := by
  -- a candidate is the first row, or a row that the loop has seen
  have hcases : ∀ p < b.count, Wanted b s p → (FirstZero b c (voidStop .bit b c) ∧ p = 0) ∨
      (c.start ≤ p ∧ p < voidStop .bit b c ∧ c.Seen b.hseqbase p) := by
    intro p hp hw
    by_contra hnot
    rw [not_or] at hnot
    have hcell := hwanted p hp hw
    unfold bitCell at hcell
    rw [if_neg hnot.1, rowCell_eq_nil hnot.2, bit_of_void hvoid hseq hp] at hcell
    cases hcell
  refine ⟨hle.trans (min_le_right _ _), fun p hp hw => ?_, fun hbelow => ?_,
    fun hbelow hcand hzero hpos hw => ?_⟩
  · rcases hcases p hp hw with ⟨hfirst, rfl⟩ | hrow
    · exact hfirst.2.1.trans_le (min_le_right _ _)
    · exact hrow.2.1.trans_le (min_le_right _ _)
  · have hunseen : ∀ p, ¬ c.Seen b.hseqbase p := fun p hseen => hseen.2 (h.below.mpr hbelow)
    split_ifs with hcond
    · have hfirst := firstZero_of_below h hbelow hcond.1 hcond.2
      refine fun p hp => ⟨fun hw => ?_, ?_⟩
      · exact ((hcases p hp hw).resolve_right fun hrow => hunseen p hrow.2.2).2
      · rintro rfl
        by_contra hw
        have hcell := hothers 0 hp hw
        unfold bitCell at hcell
        rw [if_pos ⟨hfirst, rfl⟩] at hcell
        cases hcell
    · intro p hp hw
      rcases hcases p hp hw with ⟨hfirst, -⟩ | hrow
      · exact hcond ⟨hfirst.2.2.1, hfirst.2.1.trans_le (min_le_left _ _)⟩
      · exact hunseen p hrow.2.2
  · have hcell := hwanted 0 hpos hw
    rw [bit_of_void hvoid hseq hpos, if_pos (by omega)] at hcell
    unfold bitCell at hcell
    rw [if_neg fun hfirst => hcand (hfirst.1.cand_eq_none h hbelow)] at hcell
    rcases hcases 0 hpos hw with ⟨hfirst, -⟩ | hrow
    · exact hcand (hfirst.cand_eq_none h hbelow)
    · rw [rowCell_eq hrow] at hcell
      cases hcell

/-- **Conversions of a sequence to bits.** -/
theorem convertVoidAny_bit_converts (hvoid : b.ttype = typeVoid) (hseq : b.tseqbase ≠ oidNil)
    (habort : ¬ (tooWide .bte b.tseqbase b.count = true ∧ abort = true)) :
    Converts b s .bit abort ((convertVoidAny b.tseqbase b.count .bit c b.hseqbase abort).map
      (convertResult b)) ↔ BitAligned b s c := by
  have hconv : ∀ p < b.count, ∃ v, convertValue .bit (b.value p) = .value v :=
    fun p hp => ⟨_, bit_of_void hvoid hseq hp⟩
  have hover := not_overflows_of_values (s := s) hconv
  constructor
  · intro hresult
    rcases lt_or_ge (voidStop .bit b c) c.start with hlt | hle
    · obtain ⟨st, hrun, hnils⟩ := convertVoidAny_bit_behind hseq habort hlt
      rw [hrun] at hresult
      have hcard := hresult.2.nils _ rfl
      have hbound := card_filter_le (range b.count)
        fun p => (convertResult b st).slot p = some CalcType.bit.nil
      rw [card_range] at hbound
      omega
    · obtain ⟨st, hrun, hw⟩ := convertVoidAny_bit h hseq habort hle
      rw [hrun] at hresult
      -- nothing that is stored for a value is nil
      have hstore : ∀ p, (bitCell b c (voidStop .bit b c) p).store bte.min = bte.min →
          bitCell b c (voidStop .bit b c) p = .nil := by
        intro p
        unfold bitCell rowCell tailCell cell
        split_ifs
        · exact fun hbad => absurd hbad (show (0 : ℤ) ≠ bte.min by decide)
        · exact fun hbad => absurd hbad (show (1 : ℤ) ≠ bte.min by decide)
        all_goals exact fun _ => rfl
      refine bitAligned_of_cells h hvoid hseq hle (fun p hp hwanted => ?_) fun p hp hwanted => ?_
      · have hslot := hresult.2.wanted p hp hwanted
        have hne := (hresult.2.ne_nil hp hwanted (hconv p hp)).2
        change st.slot p = _ at hslot
        change st.slot p ≠ _ at hne
        rw [hw.slot p, if_pos hp] at hslot hne
        rw [bit_of_void hvoid hseq hp] at hslot ⊢
        cases hcell : bitCell b c (voidStop .bit b c) p with
        | value v =>
          rw [hcell] at hslot
          exact congrArg _ (Option.some.inj hslot)
        | nil =>
          rw [hcell] at hne
          exact absurd rfl hne
        | overflow =>
          rw [hcell] at hne
          exact absurd rfl hne
      · have hslot := hresult.2.others p hp hwanted
        change st.slot p = _ at hslot
        rw [hw.slot p, if_pos hp] at hslot
        exact hstore p (Option.some.inj hslot)
  · intro hal
    have hle : c.start ≤ voidStop .bit b c := le_min h.le hal.start_le
    obtain ⟨st, hrun, hw⟩ := convertVoidAny_bit h hseq habort hle
    rw [hrun]
    exact ⟨fun hfail => hover hfail.2, isConversion_of_written hw
      (fun p hp hwanted => bitCell_of_wanted h hvoid hseq hal hp hwanted)
      fun p hp hwanted => bitCell_of_not_wanted h hal hp hwanted⟩

end

end Sequence

/-! ## BATconvert -/

section Bat

variable {t : IntType} {b : IntColumn t} {s : Option Candidates} {tp : CalcType} {abort : Bool}

/-- An overflow is met, and is an error, before the first row that is no candidate. -/
def FailsEarly (b : IntColumn t) (s : Option Candidates) (tp : CalcType) (abort : Bool) : Prop :=
  abort = true ∧ ¬ CandsBelow b.toColumn s ∧
    ∃ p < b.count, (∀ q ≤ p, Wanted b s q) ∧ convertValue tp (b.value p) = .overflow

/-- **The inputs that a conversion handles.**  A column that is merely given another type must not
have negative numbers if that is `oid`.  A sequence that is too wide is refused if overflow is an
error, so one of its candidates must overflow. -/
def Aligned (b : IntColumn t) (s : Option Candidates) (tp : CalcType) (abort : Bool) : Prop :=
  if s = none ∧ tp ≠ .bit ∧ b.ttype ≠ typeVoid ∧ t = tp.storage then
    tp = .oid → ∀ p < b.count, (b.value p).1 = t.min ∨ 0 ≤ (b.value p).1
  else if b.ttype = typeVoid then
    b.tseqbase = oidNil ∨
      if tooWide tp.storage b.tseqbase b.count = true ∧ abort = true then Overflows b s tp
      else if tp = .bit then BitAligned b s (CANDINIT b.toColumn s)
      else SequenceAligned b s tp (CANDINIT b.toColumn s)
  else NumbersAligned b s tp ∨ FailsEarly b s tp abort

theorem convertCopy_converts (ht : t = tp.storage) (hbit : tp ≠ .bit)
    (hoid : tp = .oid → ∀ p < b.count, (b.value p).1 = t.min ∨ 0 ≤ (b.value p).1) :
    Converts b none tp abort (some (convertCopy b)) := by
  have hvalue : ∀ p < b.count, convertValue tp (b.value p) = enlargeValue t (b.value p).1 := by
    intro p hp
    cases tp with
    | bit => exact absurd rfl hbit
    | num t' =>
      obtain rfl : t = t' := ht
      exact (enlargeValue_eq _ le_rfl).symm
    | oid =>
      apply ite_congr rfl (fun _ => rfl)
      intro hmin
      exact if_pos ((hoid rfl p hp).resolve_left hmin)
  have hslot : ∀ p < b.count, (convertCopy b).slot p = some (b.value p).1 := fun p hp => if_pos hp
  refine ⟨?_, rfl, rfl, fun p hp _ => ?_, fun p hp hwanted => ?_, fun p hp => ?_,
    fun n hn => by cases hn⟩
  · rintro ⟨-, p, hp, -, hover⟩
    rw [hvalue p hp] at hover
    exact enlargeValue_ne_overflow _ hover
  · rw [hslot p hp, hvalue p hp]
    unfold enlargeValue
    split_ifs with hmin
    · rw [hmin, ht]
      rfl
    · rfl
  · exact absurd ⟨⟨Nat.le_add_right _ _, Nat.add_lt_add_left hp _⟩, by simp⟩ hwanted
  · exact if_neg (not_lt.mpr hp)

/-- **Bulk conversion.**  The contract holds for all inputs that a conversion handles, and for no
others if every value of the column has a conversion, or if the column is a sequence whose first
number is in reach. -/
theorem BATconvert_converts (b : IntColumn t) (s : Option Candidates) (hs : Proper s)
    (tp : CalcType) (abort : Bool) :
    (Aligned b s tp abort → Converts b s tp abort (BATconvert b s tp abort)) ∧
    ((if b.ttype = typeVoid then b.tseqbase ≤ tp.storage.limit
        else ∀ p < b.count, ∃ v, convertValue tp (b.value p) = .value v) →
      Converts b s tp abort (BATconvert b s tp abort) → Aligned b s tp abort) := by
  have h := ready_candinit (b := b) hs
  unfold Aligned BATconvert
  by_cases hcopy : s = none ∧ tp ≠ .bit ∧ b.ttype ≠ typeVoid ∧ t = tp.storage
  -- the column gets another type
  · rw [if_pos hcopy, if_pos hcopy, if_neg hcopy.2.2.1]
    obtain ⟨rfl, hbit, -, ht⟩ := hcopy
    refine ⟨convertCopy_converts ht hbit, ?_⟩
    rintro hconv - rfl p hp
    obtain ⟨v, hv⟩ := hconv p hp
    unfold convertValue at hv
    split_ifs at hv with hmin
    rw [convertNumber] at hv
    split_ifs at hv with hpos
    exact .inr hpos
  rw [if_neg hcopy, if_neg hcopy]
  by_cases hvoid : b.ttype = typeVoid
  swap
  · rw [if_neg hvoid, if_neg hvoid, if_neg hvoid]
    obtain ⟨hmp, hmpr⟩ := @convertTypeswitchloop_converts _ b s tp abort _ h
    refine ⟨fun hal => hal.elim hmp ?_, fun hconv hresult => .inl (hmpr hconv hresult)⟩
    rintro ⟨rfl, hbelow, p, hp, hwanted, hover⟩
    rw [convertTypeswitchloop_early h hbelow hp hwanted hover]
    exact ⟨rfl, p, hp, hwanted p le_rfl, hover⟩
  rw [if_pos hvoid, if_pos hvoid, if_pos hvoid]
  by_cases hseq : b.tseqbase = oidNil
  · exact ⟨fun _ => convertVoidAny_nil hvoid hseq, fun _ _ => .inl hseq⟩
  rw [or_iff_right hseq]
  by_cases habort : tooWide tp.storage b.tseqbase b.count = true ∧ abort = true
  -- a sequence that is too wide is an error, whichever rows are candidates
  · have hnone : convertVoidAny b.tseqbase b.count tp (CANDINIT b.toColumn s) b.hseqbase abort =
        none := by rw [convertVoidAny, if_neg hseq, if_pos habort]
    rw [if_pos habort, hnone]
    exact ⟨fun hover => ⟨habort.2, hover⟩, fun _ hresult => hresult.2⟩
  rw [if_neg habort]
  by_cases hbit : tp = .bit
  · subst hbit
    have hiff := convertVoidAny_bit_converts h hvoid hseq habort
    exact ⟨hiff.mpr, fun _ => hiff.mp⟩
  · rw [if_neg hbit]
    refine ⟨fun hal => ?_, fun hreach => (convertVoidAny_converts_iff h hvoid hseq hbit habort
      hreach).mp⟩
    rcases le_or_gt b.tseqbase tp.storage.limit with hreach | hlt
    · exact (convertVoidAny_converts_iff h hvoid hseq hbit habort hreach).mpr hal
    · exact convertVoidAny_beyond h hvoid hseq hbit habort hlt hal

/-- The column 10, 20, 30. -/
def threeBytes : IntColumn .bte where
  hdense := true
  hseqbase := 0
  ttype := 3
  first := 0
  count := 3
  capacity := 3
  val i := if i = 0 then ⟨10, by decide⟩ else if i = 1 then ⟨20, by decide⟩ else ⟨30, by decide⟩
  tsorted := false
  trevsorted := false
  tkey := false
  tnonil := false
  hash := none
  fits := by decide
  small := by decide
  oids_small := by decide
  sorted_true := nofun
  revsorted_true := nofun
  key_true := nofun
  nonil_true := nofun
  hash_shape := nofun
  tseqbase := 0
  void_true := nofun
  void_small := nofun

/-- The candidates from `lo` on. -/
def rowsFrom (lo n : ℕ) (h : lo + n ≤ 2 ^ 63) : Candidates where
  hdense := true
  oidTail := true
  tsorted := true
  tkey := true
  count := n
  tseq := some lo
  tail i := lo + i
  sorted_true _ i j hij _ := Nat.add_le_add_left hij lo
  key_true _ i j hij _ := by omega
  dense_true seq hseq i _ := by rw [Option.some.inj hseq]
  small i hi := by omega

/-- All three rows are converted. -/
theorem BATconvert_three : Converts threeBytes (some (rowsFrom 0 3 (by decide))) (.num .sht) true
    (BATconvert threeBytes (some (rowsFrom 0 3 (by decide))) (.num .sht) true) := by
  have hs : Proper (some (rowsFrom 0 3 (by decide))) := by
    rintro c hc
    obtain rfl := Option.some.inj hc
    exact ⟨rfl, rfl⟩
  refine (BATconvert_converts threeBytes _ hs (.num .sht) true).1 (.inl ?_)
  refine .inr ⟨.inr fun p hp => ⟨⟨zero_le _, ?_⟩, fun c hc => ?_⟩, ?_⟩
  · exact Nat.add_lt_add_left hp _
  · obtain rfl := Option.some.inj hc
    exact ⟨p, hp, rfl⟩
  · rintro ⟨c, hc, hnone, -⟩
    obtain rfl := Option.some.inj hc
    cases hnone

/-- **Only the second row is a candidate.**  The value of the first row is written in the first
place, and a nil behind the result. -/
theorem BATconvert_second :
    ((BATconvert threeBytes (some (rowsFrom 1 1 (by decide))) (.num .sht) false).map fun r =>
      [r.slot 0, r.slot 1, r.slot 2, r.slot 3]) = some [some 10, none, none, some (-32768)] ∧
    ¬ Converts threeBytes (some (rowsFrom 1 1 (by decide))) (.num .sht) false
      (BATconvert threeBytes (some (rowsFrom 1 1 (by decide))) (.num .sht) false) := by
  have hrun : ((BATconvert threeBytes (some (rowsFrom 1 1 (by decide))) (.num .sht) false).map
      fun r => [r.slot 0, r.slot 1, r.slot 2, r.slot 3]) =
        some [some 10, none, none, some (-32768)] := by decide
  refine ⟨hrun, ?_⟩
  obtain ⟨r, hr, hslots⟩ := Option.map_eq_some_iff.mp hrun
  rw [hr]
  rintro ⟨-, hresult⟩
  have hbehind := hresult.behind 3 (le_refl 3)
  rw [show r.slot 3 = some (-32768) by simpa using congrArg (List.getD · 3 none) hslots] at hbehind
  cases hbehind

end Bat

end MonetInR.Gdk
