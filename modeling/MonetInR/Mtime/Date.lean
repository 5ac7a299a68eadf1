import Mathlib.Tactic.LinearCombination
import MonetInR.Lib.SignedWord
import Mathlib.Tactic.IntervalCases

/-!
# Dates, timestamps and time zones

A date is the number of days since the first day of the year 0, a timestamp a date and the
milliseconds of the day.  `MTIMEtimestamp_add` keeps the number of days to be added in an `int`, and
so loses every multiple of `2 ^ 32` days.

A time zone packs its offset and the two rules for daylight saving into bit fields.  `get_rule` puts
the day at bit 6 and the minutes at bit 10, although the day has six bits: the two upper bits of the
day and the two lower bits of the minutes share their place.  `compute_rule` finds the day of a rule
in a year.

## Main definitions

* `todate`, `date_adddays`, `MTIMEtimestamp_add`
* `rule_create`, `get_rule`, `set_rule`
* `tzone_create_dst`, `get_offset`
* `compute_rule`, `Describes`

## Main results

* `MTIMEtimestamp_add_iff`: when the sum is exact
* `unpack_iff`: the rules come back exactly if the shared bits agree
* `compute_rule_iff`: the day of a rule
-/

namespace MonetInR.Mtime

open SignedWord

def NODAYS : List ℤ := [0, 31, 29, 31, 30, 31, 30, 31, 31, 30, 31, 30, 31]

def CUMDAYS : List ℤ := [0, 31, 59, 90, 120, 151, 181, 212, 243, 273, 304, 334, 365]

def YEAR_MAX : ℤ := 5867411

def int_nil : ℤ := -2 ^ 31

def lng_nil : ℤ := -2 ^ 63

abbrev leapyear (y : ℤ) : Prop := y % 4 = 0 ∧ (y % 100 ≠ 0 ∨ y % 400 = 0)

def MONTHDAYS (m y : ℤ) : ℤ :=
  if m ≠ 2 then NODAYS.getD m.toNat 0 else if leapyear y then 29 else 28

def leapyears (year : ℤ) : ℤ := year.tdiv 4 + year.tdiv 400 - year.tdiv 100

def LEAPYEARS (y : ℤ) : ℤ := leapyears y + if 0 ≤ y then 1 else 0

abbrev DATE (d m y : ℤ) : Prop :=
  0 < m ∧ m ≤ 12 ∧ 0 < d ∧ y ≠ 0 ∧ -YEAR_MAX ≤ y ∧ y ≤ YEAR_MAX ∧ d ≤ MONTHDAYS m y

def todate (day month year : ℤ) : ℤ :=
  if DATE day month year then
    -- there is no year 0
    let year := if year < 0 then year + 1 else year
    day - 1 + (if 2 < month ∧ leapyear year then 1 else 0) + CUMDAYS.getD (month - 1).toNat 0 +
      (365 * year + LEAPYEARS (if 0 ≤ year then year - 1 else year))
  else int_nil

def DATE_MAX : ℤ := todate 31 12 YEAR_MAX

def DATE_MIN : ℤ := todate 1 1 (-YEAR_MAX)

def date_adddays (v delta : ℤ) : ℤ :=
  if v = int_nil ∨ delta = int_nil ∨ 0 < delta ∧ DATE_MAX - v < delta ∨
      delta < 0 ∧ delta < DATE_MIN - v then int_nil
  else v + delta

@[ext]
structure timestamp where
  days : ℤ
  msecs : ℤ
  deriving DecidableEq

def timestamp_nil : timestamp := ⟨int_nil, 0⟩

/-- The milliseconds of a day. -/
def msecsPerDay : ℤ := 24 * 60 * 60 * 1000

/-- Carries from the milliseconds to the days. -/
def carry (days msecs : ℤ) : ℤ × ℤ :=
  if msecsPerDay ≤ msecs then (wrap 32 (days + 1), msecs - msecsPerDay)
  else if msecs < 0 then (wrap 32 (days - 1), msecs + msecsPerDay)
  else (days, msecs)

/-- `timestamp_nil` if the number of days or of milliseconds is nil. -/
def MTIMEtimestamp_add (v : timestamp) (msecs : ℤ) : timestamp :=
  if v ≠ timestamp_nil ∧ msecs ≠ lng_nil then
    let days := wrap 32 (msecs.tdiv msecsPerDay)
    let (days, ms) := carry days (wrap 32 (v.msecs + (msecs - days * msecsPerDay)))
    if days ≠ 0 then
      if date_adddays v.days days = int_nil then timestamp_nil
      else ⟨date_adddays v.days days, ms⟩
    else ⟨v.days, ms⟩
  else timestamp_nil

/-- The dates that are not nil. -/
abbrev InRange (d : ℤ) : Prop := DATE_MIN ≤ d ∧ d ≤ DATE_MAX

/-- A timestamp that is not nil. -/
structure timestamp.Valid (t : timestamp) : Prop where
  days : InRange t.days
  msecs : 0 ≤ t.msecs ∧ t.msecs < msecsPerDay

/-- The days to be added. -/
abbrev timestamp.added (t : timestamp) (a : ℤ) : ℤ := (t.msecs + a) / msecsPerDay

/-- The milliseconds since the first day. -/
def timestamp.total (t : timestamp) : ℤ := t.days * msecsPerDay + t.msecs

/-- **The timestamp at a number of milliseconds**, nil if its date is out of range. -/
def atMsecs (n : ℤ) : timestamp :=
  if InRange (n / msecsPerDay) then ⟨n / msecsPerDay, n % msecsPerDay⟩ else timestamp_nil

theorem inRange_iff (d : ℤ) : InRange d ↔ -2143027496 ≤ d ∧ d ≤ 2143028226 := by
  rw [InRange, show DATE_MIN = -2143027496 by decide, show DATE_MAX = 2143028226 by decide]

theorem InRange.ne_nil {d : ℤ} (h : InRange d) : d ≠ int_nil := by
  rintro rfl
  exact absurd h.1 (by decide)

theorem date_adddays_eq {v : ℤ} (h : InRange v) (delta : ℤ) :
    date_adddays v delta =
      if delta ≠ int_nil ∧ InRange (v + delta) then v + delta else int_nil := by
  have hv := h.ne_nil
  grind [date_adddays]

/-- What the `int` variables hold: the low bits of the days, and the milliseconds. -/
theorem carry_eq {ms : ℤ} (hms : 0 ≤ ms ∧ ms < msecsPerDay) (a : ℤ) :
    carry (wrap 32 (a.tdiv msecsPerDay))
        (wrap 32 (ms + (a - wrap 32 (a.tdiv msecsPerDay) * msecsPerDay))) =
      (wrap 32 ((ms + a) / msecsPerDay), (ms + a) % msecsPerDay) := by
  have hdiv := Int.mul_tdiv_add_tmod a msecsPerDay
  have hlt := Int.tmod_lt_of_pos a (b := msecsPerDay) (by decide)
  have hgt := Int.lt_tmod_of_pos a (b := msecsPerDay) (by decide)
  have hw (x y : ℤ) : wrap 32 (wrap 32 x + y) = wrap 32 (x + y) := Int.bmod_add_bmod
  generalize a.tdiv msecsPerDay = q at *
  generalize a.tmod msecsPerDay = r at *
  -- the days that are lost are a multiple of `2 ^ 32`
  have hmsecs : wrap 32 (ms + (a - wrap 32 q * msecsPerDay)) = ms + r := by
    obtain ⟨k, hk⟩ := (wrap_eq_iff (by decide) (fits_wrap (w := 32) (by decide) q)).1 rfl
    refine (wrap_eq_iff (by decide) ?_).2 ⟨k * msecsPerDay, ?_⟩
    · norm_num [Fits, msecsPerDay] at *
      omega
    · linear_combination msecsPerDay * hk - hdiv
  rw [hmsecs, carry, sub_eq_add_neg (wrap 32 q), hw, hw]
  norm_num [msecsPerDay] at *
  split_ifs with h1 h2 <;> rw [Prod.mk.injEq]
  · rw [show (ms + a) / 86400000 = q + 1 by omega]
    omega
  · rw [show (ms + a) / 86400000 = q + -1 by omega]
    omega
  · rw [show (ms + a) / 86400000 = q by omega]
    omega

section Sum

variable {v : timestamp} {a : ℤ}

theorem MTIMEtimestamp_add_eq (hv : v.Valid) (ha : a ≠ lng_nil) :
    MTIMEtimestamp_add v a =
      if wrap 32 (v.added a) ≠ int_nil ∧
          InRange (v.days + wrap 32 (v.added a)) then
        ⟨v.days + wrap 32 (v.added a), (v.msecs + a) % msecsPerDay⟩
      else timestamp_nil := by
  have hnil : v ≠ timestamp_nil := by
    rintro rfl
    exact hv.days.ne_nil rfl
  simp only [MTIMEtimestamp_add, carry_eq hv.msecs, date_adddays_eq hv.days, ne_eq, hnil, ha,
    not_false_eq_true, and_self, if_true]
  generalize wrap 32 (v.added a) = days
  by_cases h0 : days = 0
  · subst h0
    simp [hv.days, int_nil]
  by_cases h : days ≠ int_nil ∧ InRange (v.days + days)
  · rw [if_pos h, if_pos h, if_neg h.2.ne_nil, if_pos h0]
  · rw [if_neg h, if_neg h, if_pos rfl, if_pos h0]

/-- The milliseconds are right up to a multiple of `2 ^ 32` days. -/
theorem MTIMEtimestamp_add_valid (hv : v.Valid) (h : MTIMEtimestamp_add v a ≠ timestamp_nil) :
    (MTIMEtimestamp_add v a).Valid ∧
      2 ^ 32 * msecsPerDay ∣ (MTIMEtimestamp_add v a).total - (v.total + a) := by
  have ha : a ≠ lng_nil := by
    rintro rfl
    exact h (if_neg fun h => h.2 rfl)
  rw [MTIMEtimestamp_add_eq hv ha] at h ⊢
  split_ifs at h ⊢ with hin
  · obtain ⟨k, hk⟩ := (wrap_eq_iff (by decide) (fits_wrap (w := 32) (by decide) _)).1
      (Eq.refl (wrap 32 (v.added a)))
    refine ⟨⟨hin.2, Int.emod_nonneg _ (by decide), Int.emod_lt_of_pos _ (by decide)⟩, -k, ?_⟩
    simp only [timestamp.total]
    linear_combination Int.emod_add_mul_ediv (v.msecs + a) msecsPerDay - msecsPerDay * hk
  · exact absurd rfl h

theorem atMsecs_total_add :
    atMsecs (v.total + a) = if InRange (v.days + v.added a) then
      ⟨v.days + v.added a, (v.msecs + a) % msecsPerDay⟩ else timestamp_nil := by
  have hsum : v.total + a = v.msecs + a + v.days * msecsPerDay := by
    rw [timestamp.total, add_assoc, add_comm]
  rw [atMsecs, hsum, Int.add_mul_ediv_right _ _ (by decide), Int.add_mul_emod_self_right, add_comm]

end Sum

/-- **The sum is exact if and only if** the number of days is an `int` other than nil, or the date
is out of range and the `int` with the low bits of the number of days leads out of range as well.
Sums that are not nil are associative. -/
theorem MTIMEtimestamp_add_iff (v : {t : timestamp // t.Valid}) (a : ℤ) :
    (MTIMEtimestamp_add v a = atMsecs (v.1.total + a) ↔
      let days := v.1.added a
      a = lng_nil ∨ wrap 32 days = days ∧ days ≠ int_nil ∨
        ¬ InRange (v.1.days + days) ∧
          (wrap 32 days = int_nil ∨ ¬ InRange (v.1.days + wrap 32 days))) ∧
    ∀ b, MTIMEtimestamp_add v a ≠ timestamp_nil →
      MTIMEtimestamp_add (MTIMEtimestamp_add v a) b ≠ timestamp_nil →
      MTIMEtimestamp_add v (a + b) ≠ timestamp_nil →
      MTIMEtimestamp_add (MTIMEtimestamp_add v a) b = MTIMEtimestamp_add v (a + b) := by
  obtain ⟨v, hv⟩ := v
  refine ⟨?_, fun b h1 h2 h3 => ?_⟩
  · rw [atMsecs_total_add]
    by_cases ha : a = lng_nil
    -- nil as a number of milliseconds also leads out of range
    · have hms := hv.msecs
      have hout : ¬ InRange (v.days + v.added a) := by
        have hdays := (inRange_iff _).1 hv.days
        rw [inRange_iff, ha, lng_nil]
        norm_num [timestamp.added, msecsPerDay] at hms ⊢
        omega
      rw [if_neg hout]
      simp [ha, MTIMEtimestamp_add]
    · rw [MTIMEtimestamp_add_eq hv ha]
      have hne (d : ℤ) (h : InRange d) : (⟨d, (v.msecs + a) % msecsPerDay⟩ : timestamp) ≠
          timestamp_nil := fun he => h.ne_nil (congrArg timestamp.days he)
      have h1 := hne (v.days + wrap 32 (v.added a))
      have h2 := hne (v.days + v.added a)
      grind
  -- each sum is right up to a multiple of 2^32 days, which is more than the range
  · obtain ⟨hv1, k1, hk1⟩ := MTIMEtimestamp_add_valid hv h1
    obtain ⟨hv2, k2, hk2⟩ := MTIMEtimestamp_add_valid hv1 h2
    obtain ⟨hv3, k3, hk3⟩ := MTIMEtimestamp_add_valid hv h3
    generalize MTIMEtimestamp_add (MTIMEtimestamp_add v a) b = t2 at *
    generalize MTIMEtimestamp_add v (a + b) = t3 at *
    have := hv2.days
    have := hv3.days
    have := hv2.msecs
    have := hv3.msecs
    simp only [inRange_iff, timestamp.total, msecsPerDay] at *
    ext <;> omega

/-- A multiple of `2 ^ 32` days adds nothing. -/
theorem MTIMEtimestamp_add_lost :
    MTIMEtimestamp_add ⟨0, 0⟩ (2 ^ 32 * msecsPerDay) = ⟨0, 0⟩ ∧
      atMsecs (timestamp.total ⟨0, 0⟩ + 2 ^ 32 * msecsPerDay) = timestamp_nil := by
  decide

/-! ## Time zones -/

/-- The bit fields of a rule. -/
structure Rule where
  month : BitVec 4
  minutes : BitVec 11
  day : BitVec 6
  weekday : BitVec 4
  deriving DecidableEq

/-- Creates a rule; `none` is the rule `int_nil`, whose month is 0. -/
def rule_create (month day weekday minutes : ℤ) : Option Rule :=
  if 1 ≤ month ∧ month ≤ 12 ∧ |weekday| ≤ 7 ∧ 0 ≤ minutes ∧ minutes < 24 * 60 ∧
      1 ≤ |day| ∧ |day| ≤ NODAYS.getD month.toNat 0 ∧ (weekday ≠ 0 ∨ 0 < day) then
    some ⟨.ofInt 4 month, .ofInt 11 minutes, .ofInt 6 (32 + day), .ofInt 4 (8 + weekday)⟩
  else none

def get_rule (r : Rule) : BitVec 32 :=
  r.weekday.setWidth 32 ||| r.day.setWidth 32 <<< 6 ||| r.minutes.setWidth 32 <<< 10 |||
    r.month.setWidth 32 <<< 21

def set_rule (i : BitVec 32) : Rule where
  weekday := (i &&& 15).setWidth 4
  day := ((i &&& 63 <<< 6) >>> 6).setWidth 6
  minutes := ((i &&& 2047 <<< 10) >>> 10).setWidth 11
  month := ((i &&& 15 <<< 21) >>> 21).setWidth 4

structure Tzone where
  dst : Bool
  off1 : BitVec 6
  dst_start : BitVec 25
  off2 : BitVec 7
  dst_end : BitVec 25
  deriving DecidableEq

def get_offset (z : Tzone) : ℤ :=
  ((z.off1.setWidth 32 <<< 7) + z.off2.setWidth 32 : BitVec 32).toInt - 4096

/-- Creates a zone with daylight saving; `none` is the zone nil. -/
def tzone_create_dst (minutes : ℤ) (start stop : Rule) : Option Tzone :=
  if |minutes| < 24 * 60 then
    let i := BitVec.ofInt 32 (minutes + 4096)
    some ⟨true, ((i &&& 8064) >>> 7).setWidth 6, (get_rule start).setWidth 25,
      (i &&& 127).setWidth 7, (get_rule stop).setWidth 25⟩
  else none

theorem unpack_eq (r : Rule) : set_rule (((get_rule r).setWidth 25).setWidth 32) =
    { r with
      day := r.day ||| r.minutes.setWidth 6 <<< 4
      minutes := r.day.setWidth 11 >>> 4 ||| r.minutes } := by
  unfold set_rule get_rule
  congr 1 <;> ext i hi <;> interval_cases i <;> simp

/-- The bits in the shared place come back if they agree. -/
theorem shared_iff (day : BitVec 6) (minutes : BitVec 11) :
    (day ||| minutes.setWidth 6 <<< 4 = day ∧ day.setWidth 11 >>> 4 ||| minutes = minutes) ↔
      minutes.toNat % 4 = day.toNat / 16 := by
  have hbits : minutes.toNat % 4 = day.toNat / 16 ↔ minutes[0] = day[4] ∧ minutes[1] = day[5] := by
    have hday := day.isLt
    simp only [BitVec.getElem_eq_testBit_toNat, Nat.testBit_eq_decide_div_mod_eq, decide_eq_decide]
    omega
  rw [hbits]
  constructor
  · rintro ⟨hd, hm⟩
    have hd4 := congrArg (fun x : BitVec 6 => x[4]) hd
    have hd5 := congrArg (fun x : BitVec 6 => x[5]) hd
    have hm0 := congrArg (fun x : BitVec 11 => x[0]) hm
    have hm1 := congrArg (fun x : BitVec 11 => x[1]) hm
    simp at hd4 hd5 hm0 hm1
    exact ⟨Bool.eq_iff_iff.mpr ⟨hd4, hm0⟩, Bool.eq_iff_iff.mpr ⟨hd5, hm1⟩⟩
  · rintro ⟨h0, h1⟩
    constructor <;> ext i hi <;> interval_cases i <;> simp [h0, h1]

variable {month day weekday minutes y : ℤ} {r : Rule}

theorem rule_create_cases
    (h : rule_create month day weekday minutes = some r) :
    (r.minutes.toNat : ℤ) = minutes ∧ (r.day.toNat : ℤ) = 32 + day ∧ (r.month.toNat : ℤ) = month ∧
      (r.weekday.toNat : ℤ) = 8 + weekday ∧ (1 ≤ |day| ∧ |day| ≤ 31) ∧ |weekday| ≤ 7 ∧
      (weekday ≠ 0 ∨ 0 < day) := by
  unfold rule_create at h
  split_ifs at h with hok
  obtain rfl := Option.some.inj h
  obtain ⟨h1, h2, hw, h3, h4, h5, h6, h7⟩ := hok
  have hdays : NODAYS.getD month.toNat 0 ≤ 31 := by
    interval_cases month <;> decide
  have hday := h6.trans hdays
  have := abs_le.mp hday
  have := abs_le.mp hw
  simp only [BitVec.toNat_ofInt]
  omega

theorem offset_eq (i : BitVec 32) : (((i &&& 8064) >>> 7).setWidth 6).setWidth 32 <<< 7 +
    ((i &&& 127).setWidth 7).setWidth 32 = i &&& 8191 := by
  rw [BitVec.add_eq_or_of_and_eq_zero] <;> ext k hk <;> interval_cases k <;> simp

theorem get_offset_create {start stop : Rule} {z : Tzone}
    (h : tzone_create_dst minutes start stop = some z) : get_offset z = minutes := by
  unfold tzone_create_dst at h
  split_ifs at h with hok
  obtain rfl := Option.some.inj h
  rw [abs_lt] at hok
  have hmask : (BitVec.ofInt 32 (minutes + 4096) &&& 8191).toNat = (minutes + 4096).toNat := by
    rw [BitVec.toNat_and]
    change _ &&& (2 ^ 13 - 1) = _
    rw [Nat.and_two_pow_sub_one_eq_mod, BitVec.toNat_ofInt]
    omega
  rw [get_offset, offset_eq, BitVec.toInt_eq_toNat_of_lt (by omega), hmask]
  omega

/-- **Packing and unpacking.**  The offset comes back; the rules do exactly if the lower bits of the
minutes are the upper bits of the day, in both of them. -/
theorem unpack_iff {month day weekday minutes month' day' weekday' minutes' offset : ℤ}
    {start stop : Rule} {z : Tzone} (hstart : rule_create month day weekday minutes = some start)
    (hstop : rule_create month' day' weekday' minutes' = some stop)
    (hz : tzone_create_dst offset start stop = some z) :
    (get_offset z = offset ∧ set_rule (z.dst_start.setWidth 32) = start ∧
        set_rule (z.dst_end.setWidth 32) = stop) ↔
      minutes % 4 = (32 + day) / 16 ∧ minutes' % 4 = (32 + day') / 16 := by
  -- the fields of a rule overlap in two bits
  have hrule : ∀ {month day weekday minutes r}, rule_create month day weekday minutes = some r →
      (set_rule (((get_rule r).setWidth 25).setWidth 32) = r ↔ minutes % 4 = (32 + day) / 16) := by
    intro month day weekday minutes r h
    obtain ⟨hm, hd, -⟩ := rule_create_cases h
    have hshared := shared_iff r.day r.minutes
    rw [unpack_eq, ← hm, ← hd]
    obtain ⟨mo, mi, da, we⟩ := r
    simp only [Rule.mk.injEq, true_and, and_true] at hshared ⊢
    rw [and_comm, hshared]
    omega
  rw [and_iff_right (get_offset_create hz)]
  unfold tzone_create_dst at hz
  split_ifs at hz
  obtain rfl := Option.some.inj hz
  exact and_congr (hrule hstart) (hrule hstop)

/-- The first of March at 01:02 and the last Sunday of October at 01:01 come back. -/
theorem unpack_kept : ∃ start stop z, rule_create 3 1 0 62 = some start ∧
    rule_create 10 (-1) 1 61 = some stop ∧ tzone_create_dst 60 start stop = some z ∧
    get_offset z = 60 ∧ set_rule (z.dst_start.setWidth 32) = start ∧
    set_rule (z.dst_end.setWidth 32) = stop := by
  have hstart : rule_create 3 1 0 62 = some ⟨3, 62, 33, 8⟩ := by decide
  have hstop : rule_create 10 (-1) 1 61 = some ⟨10, 61, 31, 9⟩ := by decide
  exact ⟨_, _, _, hstart, hstop, rfl, (unpack_iff hstart hstop rfl).mpr (by decide)⟩

/-- The last Sunday of March at 01:00 comes back as 01:01. -/
theorem unpack_march : ∃ start z, rule_create 3 (-1) 1 60 = some start ∧
    tzone_create_dst 60 start start = some z ∧
    (set_rule (z.dst_start.setWidth 32)).minutes = 61 ∧ start.minutes = 60 :=
  ⟨_, _, rfl, rfl, by decide, by decide⟩

/-! ## The date of a rule -/

def date_dayofweek (v : ℤ) : ℤ := if v.tmod 7 ≤ 0 then v.tmod 7 + 7 else v.tmod 7

/-- The two loops of `compute_rule`: go on by `i` days, with the weekday by `turn`, up to the
`cnt`-th weekday `w`. -/
def seek (i : ℤ) (turn : ℤ → ℤ) (w : ℤ) : ℕ → ℤ → ℤ → ℤ → Option ℤ
  | 0, _, _, _ => none
  | k + 1, d, dayofweek, cnt =>
    if dayofweek ≠ w then seek i turn w k (d + i) (turn dayofweek) cnt
    else if 0 < cnt - 1 then seek i turn w k (d + i) (turn dayofweek) (cnt - 1)
    else some d

/-- `none` if a loop has not ended after as many rounds as there are days in 64 weeks.  The date can
leave the range of an `int` only from `int_nil`, if the month has no first day. -/
def compute_rule (val : Rule) (y : ℤ) : Option ℤ :=
  let m : ℤ := val.month.toNat
  let cnt := |(val.day.toNat : ℤ) - 32|
  let d := todate 1 m y
  let dayofweek := date_dayofweek d
  let w := |(val.weekday.toNat : ℤ) - 8|
  let upwards := seek 1 (fun v => if v + 1 = 8 then 1 else v + 1) w 448
  let downwards := seek (-1) (fun v => if v - 1 = 0 then 7 else v - 1) w 448
  if val.weekday.toNat = 8 ∨ w = 8 then some (d + (cnt - 1))
  else if 32 < val.day.toNat then
    if val.weekday.toNat < 8 then
      upwards (d + (cnt - 1)) (date_dayofweek (dayofweek + (cnt - 1))) 1
    else upwards d dayofweek cnt
  else if 8 < val.weekday.toNat then
    downwards (d + (MONTHDAYS m y - 1)) (date_dayofweek (dayofweek + (MONTHDAYS m y - 1))) cnt
  else downwards (d + (cnt - 1)) (date_dayofweek (dayofweek + (cnt - 1))) 1

/-- **The date that a rule describes**: the day of the month; the day with the weekday that is in
the given week of the month, counted from its start or from its end; or that with the weekday in
the seven days from the given day on, or up to it. -/
def Describes (month day weekday y d : ℤ) : Prop :=
  if weekday = 0 then DATE day month y ∧ d = todate day month y
  else date_dayofweek d = |weekday| ∧ DATE (if 0 < weekday then 1 else |day|) month y ∧
    if 0 < weekday then
      let first := todate 1 month y
      let last := todate (MONTHDAYS month y) month y
      first ≤ d ∧ d ≤ last ∧
        if 0 < day then (d - first) / 7 = day - 1 else (last - d) / 7 = -day - 1
    else if 0 < day then todate day month y ≤ d ∧ d < todate day month y + 7
    else todate (-day) month y - 7 < d ∧ d ≤ todate (-day) month y

theorem date_dayofweek_eq (v : ℤ) : date_dayofweek v = (v - 1) % 7 + 1 := by
  rw [date_dayofweek, Int.tmod_eq_emod]
  split_ifs <;> omega

theorem date_dayofweek_add (d i : ℤ) :
    date_dayofweek (date_dayofweek d + i) = date_dayofweek (d + i) := by
  simp only [date_dayofweek_eq]
  omega

/-- A loop ends at the `cnt`-th weekday `w` that it meets. -/
theorem seek_eq {i : ℤ} (hi : i = 1 ∨ i = -1) {turn : ℤ → ℤ}
    (hturn : ∀ d, turn (date_dayofweek d) = date_dayofweek (d + i)) {w : ℤ} (hw : 1 ≤ w ∧ w ≤ 7)
    (k : ℕ) (d cnt : ℤ) (hcnt : 1 ≤ cnt) (hk : 7 * (cnt - 1) + i * (w - d) % 7 < k) :
    seek i turn w k d (date_dayofweek d) cnt =
      some (d + i * (7 * (cnt - 1) + i * (w - d) % 7)) := by
  induction k generalizing d cnt with
  | zero => omega
  | succ k ih =>
    have hd := date_dayofweek_eq d
    rw [seek, hturn]
    split_ifs with h1 h2
    · rw [ih _ _ hcnt (by rcases hi with rfl | rfl <;> omega)]
      rcases hi with rfl | rfl <;> congr 1 <;> omega
    · rw [ih _ _ (by omega) (by rcases hi with rfl | rfl <;> omega)]
      rcases hi with rfl | rfl <;> congr 1 <;> omega
    · rcases hi with rfl | rfl <;> congr 1 <;> omega

theorem DATE.last (h : DATE day month y) : DATE (MONTHDAYS month y) month y :=
  ⟨h.1, h.2.1, lt_of_lt_of_le h.2.2.1 h.2.2.2.2.2.2, h.2.2.2.1, h.2.2.2.2.1, h.2.2.2.2.2.1, le_rfl⟩

theorem todate_eq (h : DATE day month y) : todate day month y = todate 1 month y + (day - 1) := by
  have h1 : DATE 1 month y := ⟨h.1, h.2.1, by decide, h.2.2.2.1, h.2.2.2.2.1, h.2.2.2.2.2.1,
    (show (1 : ℤ) ≤ day from h.2.2.1).trans h.2.2.2.2.2.2⟩
  rw [todate, todate, if_pos h, if_pos h1]
  linear_combination

/-- A date is returned, and no rule describes another one. -/
theorem compute_rule_eq (h : rule_create month day weekday minutes = some r) (y : ℤ) :
    ∃ d, compute_rule r y = some d ∧ ∀ d', Describes month day weekday y d' → d' = d := by
  obtain ⟨-, hday, hmonth, hweekday, hcnt, hw, hpos⟩ := rule_create_cases h
  -- the two loops look for the weekday forwards and backwards
  have hup := @seek_eq 1 (.inl rfl) (fun v => if v + 1 = 8 then 1 else v + 1) fun d => by
    simp only [date_dayofweek_eq]
    split_ifs <;> omega
  have hdown := @seek_eq (-1) (.inr rfl) (fun v => if v - 1 = 0 then 7 else v - 1) fun d => by
    simp only [date_dayofweek_eq]
    split_ifs <;> omega
  simp only [compute_rule, Describes, hmonth, hday, hweekday, add_sub_cancel_left,
    date_dayofweek_add]
  rcases lt_trichotomy weekday 0 with h0 | rfl | h0
  · simp only [abs_of_neg h0, if_neg h0.ne, if_neg h0.not_gt] at hw ⊢
    rw [if_neg (by omega)]
    rcases lt_or_ge 0 day with hd | hd
    · rw [abs_of_pos hd] at hcnt ⊢
      rw [if_pos (by omega), if_pos (by omega), hup (by omega) _ _ _ le_rfl (by omega)]
      refine ⟨_, rfl, fun d' ⟨hd', hdate, h'⟩ => ?_⟩
      rw [date_dayofweek_eq] at hd'
      rw [if_pos hd, todate_eq hdate] at h'
      omega
    · rw [abs_of_nonpos hd] at hcnt ⊢
      rw [if_neg (by omega), if_neg (by omega), hdown (by omega) _ _ _ le_rfl (by omega)]
      refine ⟨_, rfl, fun d' ⟨hd', hdate, h'⟩ => ?_⟩
      rw [date_dayofweek_eq] at hd'
      rw [if_neg hd.not_gt, todate_eq hdate] at h'
      omega
  · have hd := hpos.resolve_left (not_not.mpr rfl)
    rw [abs_of_pos hd, if_pos (.inl (by omega))]
    refine ⟨_, rfl, fun d' h' => ?_⟩
    rw [if_pos rfl] at h'
    rw [h'.2, todate_eq h'.1]
  · simp only [abs_of_pos h0, if_neg h0.ne', if_pos h0] at hw ⊢
    rw [if_neg (by omega)]
    rcases lt_or_ge 0 day with hd | hd
    · rw [abs_of_pos hd] at hcnt ⊢
      rw [if_pos (by omega), if_neg (by omega), hup (by omega) _ _ _ hcnt.1 (by omega)]
      refine ⟨_, rfl, fun d' ⟨hd', hdate, h'⟩ => ?_⟩
      rw [date_dayofweek_eq] at hd'
      rw [if_pos hd] at h'
      omega
    · rw [abs_of_nonpos hd] at hcnt ⊢
      rw [if_neg (by omega), if_pos (by omega), hdown (by omega) _ _ _ hcnt.1 (by omega)]
      refine ⟨_, rfl, fun d' ⟨hd', hdate, h'⟩ => ?_⟩
      rw [date_dayofweek_eq] at hd'
      rw [if_neg hd.not_gt, todate_eq hdate.last] at h'
      omega

/-- **`compute_rule` returns a date, and it is the one that the rule describes, if and only if there
is one.** -/
theorem compute_rule_iff (h : rule_create month day weekday minutes = some r) (y : ℤ) :
    (compute_rule r y).isSome ∧ ((∃ d ∈ compute_rule r y, Describes month day weekday y d) ↔
      ∃ d, Describes month day weekday y d) := by
  obtain ⟨d, hd, hunique⟩ := compute_rule_eq h y
  rw [hd]
  refine ⟨rfl, fun ⟨d, _, h⟩ => ⟨d, h⟩, fun ⟨d', h⟩ => ?_⟩
  obtain rfl := hunique d' h
  exact ⟨_, rfl, h⟩

/-- **When a rule describes a date**: the day that it starts from exists in that year, and the month
has as many of the weekdays if they are counted. -/
theorem exists_describes_iff (h : rule_create month day weekday minutes = some r) (y : ℤ) :
    (∃ d, Describes month day weekday y d) ↔ DATE (if 0 < weekday then 1 else |day|) month y ∧
      (0 < weekday → 7 * (|day| - 1) + (if 0 < day then weekday - todate 1 month y
        else todate (MONTHDAYS month y) month y - weekday) % 7 < MONTHDAYS month y) := by
  obtain ⟨-, -, -, -, hcnt, hw, hpos⟩ := rule_create_cases h
  unfold Describes
  rcases lt_trichotomy weekday 0 with h0 | rfl | h0
  -- a weekday on or after a day of the month, or on or before it
  · simp only [abs_of_neg h0, if_neg h0.ne, h0.not_gt, if_false, false_imp_iff, and_true]
    rw [abs_of_neg h0] at hw
    refine ⟨fun ⟨d, hd⟩ => hd.2.1, fun hdate => ?_⟩
    rcases lt_or_ge 0 day with hd | hd
    · refine ⟨todate day month y + (-weekday - todate day month y) % 7, ?_, hdate, ?_⟩
      · rw [date_dayofweek_eq]
        omega
      · rw [if_pos hd]
        omega
    · refine ⟨todate (-day) month y - (todate (-day) month y + weekday) % 7, ?_, hdate, ?_⟩
      · rw [date_dayofweek_eq]
        omega
      · rw [if_neg hd.not_gt]
        omega
  · have hd := hpos.resolve_left (not_not.mpr rfl)
    simp [abs_of_pos hd]
  -- a weekday counted from the first or the last day of the month
  · simp only [abs_of_pos h0, if_neg h0.ne', h0, if_true, true_imp_iff]
    rw [abs_of_pos h0] at hw
    constructor
    · rintro ⟨d, hd, hdate, h1, h2, h3⟩
      refine ⟨hdate, ?_⟩
      rw [date_dayofweek_eq] at hd
      rw [todate_eq hdate.last] at h2 h3 ⊢
      rcases lt_or_ge 0 day with hday | hday
      · rw [abs_of_pos hday, if_pos hday] at *
        omega
      · rw [abs_of_nonpos hday, if_neg hday.not_gt] at *
        omega
    · rintro ⟨hdate, hlt⟩
      rw [todate_eq hdate.last] at hlt ⊢
      rcases lt_or_ge 0 day with hday | hday
      · rw [abs_of_pos hday, if_pos hday] at hlt
        simp only [if_pos hday]
        refine ⟨todate 1 month y + 7 * (day - 1) + (weekday - todate 1 month y) % 7, ?_, hdate, ?_⟩
        · rw [date_dayofweek_eq]
          omega
        · omega
      · rw [abs_of_nonpos hday] at hcnt
        rw [abs_of_nonpos hday, if_neg hday.not_gt] at hlt
        simp only [if_neg hday.not_gt]
        refine ⟨todate 1 month y + (MONTHDAYS month y - 1) - 7 * (-day - 1) -
          (todate 1 month y + (MONTHDAYS month y - 1) - weekday) % 7, ?_, hdate, ?_⟩
        · rw [date_dayofweek_eq]
          omega
        · omega

/-- The last Sunday of March. -/
theorem compute_rule_iff_march : ∃ r, rule_create 3 (-1) 1 60 = some r ∧
    ∃ d ∈ compute_rule r 2000, Describes 3 (-1) 1 2000 d := by
  have hr : rule_create 3 (-1) 1 60 = some ⟨3, 60, 31, 9⟩ := by decide
  exact ⟨_, hr, (compute_rule_iff hr 2000).2.mpr ((exists_describes_iff hr 2000).mpr (by decide))⟩

/-- There is no 29 February in 2001, and the first of March is returned. -/
theorem compute_rule_leapDay : ∃ r, rule_create 2 29 0 0 = some r ∧
    compute_rule r 2001 = some (todate 1 3 2001) ∧ ∀ d, ¬ Describes 2 29 0 2001 d :=
  ⟨_, rfl, by decide, fun d hd => absurd hd.1 (by decide)⟩

end MonetInR.Mtime
