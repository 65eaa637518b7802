import ClaimTriage.Theory.Numeral
import Mathlib.Data.Fintype.Basic

/-!
# Dates, Times and Their Texts

The proleptic Gregorian calendar, times of day, and date-times with or without
an offset from UTC, as a language with microsecond date-times has them.

Two things are needed of them. The first is that the ISO 8601 text of a
date-time determines it, offset included, which is `isoformat_inj`: every part
but the fraction and the offset stands at a fixed place, and those two are
told apart by the character they begin with. The second is moving an instant
between offsets. An instant is a number of microseconds, `instant` takes a
date-time with an offset to it, and `atOffset` expresses it at an offset again;
`atOffset_instant` is that an instant taken from a date-time and expressed at
that date-time's own offset is that date-time.

The conversion from a day number back to a date is the usual one, four nested
divisions by the lengths of 400, 100, 4 and 1 years, with the last day of a
leap year the one the divisions overshoot. `ord2ymd_ymd2ord` is where that is
settled, by splitting a year into what those divisions find.

## Main definitions

* `Date`, `Clock`, `Offset`, `DateTime`: Calendar values, valid by their
  fields.
* `ymd2ord`, `ord2ymd`: Day numbers and back.
* `DateTime.instant`: The microseconds a date-time with an offset stands at.
* `atOffset`: An instant as a date-time at an offset.
* `DateTime.isoformat`: The ISO 8601 text.

## Theorems

* `ord2ymd_ymd2ord`: A date is recovered from its day number.
* `atOffset_instant`: A date-time is recovered from its instant.
* `Date.isoformat_inj`, `Clock.isoformat_inj`, `Offset.isoformat_inj`: Texts
  determine what they are of.
* `DateTime.isoformat_inj`: The ISO 8601 text determines the date-time.
-/

namespace Theory

namespace Calendar

open Text Numeral

/-! ### The Gregorian calendar -/

/-- A year of 366 days. -/
def IsLeap (year : Nat) : Prop :=
  year % 4 = 0 ∧ (year % 100 ≠ 0 ∨ year % 400 = 0)

instance (year : Nat) : Decidable (IsLeap year) :=
  inferInstanceAs (Decidable (_ ∧ _))

/-- The days of a month of a year that is, or is not, a leap year. -/
def monthDays (leap : Bool) (month : Nat) : Nat :=
  [0, 31, if leap then 29 else 28, 31, 30, 31, 30, 31, 31, 30, 31, 30, 31].getD month 0

/-- The days of a year before one of its months. -/
def daysBeforeMonth (leap : Bool) (month : Nat) : Nat :=
  [0, 0, 31, 59, 90, 120, 151, 181, 212, 243, 273, 304, 334].getD month 0 +
    if 2 < month ∧ leap then 1 else 0

/-- The days before a year, counted from the first of year one. -/
def daysBeforeYear (year : Nat) : Nat :=
  (year - 1) * 365 + (year - 1) / 4 - (year - 1) / 100 + (year - 1) / 400

/-- The number of a day, the first of year one being one. -/
def ymd2ord (year month day : Nat) : Nat :=
  daysBeforeYear year + daysBeforeMonth (IsLeap year) month + day

/-- The month and day of a day of a year, counted from zero. -/
def monthDay (leap : Bool) (n : Nat) : Nat × Nat :=
  let month := (n + 50) / 32
  if daysBeforeMonth leap month > n then
    (month - 1, n - daysBeforeMonth leap (month - 1) + 1)
  else
    (month, n - daysBeforeMonth leap month + 1)

/-- The date a day number is of: how many whole periods of 400, 100, 4 and 1
    years fit before it, and what is left within the year. -/
def ord2ymd (ordinal : Nat) : Nat × Nat × Nat :=
  let n400 := (ordinal - 1) / 146097
  let r400 := (ordinal - 1) % 146097
  let n100 := r400 / 36524
  let r100 := r400 % 36524
  let n4 := r100 / 1461
  let r4 := r100 % 1461
  let n1 := r4 / 365
  let year := n400 * 400 + n100 * 100 + n4 * 4 + n1 + 1
  if n1 = 4 ∨ n100 = 4 then
    (year - 1, 12, 31)
  else
    (year, monthDay (decide (n1 = 3 ∧ (n4 ≠ 24 ∨ n100 = 3))) (r4 % 365))

/-- What the four divisions find of a year. -/
theorem year_split (year : Nat) (h : 1 ≤ year) :
    ∃ a b c d, year = a * 400 + b * 100 + c * 4 + d + 1 ∧ b ≤ 3 ∧ c ≤ 24 ∧ d ≤ 3 ∧
      daysBeforeYear year = a * 146097 + b * 36524 + c * 1461 + d * 365 ∧
      (IsLeap year ↔ d = 3 ∧ (c ≠ 24 ∨ b = 3)) := by
  refine ⟨(year - 1) / 400, (year - 1) % 400 / 100, (year - 1) % 100 / 4, (year - 1) % 4,
    by omega, by omega, by omega, by omega, ?_, ?_⟩
  · -- The leap days before a year are counted cycle by cycle.
    unfold daysBeforeYear
    have h4 : (year - 1) / 4 =
        (year - 1) / 400 * 100 + (year - 1) % 400 / 100 * 25 + (year - 1) % 100 / 4 := by omega
    have h100 : (year - 1) / 100 = (year - 1) / 400 * 4 + (year - 1) % 400 / 100 := by omega
    omega
  · unfold IsLeap
    omega

/-- A quotient and a remainder are read back off what they make up. -/
theorem div_mod_of_lt {m r : Nat} (q : Nat) (h : r < m) :
    (q * m + r) / m = q ∧ (q * m + r) % m = r := by
  rw [Nat.mul_comm, Nat.mul_add_div (by omega), Nat.mul_add_mod, Nat.div_eq_of_lt h]
  exact ⟨rfl, Nat.mod_eq_of_lt h⟩

/-- Any day but the last of a leap year: the divisions find the year as it
    was split, and leave the day. -/
theorem ord2ymd_within (a : Nat) {b c d k : Nat} (hb : b ≤ 3) (hc : c ≤ 24) (hd : d ≤ 3)
    (hk : k ≤ 364) :
    ord2ymd (a * 146097 + (b * 36524 + (c * 1461 + (d * 365 + k))) + 1) =
      (a * 400 + b * 100 + c * 4 + d + 1, monthDay (decide (d = 3 ∧ (c ≠ 24 ∨ b = 3))) k) := by
  have h400 := div_mod_of_lt (m := 146097) (r := b * 36524 + (c * 1461 + (d * 365 + k))) a
    (by omega)
  have h100 := div_mod_of_lt (m := 36524) (r := c * 1461 + (d * 365 + k)) b (by omega)
  have h4 := div_mod_of_lt (m := 1461) (r := d * 365 + k) c (by omega)
  have h1 := div_mod_of_lt (m := 365) (r := k) d (by omega)
  simp only [ord2ymd, Nat.add_sub_cancel, h400, h100, h4, h1]
  rw [if_neg (by omega)]

/-- The last day of a leap year: one of the divisions goes one too far, and
    that is how the day is recognised. -/
theorem ord2ymd_lastDay (a : Nat) {b c : Nat} (hb : b ≤ 3) (hc : c ≤ 24)
    (hleap : c ≠ 24 ∨ b = 3) :
    ord2ymd (a * 146097 + (b * 36524 + (c * 1461 + (3 * 365 + 365))) + 1) =
      (a * 400 + b * 100 + c * 4 + 3 + 1, 12, 31) := by
  have h400 := div_mod_of_lt (m := 146097) (r := b * 36524 + (c * 1461 + (3 * 365 + 365))) a
    (by omega)
  -- Only the last day of the longest cycle falls in a fifth century.
  by_cases hlast : b = 3 ∧ c = 24
  · rcases hlast with ⟨rfl, rfl⟩
    simp only [ord2ymd, Nat.add_sub_cancel, h400]
    rfl
  · have h100 := div_mod_of_lt (m := 36524) (r := c * 1461 + (3 * 365 + 365)) b (by omega)
    have h4 := div_mod_of_lt (m := 1461) (r := 3 * 365 + 365) c (by omega)
    simp only [ord2ymd, Nat.add_sub_cancel, h400, h100, h4]
    rfl

/-- A day of a year, counted from zero, is recovered from its number; and it
    is the last of a leap year's December or comes before it. -/
theorem monthDay_daysBeforeMonth (leap : Bool) {month day : Nat} (hm : 1 ≤ month)
    (hm12 : month ≤ 12) (hd : 1 ≤ day) (hdm : day ≤ monthDays leap month) :
    monthDay leap (daysBeforeMonth leap month + day - 1) = (month, day) ∧
      (daysBeforeMonth leap month + day - 1 ≤ 364 ∨
        leap ∧ month = 12 ∧ day = 31 ∧ daysBeforeMonth leap month + day - 1 = 365) := by
  -- There are few enough months and days to look at each of them.
  have hall : ∀ (month : Fin 13) (day : Fin 32),
      1 ≤ month.val ∧ 1 ≤ day.val ∧ day.val ≤ monthDays leap month →
      monthDay leap (daysBeforeMonth leap month + day - 1) = (month.val, day.val) ∧
      (daysBeforeMonth leap month + day - 1 ≤ 364 ∨
        leap ∧ month.val = 12 ∧ day.val = 31 ∧
          daysBeforeMonth leap month + day - 1 = 365) := by
    cases leap <;> decide +kernel
  have hday : day < 32 := by
    have hmax : ∀ month : Fin 13, monthDays leap month < 32 := by cases leap <;> decide
    exact Nat.lt_of_le_of_lt hdm (hmax ⟨month, by omega⟩)
  exact hall ⟨month, by omega⟩ ⟨day, hday⟩ ⟨hm, hd, hdm⟩

/-- A date is recovered from its day number. -/
theorem ord2ymd_ymd2ord {year month day : Nat} (hy : 1 ≤ year) (hm : 1 ≤ month)
    (hm12 : month ≤ 12) (hd : 1 ≤ day) (hdm : day ≤ monthDays (IsLeap year) month) :
    ord2ymd (ymd2ord year month day) = (year, month, day) := by
  rcases year_split year hy with ⟨a, b, c, d, hyear, hb, hc, hd3, hdays, hleap⟩
  rcases monthDay_daysBeforeMonth _ hm hm12 hd hdm with ⟨hmd, hbound⟩
  have hord : ymd2ord year month day = a * 146097 + (b * 36524 + (c * 1461 + (d * 365 +
      (daysBeforeMonth (IsLeap year) month + day - 1)))) + 1 := by
    unfold ymd2ord
    omega
  rw [hord]
  -- The day is among the year's first three hundred and sixty-five, or it is the last of a leap
  -- year.
  rcases hbound with hk | ⟨hl, rfl, rfl, hk⟩
  · rw [ord2ymd_within a hb hc hd3 hk, ← hyear, ← hmd]
    simp only [hleap]
  · rcases hleap.mp (of_decide_eq_true hl) with ⟨rfl, hcb⟩
    rw [hk, ord2ymd_lastDay a hb hc hcb, hyear]

/-! ### Calendar values -/

/-- A date of the years one to 9999. -/
@[ext]
structure Date where
  year : Nat
  month : Nat
  day : Nat
  year_valid : 1 ≤ year ∧ year ≤ 9999
  month_valid : 1 ≤ month ∧ month ≤ 12
  day_valid : 1 ≤ day ∧ day ≤ monthDays (IsLeap year) month
  deriving DecidableEq

/-- A time of day, to the microsecond. -/
@[ext]
structure Clock where
  hour : Nat
  minute : Nat
  second : Nat
  microsecond : Nat
  hour_valid : hour < 24
  minute_valid : minute < 60
  second_valid : second < 60
  microsecond_valid : microsecond < 1000000
  deriving DecidableEq

/-- The first of January 2026. -/
def Date.newYear : Date :=
  ⟨2026, 1, 1, by decide, by decide, by decide⟩

/-- The third of that month. -/
def Date.third : Date :=
  ⟨2026, 1, 3, newYear.year_valid, newYear.month_valid, by decide⟩

/-- Noon. -/
def Clock.noon : Clock :=
  ⟨12, 0, 0, 0, by decide, by decide, by decide, by decide⟩

/-- An offset from UTC in microseconds, less than a day either way. -/
@[ext]
structure Offset where
  micros : Int
  valid : micros.natAbs < 86400000000
  deriving DecidableEq

/-- No offset: the time is UTC. -/
def Offset.utc : Offset where
  micros := 0
  valid := by decide

/-- A date-time, naive where it has no offset and aware where it has one. -/
@[ext]
structure DateTime where
  date : Date
  clock : Clock
  offset : Option Offset
  deriving DecidableEq

/-- The number of the day. -/
def Date.toordinal (d : Date) : Nat :=
  ymd2ord d.year d.month d.day

/-- The date three numbers name, if they name one. -/
def Date.ofYmd (year month day : Nat) : Option Date :=
  if h : (1 ≤ year ∧ year ≤ 9999) ∧ (1 ≤ month ∧ month ≤ 12) ∧
      (1 ≤ day ∧ day ≤ monthDays (IsLeap year) month) then
    some ⟨year, month, day, h.1, h.2.1, h.2.2⟩
  else none

/-- The date of a day number, if it is one of the years one to 9999. -/
def Date.fromordinal (ordinal : Int) : Option Date :=
  let ymd := ord2ymd ordinal.toNat
  if 1 ≤ ordinal then Date.ofYmd ymd.1 ymd.2.1 ymd.2.2 else none

/-- The time four numbers name, if they name one. -/
def Clock.ofHms (hour minute second microsecond : Nat) : Option Clock :=
  if h : (hour < 24 ∧ minute < 60) ∧ (second < 60 ∧ microsecond < 1000000) then
    some ⟨hour, minute, second, microsecond, h.1.1, h.1.2, h.2.1, h.2.2⟩
  else none

/-- The microseconds of the day a time stands at. -/
def Clock.micros (c : Clock) : Nat :=
  ((c.hour * 60 + c.minute) * 60 + c.second) * 1000000 + c.microsecond

/-- The time some microseconds into the day, whole days dropped. -/
def Clock.ofMicros (n : Nat) : Clock where
  hour := n / 3600000000 % 24
  minute := n / 60000000 % 60
  second := n / 1000000 % 60
  microsecond := n % 1000000
  hour_valid := Nat.mod_lt _ (by decide)
  minute_valid := Nat.mod_lt _ (by decide)
  second_valid := Nat.mod_lt _ (by decide)
  microsecond_valid := Nat.mod_lt _ (by decide)

/-- The microseconds of a day. -/
def dayMicros : Int := 86400000000

/-- The instant an aware date-time stands at, in microseconds; a naive one
    stands at none. -/
def DateTime.instant (t : DateTime) : Option Int :=
  t.offset.map fun offset => t.date.toordinal * dayMicros + t.clock.micros - offset.micros

/-- An instant as a date-time at an offset, if the calendar reaches it. -/
def atOffset (instant : Int) (offset : Offset) : Option DateTime :=
  let here := instant + offset.micros
  (Date.fromordinal (here / dayMicros)).map fun date =>
    ⟨date, Clock.ofMicros (here % dayMicros).toNat, some offset⟩

theorem Date.ofYmd_self (d : Date) : Date.ofYmd d.year d.month d.day = some d :=
  dif_pos ⟨d.year_valid, d.month_valid, d.day_valid⟩

theorem Clock.ofHms_self (c : Clock) :
    Clock.ofHms c.hour c.minute c.second c.microsecond = some c :=
  dif_pos ⟨⟨c.hour_valid, c.minute_valid⟩, c.second_valid, c.microsecond_valid⟩

theorem Date.fromordinal_toordinal (d : Date) : Date.fromordinal d.toordinal = some d := by
  have hord : ord2ymd d.toordinal = (d.year, d.month, d.day) :=
    ord2ymd_ymd2ord d.year_valid.1 d.month_valid.1 d.month_valid.2 d.day_valid.1 d.day_valid.2
  have hpos : (1 : Int) ≤ d.toordinal := by
    have hday := d.day_valid.1
    unfold Date.toordinal ymd2ord
    omega
  simp only [Date.fromordinal, Int.toNat_natCast, hord]
  rw [if_pos hpos, Date.ofYmd_self]

theorem Clock.micros_lt (c : Clock) : (c.micros : Int) < dayMicros := by
  have hh := c.hour_valid
  have hm := c.minute_valid
  have hs := c.second_valid
  have hu := c.microsecond_valid
  unfold Clock.micros dayMicros
  omega

theorem Clock.ofMicros_micros (c : Clock) : Clock.ofMicros c.micros = c := by
  have hh := c.hour_valid
  have hm := c.minute_valid
  have hs := c.second_valid
  have hu := c.microsecond_valid
  ext <;> simp only [Clock.ofMicros, Clock.micros] <;> omega

/-- A date-time is recovered from the instant it stands at and its offset. -/
theorem atOffset_instant (date : Date) (clock : Clock) (offset : Offset) :
    atOffset (date.toordinal * dayMicros + clock.micros - offset.micros) offset =
      some ⟨date, clock, some offset⟩ := by
  have hlt := clock.micros_lt
  have hday : (0 : Int) < dayMicros := by decide
  have hdiv : ((date.toordinal : Int) * dayMicros + clock.micros) / dayMicros =
      date.toordinal := by
    rw [Int.add_comm, Int.add_mul_ediv_right _ _ (Int.ne_of_gt hday),
      Int.ediv_eq_zero_of_lt (Int.natCast_nonneg _) hlt, Int.zero_add]
  have hmod : ((date.toordinal : Int) * dayMicros + clock.micros) % dayMicros =
      clock.micros := by
    rw [Int.add_comm, Int.add_mul_emod_self_right,
      Int.emod_eq_of_lt (Int.natCast_nonneg _) hlt]
  simp only [atOffset, Int.sub_add_cancel, hdiv, hmod, Date.fromordinal_toordinal,
    Int.toNat_natCast, Clock.ofMicros_micros, Option.map_some]

/-- Expressing an instant at an offset gives a date-time of that offset. -/
theorem offset_of_atOffset {instant : Int} {offset : Offset} {t : DateTime}
    (h : atOffset instant offset = some t) : t.offset = some offset := by
  rcases Option.map_eq_some_iff.mp h with ⟨date, _, rfl⟩
  rfl

/-! ### ISO 8601 texts -/

/-- Two digits. -/
def two (n : Nat) : Str :=
  fixed 10 2 n

/-- The microseconds as a fraction, left out when there are none. -/
def fraction (micros : Nat) : Str :=
  if micros = 0 then [] else text "." ++ fixed 10 6 micros

/-- Year, month and day, hyphens between. -/
def Date.isoformat (d : Date) : Str :=
  fixed 10 4 d.year ++ text "-" ++ two d.month ++ text "-" ++ two d.day

/-- Hour, minute and second, colons between, and the fraction. -/
def Clock.isoformat (c : Clock) : Str :=
  two c.hour ++ text ":" ++ two c.minute ++ text ":" ++ two c.second ++ fraction c.microsecond

/-- The sign, hours and minutes, and the seconds and their fraction of an
    offset that is not whole minutes. -/
def Offset.isoformat (o : Offset) : Str :=
  let n := o.micros.natAbs
  text (if o.micros < 0 then "-" else "+") ++ two (n / 3600000000) ++ text ":" ++
    two (n / 60000000 % 60) ++
    if n % 60000000 = 0 then [] else
      text ":" ++ two (n / 1000000 % 60) ++ fraction (n % 1000000)

/-- Date and time about a `T`, and the offset of an aware one. -/
def DateTime.isoformat (t : DateTime) : Str :=
  t.date.isoformat ++ text "T" ++ t.clock.isoformat ++ (t.offset.map Offset.isoformat).getD []

@[simp]
theorem length_two (n : Nat) : (two n).length = 2 := length_fixed 10 2 n

theorem two_inj {n m : Nat} (hn : n < 100) (hm : m < 100) (h : two n = two m) : n = m :=
  fixed_inj (by decide) (by decide) hn hm h

theorem length_isoformat_date (d : Date) : d.isoformat.length = 10 := by
  simp only [Date.isoformat, List.length_append, length_fixed, length_two]
  rfl

theorem Date.day_lt (d : Date) : d.day < 100 := by
  have hmonth := d.month_valid.2
  have hmax : ∀ leap, ∀ month : Fin 13, monthDays leap month < 100 := by
    intro leap
    cases leap <;> decide
  exact Nat.lt_of_le_of_lt d.day_valid.2 (hmax _ ⟨d.month, by omega⟩)

/-- The text of a date determines it: each part stands at a fixed place. -/
theorem Date.isoformat_inj {d e : Date} (h : d.isoformat = e.isoformat) : d = e := by
  simp only [Date.isoformat] at h
  rcases List.append_inj' h (by simp) with ⟨h, hday⟩
  rcases List.append_inj' h rfl with ⟨h, _⟩
  rcases List.append_inj' h (by simp) with ⟨h, hmonth⟩
  rcases List.append_inj' h rfl with ⟨hyear, _⟩
  ext
  · refine fixed_inj (by decide) (by decide) ?_ ?_ hyear
    · exact Nat.lt_of_le_of_lt d.year_valid.2 (by decide)
    · exact Nat.lt_of_le_of_lt e.year_valid.2 (by decide)
  · refine two_inj ?_ ?_ hmonth
    · exact Nat.lt_of_le_of_lt d.month_valid.2 (by decide)
    · exact Nat.lt_of_le_of_lt e.month_valid.2 (by decide)
  · exact two_inj d.day_lt e.day_lt hday

/-- A fraction before something that begins otherwise is told apart from it. -/
theorem fraction_append_inj {n m : Nat} (hn : n < 1000000) (hm : m < 1000000) {s t : Str}
    (hs : ofChar '.' ∉ s.head?) (ht : ofChar '.' ∉ t.head?)
    (h : fraction n ++ s = fraction m ++ t) : n = m ∧ s = t := by
  have hdot : ∀ k, ∀ r : Str, text "." ++ fixed 10 6 k ++ r =
      ofChar '.' :: (fixed 10 6 k ++ r) := fun _ _ => rfl
  unfold fraction at h
  -- A fraction that is nothing is left out, and the point tells whether there is one.
  split at h <;> split at h <;> rename_i hn0 hm0
  · exact ⟨hn0.trans hm0.symm, h⟩
  · rw [List.nil_append, hdot] at h
    exact absurd (h ▸ Option.mem_some_self _) hs
  · rw [List.nil_append, hdot] at h
    exact absurd (h ▸ Option.mem_some_self _) ht
  · rw [hdot, hdot] at h
    rcases List.append_inj (List.cons.inj h).2 (by simp) with ⟨hfixed, hrest⟩
    exact ⟨fixed_inj (by decide) (by decide) hn hm hfixed, hrest⟩

theorem fraction_inj {n m : Nat} (hn : n < 1000000) (hm : m < 1000000)
    (h : fraction n = fraction m) : n = m :=
  (fraction_append_inj (s := []) (t := []) hn hm (by simp) (by simp) (by simpa using h)).1

/-- The text of a time determines it, whatever follows that is not a
    fraction. -/
theorem Clock.isoformat_append_inj {c d : Clock} {s t : Str} (hs : ofChar '.' ∉ s.head?)
    (ht : ofChar '.' ∉ t.head?) (h : c.isoformat ++ s = d.isoformat ++ t) : c = d ∧ s = t := by
  simp only [Clock.isoformat, List.append_assoc] at h
  rcases List.append_inj h (by simp) with ⟨hhour, h⟩
  rcases List.append_inj h rfl with ⟨_, h⟩
  rcases List.append_inj h (by simp) with ⟨hminute, h⟩
  rcases List.append_inj h rfl with ⟨_, h⟩
  rcases List.append_inj h (by simp) with ⟨hsecond, h⟩
  have hch := c.hour_valid
  have hcm := c.minute_valid
  have hcs := c.second_valid
  have hdh := d.hour_valid
  have hdm := d.minute_valid
  have hds := d.second_valid
  rcases fraction_append_inj c.microsecond_valid d.microsecond_valid hs ht h with ⟨hmicro, hrest⟩
  refine ⟨?_, hrest⟩
  ext
  · exact two_inj (by omega) (by omega) hhour
  · exact two_inj (by omega) (by omega) hminute
  · exact two_inj (by omega) (by omega) hsecond
  · exact hmicro

/-- The text of an offset determines it. -/
theorem Offset.isoformat_inj {o p : Offset} (h : o.isoformat = p.isoformat) : o = p := by
  have ho := o.valid
  have hp := p.valid
  simp only [Offset.isoformat, List.append_assoc] at h
  -- Sign, hours and minutes have fixed widths; seconds stand only where there are some.
  have hlen : ∀ x : Int, (text (if x < 0 then "-" else "+")).length = 1 := by
    intro x
    split <;> rfl
  rcases List.append_inj h (by rw [hlen, hlen]) with ⟨hsign, h⟩
  rcases List.append_inj h (by simp) with ⟨hhour, h⟩
  rcases List.append_inj h rfl with ⟨_, h⟩
  rcases List.append_inj h (by simp) with ⟨hminute, h⟩
  have hhours := two_inj (by omega) (by omega) hhour
  have hminutes := two_inj (by omega) (by omega) hminute
  have hrest : o.micros.natAbs % 60000000 = p.micros.natAbs % 60000000 := by
    split at h <;> split at h <;> rename_i h0 h1
    · omega
    · cases h
    · cases h
    · rcases List.append_inj h rfl with ⟨_, h⟩
      rcases List.append_inj h (by simp) with ⟨hsecond, h⟩
      have hseconds := two_inj (by omega) (by omega) hsecond
      have hmicros := fraction_inj (by omega) (by omega) h
      omega
  have habs : o.micros.natAbs = p.micros.natAbs := by omega
  have hneg : o.micros < 0 ↔ p.micros < 0 := by
    by_cases hon : o.micros < 0 <;> by_cases hpn : p.micros < 0 <;>
      simp only [hon, hpn, if_true, if_false] at hsign ⊢ <;> exact absurd hsign (by decide)
  ext
  omega

/-- An offset's text begins with its sign. -/
theorem Offset.isoformat_head (o : Offset) :
    o.isoformat.head? = some (ofChar '-') ∨ o.isoformat.head? = some (ofChar '+') := by
  unfold Offset.isoformat
  split
  · exact Or.inl rfl
  · exact Or.inr rfl

/-- The text of an offset, or of none, determines which. -/
theorem offsetText_inj {o p : Option Offset}
    (h : (o.map Offset.isoformat).getD [] = (p.map Offset.isoformat).getD []) : o = p := by
  have hne : ∀ o : Offset, o.isoformat ≠ [] := by
    intro o hnil
    rcases o.isoformat_head with ho | ho <;> rw [hnil] at ho <;> cases ho
  cases o with
  | none =>
      cases p with
      | none => rfl
      | some p => exact absurd h.symm (hne p)
  | some o =>
      cases p with
      | none => exact absurd h (hne o)
      | some p => exact congrArg some (Offset.isoformat_inj h)

/-- The ISO 8601 text determines the date-time, its offset included. -/
theorem DateTime.isoformat_inj {t u : DateTime} (h : t.isoformat = u.isoformat) : t = u := by
  -- What follows the clock is never read as a fraction of it.
  have hhead : ∀ o : Option Offset, ofChar '.' ∉ ((o.map Offset.isoformat).getD []).head? := by
    intro o
    cases o with
    | none => exact Option.not_mem_none _
    | some o =>
        rw [Option.map_some, Option.getD_some]
        rcases o.isoformat_head with ho | ho <;> rw [ho] <;> decide
  simp only [DateTime.isoformat, List.append_assoc] at h
  rcases List.append_inj h (by rw [length_isoformat_date, length_isoformat_date]) with ⟨hdate, h⟩
  rcases List.append_inj h rfl with ⟨_, h⟩
  rcases Clock.isoformat_append_inj (hhead _) (hhead _) h with ⟨hclock, hoffset⟩
  ext1
  · exact Date.isoformat_inj hdate
  · exact hclock
  · exact offsetText_inj hoffset

theorem printable_two (n : Nat) : Printable (two n) :=
  printable_fixed (by decide) (by decide) 2 n

theorem printable_fraction (n : Nat) : Printable (fraction n) := by
  unfold fraction
  split
  · exact printable_nil
  · exact (printable_append _ _).mpr ⟨by decide, printable_fixed (by decide) (by decide) 6 n⟩

theorem Offset.isoformat_printable (o : Offset) : Printable o.isoformat := by
  have hsign : Printable (text (if o.micros < 0 then "-" else "+")) := by
    split <;> decide
  have hcolon : Printable (text ":") := by decide
  simp only [Offset.isoformat, printable_append, hsign, hcolon, printable_two, true_and]
  split
  · exact printable_nil
  · simp only [printable_append, hcolon, printable_two, printable_fraction, and_self]

theorem Date.isoformat_printable (d : Date) : Printable d.isoformat := by
  have hhyphen : Printable (text "-") := by decide
  have hyear : Printable (fixed 10 4 d.year) := printable_fixed (by decide) (by decide) 4 _
  simp only [Date.isoformat, printable_append, hhyphen, hyear, printable_two, and_self]

theorem Clock.isoformat_printable (c : Clock) : Printable c.isoformat := by
  have hcolon : Printable (text ":") := by decide
  simp only [Clock.isoformat, printable_append, hcolon, printable_two, printable_fraction, and_self]

/-- The text of a date-time is printable. -/
theorem DateTime.isoformat_printable (t : DateTime) : Printable t.isoformat := by
  have hT : Printable (text "T") := by decide
  have hoffset : Printable ((t.offset.map Offset.isoformat).getD []) := by
    cases t.offset with
    | none => exact printable_nil
    | some o => exact o.isoformat_printable
  simp only [DateTime.isoformat, printable_append, t.date.isoformat_printable, hT,
    t.clock.isoformat_printable, hoffset, and_self]

/-! ### Reading texts back -/

/-- A number read at a place of a text. -/
def numberAt (s : Str) (start width : Nat) : Nat :=
  value 10 ((s.drop start).take width)

/-- The date an ISO text is of. -/
def Date.fromisoformat (s : Str) : Option Date :=
  (Date.ofYmd (numberAt s 0 4) (numberAt s 5 2) (numberAt s 8 2)).filter (·.isoformat = s)

/-- The time an ISO text is of: a text with no fraction has no microseconds. -/
def Clock.fromisoformat (s : Str) : Option Clock :=
  (Clock.ofHms (numberAt s 0 2) (numberAt s 3 2) (numberAt s 6 2) (numberAt s 9 6)).filter
    (·.isoformat = s)

/-- A number is read where it stands among what comes before and after it. -/
theorem numberAt_append {before after : Str} {start width n : Nat}
    (hstart : before.length = start) (hn : n < 10 ^ width) :
    numberAt (before ++ (fixed 10 width n ++ after)) start width = n := by
  unfold numberAt
  rw [List.drop_left' hstart, List.take_left' (length_fixed 10 width n)]
  exact value_fixed (by decide) (by decide) width n hn

/-- A number is read where a text begins with it. -/
theorem numberAt_zero {after : Str} {width n : Nat} (hn : n < 10 ^ width) :
    numberAt (fixed 10 width n ++ after) 0 width = n := by
  have hnil : ([] : Str).length = 0 := rfl
  exact numberAt_append hnil hn

theorem Date.fromisoformat_isoformat (d : Date) : Date.fromisoformat d.isoformat = some d := by
  have hy := d.year_valid
  have hm := d.month_valid
  have hday := d.day_lt
  have hyear : numberAt d.isoformat 0 4 = d.year := by
    simp only [Date.isoformat, List.append_assoc]
    exact numberAt_zero (by omega)
  have hmonth : numberAt d.isoformat 5 2 = d.month := by
    simp only [Date.isoformat, two]
    rw [List.append_assoc, List.append_assoc]
    exact numberAt_append (by simp; rfl) (by omega)
  have hdate : numberAt d.isoformat 8 2 = d.day := by
    rw [Date.isoformat, ← List.append_nil (_ ++ two d.day), List.append_assoc]
    exact numberAt_append (by simp; rfl) (by omega)
  rw [Date.fromisoformat, hyear, hmonth, hdate, Date.ofYmd_self]
  simp

theorem Clock.fromisoformat_isoformat (c : Clock) : Clock.fromisoformat c.isoformat = some c := by
  have hh := c.hour_valid
  have hm := c.minute_valid
  have hs := c.second_valid
  have hu := c.microsecond_valid
  have hhour : numberAt c.isoformat 0 2 = c.hour := by
    simp only [Clock.isoformat, List.append_assoc]
    exact numberAt_zero (by omega)
  have hminute : numberAt c.isoformat 3 2 = c.minute := by
    simp only [Clock.isoformat, two]
    rw [List.append_assoc, List.append_assoc, List.append_assoc]
    exact numberAt_append (by simp; rfl) (by omega)
  have hsecond : numberAt c.isoformat 6 2 = c.second := by
    rw [Clock.isoformat, List.append_assoc]
    exact numberAt_append (by simp; rfl) (by omega)
  have hmicro : numberAt c.isoformat 9 6 = c.microsecond := by
    rw [Clock.isoformat]
    -- Without a fraction nothing stands at its place, which counts as nothing.
    unfold fraction
    split
    · rename_i h0
      rw [h0, List.append_nil]
      unfold numberAt
      rw [List.drop_eq_nil_of_le (by simp; decide)]
      rfl
    · rw [← List.append_assoc, ← List.append_nil (_ ++ fixed 10 6 _), List.append_assoc]
      exact numberAt_append (by simp; rfl) (by omega)
  rw [Clock.fromisoformat, hhour, hminute, hsecond, hmicro, Clock.ofHms_self]
  simp

/-- A moment as a clock that runs in UTC reads it. -/
@[ext]
structure Moment where
  date : Date
  clock : Clock
  deriving DecidableEq

/-- A moment as the aware date-time it is. -/
def Moment.toDateTime (m : Moment) : DateTime where
  date := m.date
  clock := m.clock
  offset := some Offset.utc

/-- The text of a moment with `Z` for UTC. -/
def Moment.wire (m : Moment) : Str :=
  m.date.isoformat ++ (text "T" ++ (m.clock.isoformat ++ text "Z"))

/-- The moment a text with `Z` is of. -/
def Moment.ofWire (s : Str) : Option Moment := do
  let date ← Date.fromisoformat (s.take 10)
  let clock ← Clock.fromisoformat ((s.drop 11).dropLast)
  if (⟨date, clock⟩ : Moment).wire = s then some ⟨date, clock⟩ else none

theorem Moment.ofWire_wire (m : Moment) : Moment.ofWire m.wire = some m := by
  -- The date takes the first ten characters, the clock what is between the letters.
  have hdate : m.wire.take 10 = m.date.isoformat :=
    List.take_left' (length_isoformat_date m.date)
  have hclock : (m.wire.drop 11).dropLast = m.clock.isoformat := by
    have hlength : (m.date.isoformat ++ text "T").length = 11 := by
      rw [List.length_append, length_isoformat_date]
      rfl
    unfold Moment.wire
    rw [← List.append_assoc, List.drop_left' hlength]
    exact List.dropLast_concat
  unfold Moment.ofWire
  rw [hdate, hclock, Date.fromisoformat_isoformat, Clock.fromisoformat_isoformat]
  exact if_pos rfl

theorem Moment.wire_printable (m : Moment) : Printable m.wire := by
  have hT : Printable (text "T") := by decide
  have hZ : Printable (text "Z") := by decide
  simp only [Moment.wire, printable_append, m.date.isoformat_printable, hT,
    m.clock.isoformat_printable, hZ, and_self]

end Calendar

end Theory
