import Mathlib

/-!
# Dates

The kernel's clock turns a date into seconds (`RelayOs.Calendar.DateTime.unix`) and the shell turns
seconds into a date (`RelayOs.Calendar.fromUnix`), both by counting years from March in eras of 400.
`RelayOs.Calendar.dayNumber` counts the days as a calendar is made, year by year and month by month.
-/

namespace RelayOs.Calendar

/-! ### The code -/

/-- The clock's date and time. -/
structure DateTime where
  year : ℕ
  month : ℕ
  day : ℕ
  hour : ℕ
  minute : ℕ
  second : ℕ
  deriving DecidableEq, Repr

/-- A leap year of the Gregorian calendar. -/
def isLeap (y : ℕ) : Bool := (y % 4 = 0 ∧ ¬y % 100 = 0) ∨ y % 400 = 0

/-- The days of a month. -/
def daysInMonth (y m : ℕ) : ℕ :=
  if m = 2 then if isLeap y then 29 else 28
  else if m = 4 ∨ m = 6 ∨ m = 9 ∨ m = 11 then 30 else 31

namespace DateTime

/-- Days since 1970-01-01; years start in March. -/
def days (t : DateTime) : ℤ :=
  let m : ℤ := t.month
  let y : ℤ := if m ≤ 2 then t.year - 1 else t.year
  let era := y / 400
  let yoe := y - era * 400
  let mp := (m + 9) % 12
  let doy := (153 * mp + 2) / 5 + t.day - 1
  let doe := yoe * 365 + yoe / 4 - yoe / 100 + doy
  era * 146097 + doe - 719468

/-- **Seconds since 1970-01-01 00:00:00 UTC.** For a date before, where the product overflows and
the code stops, this wraps around. -/
def unix (t : DateTime) : ℕ :=
  ((t.days % 2 ^ 64).toNat * 86400 + t.hour * 3600 + t.minute * 60 + t.second) % 2 ^ 64

/-- A real date and time, not before 1970. -/
def isValid (t : DateTime) : Bool :=
  1970 ≤ t.year ∧ (1 ≤ t.month ∧ t.month ≤ 12) ∧ (1 ≤ t.day ∧ t.day ≤ daysInMonth t.year t.month) ∧
    t.hour < 24 ∧ t.minute < 60 ∧ t.second < 60

/-- The dates the test accepts, of a year with 16 bits. -/
structure Valid (t : DateTime) : Prop where
  year_ge : 1970 ≤ t.year
  year_lt : t.year < 2 ^ 16
  month_ge : 1 ≤ t.month
  month_le : t.month ≤ 12
  day_ge : 1 ≤ t.day
  day_le : t.day ≤ daysInMonth t.year t.month
  hour_lt : t.hour < 24
  minute_lt : t.minute < 60
  second_lt : t.second < 60

/-- The time of day in seconds. -/
def ofDay (t : DateTime) : ℕ := t.hour * 3600 + t.minute * 60 + t.second

/-- **Calendar order.** -/
def Before (t u : DateTime) : Prop :=
  t.year < u.year ∨ t.year = u.year ∧ (t.month < u.month ∨ t.month = u.month ∧
    (t.day < u.day ∨ t.day = u.day ∧ (t.hour < u.hour ∨ t.hour = u.hour ∧
      (t.minute < u.minute ∨ t.minute = u.minute ∧ t.second < u.second))))

end DateTime

/-- Clock registers as read. -/
structure Raw where
  second : BitVec 8
  minute : BitVec 8
  hour : BitVec 8
  day : BitVec 8
  month : BitVec 8
  year : BitVec 8
  century : Option (BitVec 8)
  statusB : BitVec 8

/-- One register's number: binary, or two decimal digits. -/
def num (binary : Bool) (v : BitVec 8) : Option (BitVec 8) :=
  if binary then some v
  else if v >>> 4 ≤ 9#8 ∧ v &&& 0xF#8 ≤ 9#8 then some ((v >>> 4) * 10#8 + (v &&& 0xF#8))
  else none

/-- The hour of the day; a 12-hour clock has its top bit for the afternoon. -/
def decodeHour (raw : Raw) : Option ℕ := do
  let hour ← num (raw.statusB &&& 4#8 ≠ 0#8) (raw.hour &&& ~~~0x80#8)
  if raw.statusB &&& 2#8 = 0#8 then
    if 1 ≤ hour.toNat ∧ hour.toNat ≤ 12 then
      some (hour.toNat % 12 + if raw.hour &&& 0x80#8 ≠ 0#8 then 12 else 0)
    else none
  else some hour.toNat

/-- **Decodes the registers**, as status register B says. -/
def decode (raw : Raw) : Option DateTime := do
  let binary : Bool := raw.statusB &&& 4#8 ≠ 0#8
  let hour ← decodeHour raw
  let century ← raw.century.elim (some 20#8) (num binary)
  let year ← num binary raw.year
  let month ← num binary raw.month
  let day ← num binary raw.day
  let minute ← num binary raw.minute
  let second ← num binary raw.second
  -- the year is at most 25755
  let t : DateTime := ⟨century.toNat * 100 + year.toNat, month.toNat, day.toNat, hour,
      minute.toNat, second.toNat⟩
  if t.isValid then some t else none

/-- The shell's date and time; weekday `0` is Sunday. -/
structure Civil where
  year : ℤ
  month : ℕ
  day : ℕ
  hour : ℕ
  minute : ℕ
  second : ℕ
  weekday : ℕ
  deriving DecidableEq, Repr

/-- **Seconds since 1970 to a date.** -/
def fromUnix (secs : ℕ) : Civil :=
  let days : ℤ := (secs / 86400 : ℕ)
  let rem := secs % 86400
  let z := days + 719468
  let era := z / 146097
  let doe := z % 146097
  let yoe := (doe - doe / 1460 + doe / 36524 - doe / 146096) / 365
  let doy := doe - (365 * yoe + yoe / 4 - yoe / 100)
  let mp := (5 * doy + 2) / 153
  let day := ((doy - (153 * mp + 2) / 5 + 1) % 2 ^ 32).toNat
  let month := ((if mp < 10 then mp + 3 else mp - 9) % 2 ^ 32).toNat
  { year := yoe + era * 400 + if month ≤ 2 then 1 else 0
    month := month
    day := day
    hour := rem / 3600
    minute := rem / 60 % 60
    second := rem % 60
    weekday := ((days + 4) % 7).toNat }

/-! ### Counting days -/

/-- The days of a year. -/
def yearDays (y : ℕ) : ℕ := if isLeap y then 366 else 365

/-- The days of a year before a month. -/
def beforeMonth (y m : ℕ) : ℕ := ∑ i ∈ Finset.range (m - 1), daysInMonth y (i + 1)

/-- The days from 1970 to a year. -/
def beforeYear (y : ℕ) : ℕ := ∑ i ∈ Finset.range (y - 1970), yearDays (1970 + i)

/-- **The days from 1970-01-01 to a date**, by the calendar. -/
def dayNumber (y m d : ℕ) : ℕ := beforeYear y + beforeMonth y m + (d - 1)

theorem isLeap_iff (y : ℕ) : isLeap y = true ↔ (y % 4 = 0 ∧ y % 100 ≠ 0) ∨ y % 400 = 0 := by
  simp [isLeap]

variable {y m d : ℕ} {t : DateTime} {c q r doy : ℤ}

theorem beforeYear_succ (h : 1970 ≤ y) : beforeYear (y + 1) = beforeYear y + yearDays y := by
  rw [beforeYear, beforeYear, show y + 1 - 1970 = y - 1970 + 1 by omega, Finset.sum_range_succ,
    Nat.add_sub_cancel' h]

theorem beforeMonth_succ (h : 1 ≤ m) :
    beforeMonth y (m + 1) = beforeMonth y m + daysInMonth y m := by
  rw [beforeMonth, beforeMonth, Nat.add_sub_cancel, ← Nat.sub_add_cancel h, Finset.sum_range_succ,
    Nat.add_sub_cancel]

/-- The leap years up to a year. -/
def leaps (y : ℕ) : ℤ := (y / 4 : ℕ) - (y / 100 : ℕ) + (y / 400 : ℕ)

theorem leaps_succ (y : ℕ) : leaps (y + 1) = leaps y + if isLeap (y + 1) then 1 else 0 := by
  have hleap := isLeap_iff (y + 1)
  rw [leaps, leaps, Nat.succ_div (b := 4), Nat.succ_div (b := 100), Nat.succ_div (b := 400)]
  simp only [Nat.dvd_iff_mod_eq_zero]
  by_cases h : isLeap (y + 1) = true
  · have hmod := hleap.mp h
    rw [if_pos h]
    split_ifs <;> push_cast <;> omega
  · have hmod := mt hleap.mpr h
    rw [if_neg h]
    split_ifs <;> push_cast <;> omega

theorem beforeYear_eq (h : 1969 ≤ y) : (beforeYear (y + 1) : ℤ) = 365 * y + leaps y - 719162 := by
  induction y, h using Nat.le_induction with
  | base => rfl
  | succ y hy ih =>
    rw [beforeYear_succ (by omega), Nat.cast_add, ih, yearDays, leaps_succ]
    split <;> push_cast <;> ring

/-- The days before a month, from its number counted from March. -/
theorem beforeMonth_eq (h1 : 1 ≤ m) (h2 : m ≤ 12) : (beforeMonth y m : ℤ) =
    (153 * ((m + 9) % 12) + 2) / 5 + if m ≤ 2 then -306 else if isLeap y then 60 else 59 := by
  interval_cases m <;> simp [beforeMonth, Finset.sum_range_succ, daysInMonth] <;> split <;> rfl

/-- The days of whole years, counted in eras. -/
theorem eras_eq (y : ℕ) : (y : ℤ) / 400 * 146097 +
    ((y - y / 400 * 400) * 365 + (y - y / 400 * 400) / 4 - (y - y / 400 * 400) / 100) =
      365 * y + leaps y := by
  rw [leaps]
  push_cast
  omega

/-- The date's year, counted from March. -/
def marchYear (y m : ℕ) : ℕ := if m ≤ 2 then y - 1 else y

theorem DateTime.days_eq_eras (t : DateTime) (h : 1 ≤ t.year) : t.days =
    365 * marchYear t.year t.month + leaps (marchYear t.year t.month) +
      ((153 * ((t.month + 9) % 12) + 2) / 5 + t.day - 1) - 719468 := by
  have hyear : (if (t.month : ℤ) ≤ 2 then (t.year : ℤ) - 1 else t.year) =
      marchYear t.year t.month := by
    rw [marchYear]
    split <;> split <;> omega
  rw [DateTime.days, ← eras_eq]
  simp only [hyear]
  ring

/-- **The formula counts the days.** -/
theorem DateTime.Valid.days_eq (h : t.Valid) : t.days = dayNumber t.year t.month t.day := by
  obtain ⟨hy, -, hm, hm', hd, -⟩ := h
  obtain ⟨y, hyear⟩ := Nat.exists_eq_add_of_le' (show 1 ≤ t.year by omega)
  have hcount := beforeYear_eq (y := y) (by omega)
  have hmonth := beforeMonth_eq (y := t.year) hm hm'
  rw [t.days_eq_eras (by omega), dayNumber, Nat.cast_add, Nat.cast_add, hmonth, Nat.cast_sub hd,
    marchYear, hyear,
    hcount]
  by_cases hwinter : t.month ≤ 2
  · rw [if_pos hwinter, if_pos hwinter, Nat.add_sub_cancel]
    push_cast
    ring
  · rw [if_neg hwinter, if_neg hwinter, leaps_succ]
    split <;> push_cast <;> ring

theorem DateTime.Valid.ofDay_lt (h : t.Valid) : t.ofDay < 86400 := by
  have := h.hour_lt
  have := h.minute_lt
  have := h.second_lt
  rw [DateTime.ofDay]
  omega

theorem beforeMonth_add_lt (h1 : 1 ≤ m) (h2 : m ≤ 12) (hd : d ≤ daysInMonth y m) (hd' : 1 ≤ d) :
    beforeMonth y m + (d - 1) < yearDays y := by
  have hle : beforeMonth y (m + 1) ≤ beforeMonth y 13 := by
    refine Finset.sum_le_sum_of_subset (Finset.range_subset_range.mpr ?_)
    omega
  have hyear : beforeMonth y 13 = yearDays y := by
    simp [beforeMonth, Finset.sum_range_succ, daysInMonth, yearDays]
    split <;> rfl
  have hsucc := beforeMonth_succ (y := y) h1
  omega

theorem beforeYear_mono {y' : ℕ} (h : y ≤ y') : beforeYear y ≤ beforeYear y' :=
  Finset.sum_le_sum_of_subset (Finset.range_subset_range.mpr (by omega))

theorem beforeMonth_mono {m' : ℕ} (h : m ≤ m') : beforeMonth y m ≤ beforeMonth y m' :=
  Finset.sum_le_sum_of_subset (Finset.range_subset_range.mpr (by omega))

section Valid

variable {t u : DateTime}

theorem DateTime.Valid.dayNumber_lt (h : t.Valid) :
    dayNumber t.year t.month t.day < beforeYear (t.year + 1) := by
  have hin := beforeMonth_add_lt h.month_ge h.month_le h.day_le h.day_ge
  rw [beforeYear_succ h.year_ge, dayNumber]
  omega

theorem DateTime.Valid.unix_eq (h : t.Valid) :
    t.unix = dayNumber t.year t.month t.day * 86400 + t.ofDay := by
  have hday := h.dayNumber_lt
  have hmono := beforeYear_mono (show t.year + 1 ≤ 65535 + 1 by have := h.year_lt; omega)
  have hlast := beforeYear_eq (y := 65535) (by norm_num)
  have hleaps : leaps 65535 = 15891 := rfl
  have htime := h.ofDay_lt
  rw [DateTime.unix, h.days_eq]
  rw [DateTime.ofDay] at *
  omega

/-- **Time goes on with the calendar.** -/
theorem DateTime.Valid.unix_lt (ht : t.Valid) (hu : u.Valid) (h : t.Before u) :
    t.unix < u.unix := by
  have htday := ht.ofDay_lt
  have huday := hu.ofDay_lt
  rw [ht.unix_eq, hu.unix_eq]
  have hlater : dayNumber t.year t.month t.day < dayNumber u.year u.month u.day →
      dayNumber t.year t.month t.day * 86400 + t.ofDay < dayNumber u.year u.month u.day * 86400 +
        u.ofDay := by omega
  rcases h with hy | ⟨hy, hm | ⟨hm, hd | ⟨hd, htime⟩⟩⟩
  · refine hlater (ht.dayNumber_lt.trans_le ((beforeYear_mono hy).trans ?_))
    rw [dayNumber]
    omega
  · refine hlater ?_
    have hsucc := beforeMonth_succ (y := t.year) ht.month_ge
    have hmono := beforeMonth_mono (y := t.year) (show t.month + 1 ≤ u.month from hm)
    have hin := ht.day_le
    have hpos := ht.day_ge
    rw [dayNumber, dayNumber, ← hy]
    omega
  · refine hlater ?_
    have hpos := ht.day_ge
    rw [dayNumber, dayNumber, ← hy, ← hm]
    omega
  · have h1 := ht.minute_lt
    have h2 := ht.second_lt
    have h3 := hu.minute_lt
    have h4 := hu.second_lt
    rw [← hy, ← hm, ← hd, DateTime.ofDay, DateTime.ofDay]
    omega

end Valid

/-! ### Back to a date -/

/-- A day of an era: century `c`, four-year group `q` and year `r` of it, and day `doy` of that
year. -/
structure EraDay (c q r doy : ℤ) : Prop where
  c_mem : 0 ≤ c ∧ c < 4
  q_mem : 0 ≤ q ∧ q < 25
  r_mem : 0 ≤ r ∧ r < 4
  doy_mem : 0 ≤ doy ∧ (doy ≤ 364 ∨ doy = 365 ∧ r = 3 ∧ (q < 24 ∨ c = 3))

theorem EraDay.year (h : EraDay c q r doy) {doe : ℤ}
    (hdoe : doe = 36524 * c + 1461 * q + 365 * r + doy) :
    (doe - doe / 1460 + doe / 36524 - doe / 146096) / 365 = 100 * c + 4 * q + r := by
  obtain ⟨hc, hq, hr, hd⟩ := h
  have h1 : doe / 1460 = 25 * c + q + (24 * c + q + 365 * r + doy) / 1460 := by omega
  have h2 : doe / 36524 - doe / 146096 = c := by
    have hcase : 1461 * q + 365 * r + doy < 36524 ∨ 1461 * q + 365 * r + doy = 36524 ∧
        c = 3 := by omega
    rcases hcase with hlt | ⟨hlast, hc3⟩
    · rw [Int.ediv_eq_zero_of_lt (a := doe) (b := 146096) (by omega) (by omega)]
      omega
    · omega
  have h3 : (24 * c + q + 365 * r + doy) / 1460 ≤ doy := by omega
  have h4 : doy - (24 * c + q + 365 * r + doy) / 1460 < 365 := by omega
  generalize (24 * c + q + 365 * r + doy) / 1460 = e at h1 h3 h4
  generalize doe / 36524 = x at h2
  generalize doe / 146096 = w at h2
  rw [h1]
  omega

theorem EraDay.exists {doe : ℤ} (h : 0 ≤ doe ∧ doe < 146097) :
    ∃ c q r doy, EraDay c q r doy ∧ doe = 36524 * c + 1461 * q + 365 * r + doy := by
  obtain ⟨c, d, hcd, hc, hd⟩ : ∃ c d, doe = 36524 * c + d ∧ (0 ≤ c ∧ c < 4) ∧ 0 ≤ d ∧
      (d < 36524 ∨ d = 36524 ∧ c = 3) := by
    by_cases he : doe = 146096
    · exact ⟨3, 36524, by omega, by omega, by omega⟩
    · exact ⟨doe / 36524, doe % 36524, by omega, by omega, by omega⟩
  obtain ⟨q, e, hqe, hq, he⟩ : ∃ q e, d = 1461 * q + e ∧ (0 ≤ q ∧ q < 25) ∧ 0 ≤ e ∧ e < 1461 :=
    ⟨d / 1461, d % 1461, by omega, by omega, by omega⟩
  by_cases hl : e = 1460
  · exact ⟨c, q, 3, 365, ⟨hc, hq, by omega, by omega⟩, by omega⟩
  · exact ⟨c, q, e / 365, e % 365, ⟨hc, hq, by omega, by omega⟩, by omega⟩

theorem EraDay.doe_mem (h : EraDay c q r doy) :
    0 ≤ 36524 * c + 1461 * q + 365 * r + doy ∧ 36524 * c + 1461 * q + 365 * r + doy < 146097 := by
  obtain ⟨hc, hq, hr, hd⟩ := h
  omega

/-- The days before a year of an era, as the shell counts them. -/
theorem EraDay.before (h : EraDay c q r doy) :
    365 * (100 * c + 4 * q + r) + (100 * c + 4 * q + r) / 4 - (100 * c + 4 * q + r) / 100 =
      36524 * c + 1461 * q + 365 * r := by
  obtain ⟨-, hq, hr, -⟩ := h
  have h1 : (100 * c + 4 * q + r) / 4 = 25 * c + q := by omega
  have h2 : (100 * c + 4 * q + r) / 100 = c := by omega
  rw [h1, h2]
  ring

/-- **What the date is**, of day `doy` of a year counted from March. -/
theorem fromUnix_eq {era : ℤ} (h : EraDay c q r doy) {secs : ℕ}
    (hday : (secs / 86400 : ℕ) + (719468 : ℤ) =
      146097 * era + (36524 * c + 1461 * q + 365 * r + doy)) :
    fromUnix secs =
      let mp := (5 * doy + 2) / 153
      let month := (if mp < 10 then mp + 3 else mp - 9).toNat
      { year := 100 * c + 4 * q + r + era * 400 + if month ≤ 2 then 1 else 0
        month := month
        day := (doy - (153 * mp + 2) / 5 + 1).toNat
        hour := secs % 86400 / 3600
        minute := secs % 86400 / 60 % 60
        second := secs % 86400 % 60
        weekday := (secs / 86400 + 4) % 7 } := by
  have hmem := h.doe_mem
  have hyoe := h.year rfl
  have hdoy : 36524 * c + 1461 * q + 365 * r + doy - (36524 * c + 1461 * q + 365 * r) =
      doy := by ring
  have hera : (146097 * era + (36524 * c + 1461 * q + 365 * r + doy)) / 146097 = era := by
    rw [Int.add_comm, Int.add_mul_ediv_left _ _ (by norm_num),
      Int.ediv_eq_zero_of_lt hmem.1 hmem.2, zero_add]
  have hrem : (146097 * era + (36524 * c + 1461 * q + 365 * r + doy)) % 146097 =
      36524 * c + 1461 * q + 365 * r + doy := by
    rw [Int.add_comm, Int.add_mul_emod_self_left, Int.emod_eq_of_lt hmem.1 hmem.2]
  have hweek : (((secs / 86400 : ℕ) + (4 : ℤ)) % 7).toNat = (secs / 86400 + 4) % 7 := by
    generalize secs / 86400 = d
    omega
  obtain ⟨h0, h365⟩ : 0 ≤ doy ∧ doy ≤ 365 := by
    have := h.doy_mem
    omega
  have hmonth : (if (5 * doy + 2) / 153 < 10 then (5 * doy + 2) / 153 + 3
      else (5 * doy + 2) / 153 - 9) % 2 ^ 32 =
      if (5 * doy + 2) / 153 < 10 then (5 * doy + 2) / 153 + 3 else (5 * doy + 2) / 153 - 9 := by
    clear hday hyoe hdoy hera hrem hweek hmem h
    refine Int.emod_eq_of_lt ?_ ?_ <;> split <;> omega
  have hdate : (doy - (153 * ((5 * doy + 2) / 153) + 2) / 5 + 1) % 2 ^ 32 =
      doy - (153 * ((5 * doy + 2) / 153) + 2) / 5 + 1 := by
    clear hday hyoe hdoy hera hrem hweek hmem h hmonth
    refine Int.emod_eq_of_lt ?_ ?_ <;> omega
  simp only [fromUnix, hday, hera, hrem, hyoe, h.before, hdoy, hweek, hmonth, hdate]

/-! ### Round trips -/

theorem decode_valid {raw : Raw} (h : decode raw = some t) : t.Valid := by
  simp only [decode, Option.bind_eq_bind, Option.bind_eq_some_iff] at h
  obtain ⟨hour, -, century, -, year, -, month, -, day, -, minute, -, second, -, h⟩ := h
  split at h
  case isTrue hvalid =>
    obtain rfl := Option.some.inj h
    obtain ⟨h1, h2, h3, h4, h5⟩ := of_decide_eq_true hvalid
    refine ⟨h1, ?_, h2.1, h2.2, h3.1, h3.2, h4, h5.1, h5.2⟩
    have := century.isLt
    have := year.isLt
    show century.toNat * 100 + year.toNat < 2 ^ 16
    omega
  case isFalse => cases h

theorem leaps_eq {e c q r : ℕ} (hc : c < 4) (hq : q < 25) (hr : r < 4) :
    leaps (400 * e + 100 * c + 4 * q + r) = 97 * e + 24 * c + q := by
  have h1 : (400 * e + 100 * c + 4 * q + r) / 4 = 100 * e + 25 * c + q := by omega
  have h2 : (400 * e + 100 * c + 4 * q + r) / 100 = 4 * e + c := by omega
  have h3 : (400 * e + 100 * c + 4 * q + r) / 400 = e := by omega
  rw [leaps, h1, h2, h3]
  push_cast
  ring

/-- A day of the year from March gives its month back. -/
theorem march_month (h1 : 1 ≤ m) (h2 : m ≤ 12) (hd : 1 ≤ d) (hd' : d ≤ daysInMonth y m) :
    (5 * ((153 * ((m + 9) % 12) + 2) / 5 + (d : ℤ) - 1) + 2) / 153 = ((m : ℤ) + 9) % 12 := by
  have hfeb : d ≤ if m = 2 then 29 else if m = 4 ∨ m = 6 ∨ m = 9 ∨ m = 11 then 30 else 31 := by
    refine hd'.trans ?_
    rw [daysInMonth]
    split_ifs <;> omega
  interval_cases m <;> norm_num at hfeb ⊢ <;> omega

theorem march_month_back (h1 : 1 ≤ m) (h2 : m ≤ 12) :
    (if ((m : ℤ) + 9) % 12 < 10 then ((m : ℤ) + 9) % 12 + 3
      else ((m : ℤ) + 9) % 12 - 9).toNat = m := by
  interval_cases m <;> rfl

/-- A day after the 364th of a year from March is a 29th of February. -/
theorem march_day (h1 : 1 ≤ m) (h2 : m ≤ 12) (hd : 1 ≤ d) (hd' : d ≤ daysInMonth y m) :
    (153 * (((m : ℤ) + 9) % 12) + 2) / 5 + d - 1 ≤ 364 ∨
      (153 * (((m : ℤ) + 9) % 12) + 2) / 5 + d - 1 = 365 ∧ m = 2 ∧ isLeap y = true := by
  rw [daysInMonth] at hd'
  by_cases hfeb : m = 2
  · subst hfeb
    rw [if_pos rfl] at hd'
    by_cases hleap : isLeap y = true
    · rw [if_pos hleap] at hd'
      norm_num [hleap]
      omega
    · rw [if_neg hleap] at hd'
      norm_num
      omega
  · rw [if_neg hfeb] at hd'
    left
    interval_cases m <;> first | exact absurd rfl hfeb | (norm_num at hd' ⊢; omega)

section Valid

variable {t : DateTime}

theorem DateTime.Valid.eraDay (h : t.Valid) : ∃ e c q r : ℕ,
    EraDay c q r ((153 * ((t.month + 9) % 12) + 2) / 5 + t.day - 1) ∧
      marchYear t.year t.month = 400 * e + 100 * c + 4 * q + r ∧
      (dayNumber t.year t.month t.day : ℤ) + 719468 = 146097 * e +
        (36524 * c + 1461 * q + 365 * r + ((153 * ((t.month + 9) % 12) + 2) / 5 + t.day - 1)) := by
  obtain ⟨y, hy⟩ : ∃ y, y = marchYear t.year t.month := ⟨_, rfl⟩
  obtain ⟨e, c, q, r, hyear, hc, hq, hr⟩ : ∃ e c q r, y = 400 * e + 100 * c + 4 * q + r ∧ c < 4 ∧
      q < 25 ∧ r < 4 :=
    ⟨y / 400, y % 400 / 100, y % 100 / 4, y % 4, by omega, by omega, by omega, by omega⟩
  have hdays := t.days_eq_eras (by have := h.year_ge; omega)
  have hday := march_day h.month_ge h.month_le h.day_ge h.day_le
  have hmonth := h.month_ge
  have hpos := h.day_ge
  refine ⟨e, c, q, r, ⟨by omega, by omega, by omega, by omega, ?_⟩, by omega, ?_⟩
  · refine hday.imp_right fun ⟨hlast, hfeb, hleap⟩ => ⟨hlast, ?_⟩
    have hmod := (isLeap_iff t.year).mp hleap
    have hyear' : t.year = y + 1 := by
      have := h.year_ge
      rw [hy, marchYear, if_pos (by omega)]
      omega
    clear hdays hday hlast hleap
    omega
  · rw [← h.days_eq, hdays, ← hy, hyear, leaps_eq hc hq hr]
    push_cast
    ring

/-- The date the shell should give: 1970-01-01 was a Thursday. -/
def DateTime.civil (t : DateTime) : Civil where
  year := t.year
  month := t.month
  day := t.day
  hour := t.hour
  minute := t.minute
  second := t.second
  weekday := (dayNumber t.year t.month t.day + 4) % 7

/-- **The shell gives the clock's date back.** -/
theorem DateTime.Valid.fromUnix_unix (h : t.Valid) : fromUnix t.unix = t.civil := by
  obtain ⟨e, c, q, r, hera, hyear, hday⟩ := h.eraDay
  have htime := h.ofDay_lt
  have hdays : t.unix / 86400 = dayNumber t.year t.month t.day := by
    rw [h.unix_eq]
    omega
  have hsecs : t.unix % 86400 = t.ofDay := by
    rw [h.unix_eq]
    omega
  have hclock : t.ofDay / 3600 = t.hour ∧ t.ofDay / 60 % 60 = t.minute ∧
      t.ofDay % 60 = t.second := by
    have := h.minute_lt
    have := h.second_lt
    rw [DateTime.ofDay]
    omega
  have hyear' : 100 * (c : ℤ) + 4 * q + r + e * 400 + (if t.month ≤ 2 then 1 else 0) = t.year := by
    have := h.year_ge
    rw [marchYear] at hyear
    split_ifs at hyear ⊢ <;> omega
  have hdate : ((153 * (((t.month : ℤ) + 9) % 12) + 2) / 5 + (t.day : ℤ) - 1 -
      (153 * (((t.month : ℤ) + 9) % 12) + 2) / 5 + 1).toNat = t.day := by
    generalize (153 * (((t.month : ℤ) + 9) % 12) + 2) / 5 = x
    omega
  rw [fromUnix_eq hera (by rw [hdays]; exact hday),
    march_month h.month_ge h.month_le h.day_ge h.day_le, hdays, hsecs]
  simp only [march_month_back h.month_ge h.month_le, hyear', hdate, hclock, DateTime.civil]

end Valid

/-- A month counted from March and a day of it. -/
theorem exists_month (h : 0 ≤ doy ∧ doy ≤ 365) : ∃ m d : ℕ, (1 ≤ m ∧ m ≤ 12) ∧
    doy = (153 * (((m : ℤ) + 9) % 12) + 2) / 5 + d - 1 ∧ 1 ≤ d ∧
      d ≤ (if m = 2 then 29 else if m = 4 ∨ m = 6 ∨ m = 9 ∨ m = 11 then 30 else 31) ∧
      (m ≤ 2 ↔ 306 ≤ doy) ∧ (m = 2 → d = 29 → doy = 365) := by
  have hmp : ∃ mp : ℕ, mp < 12 ∧ (5 * doy + 2) / 153 = mp :=
    ⟨((5 * doy + 2) / 153).toNat, by omega, by omega⟩
  obtain ⟨mp, hlt, hmp⟩ := hmp
  refine ⟨if mp < 10 then mp + 3 else mp - 9, (doy - (153 * mp + 2) / 5 + 1).toNat, ?_⟩
  interval_cases mp <;> norm_num at hmp ⊢ <;> omega

theorem exists_eraDay {z : ℕ} : ∃ e c q r : ℕ, ∃ doy : ℤ, EraDay c q r doy ∧
    (z : ℤ) = 146097 * e + (36524 * c + 1461 * q + 365 * r + doy) := by
  obtain ⟨c, q, r, doy, hera, hdoe⟩ :=
    EraDay.exists (show 0 ≤ (z : ℤ) % 146097 ∧ (z : ℤ) % 146097 < 146097 by omega)
  obtain ⟨hc, hq, hr, -⟩ := id hera
  lift c to ℕ using hc.1
  lift q to ℕ using hq.1
  lift r to ℕ using hr.1
  refine ⟨z / 146097, c, q, r, doy, hera, ?_⟩
  rw [← hdoe]
  omega

/-- **Every second up to the year 9999 is one of a date.** -/
theorem exists_unix_eq {secs : ℕ} (h : secs / 86400 < beforeYear 10000) :
    ∃ t : DateTime, t.Valid ∧ t.unix = secs := by
  have hlast : beforeYear 10000 = 2932897 := by
    have hcount := beforeYear_eq (y := 9999) (by norm_num)
    have hleaps : leaps 9999 = 2424 := rfl
    rw [show 10000 = 9999 + 1 from rfl]
    omega
  have htime : secs % 86400 / 3600 < 24 ∧ secs % 86400 / 60 % 60 < 60 ∧
      secs % 86400 % 60 < 60 := by omega
  rw [hlast] at h
  obtain ⟨n, hn⟩ : ∃ n, n = secs / 86400 := ⟨_, rfl⟩
  rw [← hn] at h
  obtain ⟨e, c, q, r, doy, hera, hz⟩ := exists_eraDay (z := n + 719468)
  obtain ⟨hc, hq, hr, hdoy⟩ := id hera
  obtain ⟨m, d, hm, hmd, hd, hd', hwinter, hleapday⟩ :=
    exists_month (show 0 ≤ doy ∧ doy ≤ 365 by omega)
  obtain ⟨y, hy⟩ : ∃ y, y = 400 * e + 100 * c + 4 * q + r := ⟨_, rfl⟩
  obtain ⟨t, ht⟩ : ∃ t : DateTime,
      t = ⟨y + if m ≤ 2 then 1 else 0, m, d, secs % 86400 / 3600, secs % 86400 / 60 % 60,
    secs % 86400 % 60⟩ := ⟨_, rfl⟩
  have hmarch : marchYear t.year t.month = y := by
    rw [ht, marchYear]
    split <;> rfl
  -- 1970-01-01 is day 306 of year 369 of era 4
  have hlow : 1970 ≤ y + if m ≤ 2 then 1 else 0 := by
    clear ht hmarch hn hleapday hd' hmd hm htime
    obtain he | he | he : e ≤ 3 ∨ e = 4 ∨ 5 ≤ e := by omega
    · omega
    · obtain hcent | hcent : c ≤ 2 ∨ c = 3 := by omega
      · omega
      · split_ifs with hle
        · omega
        · have hlate := mt hwinter.mpr hle
          omega
    · omega
  have hhigh : y < 10000 := by
    clear ht hmarch hn hleapday hd' hmd hm hwinter htime
    omega
  have hday : d ≤ daysInMonth (y + if m ≤ 2 then 1 else 0) m := by
    by_cases hfeb : m = 2
    · rw [if_pos hfeb] at hd'
      by_cases h29 : d = 29
      · have hlast := hleapday hfeb h29
        have hleap : isLeap (y + 1) = true := by
          rw [isLeap_iff]
          clear ht hmarch hz
          omega
        rw [hfeb, h29, if_pos (le_refl 2), daysInMonth, if_pos rfl, if_pos hleap]
      · generalize (y + if m ≤ 2 then 1 else 0) = year
        rw [daysInMonth, if_pos hfeb]
        split <;> omega
    · rw [if_neg hfeb] at hd'
      rwa [daysInMonth, if_neg hfeb]
  have hvalid : t.Valid := by
    rw [ht]
    refine ⟨hlow, ?_, hm.1, hm.2, hd, hday, htime.1, htime.2.1, htime.2.2⟩
    show y + (if m ≤ 2 then 1 else 0) < 2 ^ 16
    split <;> omega
  refine ⟨t, hvalid, ?_⟩
  have hdays := t.days_eq_eras (by have := hvalid.year_ge; omega)
  rw [hmarch, hy, leaps_eq (by omega) (by omega) (by omega), hvalid.days_eq] at hdays
  have hnumber : dayNumber t.year t.month t.day = n := by
    have hdoy' : (153 * (((t.month : ℤ) + 9) % 12) + 2) / 5 + t.day - 1 = doy := by rw [ht, hmd]
    rw [hdoy'] at hdays
    push_cast at hdays hz
    omega
  rw [hvalid.unix_eq, hnumber, DateTime.ofDay, ht, hn]
  show secs / 86400 * 86400 +
      (secs % 86400 / 3600 * 3600 + secs % 86400 / 60 % 60 * 60 + secs % 86400 % 60) = secs
  omega

/-- **The two conversions are inverse**: the shell gives every date of the clock back, with its
weekday; time goes on with the calendar; and every second up to the year 9999 is a date's, the one
the shell gives. -/
theorem conversions_inverse :
    (∀ raw t, decode raw = some t → t.Valid) ∧
      (∀ t : DateTime, t.Valid → fromUnix t.unix = t.civil) ∧
      (∀ t u : DateTime, t.Valid → u.Valid → t.Before u → t.unix < u.unix) ∧
      ∀ secs, secs / 86400 < beforeYear 10000 →
        ∃ t : DateTime, t.Valid ∧ t.unix = secs ∧ fromUnix secs = t.civil := by
  refine ⟨fun _ _ => decode_valid, fun _ ht => ht.fromUnix_unix, fun _ _ ht hu => ht.unix_lt hu,
    fun secs h => ?_⟩
  obtain ⟨t, ht, hunix⟩ := exists_unix_eq h
  refine ⟨t, ht, hunix, ?_⟩
  rw [← hunix]
  exact ht.fromUnix_unix

/-- The last second of a leap day. -/
theorem conversions_inverse_leap_day :
    fromUnix 1709251199 = (DateTime.mk 2024 2 29 23 59 59).civil :=
  conversions_inverse.2.1 ⟨2024, 2, 29, 23, 59, 59⟩
    ⟨by decide, by decide, by decide, by decide, by decide, by decide,
    by decide, by decide, by decide⟩

end RelayOs.Calendar
