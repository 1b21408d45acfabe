/-!
# Dates and clock times

Dates of the Gregorian calendar, extended backwards to the year 1 and forwards to the year
9999, and clock times to the microsecond; there are no time zones and no leap seconds. Days
are numbered from 1, for the first day of the year 1, which was a Monday.
-/

namespace OpeningHours

def isLeapYear (y : Nat) : Bool :=
  y % 4 == 0 && (y % 100 != 0 || y % 400 == 0)

def daysInMonth (y m : Nat) : Nat :=
  if m = 2 then (if isLeapYear y then 29 else 28)
  else if m = 4 ∨ m = 6 ∨ m = 9 ∨ m = 11 then 30
  else 31

theorem daysInMonth_le (y m : Nat) : daysInMonth y m ≤ 31 := by
  unfold daysInMonth
  split
  · split <;> omega
  · split <;> omega

theorem one_le_daysInMonth (y m : Nat) : 1 ≤ daysInMonth y m := by
  unfold daysInMonth
  split
  · split <;> omega
  · split <;> omega

structure Date where
  year : Nat
  month : Nat
  day : Nat
  year_mem : 1 ≤ year ∧ year ≤ 9999
  month_mem : 1 ≤ month ∧ month ≤ 12
  day_mem : 1 ≤ day ∧ day ≤ daysInMonth year month
  deriving DecidableEq

namespace Date

def ofYMD? (y m d : Nat) : Option Date :=
  if h : (1 ≤ y ∧ y ≤ 9999) ∧ (1 ≤ m ∧ m ≤ 12) ∧ 1 ≤ d ∧ d ≤ daysInMonth y m then
    some ⟨y, m, d, h.1, h.2.1, h.2.2⟩
  else none

/-- The days of the years before year `y`. -/
def daysBeforeYear (y : Nat) : Nat :=
  365 * (y - 1) + (y - 1) / 4 - (y - 1) / 100 + (y - 1) / 400

/-- The days of year `y` before month `m`. -/
def daysBeforeMonth (y : Nat) : Nat → Nat
  | 0 | 1 => 0
  | m + 2 => daysBeforeMonth y (m + 1) + daysInMonth y (m + 1)

/-- The number of the day, counted from 1. -/
def dayNumber (d : Date) : Nat :=
  daysBeforeYear d.year + daysBeforeMonth d.year d.month + d.day

/-- The day of the week, 1 for Monday to 7 for Sunday. -/
def weekday (d : Date) : Nat :=
  (d.dayNumber + 6) % 7 + 1

theorem weekday_mem (d : Date) : 1 ≤ d.weekday ∧ d.weekday ≤ 7 := by
  unfold weekday
  omega

theorem day_le (d : Date) : d.day ≤ 31 :=
  Nat.le_trans d.day_mem.2 (daysInMonth_le _ _)

/-- The day after, unless the calendar ends. -/
def next? (d : Date) : Option Date :=
  if h : d.day < daysInMonth d.year d.month then
    some { d with day := d.day + 1, day_mem := ⟨by omega, h⟩ }
  else if h : d.month < 12 then
    some { d with
      month := d.month + 1, day := 1
      month_mem := ⟨by omega, h⟩, day_mem := ⟨by omega, one_le_daysInMonth _ _⟩ }
  else if h : d.year < 9999 then
    some ⟨d.year + 1, 1, 1, ⟨by omega, h⟩, by omega, ⟨by omega, one_le_daysInMonth _ _⟩⟩
  else none

end Date

/-- A time of day. -/
structure Clock where
  hour : Nat
  minute : Nat
  second : Nat
  micro : Nat
  hour_lt : hour < 24
  minute_lt : minute < 60
  second_lt : second < 60
  micro_lt : micro < 1000000
  deriving DecidableEq

namespace Clock

def ofHMS? (h m s us : Nat) : Option Clock :=
  if hb : h < 24 ∧ m < 60 ∧ s < 60 ∧ us < 1000000 then
    some ⟨h, m, s, us, hb.1, hb.2.1, hb.2.2.1, hb.2.2.2⟩
  else none

/-- The seconds since midnight, without the fraction. -/
def seconds (t : Clock) : Nat :=
  t.hour * 3600 + t.minute * 60 + t.second

/-- The microseconds since midnight. -/
def micros (t : Clock) : Int :=
  (t.seconds * 1000000 + t.micro : Nat)

end Clock

structure DateTime where
  date : Date
  clock : Clock
  deriving DecidableEq

end OpeningHours
