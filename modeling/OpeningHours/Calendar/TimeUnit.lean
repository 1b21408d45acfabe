/-!
# Units of time

Durations are whole microseconds, of either sign. A month and a year have the mean length of
the Gregorian calendar, 365.2425 days to the year. `count` says how many whole units a
duration holds, rounding toward zero, so that it is odd: `count_neg`.
-/

namespace OpeningHours

inductive TimeUnit where
  | micros | millis | seconds | minutes | hours | days | weeks | months | years
  deriving DecidableEq, Repr

namespace TimeUnit

/-- The units from the shortest to the longest. -/
def all : List TimeUnit :=
  [micros, millis, seconds, minutes, hours, days, weeks, months, years]

theorem mem_all (u : TimeUnit) : u ∈ all := by
  cases u <;> decide

def name : TimeUnit → String
  | micros => "micros"
  | millis => "millis"
  | seconds => "seconds"
  | minutes => "minutes"
  | hours => "hours"
  | days => "days"
  | weeks => "weeks"
  | months => "months"
  | years => "years"

def ofName? (s : String) : Option TimeUnit :=
  all.find? fun u => u.name == s

theorem ofName?_name (u : TimeUnit) : ofName? u.name = some u := by
  cases u <;> decide

theorem ofName?_eq_some_iff {n : String} {u : TimeUnit} : ofName? n = some u ↔ u.name = n := by
  constructor
  · intro h
    rw [ofName?] at h
    simpa using List.find?_some h
  · intro h
    rw [← h, ofName?_name]

theorem name_inj {u w : TimeUnit} (h : u.name = w.name) : u = w := by
  have hu := ofName?_name u
  rw [h, ofName?_name, Option.some.injEq] at hu
  exact hu.symm

/-- The microseconds of one unit. -/
def duration : TimeUnit → Int
  | micros => 1
  | millis => 1000
  | seconds => 1000000
  | minutes => 60 * 1000000
  | hours => 3600 * 1000000
  | days => 86400 * 1000000
  | weeks => 7 * 86400 * 1000000
  | months => 2629746 * 1000000
  | years => 31556952 * 1000000

theorem duration_pos (u : TimeUnit) : 0 < u.duration := by
  cases u <;> decide

/-- The whole units in a duration, toward zero. -/
def count (u : TimeUnit) (micros : Int) : Int :=
  micros.tdiv u.duration

theorem count_neg (u : TimeUnit) (d : Int) : u.count (-d) = -u.count d :=
  Int.neg_tdiv d u.duration

theorem count_of_nonneg (u : TimeUnit) {d : Int} (h : 0 ≤ d) : u.count d = d / u.duration :=
  Int.tdiv_eq_ediv_of_nonneg h

end TimeUnit

end OpeningHours
