import OpeningHours.Calendar.TimeUnit

/-!
# Scales

A scale is a dial that time goes round on: the minute of the hour, the hour of the day, the
day of the week or of the month, the month of the year. One step of the hand takes the unit
`step`, one round the unit `round`. Scale `t` is next to `s` when a step of `t` takes a round
of `s`. The days of the month are the one irregular scale: its rounds differ in length, so no
cyclic point has a digit on it.
-/

namespace OpeningHours

inductive Scale where
  | minuteOfHour | hourOfDay | dayOfWeek | dayOfMonth | monthOfYear
  deriving DecidableEq, Repr

namespace Scale

/-- The scales by rank, the finest first. -/
def all : List Scale :=
  [minuteOfHour, hourOfDay, dayOfWeek, dayOfMonth, monthOfYear]

theorem mem_all (s : Scale) : s ∈ all := by
  cases s <;> decide

def rank : Scale → Nat
  | minuteOfHour => 0
  | hourOfDay => 1
  | dayOfWeek => 2
  | dayOfMonth => 3
  | monthOfYear => 4

theorem rank_inj {s t : Scale} (h : s.rank = t.rank) : s = t := by
  cases s <;> cases t <;> first | rfl | cases h

def name : Scale → String
  | minuteOfHour => "minute_of_hour"
  | hourOfDay => "hour_of_day"
  | dayOfWeek => "day_of_week"
  | dayOfMonth => "day_of_month"
  | monthOfYear => "month_of_year"

def ofName? (n : String) : Option Scale :=
  all.find? fun s => s.name == n

theorem ofName?_name (s : Scale) : ofName? s.name = some s := by
  cases s <;> decide

theorem ofName?_eq_some_iff {n : String} {s : Scale} : ofName? n = some s ↔ s.name = n := by
  constructor
  · intro h
    rw [ofName?] at h
    simpa using List.find?_some h
  · intro h
    rw [← h, ofName?_name]

theorem name_inj {s t : Scale} (h : s.name = t.name) : s = t := by
  have hs := ofName?_name s
  rw [h, ofName?_name, Option.some.injEq] at hs
  exact hs.symm

/-- The least value. -/
def minimum : Scale → Int
  | minuteOfHour | hourOfDay => 0
  | dayOfWeek | dayOfMonth | monthOfYear => 1

/-- The greatest value, in the longest round. -/
def maximum : Scale → Int
  | minuteOfHour => 59
  | hourOfDay => 23
  | dayOfWeek => 7
  | dayOfMonth => 31
  | monthOfYear => 12

/-- The number of values. -/
def size (s : Scale) : Int :=
  s.maximum - s.minimum + 1

theorem size_pos (s : Scale) : 0 < s.size := by
  cases s <;> decide

/-- The unit that one step takes. -/
def step : Scale → TimeUnit
  | minuteOfHour => .minutes
  | hourOfDay => .hours
  | dayOfWeek | dayOfMonth => .days
  | monthOfYear => .months

/-- The unit that one round takes. -/
def round : Scale → TimeUnit
  | minuteOfHour => .hours
  | hourOfDay => .days
  | dayOfWeek => .weeks
  | dayOfMonth => .months
  | monthOfYear => .years

/-- Whether every round has all the values. -/
def regular (s : Scale) : Bool :=
  s != dayOfMonth

/-- Whether `t` is the next coarser scale: a step of it takes a round of `s`. -/
def precedes (s t : Scale) : Bool :=
  t.step == s.round

def contains (s : Scale) (v : Int) : Bool :=
  decide (s.minimum ≤ v) && decide (v ≤ s.maximum)

theorem contains_iff {s : Scale} {v : Int} :
    s.contains v = true ↔ s.minimum ≤ v ∧ v ≤ s.maximum := by
  simp [contains]

theorem contains_minimum (s : Scale) : s.contains s.minimum = true := by
  cases s <;> decide

theorem contains_add_emod (s : Scale) (n : Int) : s.contains (s.minimum + n % s.size) = true := by
  have h1 := Int.emod_nonneg n (Int.ne_of_gt s.size_pos)
  have h2 := Int.emod_lt_of_pos n s.size_pos
  have h3 : s.size = s.maximum - s.minimum + 1 := rfl
  exact contains_iff.2 ⟨by omega, by omega⟩

/-- The values in ascending order. -/
def domain (s : Scale) : List Int :=
  (List.range s.size.toNat).map fun (i : Nat) => s.minimum + i

theorem mem_domain_iff {s : Scale} {v : Int} : v ∈ s.domain ↔ s.contains v = true := by
  have h : s.size = s.maximum - s.minimum + 1 := rfl
  rw [contains_iff]
  simp only [domain, List.mem_map, List.mem_range]
  constructor
  · rintro ⟨i, hi, rfl⟩
    omega
  · intro hv
    exact ⟨(v - s.minimum).toNat, by omega, by omega⟩

end Scale

end OpeningHours
