import OpeningHours.Calendar.Date
import OpeningHours.Point.Basic

/-!
# Instants

What can be asked whether the hours are open at it: a date with a time, a date, a time of day,
or a point of some cycle. Each kind has values on some scales (`read?`); a value read is always
in the domain of its scale (`contains_of_read?`). An instant is projected on a cycle by reading
the cycle's scales, and the finest scale that it lacks is the fault.
-/

namespace OpeningHours

inductive Instant where
  | dateTime (t : DateTime)
  | date (d : Date)
  | clock (t : Clock)
  | point {c : Cycle} (p : Point c)

/-- The microseconds since midnight that the digits finer than a day say. -/
def Digits.timeOfDay : Digits → Int
  | [] => 0
  | (s, v) :: rest =>
    if s.step.duration < TimeUnit.days.duration then
      (v - s.minimum) * s.step.duration + Digits.timeOfDay rest
    else Digits.timeOfDay rest

namespace Instant

private def readDate? (d : Date) : Scale → Option Int
  | .dayOfWeek => some d.weekday
  | .dayOfMonth => some d.day
  | .monthOfYear => some d.month
  | _ => none

private def readClock? (t : Clock) : Scale → Option Int
  | .minuteOfHour => some t.minute
  | .hourOfDay => some t.hour
  | _ => none

/-- The value on a scale, if the instant has one there. -/
def read? : Instant → Scale → Option Int
  | dateTime t, s => (readClock? t.clock s).or (readDate? t.date s)
  | date d, s => readDate? d s
  | clock t, s => readClock? t s
  | point p, s => p.digit? s

private theorem contains_of_readDate? {d : Date} {s : Scale} {v : Int}
    (h : readDate? d s = some v) : s.contains v = true := by
  have hw := d.weekday_mem
  have hd := d.day_le
  have hd' := d.day_mem
  have hm := d.month_mem
  rw [Scale.contains_iff]
  cases s <;> simp only [readDate?, Option.some.injEq, reduceCtorEq] at h <;> subst h <;>
    simp only [Scale.minimum, Scale.maximum] <;> omega

private theorem contains_of_readClock? {t : Clock} {s : Scale} {v : Int}
    (h : readClock? t s = some v) : s.contains v = true := by
  have hm := t.minute_lt
  have hh := t.hour_lt
  rw [Scale.contains_iff]
  cases s <;> simp only [readClock?, Option.some.injEq, reduceCtorEq] at h <;> subst h <;>
    simp only [Scale.minimum, Scale.maximum] <;> omega

theorem contains_of_read? {i : Instant} {s : Scale} {v : Int} (h : i.read? s = some v) :
    s.contains v = true := by
  cases i with
  | dateTime t =>
    rcases Option.or_eq_some_iff.1 h with h | ⟨_, h⟩
    · exact contains_of_readClock? h
    · exact contains_of_readDate? h
  | date d => exact contains_of_readDate? h
  | clock t => exact contains_of_readClock? h
  | point p => exact Point.contains_of_digit? h

/-- The value on a scale that the instant must have. -/
def read (i : Instant) (s : Scale) : Except Fault Int :=
  match i.read? s with
  | some v => .ok v
  | none => .error (.lacks s)

theorem contains_of_read {i : Instant} {s : Scale} {v : Int} (h : i.read s = .ok v) :
    s.contains v = true := by
  unfold read at h
  split at h
  · cases h
    exact contains_of_read? ‹_›
  · cases h

/-- The values on several scales, each with its scale. -/
def digits (i : Instant) : List Scale → Except Fault Digits
  | [] => .ok []
  | s :: rest => do
    let v ← i.read s
    return (s, v) :: (← i.digits rest)

theorem digits_cons_eq_ok {i : Instant} {s : Scale} {rest : List Scale} {ds : Digits}
    (h : i.digits (s :: rest) = .ok ds) :
    ∃ v ds', i.read s = .ok v ∧ i.digits rest = .ok ds' ∧ ds = (s, v) :: ds' := by
  simp only [digits, bind, Except.bind] at h
  split at h
  · cases h
  · split at h
    · cases h
    · cases h
      exact ⟨_, _, ‹_›, ‹_›, rfl⟩

theorem map_fst_of_digits {i : Instant} {ss : List Scale} {ds : Digits}
    (h : i.digits ss = .ok ds) : ds.map Prod.fst = ss := by
  induction ss generalizing ds with
  | nil => cases h; rfl
  | cons s rest ih =>
    obtain ⟨v, ds', _, h', rfl⟩ := digits_cons_eq_ok h
    simp [ih h']

theorem contains_of_digits {i : Instant} {ss : List Scale} {ds : Digits}
    (h : i.digits ss = .ok ds) : ∀ d ∈ ds, d.1.contains d.2 = true := by
  induction ss generalizing ds with
  | nil => cases h; simp
  | cons s rest ih =>
    obtain ⟨v, ds', hv, h', rfl⟩ := digits_cons_eq_ok h
    intro d hd
    rcases List.mem_cons.1 hd with rfl | hd
    · exact contains_of_read hv
    · exact ih h' d hd

/-- The point of the cycle that the instant falls on. -/
def project (i : Instant) (c : Cycle) : Except Fault (Point c) :=
  match h : i.digits c.scales with
  | .ok ds => .ok ⟨ds, map_fst_of_digits h, contains_of_digits h⟩
  | .error f => .error f

/-- The shortest unit that the instant can tell apart. -/
def precision : Instant → TimeUnit
  | dateTime _ | clock _ => .micros
  | date _ => .days
  | point (c := c) _ => c.precision

/-- The microseconds since midnight: nothing for a date, and for a point what its digits say. -/
def timeOfDay : Instant → Int
  | dateTime t => t.clock.micros
  | date _ => 0
  | clock t => t.micros
  | point p => p.digits.timeOfDay

/-- The part of the instant below a unit, nothing if the instant cannot tell it. -/
def remainderBelow (i : Instant) (u : TimeUnit) : Int :=
  if u.duration ≤ i.precision.duration then 0
  else i.timeOfDay % min u.duration TimeUnit.days.duration

end Instant

end OpeningHours
