import OpeningHours.Proofs.Calendar.Timeline
import OpeningHours.Proofs.Instant.Projection

/-!
# Moments

A date with a time has a value on each scale (`value`). So it falls on one point of every cycle,
the one with its values (`exists_project`, `project_eq_ok_iff`). What it says below the step of a
scale is a part of its time of day, and so nothing of its date, not even below a month
(`remainderBelow_step`).
-/

namespace OpeningHours

namespace DateTime

/-- The value of a moment on each scale. -/
def value (t : DateTime) : Scale → Int
  | .minuteOfHour => t.clock.minute
  | .hourOfDay => t.clock.hour
  | .dayOfWeek => t.date.weekday
  | .dayOfMonth => t.date.day
  | .monthOfYear => t.date.month

theorem read?_value (t : DateTime) (s : Scale) :
    (Instant.dateTime t).read? s = some (t.value s) := by
  cases s <;> rfl

theorem contains_value (t : DateTime) (s : Scale) : s.contains (t.value s) = true :=
  Instant.contains_of_read? (t.read?_value s)

/-- A moment falls on a point of every cycle. -/
theorem exists_project (t : DateTime) (c : Cycle) : ∃ q, (Instant.dateTime t).project c = .ok q :=
  Instant.exists_project fun s _ => t.read?_value s ▸ rfl

theorem project_eq_ok_iff {t : DateTime} {c : Cycle} {p : Point c} :
    (Instant.dateTime t).project c = .ok p ↔ ∀ d ∈ p.digits, t.value d.1 = d.2 := by
  rw [Instant.project_eq_ok_iff]
  simp only [read?_value, Option.some.injEq]

theorem remainderBelow_step (t : DateTime) (s : Scale) :
    (Instant.dateTime t).remainderBelow s.step = t.clock.micros % s.step.duration := by
  have hprecision : ¬ s.step.duration ≤ (Instant.dateTime t).precision.duration := by
    show ¬ s.step.duration ≤ TimeUnit.micros.duration
    cases s <;> decide
  have hmicros := t.clock.micros_mem
  rw [Instant.remainderBelow, if_neg hprecision]
  cases s with
  | minuteOfHour | hourOfDay | dayOfWeek | dayOfMonth => rfl
  | monthOfYear =>
    show t.clock.micros % 86400000000 = t.clock.micros % 2629746000000
    omega

end DateTime

end OpeningHours
