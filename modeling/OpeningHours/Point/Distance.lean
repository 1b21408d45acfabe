import OpeningHours.Instant
import OpeningHours.Point.Carry

/-!
# Distance and order

The distance between two points of a cycle is signed: both are taken in the same round. The
wait `since` is the way forward to the next time that the point comes round, and so it is never
negative. Points are ordered by the sign of their distance. Other instants are projected on the
cycle first; only the duration and the wait see the part of them below the point's precision.
-/

namespace OpeningHours

namespace Digits

/-- The duration from the values of one list to those of another on the same scales. -/
def durationTo : Digits → Digits → Int
  | (s, v) :: ds, (_, w) :: es => (w - v) * s.step.duration + durationTo ds es
  | _, _ => 0

end Digits

namespace Point

variable {c : Cycle}

/-- The signed duration to another point of the cycle. -/
def durationTo (p q : Point c) : Int :=
  p.digits.durationTo q.digits

/-- The signed duration to an instant, to the microsecond if the instant has them. -/
def durationUntil (p : Point c) (i : Instant) : Except Fault Int := do
  let q ← i.project c
  return p.durationTo q + i.remainderBelow c.precision

/-- The signed distance to an instant in whole units. -/
def unitsUntil (p : Point c) (i : Instant) (u : TimeUnit) : Except Fault Int := do
  let q ← i.project c
  return u.count (p.durationTo q)

/-- The duration of the way forward, given the signed one. -/
def forward (c : Cycle) (d : Int) : Int :=
  if d < 0 then d + c.round.duration else d

/-- The whole units from an instant to the next time that the point comes round. -/
def since (p : Point c) (i : Instant) (u : TimeUnit) : Except Fault Int := do
  let d ← p.durationUntil i
  return u.count (forward c (-d))

/-- The order of two points in one round. -/
def compare (p q : Point c) : Ordering :=
  Ord.compare (0 : Int) (c.precision.count (p.durationTo q))

/-- The order of the point and an instant's projection. -/
def compareTo (p : Point c) (i : Instant) : Except Fault Ordering := do
  let q ← i.project c
  return p.compare q

instance : LE (Point c) := ⟨fun p q => (p.compare q).isLE⟩
instance : LT (Point c) := ⟨fun p q => (p.compare q).isLT⟩

instance (p q : Point c) : Decidable (p ≤ q) := inferInstanceAs (Decidable (_ = true))
instance (p q : Point c) : Decidable (p < q) := inferInstanceAs (Decidable (_ = true))

theorem le_def {p q : Point c} : p ≤ q ↔ (p.compare q).isLE = true := Iff.rfl
theorem lt_def {p q : Point c} : p < q ↔ (p.compare q).isLT = true := Iff.rfl

/-- The later of two points. -/
def later (p q : Point c) : Point c :=
  if p < q then q else p

end Point

end OpeningHours
