import OpeningHours.Cron.Basic
import OpeningHours.Point.Distance

/-!
# Periods

A period is the closed stretch from a first to a last point of one cycle. It covers the points
between them in the order of one round: a period whose last point comes before its first covers
none. It never closes when its last point is followed by its first.
-/

namespace OpeningHours

structure Period (c : Cycle) where
  start : Point c
  last : Point c
  deriving DecidableEq

/-- A period together with its cycle. -/
abbrev AnyPeriod := (c : Cycle) × Period c

/-- A wait for an opening: there is no waiting where the hours never close. -/
inductive Wait where
  | amount (n : Int)
  | unbounded
  deriving DecidableEq, Repr

/-- The shorter of two waits. -/
def Wait.min : Wait → Wait → Wait
  | amount m, amount n => amount (Min.min m n)
  | amount m, unbounded => amount m
  | unbounded, w => w

namespace Period

variable {c : Cycle}

/-- Whether the period never closes. -/
def isAlways (p : Period c) : Bool :=
  decide (p.last.increment = p.start)

def covers (p : Period c) (t : Point c) : Bool :=
  decide (p.start ≤ t) && decide (t ≤ p.last)

theorem covers_iff {p : Period c} {t : Point c} :
    p.covers t = true ↔ p.start ≤ t ∧ t ≤ p.last := by
  simp [covers]

/-- Whether the period covers the point that an instant falls on. -/
def contains (p : Period c) (i : Instant) : Except Fault Bool := do
  return p.covers (← i.project c)

/-- The whole units from an instant to the next start of the period. -/
def waitBefore (p : Period c) (i : Instant) (u : TimeUnit) : Except Fault Wait :=
  if p.isAlways then .ok .unbounded else .amount <$> p.start.since i u

/-- The line that fires when the period opens, if it closes at all. -/
def openingCron? (p : Period c) : Option Cron :=
  if p.isAlways then none else some (.ofPoint p.start)

/-- The line that fires at the first point after the period, if it closes at all. -/
def closingCron? (p : Period c) : Option Cron :=
  if p.isAlways then none else some (.ofPoint p.last.increment)

def text (p : Period c) : String :=
  "BusinessPeriod(start=" ++ p.start.text ++ ", end=" ++ p.last.text ++ ")"

end Period

/-- What is given for a bound of a period. -/
inductive Bound where
  | absent
  | notAPoint
  | point (p : AnyPoint)

namespace Bound

/-- What is wrong with a bound by itself. -/
def issue? (side : Side) : Bound → Option Issue
  | absent => some ⟨side, .missing⟩
  | notAPoint => some ⟨side, .notAPoint⟩
  | point _ => none

end Bound

namespace AnyPeriod

/-- The period between two bounds, which must be points of one cycle. -/
def ofBounds? : Bound → Bound → Except Fault AnyPeriod
  | .point ⟨c, p⟩, .point ⟨d, q⟩ =>
    if h : d = c then .ok ⟨c, p, h ▸ q⟩
    else .error (.badBounds [⟨.stop, .scalesDiffer c.scales d.scales⟩])
  | start, stop => .error (.badBounds ((start.issue? .start).toList ++ (stop.issue? .stop).toList))

/-- The period as one of the cycle `c`. Of two different cycles one lacks a scale of the other;
the finest scale that `c` lacks is the fault, or else the finest that it alone has. -/
def on (c : Cycle) (p : AnyPeriod) : Except Fault (Period c) :=
  if h : p.1 = c then .ok (h ▸ p.2)
  else .error (.lacks ((p.1.lacking? c).getD ((c.lacking? p.1).getD c.finest)))

end AnyPeriod

end OpeningHours
