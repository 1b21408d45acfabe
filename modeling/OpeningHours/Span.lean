import OpeningHours.Fault

/-!
# Spans of values

A span has two bounds, neither of them negative. A span whose start is past its stop goes round
the end of a scale; on a given scale it splits into two that do not.
-/

namespace OpeningHours

namespace Scale

/-- The values of a scale. -/
abbrev Value (s : Scale) := { v : Int // s.contains v = true }

theorem nonneg_of_contains {s : Scale} {v : Int} (h : s.contains v = true) : 0 ≤ v := by
  have h1 : 0 ≤ s.minimum := by cases s <;> decide
  have h2 := (contains_iff.1 h).1
  omega

theorem contains_maximum (s : Scale) : s.contains s.maximum = true := by
  cases s <;> decide

end Scale

structure Span where
  start : Int
  stop : Int
  start_nonneg : 0 ≤ start
  stop_nonneg : 0 ≤ stop
  deriving DecidableEq

namespace Span

/-- The span between two bounds; the issues name every bound that is negative. -/
def ofBounds? (start stop : Int) : Except Fault Span :=
  if h : 0 ≤ start ∧ 0 ≤ stop then .ok ⟨start, stop, h.1, h.2⟩
  else .error (.badBounds
    ((if start < 0 then [⟨.start, .negative⟩] else []) ++
      if stop < 0 then [⟨.stop, .negative⟩] else []))

/-- The span between two values of a scale. -/
def between {s : Scale} (v w : s.Value) : Span :=
  ⟨v, w, Scale.nonneg_of_contains v.2, Scale.nonneg_of_contains w.2⟩

/-- The whole domain of a scale. -/
def full (s : Scale) : Span :=
  between (s := s) ⟨_, s.contains_minimum⟩ ⟨_, s.contains_maximum⟩

/-- Whether the span goes round the end of the scale. -/
def wraps (r : Span) : Bool :=
  decide (r.stop < r.start)

/-- The number of values, for a span that does not wrap. -/
def length (r : Span) : Int :=
  r.stop - r.start + 1

/-- The values in ascending order, none if the span wraps. -/
def values (r : Span) : List Int :=
  (List.range r.length.toNat).map fun (i : Nat) => r.start + i

theorem mem_values_iff {r : Span} {v : Int} : v ∈ r.values ↔ r.start ≤ v ∧ v ≤ r.stop := by
  simp only [values, length, List.mem_map, List.mem_range]
  constructor
  · rintro ⟨i, hi, rfl⟩
    omega
  · intro h
    exact ⟨(v - r.start).toNat, by omega, by omega⟩

/-- The span cut at the end of the scale, if it goes round it. -/
def split (r : Span) (s : Scale) : List Span :=
  if r.wraps then [{ r with stop := s.maximum, stop_nonneg := (full s).stop_nonneg },
    { r with start := s.minimum, start_nonneg := (full s).start_nonneg }]
  else [r]

end Span

end OpeningHours
