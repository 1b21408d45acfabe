import OpeningHours.Period.Basic

/-!
# Merging periods

Periods of one cycle are sorted by their starts and then read from the left. The next period is
absorbed into the present one if it starts inside it, and then the later of the two last points
counts, or if it starts right after it. Otherwise the present period is finished.
-/

namespace OpeningHours

namespace Period

variable {c : Cycle}

/-- Reads sorted periods, the present one being `current`. -/
def absorb (current : Period c) : List (Period c) → List (Period c)
  | [] => [current]
  | p :: rest =>
    if current.covers p.start then absorb ⟨current.start, current.last.later p.last⟩ rest
    else if current.last.increment = p.start then absorb ⟨current.start, p.last⟩ rest
    else current :: absorb p rest

/-- The periods by their starts; equal starts keep their order. -/
def sortByStart (ps : List (Period c)) : List (Period c) :=
  ps.mergeSort fun p q => decide (p.start ≤ q.start)

/-- The union of the periods; if none of them wraps, its periods are in order and neither overlap
nor touch. -/
def merge (ps : List (Period c)) : List (Period c) :=
  match sortByStart ps with
  | [] => []
  | p :: rest => absorb p rest

theorem absorb_ne_nil (current : Period c) (ps : List (Period c)) : absorb current ps ≠ [] := by
  induction ps generalizing current with
  | nil => simp [absorb]
  | cons p rest ih =>
    rw [absorb]
    split
    · exact ih _
    · split
      · exact ih _
      · simp

theorem sortByStart_eq_nil_iff {ps : List (Period c)} : sortByStart ps = [] ↔ ps = [] := by
  rw [← List.length_eq_zero_iff, sortByStart, List.length_mergeSort, List.length_eq_zero_iff]

theorem merge_eq_nil_iff {ps : List (Period c)} : merge ps = [] ↔ ps = [] := by
  have h : sortByStart ps = [] ↔ ps = [] := sortByStart_eq_nil_iff
  rw [← h, merge]
  split
  · simp [*]
  · simp [*, absorb_ne_nil]

end Period

namespace AnyPeriod

/-- The union of periods that must all be of the first one's cycle. -/
def merge : List AnyPeriod → Except Fault (List AnyPeriod)
  | [] => .ok []
  | ⟨c, p⟩ :: rest => do
    let others ← rest.mapM (·.on c)
    return (Period.merge (p :: others)).map fun q => ⟨c, q⟩

end AnyPeriod

end OpeningHours
