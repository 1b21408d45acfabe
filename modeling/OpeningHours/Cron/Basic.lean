import OpeningHours.Cron.ValueSet
import OpeningHours.Point.Basic

/-!
# Cron lines

A cron line has a set of values for each of the five scales and fires at the minutes whose five
values are all in their sets. The line of a cyclic point fires each time the point comes round:
scales of the point have its value, coarser scales every value, finer scales their least one.
Two lines that differ in at most one field can be merged into one that fires exactly when
either does.
-/

namespace OpeningHours

structure Cron where
  minute : ValueSet .minuteOfHour
  hour : ValueSet .hourOfDay
  dayOfMonth : ValueSet .dayOfMonth
  month : ValueSet .monthOfYear
  dayOfWeek : ValueSet .dayOfWeek
  deriving DecidableEq

namespace Cron

/-- The scales in the order of a cron line. -/
def order : List Scale :=
  [.minuteOfHour, .hourOfDay, .dayOfMonth, .monthOfYear, .dayOfWeek]

theorem mem_order (s : Scale) : s ∈ order := by
  cases s <;> decide

/-- The set of one field. -/
def field (c : Cron) : (s : Scale) → ValueSet s
  | .minuteOfHour => c.minute
  | .hourOfDay => c.hour
  | .dayOfMonth => c.dayOfMonth
  | .monthOfYear => c.month
  | .dayOfWeek => c.dayOfWeek

def ofFields (f : (s : Scale) → ValueSet s) : Cron :=
  ⟨f .minuteOfHour, f .hourOfDay, f .dayOfMonth, f .monthOfYear, f .dayOfWeek⟩

@[simp] theorem field_ofFields (f : (s : Scale) → ValueSet s) (s : Scale) :
    (ofFields f).field s = f s := by
  cases s <;> rfl

@[ext] theorem ext_field {a b : Cron} (h : ∀ s, a.field s = b.field s) : a = b := by
  have h1 := h .minuteOfHour
  have h2 := h .hourOfDay
  have h3 := h .dayOfMonth
  have h4 := h .monthOfYear
  have h5 := h .dayOfWeek
  cases a
  cases b
  simp_all [field]

/-- The line with the listed values on each scale; the first bad field is the fault. -/
def ofLists? (f : Scale → List Int) : Except Fault Cron := do
  let minute ← ValueSet.ofList? .minuteOfHour (f .minuteOfHour)
  let hour ← ValueSet.ofList? .hourOfDay (f .hourOfDay)
  let dayOfMonth ← ValueSet.ofList? .dayOfMonth (f .dayOfMonth)
  let month ← ValueSet.ofList? .monthOfYear (f .monthOfYear)
  let dayOfWeek ← ValueSet.ofList? .dayOfWeek (f .dayOfWeek)
  return ⟨minute, hour, dayOfMonth, month, dayOfWeek⟩

/-- The line that fires each time the point comes round. -/
def ofPoint {c : Cycle} (p : Point c) : Cron :=
  ofFields fun s =>
    match h : p.digit? s with
    | some v => .single s v (Point.contains_of_digit? h)
    | none =>
      if c.precision.duration < s.step.duration then .full s
      else .single s s.minimum s.contains_minimum

/-- Whether the line fires at the given values of the five scales. -/
def fires (c : Cron) (t : Scale → Int) : Bool :=
  order.all fun s => decide (t s ∈ c.field s)

theorem fires_iff {c : Cron} {t : Scale → Int} : c.fires t = true ↔ ∀ s, t s ∈ c.field s := by
  simp only [fires, List.all_eq_true, decide_eq_true_eq]
  exact ⟨fun h s => h s (mem_order s), fun h s _ => h s⟩

/-- The five field texts, separated by spaces. -/
def text (c : Cron) : String :=
  " ".intercalate (order.map fun s => (c.field s).text)

/-- The union of two lines, field by field. -/
def union (a b : Cron) : Cron :=
  ofFields fun s => (a.field s).union (b.field s)

/-- Whether at most one field differs. -/
def canMerge (a b : Cron) : Bool :=
  decide ((order.filter fun s => a.field s ≠ b.field s).length ≤ 1)

/-- Unites a line with the first of the lines that it can be merged with, which moves to the
end; if there is none, the line is added there. -/
def insertMerged (merged : List Cron) (c : Cron) : List Cron :=
  match merged.find? (·.canMerge c) with
  | some found => merged.eraseP (·.canMerge c) ++ [found.union c]
  | none => merged ++ [c]

/-- Merges lines greedily, from the left. -/
def mergeAll (cs : List Cron) : List Cron :=
  cs.foldl insertMerged []

theorem mergeAll_append_singleton (cs : List Cron) (c : Cron) :
    mergeAll (cs ++ [c]) = insertMerged (mergeAll cs) c := by
  simp [mergeAll, List.foldl_append]

end Cron

end OpeningHours
