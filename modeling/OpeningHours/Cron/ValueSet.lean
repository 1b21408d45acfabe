import OpeningHours.Fault

/-!
# Sets of values on a scale

A nonempty set of values of one scale, kept as the ascending list of its members, so that two
sets with the same members are equal. Its text is a star for the whole domain, and otherwise
the longest runs of neighbouring values, each as `v` or `v-w`.
-/

namespace OpeningHours

structure ValueSet (s : Scale) where
  values : List Int
  canonical : s.domain.filter (· ∈ values) = values
  nonempty : values ≠ []
  deriving DecidableEq

namespace ValueSet

variable {s : Scale}

theorem filter_mem_filter {α : Type} [DecidableEq α] (xs : List α) (p : α → Bool) :
    xs.filter (· ∈ xs.filter p) = xs.filter p := by
  refine List.filter_congr fun x hx => ?_
  simp [hx]

/-- The members of the domain that a test picks. -/
def ofTest (s : Scale) (p : Int → Bool) (h : s.domain.filter p ≠ []) : ValueSet s :=
  ⟨s.domain.filter p, filter_mem_filter _ p, h⟩

def single (s : Scale) (v : Int) (h : s.contains v = true) : ValueSet s :=
  ofTest s (· == v) (List.ne_nil_of_mem (List.mem_filter.2 ⟨Scale.mem_domain_iff.2 h, by simp⟩))

/-- The whole domain. -/
def full (s : Scale) : ValueSet s :=
  ofTest s (fun _ => true) (List.ne_nil_of_mem
    (List.mem_filter.2 ⟨Scale.mem_domain_iff.2 s.contains_minimum, rfl⟩))

def union (a b : ValueSet s) : ValueSet s :=
  ofTest s (fun v => decide (v ∈ a.values) || decide (v ∈ b.values)) (by
    obtain ⟨v, hv⟩ := List.exists_mem_of_ne_nil _ a.nonempty
    refine List.ne_nil_of_mem (a := v) (List.mem_filter.2 ⟨?_, by simp [hv]⟩)
    rw [← a.canonical] at hv
    exact (List.mem_filter.1 hv).1)

/-- The set of the listed values, in any order and with any repeats. -/
def ofList? (s : Scale) : List Int → Except Fault (ValueSet s)
  | [] => .error (.emptyCronField s)
  | v :: vs =>
    match h : (v :: vs).find? fun w => !s.contains w with
    | some w => .error (s.outside w)
    | none => .ok (ofTest s (· ∈ v :: vs) (List.ne_nil_of_mem (a := v) (List.mem_filter.2
        ⟨Scale.mem_domain_iff.2 (by simpa using List.find?_eq_none.1 h v (by simp)), by simp⟩)))

instance : Membership Int (ValueSet s) := ⟨fun a v => v ∈ a.values⟩

instance (v : Int) (a : ValueSet s) : Decidable (v ∈ a) :=
  inferInstanceAs (Decidable (v ∈ a.values))

/-- The longest runs of neighbours in an ascending list, as first and last value. -/
def runs : List Int → List (Int × Int)
  | [] => []
  | v :: vs =>
    match runs vs with
    | (first, last) :: rest =>
      if first = v + 1 then (v, last) :: rest else (v, v) :: (first, last) :: rest
    | [] => [(v, v)]

def runText (r : Int × Int) : String :=
  if r.1 = r.2 then toString r.1 else toString r.1 ++ "-" ++ toString r.2

/-- The text of one field of a cron line. -/
def text (a : ValueSet s) : String :=
  if a = full s then "*" else ",".intercalate ((runs a.values).map runText)

end ValueSet

end OpeningHours
