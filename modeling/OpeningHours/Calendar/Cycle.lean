import OpeningHours.Calendar.Scale

/-!
# Cycles

A cycle is a run of regular scales, the finest first, in which each scale is next to the one
before it: time counted on the cycle returns to its start after one round of the coarsest
scale. There are seven of them (`mem_runs_iff`): the stretches of minute, hour and weekday, and
the month alone.
-/

namespace OpeningHours

namespace Scale

/-- Whether the scales are regular and each is next to the one before it. -/
def linked : List Scale → Bool
  | [] => true
  | s :: rest => s.regular && rest.head?.all s.precedes && linked rest

/-- The scale lists of the seven cycles. -/
def runs : List (List Scale) :=
  [[minuteOfHour], [minuteOfHour, hourOfDay], [minuteOfHour, hourOfDay, dayOfWeek],
   [hourOfDay], [hourOfDay, dayOfWeek], [dayOfWeek], [monthOfYear]]

@[simp] theorem linked_cons (s : Scale) (rest : List Scale) :
    linked (s :: rest) = (s.regular && rest.head?.all s.precedes && linked rest) := rfl

theorem regular_of_linked {s : Scale} {rest : List Scale} (h : linked (s :: rest) = true) :
    s.regular = true := by
  simp only [linked_cons, Bool.and_eq_true] at h
  exact h.1.1

/-- Only the hours follow the minutes and only the weekdays follow the hours. -/
theorem next_of_linked {s t : Scale} {rest : List Scale} (h : linked (s :: t :: rest) = true) :
    s = minuteOfHour ∧ t = hourOfDay ∨ s = hourOfDay ∧ t = dayOfWeek := by
  have ht : t.regular = true := by
    have hl : linked (t :: rest) = true := by simp_all
    exact regular_of_linked hl
  have hp : s.precedes t = true := by simp_all
  have hs := regular_of_linked h
  clear h
  revert hs ht hp
  cases s <;> cases t <;> decide

theorem mem_runs_iff {ss : List Scale} : ss ∈ runs ↔ ss ≠ [] ∧ linked ss = true := by
  constructor
  · intro h
    simp only [runs, List.mem_cons, List.not_mem_nil, or_false] at h
    rcases h with rfl | rfl | rfl | rfl | rfl | rfl | rfl <;> decide
  · rintro ⟨hn, hl⟩
    match ss with
    | [] => exact absurd rfl hn
    | [a] =>
      have := regular_of_linked hl
      cases a <;> simp_all [regular, runs]
    | [a, b] => rcases next_of_linked hl with ⟨rfl, rfl⟩ | ⟨rfl, rfl⟩ <;> decide
    | a :: b :: c :: rest =>
      have hl' : linked (b :: c :: rest) = true := by
        simp only [linked_cons, Bool.and_eq_true] at hl ⊢
        exact hl.2
      rcases next_of_linked hl with ⟨rfl, rfl⟩ | ⟨rfl, rfl⟩
      · rcases next_of_linked hl' with ⟨h, _⟩ | ⟨_, rfl⟩
        · exact absurd h (by decide)
        · match rest with
          | [] => decide
          | d :: rest =>
            have hl'' : linked (dayOfWeek :: d :: rest) = true := by
              simp only [linked_cons, Bool.and_eq_true] at hl' ⊢
              exact hl'.2
            rcases next_of_linked hl'' with ⟨h, _⟩ | ⟨h, _⟩ <;> exact absurd h (by decide)
      · rcases next_of_linked hl' with ⟨h, _⟩ | ⟨h, _⟩ <;> exact absurd h (by decide)

end Scale

/-- A run of scales on which points are counted. -/
structure Cycle where
  scales : List Scale
  nonempty : scales ≠ []
  linked : Scale.linked scales = true
  deriving DecidableEq

namespace Cycle

theorem scales_mem_runs (c : Cycle) : c.scales ∈ Scale.runs :=
  Scale.mem_runs_iff.2 ⟨c.nonempty, c.linked⟩

theorem pairwise_rank (c : Cycle) : c.scales.Pairwise fun s t => s.rank < t.rank := by
  have hruns : ∀ ss ∈ Scale.runs, ss.Pairwise fun s t => s.rank < t.rank := by decide
  exact hruns c.scales c.scales_mem_runs

/-- The minutes of the week. -/
def week : Cycle :=
  ⟨[.minuteOfHour, .hourOfDay, .dayOfWeek], by decide, by decide⟩

def finest (c : Cycle) : Scale :=
  c.scales.head c.nonempty

def coarsest (c : Cycle) : Scale :=
  c.scales.getLast c.nonempty

/-- The unit of the finest scale's step: how exact a point of the cycle is. -/
def precision (c : Cycle) : TimeUnit :=
  c.finest.step

/-- The unit of one full round. -/
def round (c : Cycle) : TimeUnit :=
  c.coarsest.round

/-- Whether some scale's step takes the unit. -/
def supportsUnit (c : Cycle) (u : TimeUnit) : Bool :=
  c.scales.any fun s => s.step == u

theorem supportsUnit_precision (c : Cycle) : c.supportsUnit c.precision = true :=
  List.any_eq_true.2 ⟨c.finest, List.head_mem c.nonempty, beq_self_eq_true _⟩

/-- The finest scale of `c` that `d` lacks. -/
def lacking? (c d : Cycle) : Option Scale :=
  c.scales.find? fun s => !d.scales.contains s

end Cycle

end OpeningHours
