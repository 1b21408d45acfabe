import OpeningHours.Proofs.Cron.Firing
import OpeningHours.Proofs.Instant.DateTime
import OpeningHours.Proofs.Point.Wait

/-!
# When the line of a point fires

At a full minute the line of a point fires if the moment has the point's values on the scales of its
cycle and the least value on every other scale that is no coarser than the precision
(`fires_ofPoint_iff`). The minutes and hours among these are what the moment says below the
precision (`remainderBelow_eq_zero_iff`), so they are at their least exactly if the moment is the
start of an occurrence, at no duration from the point (`durationUntil_eq_zero_iff`). That leaves the scales of whole days: beside
a weekday alone the line asks for the first day of a month, and beside a month alone for a Monday
that is the first (`forall_idle_iff`). So the line fires at no other moments than at the occurrences
of its point, and on the cycles with minutes or hours at each of them (`fires_iff_durationUntil`).
-/

namespace OpeningHours

variable {c : Cycle}

theorem Scale.forall_iff {P : Scale → Prop} : (∀ s, P s) ↔
    P .minuteOfHour ∧ P .hourOfDay ∧ P .dayOfWeek ∧ P .dayOfMonth ∧ P .monthOfYear := by
  constructor
  · exact fun h => ⟨h _, h _, h _, h _, h _⟩
  · rintro ⟨hm, hh, hw, hd, hy⟩ s
    cases s <;> assumption

namespace DateTime

/-- A full minute says nothing below a precision exactly if the finer scales of the day are at their
least values. -/
theorem remainderBelow_eq_zero_iff {t : DateTime} (hs : t.clock.second = 0)
    (hu : t.clock.micro = 0) (c : Cycle) :
    (Instant.dateTime t).remainderBelow c.precision = 0 ↔
      ∀ s ∈ [Scale.minuteOfHour, .hourOfDay], s.step.duration < c.precision.duration →
        t.value s = s.minimum := by
  have hm := t.clock.minute_lt
  have hh := t.clock.hour_lt
  have hmicros : t.clock.micros = t.clock.hour * 3600000000 + t.clock.minute * 60000000 := by
    unfold Clock.micros Clock.seconds
    omega
  rw [Cycle.precision, remainderBelow_step, hmicros]
  simp only [List.forall_mem_cons, List.not_mem_nil, false_implies, implies_true, and_true, value]
  cases c.finest with
  | minuteOfHour =>
    show (t.clock.hour * 3600000000 + t.clock.minute * 60000000 : Int) % 60000000 = 0 ↔
      ((60000000 : Int) < 60000000 → (t.clock.minute : Int) = 0) ∧
        ((3600000000 : Int) < 60000000 → (t.clock.hour : Int) = 0)
    omega
  | hourOfDay =>
    show (t.clock.hour * 3600000000 + t.clock.minute * 60000000 : Int) % 3600000000 = 0 ↔
      ((60000000 : Int) < 3600000000 → (t.clock.minute : Int) = 0) ∧
        ((3600000000 : Int) < 3600000000 → (t.clock.hour : Int) = 0)
    omega
  | dayOfWeek | dayOfMonth =>
    show (t.clock.hour * 3600000000 + t.clock.minute * 60000000 : Int) % 86400000000 = 0 ↔
      ((60000000 : Int) < 86400000000 → (t.clock.minute : Int) = 0) ∧
        ((3600000000 : Int) < 86400000000 → (t.clock.hour : Int) = 0)
    omega
  | monthOfYear =>
    show (t.clock.hour * 3600000000 + t.clock.minute * 60000000 : Int) % 2629746000000 = 0 ↔
      ((60000000 : Int) < 2629746000000 → (t.clock.minute : Int) = 0) ∧
        ((3600000000 : Int) < 2629746000000 → (t.clock.hour : Int) = 0)
    rw [Int.emod_eq_of_lt (by omega) (by omega)]
    omega

end DateTime

namespace Cron

variable {p : Point c} {t : Scale → Int}

/-- The line of a point asks for the point's values, and for the least value on each other scale
that is no coarser than the precision. -/
theorem fires_ofPoint_iff (ht : ∀ s : Scale, s.contains (t s) = true) :
    (ofPoint p).fires t = true ↔ (∀ d ∈ p.digits, t d.1 = d.2) ∧
      ∀ s ∉ c.scales, s.step.duration ≤ c.precision.duration → t s = s.minimum := by
  rw [fires_iff]
  constructor
  · intro h
    refine ⟨fun d hd => (mem_field_ofPoint_iff (Point.digit?_eq_some_iff.2 hd)).1 (h d.1), ?_⟩
    intro s hs hd
    have hmem := h s
    rw [field_ofPoint_of_not_mem hs, if_neg (by omega)] at hmem
    exact ValueSet.mem_single_iff.1 hmem
  · rintro ⟨hdigits, hidle⟩ s
    by_cases hs : s ∈ c.scales
    · obtain ⟨d, hd, rfl⟩ := p.exists_mem_of_mem_scales hs
      exact (mem_field_ofPoint_iff (Point.digit?_eq_some_iff.2 hd)).2 (hdigits d hd)
    · rw [field_ofPoint_of_not_mem hs]
      split
      · exact ValueSet.mem_full_iff.2 (ht s)
      · exact ValueSet.mem_single_iff.2 (hidle s hs (by omega))

/-- The scales that a cycle lacks, and that are no coarser than its precision: those of the day that
step faster, and those of whole days beside a weekday or a month alone. -/
theorem forall_idle_iff (c : Cycle) (t : Scale → Int) :
    (∀ s ∉ c.scales, s.step.duration ≤ c.precision.duration → t s = s.minimum) ↔
      (∀ s ∈ [Scale.minuteOfHour, .hourOfDay], s.step.duration < c.precision.duration →
        t s = s.minimum) ∧
      (c.scales = [.dayOfWeek] → t .dayOfMonth = 1) ∧
      (c.scales = [.monthOfYear] → t .dayOfWeek = 1 ∧ t .dayOfMonth = 1) := by
  obtain ⟨scales, nonempty, linked⟩ := c
  have h : scales ∈ Scale.runs := Scale.mem_runs_iff.2 ⟨nonempty, linked⟩
  simp only [Scale.runs, List.mem_cons, List.not_mem_nil, or_false] at h
  rcases h with rfl | rfl | rfl | rfl | rfl | rfl | rfl <;>
    simp [Scale.forall_iff, Cycle.precision, Cycle.finest, Scale.step, TimeUnit.duration,
      Scale.minimum, and_assoc]

/-- At a full minute the line of a point fires exactly if the moment is at no duration from the
point and, beside a weekday alone, is on the first day of a month, or beside a month alone, on a
Monday that is the first. -/
theorem fires_iff_durationUntil (p : Point c) {i : DateTime} (hs : i.clock.second = 0)
    (hu : i.clock.micro = 0) : ∃ d, p.durationUntil (.dateTime i) = .ok d ∧
      ((ofPoint p).fires i.value = true ↔ d = 0 ∧
        (c.scales = [.dayOfWeek] → i.date.day = 1) ∧
        (c.scales = [.monthOfYear] → i.date.weekday = 1 ∧ i.date.day = 1)) := by
  obtain ⟨q, hq⟩ := i.exists_project c
  refine ⟨_, Point.durationUntil_of_project hq, ?_⟩
  have hzero : q.phase (.dateTime i) - p.index * c.precision.duration = 0 ↔
      (∀ d ∈ p.digits, i.value d.1 = d.2) ∧
        ∀ s ∈ [Scale.minuteOfHour, .hourOfDay], s.step.duration < c.precision.duration →
          i.value s = s.minimum := by
    rw [← Except.ok.injEq (ε := Fault), ← Point.durationUntil_of_project hq,
      Point.durationUntil_eq_zero_iff hq, DateTime.remainderBelow_eq_zero_iff hs hu,
      ← DateTime.project_eq_ok_iff, hq, Except.ok.injEq]
  have hday : i.value .dayOfMonth = 1 ↔ i.date.day = 1 := by
    show (i.date.day : Int) = 1 ↔ _
    omega
  have hweekday : i.value .dayOfWeek = 1 ↔ i.date.weekday = 1 := by
    show (i.date.weekday : Int) = 1 ↔ _
    omega
  rw [fires_ofPoint_iff i.contains_value, forall_idle_iff, hzero, and_assoc, hday, hweekday]

/-- The line of a Monday fires on a Monday that is the first of a month. -/
theorem fires_iff_durationUntil_first_monday : ∃ (c : Cycle) (p : Point c) (i : DateTime),
    p.digits = [(.dayOfWeek, 1)] ∧ i.date.weekday = 1 ∧ i.date.day = 1 ∧
    i.clock.second = 0 ∧ i.clock.micro = 0 ∧
    ∃ d, p.durationUntil (.dateTime i) = .ok d ∧
      ((ofPoint p).fires i.value = true ↔ d = 0 ∧
        (c.scales = [.dayOfWeek] → i.date.day = 1) ∧
        (c.scales = [.monthOfYear] → i.date.weekday = 1 ∧ i.date.day = 1)) := by
  let c : Cycle := ⟨[.dayOfWeek], by decide, by decide⟩
  let p : Point c := ⟨[(.dayOfWeek, 1)], rfl, by decide⟩
  let i : DateTime := ⟨⟨2024, 1, 1, by decide, by decide, by decide⟩,
    ⟨0, 0, 0, 0, by decide, by decide, by decide, by decide⟩⟩
  exact ⟨c, p, i, rfl, by decide, rfl, rfl, rfl, fires_iff_durationUntil p rfl rfl⟩

/-- On a Monday that is the eighth the line of a Monday does not fire, though the moment is at no
duration from the point. -/
theorem monday_line_passes_over_eighth : ∃ (c : Cycle) (p : Point c) (i : DateTime),
    p.digits = [(.dayOfWeek, 1)] ∧ (ofPoint p).text = "0 0 1 * 1" ∧
    i.date.weekday = 1 ∧ i.date.day = 8 ∧ i.clock.second = 0 ∧ i.clock.micro = 0 ∧
    p.durationUntil (.dateTime i) = .ok 0 ∧ (ofPoint p).fires i.value = false := by
  let c : Cycle := ⟨[.dayOfWeek], by decide, by decide⟩
  let p : Point c := ⟨[(.dayOfWeek, 1)], rfl, by decide⟩
  let i : DateTime := ⟨⟨2024, 1, 8, by decide, by decide, by decide⟩,
    ⟨0, 0, 0, 0, by decide, by decide, by decide, by decide⟩⟩
  have hp : (Instant.dateTime i).project c = .ok p := DateTime.project_eq_ok_iff.2 (by decide)
  have hzero : p.durationUntil (.dateTime i) = .ok 0 :=
    (Point.durationUntil_eq_zero_iff hp).2 ⟨rfl, by decide⟩
  exact ⟨c, p, i, rfl, by decide, by decide, rfl, rfl, rfl, hzero, by decide⟩

end Cron

end OpeningHours
