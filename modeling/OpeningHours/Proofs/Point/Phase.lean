import OpeningHours.Proofs.Point.Wait

/-!
# The phase of an instant

The phase of an instant in the round of a cycle is written here with its values: each counts from
the least one, for as long as a step of its scale, and to those on the scales of the cycle comes
what the instant says below them. This is the phase of its projection (`phase_eq`): the remainder of
the time of day holds exactly the values on the finer scales of the day and the part below the
minute (`remainderBelow_step`). So the wait for a point is the least way forward from the phase of the
instant to that of the point (`since_exact`).
-/

namespace OpeningHours

/-- The microseconds after the full minute. -/
def Clock.belowMinute (t : Clock) : Int :=
  (t.second * 1000000 + t.micro : Nat)

/-- No scale of a cycle steps faster than its precision. -/
theorem Cycle.precision_le_step {c : Cycle} {s : Scale} (h : s ∈ c.scales) :
    c.precision.duration ≤ s.step.duration := by
  have hruns : ∀ ss ∈ Scale.runs, ∀ f ∈ ss.head?, ∀ s ∈ ss, f.step.duration ≤ s.step.duration := by
    decide
  exact hruns c.scales c.scales_mem_runs c.finest (List.head_mem_head? c.nonempty) s h

theorem Cycle.finest_mem (c : Cycle) : c.finest ∈ c.scales :=
  List.head_mem c.nonempty

theorem Cycle.coarsest_mem (c : Cycle) : c.coarsest ∈ c.scales :=
  List.getLast_mem c.nonempty

/-- A cycle without the month is made of minutes, hours and weekdays. -/
theorem Cycle.mem_week_of_mem {c : Cycle} {s : Scale} (hs : s ∈ c.scales)
    (hc : .monthOfYear ∉ c.scales) : s ∈ [.minuteOfHour, .hourOfDay, .dayOfWeek] := by
  have hruns : ∀ ss ∈ Scale.runs, ∀ s ∈ ss, .monthOfYear ∉ ss →
      s ∈ [Scale.minuteOfHour, .hourOfDay, .dayOfWeek] := by decide
  exact hruns c.scales c.scales_mem_runs s hs hc

/-- The time that digits say since midnight is what those for the minute and the hour say. -/
theorem Digits.timeOfDay_eq {ss : List Scale} (hss : ss ∈ Scale.runs) {f : Scale → Int}
    (hf : ∀ s ∉ ss, f s = s.minimum) :
    timeOfDay (ss.map fun s => (s, f s)) =
      f .minuteOfHour * 60000000 + f .hourOfDay * 3600000000 := by
  have hm := hf .minuteOfHour
  have hh := hf .hourOfDay
  simp only [Scale.runs, List.mem_cons, List.not_mem_nil, or_false] at hss
  rcases hss with rfl | rfl | rfl | rfl | rfl | rfl | rfl <;>
    simp_all [timeOfDay, Scale.step, Scale.minimum, TimeUnit.duration]

namespace Instant

/-- The microseconds that the values on some scales say, each counted from the least; a scale that
the instant lacks says nothing. -/
def offset (i : Instant) : List Scale → Int
  | [] => 0
  | s :: rest => ((i.read? s).getD s.minimum - s.minimum) * s.step.duration + i.offset rest

/-- The microseconds after the full minute, which only a clock tells. -/
def belowMinute : Instant → Int
  | dateTime t => t.clock.belowMinute
  | clock t => t.belowMinute
  | date _ | point _ => 0

/-- What the instant says below a scale of the week: its values on the finer ones, and what
comes after the full minute. -/
def finer (i : Instant) (s : Scale) : Int :=
  i.offset ([.minuteOfHour, .hourOfDay].filter fun r => r.rank < s.rank) + i.belowMinute

/-- The microseconds from the start of the round to the instant. -/
def phase (i : Instant) (c : Cycle) : Int :=
  i.offset c.scales + i.finer c.finest

theorem offset_eq_zero {i : Instant} {ss : List Scale} (h : ∀ s ∈ ss, i.read? s = none) :
    i.offset ss = 0 := by
  induction ss with
  | nil => rfl
  | cons s ss ih =>
    rw [offset, h s (by simp), ih fun r hr => h r (by simp [hr]), Option.getD_none, Int.sub_self,
      Int.zero_mul, Int.add_zero]

theorem offset_singleton_mem (i : Instant) (s : Scale) :
    ∃ n, i.offset [s] = n * s.step.duration ∧ 0 ≤ n ∧ n < s.size := by
  refine ⟨(i.read? s).getD s.minimum - s.minimum, Int.add_zero _, ?_⟩
  have hsize : s.size = s.maximum - s.minimum + 1 := rfl
  have hpos := s.size_pos
  cases h : i.read? s with
  | none =>
    rw [Option.getD_none]
    omega
  | some v =>
    have hv := Scale.contains_iff.1 (contains_of_read? h)
    rw [Option.getD_some]
    omega

theorem belowMinute_mem (i : Instant) : 0 ≤ i.belowMinute ∧ i.belowMinute < 60000000 := by
  have hclock : ∀ t : Clock, 0 ≤ t.belowMinute ∧ t.belowMinute < 60000000 := by
    intro t
    have hs := t.second_lt
    have hu := t.micro_lt
    unfold Clock.belowMinute
    omega
  cases i with
  | dateTime t => exact hclock t.clock
  | clock t => exact hclock t
  | date | point => exact ⟨Int.le_refl 0, (by decide : (0 : Int) < 60000000)⟩

/-- The time of day in parts. -/
theorem timeOfDay_eq (i : Instant) :
    i.timeOfDay = i.offset [.minuteOfHour] + i.offset [.hourOfDay] + i.belowMinute := by
  have hclock : ∀ t : Clock, t.micros =
      ((t.minute - 0) * 60000000 + 0) + ((t.hour - 0) * 3600000000 + 0) + t.belowMinute := by
    intro t
    unfold Clock.micros Clock.seconds Clock.belowMinute
    omega
  cases i with
  | dateTime t => exact hclock t.clock
  | clock t => exact hclock t
  | date d => rfl
  | @point c p =>
    have hlacking : ∀ s ∉ c.scales, (p.digit? s).getD s.minimum = s.minimum := by
      intro s hs
      rw [Point.digit?_eq_none_iff.2 hs]
      rfl
    show p.digits.timeOfDay = (((p.digit? .minuteOfHour).getD 0 - 0) * 60000000 + 0) +
      (((p.digit? .hourOfDay).getD 0 - 0) * 3600000000 + 0) + 0
    rw [p.digits_eq_map_digit?, Digits.timeOfDay_eq c.scales_mem_runs hlacking]
    show (p.digit? .minuteOfHour).getD 0 * 60000000 + (p.digit? .hourOfDay).getD 0 * 3600000000 = _
    omega

/-- An instant says nothing below its precision. -/
theorem finer_eq_zero {i : Instant} {s : Scale} (hs : s ∈ [.minuteOfHour, .hourOfDay, .dayOfWeek])
    (h : s.step.duration ≤ i.precision.duration) : i.finer s = 0 := by
  have hmicros : ¬ s.step.duration ≤ TimeUnit.micros.duration := by
    revert hs
    cases s <;> decide
  have hfiner : ∀ r ∈ [.minuteOfHour, .hourOfDay].filter (fun r : Scale => r.rank < s.rank),
      r.step.duration < s.step.duration := by
    revert hs
    cases s <;> decide
  cases i with
  | dateTime | clock => exact absurd h hmicros
  | date d =>
    have hread : ∀ r ∈ [Scale.minuteOfHour, .hourOfDay], (date d).read? r = none := by
      simp only [List.forall_mem_cons]
      exact ⟨rfl, rfl, nofun⟩
    rw [finer, offset_eq_zero fun r hr => hread r (List.mem_filter.1 hr).1]
    rfl
  | @point c p =>
    rw [finer, offset_eq_zero]
    · rfl
    · intro r hr
      refine Point.digit?_eq_none_iff.2 fun hc => ?_
      have hslow := Cycle.precision_le_step hc
      have hfast := hfiner r hr
      have h : s.step.duration ≤ c.precision.duration := h
      omega

/-- What remains of the time of day is what the instant says below the scale. -/
theorem remainderBelow_step (i : Instant) {s : Scale}
    (hs : s ∈ [.minuteOfHour, .hourOfDay, .dayOfWeek]) : i.remainderBelow s.step = i.finer s := by
  unfold remainderBelow
  split
  · exact (finer_eq_zero hs ‹_›).symm
  · obtain ⟨m, hm, hm0, hm1⟩ := i.offset_singleton_mem .minuteOfHour
    obtain ⟨h, hh, hh0, hh1⟩ := i.offset_singleton_mem .hourOfDay
    have hb := i.belowMinute_mem
    have hm : i.offset [.minuteOfHour] = m * 60000000 := hm
    have hh : i.offset [.hourOfDay] = h * 3600000000 := hh
    have hm1 : m < 60 := hm1
    have hh1 : h < 24 := hh1
    rw [timeOfDay_eq, hm, hh]
    simp only [List.mem_cons, List.not_mem_nil, or_false] at hs
    rcases hs with rfl | rfl | rfl
    · show (m * 60000000 + h * 3600000000 + i.belowMinute) % 60000000 = 0 + i.belowMinute
      omega
    · show (m * 60000000 + h * 3600000000 + i.belowMinute) % 3600000000 =
        i.offset [.minuteOfHour] + i.belowMinute
      omega
    · have hboth : i.offset [.minuteOfHour, .hourOfDay] =
          i.offset [.minuteOfHour] + i.offset [.hourOfDay] := by
        simp [offset]
      show (m * 60000000 + h * 3600000000 + i.belowMinute) % 86400000000 =
        i.offset [.minuteOfHour, .hourOfDay] + i.belowMinute
      omega

/-- The values read on some scales last as long as the way to them from the least ones. -/
theorem offset_eq_durationTo {i : Instant} {ds : Digits} (h : ∀ d ∈ ds, i.read? d.1 = some d.2) :
    i.offset (ds.map Prod.fst) = Digits.durationTo (ds.map fun d => (d.1, d.1.minimum)) ds := by
  induction ds with
  | nil => rfl
  | cons d ds ih =>
    have hd := h d (by simp)
    show ((i.read? d.1).getD d.1.minimum - d.1.minimum) * d.1.step.duration +
      i.offset (ds.map Prod.fst) = _
    rw [hd, ih fun e he => h e (by simp [he])]
    rfl

variable {c : Cycle}

theorem offset_scales {i : Instant} {q : Point c} (hq : i.project c = .ok q) :
    i.offset c.scales = q.index * c.precision.duration := by
  have hfirst : (Point.first c).digits = q.digits.map fun d => (d.1, d.1.minimum) := by
    show c.scales.map (fun s => (s, s.minimum)) = _
    rw [← q.scales_eq, List.map_map]
    rfl
  have hdist := (Point.first c).durationTo_eq q
  rw [Point.index_first, Int.sub_zero, Point.durationTo, hfirst] at hdist
  rw [← q.scales_eq, offset_eq_durationTo (project_eq_ok_iff.1 hq), hdist]

/-- On a cycle without the month, the phase of an instant is that of its projection. -/
theorem phase_eq {i : Instant} {q : Point c} (hq : i.project c = .ok q)
    (hc : .monthOfYear ∉ c.scales) : i.phase c = q.phase i := by
  have hfinest := Cycle.mem_week_of_mem c.finest_mem hc
  rw [phase, offset_scales hq, ← i.remainderBelow_step hfinest]
  rfl

theorem phase_point (p : Point c) (hc : .monthOfYear ∉ c.scales) :
    (point p).phase c = p.index * c.precision.duration := by
  have hbelow : (point p).remainderBelow c.precision = 0 := if_pos (Int.le_refl _)
  rw [phase_eq (project_point p) hc, Point.phase, hbelow, Int.add_zero]

end Instant

/-- The way forward round a circle is the least that leads to the goal. -/
theorem emod_sub_isLeast {n a b : Int} (h0 : 0 ≤ b) (h1 : b < n) :
    (a + (b - a) % n) % n = b ∧ ∀ e, 0 ≤ e → (a + e) % n = b → (b - a) % n ≤ e := by
  constructor
  · rw [Int.add_emod_emod, Int.add_comm, Int.sub_add_cancel, Int.emod_eq_of_lt h0 h1]
  · intro e he hb
    have hmod : (b - a) % n = e % n := by
      rw [← hb, Int.emod_sub_emod, Int.add_comm, Int.add_sub_cancel]
    rw [hmod]
    by_cases hlt : e < n
    · exact Int.le_of_eq (Int.emod_eq_of_lt he hlt)
    · have := Int.emod_lt_of_pos e (show 0 < n by omega)
      omega

namespace Point

variable {c : Cycle}

/-- The wait for a point is less than a round, and in another unit it is rounded down. On a cycle
of minutes, hours and weekdays it leads from the phase of the instant to that of the point, and it
is the least that does. -/
theorem since_exact (p : Point c) {i : Instant} (hi : ∀ s ∈ c.scales, (i.read? s).isSome = true) :
    ∃ d, p.since i .micros = .ok d ∧ 0 ≤ d ∧ d < c.round.duration ∧
      (∀ u, p.since i u = .ok (d / u.duration)) ∧
      (.monthOfYear ∉ c.scales →
        (i.phase c + d) % c.round.duration = (Instant.point p).phase c ∧
        ∀ e, 0 ≤ e → (i.phase c + e) % c.round.duration = (Instant.point p).phase c → d ≤ e) := by
  obtain ⟨q, hq⟩ := Instant.exists_project hi
  have hround := c.round.duration_pos
  have hsince := since_eq (p := p) hq
  refine ⟨(p.index * c.precision.duration - q.phase i) % c.round.duration, ?_,
    Int.emod_nonneg _ (Int.ne_of_gt hround), Int.emod_lt_of_pos _ hround, hsince, ?_⟩
  · rw [hsince]
    exact congrArg Except.ok (Int.ediv_one _)
  · intro hc
    obtain ⟨h0, h1⟩ := p.mul_duration_mem
    rw [Instant.phase_eq hq hc, Instant.phase_point p hc]
    exact emod_sub_isLeast h0 h1

/-- A microsecond after nine on Monday one waits for nine on Monday nearly the whole week. -/
theorem since_exact_just_after : ∃ (p : Point .week) (i : Instant),
    p.digits = [(.minuteOfHour, 0), (.hourOfDay, 9), (.dayOfWeek, 1)] ∧
    (∀ s ∈ Cycle.week.scales, (i.read? s).isSome = true) ∧ .monthOfYear ∉ Cycle.week.scales ∧
    i.phase .week = (Instant.point p).phase .week + 1 ∧
    ∃ d, p.since i .micros = .ok d ∧ 0 ≤ d ∧ d < TimeUnit.weeks.duration ∧
      (∀ u, p.since i u = .ok (d / u.duration)) ∧
      (i.phase .week + d) % TimeUnit.weeks.duration = (Instant.point p).phase .week ∧
      ∀ e, 0 ≤ e → (i.phase .week + e) % TimeUnit.weeks.duration = (Instant.point p).phase .week →
        d ≤ e := by
  let p : Point .week :=
    ⟨[(.minuteOfHour, 0), (.hourOfDay, 9), (.dayOfWeek, 1)], rfl, by decide⟩
  let i : Instant := .dateTime ⟨⟨2024, 1, 1, by decide, by decide, by decide⟩,
    ⟨9, 0, 0, 1, by decide, by decide, by decide, by decide⟩⟩
  have hi : ∀ s ∈ Cycle.week.scales, (i.read? s).isSome = true := by decide
  have hmonth : .monthOfYear ∉ Cycle.week.scales := by decide
  obtain ⟨d, hd, h0, h1, hunits, hphase⟩ := since_exact p hi
  exact ⟨p, i, rfl, hi, hmonth, rfl, d, hd, h0, h1, hunits, hphase hmonth⟩

end Point

end OpeningHours
