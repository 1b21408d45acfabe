import OpeningHours.Proofs.Instant.Projection

/-!
# The wait for a point

An instant that falls on a point is at some phase of the round: the microseconds that have passed
since the first point came round (`phase`). The wait for a point is the way forward from the
phase to the point, less than a round, in whole units (`since_eq`).
-/

namespace OpeningHours

theorem Instant.remainderBelow_mem (i : Instant) (u : TimeUnit) :
    0 ≤ i.remainderBelow u ∧ i.remainderBelow u < u.duration := by
  have hu := u.duration_pos
  have hd := TimeUnit.days.duration_pos
  unfold remainderBelow
  split
  · exact ⟨Int.le_refl _, hu⟩
  · have h0 := Int.emod_nonneg i.timeOfDay (b := min u.duration TimeUnit.days.duration) (by omega)
    have h1 := Int.emod_lt_of_pos i.timeOfDay (b := min u.duration TimeUnit.days.duration) (by omega)
    exact ⟨h0, by omega⟩

namespace Point

variable {c : Cycle}

/-- The microseconds from the start of the round to an instant that falls on the point. -/
def phase (q : Point c) (i : Instant) : Int :=
  q.index * c.precision.duration + i.remainderBelow c.precision

theorem phase_div (q : Point c) (i : Instant) : q.phase i / c.precision.duration = q.index := by
  have hpos := c.precision.duration_pos
  obtain ⟨h0, h1⟩ := i.remainderBelow_mem c.precision
  unfold phase
  rw [Int.add_comm, Int.add_mul_ediv_right _ _ (Int.ne_of_gt hpos), Int.ediv_eq_zero_of_lt h0 h1,
    Int.zero_add]

theorem phase_mem (q : Point c) (i : Instant) : 0 ≤ q.phase i ∧ q.phase i < c.round.duration := by
  obtain ⟨h0, h1⟩ := q.index_mem
  obtain ⟨hr0, hr1⟩ := i.remainderBelow_mem c.precision
  have hlo : 0 ≤ q.index * c.precision.duration :=
    Int.mul_nonneg h0 (Int.le_of_lt c.precision.duration_pos)
  have hhi : (q.index + 1) * c.precision.duration ≤ c.size * c.precision.duration :=
    Int.mul_le_mul_of_nonneg_right h1 (Int.le_of_lt c.precision.duration_pos)
  rw [Int.add_mul, Int.one_mul] at hhi
  unfold phase
  rw [c.round_duration]
  constructor <;> omega

/-- A point comes round at the phase that its index says. -/
theorem mul_duration_mem (p : Point c) :
    0 ≤ p.index * c.precision.duration ∧ p.index * c.precision.duration < c.round.duration := by
  obtain ⟨h0, h1⟩ := p.index_mem
  rw [c.round_duration]
  exact ⟨Int.mul_nonneg h0 (Int.le_of_lt c.precision.duration_pos),
    Int.mul_lt_mul_of_pos_right h1 c.precision.duration_pos⟩

theorem durationUntil_of_project {p q : Point c} {i : Instant} (hq : i.project c = .ok q) :
    p.durationUntil i = .ok (q.phase i - p.index * c.precision.duration) := by
  unfold durationUntil
  rw [hq]
  show Except.ok (p.durationTo q + i.remainderBelow c.precision) = _
  rw [durationTo_eq, Int.sub_mul, phase]
  congr 1
  omega

/-- An instant is at no duration from a point exactly if it falls on it and says nothing below its
precision. -/
theorem durationUntil_eq_zero_iff {p q : Point c} {i : Instant} (hq : i.project c = .ok q) :
    p.durationUntil i = .ok 0 ↔ q = p ∧ i.remainderBelow c.precision = 0 := by
  rw [durationUntil_of_project hq, Except.ok.injEq]
  constructor
  · intro h
    have hphase : q.phase i = p.index * c.precision.duration := by omega
    have hindex : q.index = p.index := by
      rw [← q.phase_div i, hphase, Int.mul_ediv_cancel _ (Int.ne_of_gt c.precision.duration_pos)]
    refine ⟨ext_index hindex, ?_⟩
    rw [phase, hindex] at hphase
    omega
  · rintro ⟨rfl, h⟩
    rw [phase, h]
    omega

/-- The way forward is the signed distance, taken round the cycle. -/
theorem forward_eq_emod {d : Int} (h0 : -c.round.duration < d) (h1 : d < c.round.duration) :
    forward c d = d % c.round.duration := by
  unfold forward
  split
  · rw [← Int.add_emod_right, Int.emod_eq_of_lt (by omega) (by omega)]
  · rw [Int.emod_eq_of_lt (by omega) h1]

theorem since_of_durationUntil {p : Point c} {i : Instant} {d : Int}
    (hd : p.durationUntil i = .ok d) (u : TimeUnit) :
    p.since i u = .ok (u.count (forward c (-d))) := by
  unfold since
  rw [hd]
  rfl

/-- The wait is the way forward from the phase of the instant to the point, in whole units. -/
theorem since_eq {p q : Point c} {i : Instant} (hq : i.project c = .ok q) (u : TimeUnit) :
    p.since i u =
      .ok ((p.index * c.precision.duration - q.phase i) % c.round.duration / u.duration) := by
  obtain ⟨hp0, hp1⟩ := p.mul_duration_mem
  obtain ⟨hq0, hq1⟩ := q.phase_mem i
  have hd : -(q.phase i - p.index * c.precision.duration) =
      p.index * c.precision.duration - q.phase i := by omega
  rw [since_of_durationUntil (durationUntil_of_project hq), hd,
    forward_eq_emod (by omega) (by omega),
    TimeUnit.count_of_nonneg u (Int.emod_nonneg _ (Int.ne_of_gt c.round.duration_pos))]

end Point

end OpeningHours
