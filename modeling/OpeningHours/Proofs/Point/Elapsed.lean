import OpeningHours.Proofs.Instant.DateTime
import OpeningHours.Proofs.Point.Phase

/-!
# Time does not run backwards in a round

On a cycle of minutes, hours and weekdays the phase of a moment is the time since its round started
(`phase_eq_elapsed`): a value counts the steps of its scale in one round of it (`value_mul_step`),
and each step is a round of the scale before. So within a round the duration from a point grows as
the time of the calendar does (`durationUntil_sub`). From a month it grows with the months and with
the time of day, and knows nothing of the days between (`durationUntil_month`): it falls in the
night to the second.

The wait for a point is the way forward, and gets shorter as the duration grows unless the duration
passes zero; there the point begins (`exists_beginsAt`). Both together are `elapses_in_round`.
-/

namespace OpeningHours

namespace DateTime

/-- A value counts the steps since the round started. -/
theorem value_mul_step (t : DateTime) {s : Scale}
    (hs : s ∈ [.minuteOfHour, .hourOfDay, .dayOfWeek]) :
    (t.value s - s.minimum) * s.step.duration =
      t.elapsed % s.round.duration - t.elapsed % s.step.duration := by
  have hmicros := t.clock.micros_mem
  have hpos := t.date.dayNumber_pos
  have hm := t.clock.minute_lt
  have hsec := t.clock.second_lt
  have hu := t.clock.micro_lt
  unfold elapsed
  simp only [List.mem_cons, List.not_mem_nil, or_false] at hs
  rcases hs with rfl | rfl | rfl
  · show ((t.clock.minute : Int) - 0) * 60000000 =
      ((t.date.dayNumber - 1) * 86400000000 + t.clock.micros) % 3600000000 -
        ((t.date.dayNumber - 1) * 86400000000 + t.clock.micros) % 60000000
    unfold Clock.micros Clock.seconds
    omega
  · have hhour := t.clock.micros_div_hour
    show ((t.clock.hour : Int) - 0) * 3600000000 =
      ((t.date.dayNumber - 1) * 86400000000 + t.clock.micros) % 86400000000 -
        ((t.date.dayNumber - 1) * 86400000000 + t.clock.micros) % 3600000000
    omega
  · show ((t.date.weekday : Int) - 1) * 86400000000 =
      ((t.date.dayNumber - 1) * 86400000000 + t.clock.micros) % 604800000000 -
        ((t.date.dayNumber - 1) * 86400000000 + t.clock.micros) % 86400000000
    unfold Date.weekday
    omega

theorem offset_cons (t : DateTime) (s : Scale) (rest : List Scale) :
    (Instant.dateTime t).offset (s :: rest) =
      (t.value s - s.minimum) * s.step.duration + (Instant.dateTime t).offset rest := by
  rw [Instant.offset, read?_value]
  rfl

/-- The values on linked scales count the steps of the first since the round of the last started. -/
theorem offset_eq_elapsed (t : DateTime) {ss : List Scale} (hn : ss ≠ [])
    (hl : Scale.linked ss = true) (hm : .monthOfYear ∉ ss) :
    (Instant.dateTime t).offset ss =
      t.elapsed % (ss.getLast hn).round.duration - t.elapsed % (ss.head hn).step.duration := by
  induction ss with
  | nil => exact absurd rfl hn
  | cons s rest ih =>
    rw [List.mem_cons, not_or] at hm
    have hs : s ∈ [Scale.minuteOfHour, .hourOfDay, .dayOfWeek] := by
      have hregular := Scale.regular_of_linked hl
      have hmonth := hm.1
      clear ih hl hm
      revert hregular hmonth
      cases s <;> decide
    rw [offset_cons, t.value_mul_step hs]
    cases rest with
    | nil => exact Int.add_zero _
    | cons r rest =>
      rw [Scale.linked_cons, Bool.and_eq_true, Bool.and_eq_true] at hl
      have hstep : r.step = s.round := eq_of_beq hl.1.2
      rw [ih (List.cons_ne_nil r rest) hl.2 hm.2, List.head_cons, List.head_cons, hstep,
        List.getLast_cons (List.cons_ne_nil r rest)]
      omega

end DateTime

variable {c : Cycle}

theorem Cycle.scales_of_month (h : .monthOfYear ∈ c.scales) : c.scales = [.monthOfYear] := by
  have hruns : ∀ ss ∈ Scale.runs, .monthOfYear ∈ ss → ss = [.monthOfYear] := by decide
  exact hruns c.scales c.scales_mem_runs h

theorem Cycle.coarsest_of_month (h : .monthOfYear ∈ c.scales) : c.coarsest = .monthOfYear := by
  unfold coarsest
  simp only [scales_of_month h, List.getLast_singleton]

/-- Numbers with one quotient are as far apart as their remainders. -/
theorem emod_sub_emod_of_ediv_eq {r a b : Int} (h : a / r = b / r) : b % r - a % r = b - a := by
  rw [Int.emod_def, Int.emod_def, h]
  omega

namespace Point

variable {p q : Point c} {i j t : DateTime} {d e : Int}

theorem phase_dateTime (hq : (Instant.dateTime t).project c = .ok q) :
    q.phase (.dateTime t) =
      (Instant.dateTime t).offset c.scales + t.clock.micros % c.precision.duration := by
  rw [phase, ← Instant.offset_scales hq, Cycle.precision, DateTime.remainderBelow_step]

/-- On minutes, hours and weekdays the phase of a moment is the time since the round started. -/
theorem phase_eq_elapsed (hq : (Instant.dateTime t).project c = .ok q)
    (hc : .monthOfYear ∉ c.scales) :
    q.phase (.dateTime t) = t.elapsed % c.round.duration := by
  have hbelow : t.clock.micros % c.precision.duration = t.elapsed % c.precision.duration := by
    have hday : c.precision.duration ∣ 86400000000 := by
      have hfinest := Cycle.mem_week_of_mem c.finest_mem hc
      revert hfinest
      unfold Cycle.precision Cycle.finest
      cases c.scales.head c.nonempty <;> decide
    rw [DateTime.elapsed, Int.add_emod, Int.emod_eq_zero_of_dvd (Int.dvd_mul_of_dvd_right hday),
      Int.zero_add, Int.emod_emod]
  rw [phase_dateTime hq, hbelow, t.offset_eq_elapsed c.nonempty c.linked hc]
  exact Int.sub_add_cancel _ _

/-- On minutes, hours and weekdays the duration from a point is known from the time of the
calendar. -/
theorem durationUntil_eq_elapsed (p : Point c) (t : DateTime) (hc : .monthOfYear ∉ c.scales) :
    p.durationUntil (.dateTime t) =
      .ok (t.elapsed % c.round.duration - p.index * c.precision.duration) := by
  obtain ⟨q, hq⟩ := t.exists_project c
  rw [durationUntil_of_project hq, phase_eq_elapsed hq hc]

theorem exists_digits_of_month (p : Point c) (hc : .monthOfYear ∈ c.scales) :
    ∃ v : Int, p.digits = [(.monthOfYear, v)] ∧ 1 ≤ v ∧ v ≤ 12 := by
  have hscales := p.scales_eq
  rw [Cycle.scales_of_month hc] at hscales
  obtain ⟨⟨s, v⟩, hdigits, rfl⟩ := List.map_eq_singleton_iff.1 hscales
  have hv := p.inDomain (.monthOfYear, v) (by rw [hdigits]; exact List.mem_singleton_self _)
  exact ⟨v, hdigits, Scale.contains_iff.1 hv⟩

/-- From a month the duration is that of the months between and of the time of day. -/
theorem durationUntil_month {v : Int} (hp : p.digits = [(.monthOfYear, v)]) (t : DateTime) :
    p.durationUntil (.dateTime t) =
      .ok ((t.date.month - v) * 2629746000000 + t.clock.micros) := by
  have hc : .monthOfYear ∈ c.scales := by
    rw [← p.scales_eq, hp]
    exact List.mem_singleton_self _
  obtain ⟨q, hq⟩ := t.exists_project c
  obtain ⟨w, hdigits, -⟩ := q.exists_digits_of_month hc
  have hw : (t.date.month : Int) = w :=
    DateTime.project_eq_ok_iff.1 hq (.monthOfYear, w) (by rw [hdigits]; exact List.mem_singleton_self _)
  have hbelow : (Instant.dateTime t).remainderBelow c.precision = t.clock.micros := by
    have hprecision : c.precision = Scale.monthOfYear.step := by
      unfold Cycle.precision Cycle.finest
      simp only [Cycle.scales_of_month hc, List.head_cons]
    have hmicros := t.clock.micros_mem
    rw [hprecision, DateTime.remainderBelow_step]
    exact Int.emod_eq_of_lt hmicros.1 (Int.lt_trans hmicros.2 (by decide))
  unfold durationUntil
  rw [hq]
  show Except.ok (p.digits.durationTo q.digits + (Instant.dateTime t).remainderBelow c.precision) = _
  rw [hp, hdigits, hbelow, hw]
  show Except.ok ((w - v) * 2629746000000 + 0 + t.clock.micros) = _
  rw [Int.add_zero]

/-- The point begins at a moment that has its values and is the start of a step of the finest scale;
a month starts on its first day. -/
def BeginsAt (p : Point c) (t : DateTime) : Prop :=
  (∀ d ∈ p.digits, t.value d.1 = d.2) ∧ t.clock.micros % c.precision.duration = 0 ∧
    (.monthOfYear ∈ c.scales → t.date.day = 1)

theorem beginsAt_iff : p.BeginsAt t ↔
    p.durationUntil (.dateTime t) = .ok 0 ∧ (.monthOfYear ∈ c.scales → t.date.day = 1) := by
  obtain ⟨q, hq⟩ := t.exists_project c
  rw [durationUntil_eq_zero_iff hq, Cycle.precision, DateTime.remainderBelow_step, BeginsAt,
    ← DateTime.project_eq_ok_iff, hq, Except.ok.injEq, and_assoc]
  rfl

/-- In one round of minutes, hours or weekdays the duration grows as the time of the calendar. -/
theorem durationUntil_sub (hc : .monthOfYear ∉ c.scales) (hround : DateTime.InOneRound c.coarsest i j)
    (hd : p.durationUntil (.dateTime i) = .ok d) (he : p.durationUntil (.dateTime j) = .ok e) :
    e - d = j.elapsed - i.elapsed := by
  have hcoarsest := Cycle.mem_week_of_mem c.coarsest_mem hc
  rw [durationUntil_eq_elapsed p _ hc, Except.ok.injEq] at hd he
  have hdiv : i.elapsed / c.round.duration = j.elapsed / c.round.duration :=
    (DateTime.inOneRound_iff_elapsed hcoarsest).1 hround
  have hsub := emod_sub_emod_of_ediv_eq hdiv
  omega

theorem year_eq_of_month (hc : .monthOfYear ∈ c.scales)
    (hround : DateTime.InOneRound c.coarsest i j) : i.date.year = j.date.year := by
  rw [Cycle.coarsest_of_month hc] at hround
  exact hround

theorem exists_durationUntil (p : Point c) (t : DateTime) :
    ∃ d, p.durationUntil (.dateTime t) = .ok d := by
  obtain ⟨q, hq⟩ := t.exists_project c
  exact ⟨_, durationUntil_of_project hq⟩

/-- In one round the duration from a point grows with the moment; on the months, with a later month
or a later time of day. -/
theorem durationUntil_lt (hij : i < j) (hround : DateTime.InOneRound c.coarsest i j)
    (hmonth : c.coarsest = .monthOfYear → i.date.month < j.date.month ∨ i.clock < j.clock)
    (hd : p.durationUntil (.dateTime i) = .ok d) (he : p.durationUntil (.dateTime j) = .ok e) :
    d < e := by
  by_cases hc : .monthOfYear ∈ c.scales
  · obtain ⟨v, hdigits, -⟩ := p.exists_digits_of_month hc
    have hi := i.clock.micros_mem
    have hj := j.clock.micros_mem
    have hle := DateTime.month_le_of_lt hij (year_eq_of_month hc hround)
    rw [durationUntil_month hdigits, Except.ok.injEq] at hd he
    rcases hmonth (Cycle.coarsest_of_month hc) with hm | ht
    · omega
    · rw [Clock.lt_iff_micros_lt] at ht
      omega
  · have hsub := durationUntil_sub hc hround hd he
    have helapsed := DateTime.lt_iff_elapsed_lt.1 hij
    omega

theorem exists_beginsAt_of_week (hc : .monthOfYear ∉ c.scales) (hround : DateTime.InOneRound c.coarsest i j)
    (hd : p.durationUntil (.dateTime i) = .ok d) (he : p.durationUntil (.dateTime j) = .ok e)
    (hd0 : d ≤ 0) (he0 : 0 ≤ e) : ∃ k, i ≤ k ∧ k ≤ j ∧ p.BeginsAt k := by
  have hcoarsest := Cycle.mem_week_of_mem c.coarsest_mem hc
  have hsub := durationUntil_sub hc hround hd he
  obtain ⟨k, hk⟩ := DateTime.exists_elapsed_eq (i := i) (j := j) (n := i.elapsed - d)
    (by omega) (by omega)
  have hik : i ≤ k := DateTime.le_iff_elapsed_le.2 (by omega)
  have hkj : k ≤ j := DateTime.le_iff_elapsed_le.2 (by omega)
  have hf := durationUntil_eq_elapsed p k hc
  have hbetween := durationUntil_sub hc (hround.of_le hcoarsest hik hkj) hd hf
  refine ⟨k, hik, hkj, beginsAt_iff.2 ⟨?_, fun h => absurd h hc⟩⟩
  rw [hf, Except.ok.injEq]
  omega

theorem exists_beginsAt_of_month (hc : .monthOfYear ∈ c.scales) (hround : DateTime.InOneRound c.coarsest i j)
    (hd : p.durationUntil (.dateTime i) = .ok d) (he : p.durationUntil (.dateTime j) = .ok e)
    (hd0 : d < 0) (he0 : 0 ≤ e) : ∃ k, i ≤ k ∧ k ≤ j ∧ p.BeginsAt k := by
  obtain ⟨v, hdigits, hv1, hv12⟩ := p.exists_digits_of_month hc
  obtain ⟨m, rfl⟩ := Int.eq_ofNat_of_zero_le (show 0 ≤ v by omega)
  have hyear := year_eq_of_month hc hround
  have hi := i.clock.micros_mem
  have hj := j.clock.micros_mem
  rw [durationUntil_month hdigits, Except.ok.injEq] at hd he
  -- the first moment of the month, in the year of both
  let k : DateTime := ⟨⟨i.date.year, m, 1, i.date.year_mem, by omega,
    ⟨Nat.le_refl 1, one_le_daysInMonth _ _⟩⟩, ⟨0, 0, 0, 0, by decide, by decide, by decide, by decide⟩⟩
  have hmonth : k.date.month = m := rfl
  have hmicros : k.clock.micros = 0 := by simp [k, Clock.micros, Clock.seconds]
  have hk : p.durationUntil (.dateTime k) = .ok 0 := by
    rw [durationUntil_month hdigits, Except.ok.injEq, hmonth, hmicros]
    omega
  have hik : i.date < k.date := Date.lt_iff.2 (Or.inr ⟨rfl, Or.inl (by omega)⟩)
  have hkj : ¬ j < k := by
    have hday := j.date.day_mem.1
    rintro (hdate | ⟨-, hclock⟩)
    · have hlt : j.date.year < i.date.year ∨ j.date.year = i.date.year ∧
          (j.date.month < m ∨ j.date.month = m ∧ j.date.day < 1) := Date.lt_iff.1 hdate
      omega
    · rw [Clock.lt_iff_micros_lt, hmicros] at hclock
      omega
  exact ⟨k, DateTime.le_of_lt (Or.inl hik), hkj, beginsAt_iff.2 ⟨hk, fun _ => rfl⟩⟩

/-- Where the duration from the point goes from below zero to above it, the point begins. -/
theorem exists_beginsAt (hround : DateTime.InOneRound c.coarsest i j)
    (hd : p.durationUntil (.dateTime i) = .ok d) (he : p.durationUntil (.dateTime j) = .ok e)
    (hzero : c.coarsest = .monthOfYear → d ≠ 0) (hd0 : d ≤ 0) (he0 : 0 ≤ e) :
    ∃ k, i ≤ k ∧ k ≤ j ∧ p.BeginsAt k := by
  by_cases hc : .monthOfYear ∈ c.scales
  · have hne := hzero (Cycle.coarsest_of_month hc)
    exact exists_beginsAt_of_month hc hround hd he (by omega) he0
  · exact exists_beginsAt_of_week hc hround hd he hd0 he0

/-- The wait gets shorter as the duration grows, unless the point comes round in between. -/
theorem forward_neg_lt (h : d < e) (hpass : e < 0 ∨ 0 < d) : forward c (-e) < forward c (-d) := by
  unfold forward
  split <;> split <;> omega

/-- In one round the duration from a point grows with the moment; on the months, with a later month
or a later time of day. The wait for the point gets shorter unless the point begins in between, or
is a month whose duration is zero at the earlier moment. -/
theorem elapses_in_round (p : Point c) (hij : i < j) (hround : DateTime.InOneRound c.coarsest i j)
    (hmonth : c.coarsest = .monthOfYear → i.date.month < j.date.month ∨ i.clock < j.clock) :
    ∃ d e, p.durationUntil (.dateTime i) = .ok d ∧ p.durationUntil (.dateTime j) = .ok e ∧ d < e ∧
      ((∀ k, i ≤ k → k ≤ j → ¬ p.BeginsAt k) → (c.coarsest = .monthOfYear → d ≠ 0) →
        ∃ v w, p.since (.dateTime i) .micros = .ok v ∧ p.since (.dateTime j) .micros = .ok w ∧
          w < v) := by
  obtain ⟨d, hd⟩ := p.exists_durationUntil i
  obtain ⟨e, he⟩ := p.exists_durationUntil j
  have hde : d < e := durationUntil_lt hij hround hmonth hd he
  refine ⟨d, e, hd, he, hde, fun hbegins hzero => ?_⟩
  have hpass : e < 0 ∨ 0 < d := by
    refine Decidable.byContradiction fun hn => ?_
    obtain ⟨k, hik, hkj, hk⟩ := exists_beginsAt hround hd he hzero (by omega) (by omega)
    exact hbegins k hik hkj hk
  have hmicros : ∀ n, TimeUnit.micros.count n = n := fun n => Int.tdiv_one n
  refine ⟨_, _, since_of_durationUntil hd .micros, since_of_durationUntil he .micros, ?_⟩
  rw [hmicros, hmicros]
  exact forward_neg_lt hde hpass

/-- The wait for May gets shorter through the night in which July begins. -/
theorem elapses_in_round_night_to_july : ∃ (c : Cycle) (p : Point c) (i j : DateTime),
    p.digits = [(.monthOfYear, 5)] ∧ i < j ∧ DateTime.InOneRound c.coarsest i j ∧
    (c.coarsest = .monthOfYear → i.date.month < j.date.month ∨ i.clock < j.clock) ∧
    (∀ k, i ≤ k → k ≤ j → ¬ p.BeginsAt k) ∧
    ∃ d e v w, p.durationUntil (.dateTime i) = .ok d ∧ p.durationUntil (.dateTime j) = .ok e ∧
      d < e ∧ (c.coarsest = .monthOfYear → d ≠ 0) ∧
      p.since (.dateTime i) .micros = .ok v ∧ p.since (.dateTime j) .micros = .ok w ∧ w < v := by
  let c : Cycle := ⟨[.monthOfYear], by decide, by decide⟩
  let p : Point c := ⟨[(.monthOfYear, 5)], rfl, by decide⟩
  let i : DateTime := ⟨⟨2024, 6, 30, by decide, by decide, by decide⟩,
    ⟨23, 0, 0, 0, by decide, by decide, by decide, by decide⟩⟩
  let j : DateTime := ⟨⟨2024, 7, 1, by decide, by decide, by decide⟩,
    ⟨1, 0, 0, 0, by decide, by decide, by decide, by decide⟩⟩
  have hij : i < j := Or.inl (Date.lt_iff.2 (by decide))
  have hmonth : c.coarsest = .monthOfYear → i.date.month < j.date.month ∨ i.clock < j.clock :=
    fun _ => Or.inl (by decide)
  have hbegins : ∀ k, i ≤ k → k ≤ j → ¬ p.BeginsAt k := by
    intro k hik hkj hk
    have hmay : (k.date.month : Int) = 5 := hk.1 (.monthOfYear, 5) (List.mem_singleton_self _)
    have hi : ¬ k.date < i.date := fun h => hik (Or.inl h)
    have hj : ¬ j.date < k.date := fun h => hkj (Or.inl h)
    rw [Date.lt_iff] at hi hj
    have hi : ¬ (k.date.year < 2024 ∨ k.date.year = 2024 ∧
        (k.date.month < 6 ∨ k.date.month = 6 ∧ k.date.day < 30)) := hi
    have hj : ¬ (2024 < k.date.year ∨ 2024 = k.date.year ∧
        (7 < k.date.month ∨ 7 = k.date.month ∧ 1 < k.date.day)) := hj
    omega
  obtain ⟨d, e, hd, he, hde, hsince⟩ := elapses_in_round p hij rfl hmonth
  have hzero : d ≠ 0 := by
    have hmicros := i.clock.micros_mem
    have hjune : i.date.month = 6 := rfl
    rw [durationUntil_month rfl, Except.ok.injEq, hjune] at hd
    omega
  obtain ⟨v, w, hv, hw, hwv⟩ := hsince hbegins fun _ => hzero
  exact ⟨c, p, i, j, rfl, hij, rfl, hmonth, hbegins, d, e, v, w, hd, he, hde, fun _ => hzero, hv, hw,
    hwv⟩

/-- The duration from May falls in the night to the second of April. -/
theorem duration_falls_in_april : ∃ (c : Cycle) (p : Point c) (i j : DateTime),
    p.digits = [(.monthOfYear, 5)] ∧ i < j ∧ DateTime.InOneRound c.coarsest i j ∧
    p.durationUntil (.dateTime i) = .ok (-2546946000000) ∧
    p.durationUntil (.dateTime j) = .ok (-2626146000000) := by
  let c : Cycle := ⟨[.monthOfYear], by decide, by decide⟩
  let p : Point c := ⟨[(.monthOfYear, 5)], rfl, by decide⟩
  let i : DateTime := ⟨⟨2024, 4, 1, by decide, by decide, by decide⟩,
    ⟨23, 0, 0, 0, by decide, by decide, by decide, by decide⟩⟩
  let j : DateTime := ⟨⟨2024, 4, 2, by decide, by decide, by decide⟩,
    ⟨1, 0, 0, 0, by decide, by decide, by decide, by decide⟩⟩
  have hp : p.digits = [(.monthOfYear, 5)] := rfl
  have hd : ((i.date.month : Int) - 5) * 2629746000000 + i.clock.micros = -2546946000000 := by decide
  have he : ((j.date.month : Int) - 5) * 2629746000000 + j.clock.micros = -2626146000000 := by decide
  refine ⟨c, p, i, j, hp, Or.inl (Date.lt_iff.2 (by decide)), rfl, ?_, ?_⟩
  · rw [durationUntil_month hp, hd]
  · rw [durationUntil_month hp, he]

end Point

end OpeningHours
