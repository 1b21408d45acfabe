import OpeningHours.Calendar.Scale
import OpeningHours.Proofs.Calendar.DayNumber

/-!
# The line of moments

Moments are ordered by their dates, and on one date by the clock. The time since the start of the
calendar goes up with them (`lt_iff_elapsed_lt`), and between two moments there is one at each
microsecond (`exists_elapsed_eq`). Two moments are in one round of the minutes, the hours or the
weekdays if they share the hour, the day or the Monday that their week starts with. The calendar
starts on a Monday at midnight, so the rounds are those that its time is cut in
(`inOneRound_iff_elapsed`).
-/

namespace OpeningHours

namespace Clock

instance : LT Clock :=
  ⟨fun s t => [s.hour, s.minute, s.second, s.micro] < [t.hour, t.minute, t.second, t.micro]⟩

theorem micros_mem (t : Clock) : 0 ≤ t.micros ∧ t.micros < 86400000000 := by
  have := t.hour_lt
  have := t.minute_lt
  have := t.second_lt
  have := t.micro_lt
  unfold micros seconds
  omega

theorem lt_iff_micros_lt {s t : Clock} : s < t ↔ s.micros < t.micros := by
  have hlex : s < t ↔ s.hour < t.hour ∨ s.hour = t.hour ∧ (s.minute < t.minute ∨
      s.minute = t.minute ∧ (s.second < t.second ∨ s.second = t.second ∧ s.micro < t.micro)) := by
    show [s.hour, s.minute, s.second, s.micro] < [t.hour, t.minute, t.second, t.micro] ↔ _
    simp [List.cons_lt_cons_iff]
  have := s.minute_lt
  have := s.second_lt
  have := s.micro_lt
  have := t.minute_lt
  have := t.second_lt
  have := t.micro_lt
  rw [hlex]
  unfold micros seconds
  omega

theorem micros_div_hour (t : Clock) : t.micros / 3600000000 = t.hour := by
  have := t.minute_lt
  have := t.second_lt
  have := t.micro_lt
  unfold micros seconds
  omega

theorem exists_micros_eq {n : Int} (h0 : 0 ≤ n) (h1 : n < 86400000000) :
    ∃ t : Clock, t.micros = n := by
  obtain ⟨m, rfl⟩ := Int.eq_ofNat_of_zero_le h0
  refine ⟨⟨m / 3600000000, m / 60000000 % 60, m / 1000000 % 60, m % 1000000, by omega, by omega,
    by omega, by omega⟩, ?_⟩
  show ((m / 3600000000 * 3600 + m / 60000000 % 60 * 60 + m / 1000000 % 60) * 1000000 +
    m % 1000000 : Nat) = (m : Int)
  omega

end Clock

/-- The number of the Monday that the week of the date starts with. -/
def Date.monday (d : Date) : Nat :=
  d.dayNumber + 1 - d.weekday

namespace DateTime

variable {i j : DateTime}

instance : LT DateTime := ⟨fun i j => i.date < j.date ∨ i.date = j.date ∧ i.clock < j.clock⟩
instance : LE DateTime := ⟨fun i j => ¬ j < i⟩

/-- The microseconds since the calendar started. -/
def elapsed (t : DateTime) : Int :=
  (t.date.dayNumber - 1) * 86400000000 + t.clock.micros

theorem lt_iff_elapsed_lt : i < j ↔ i.elapsed < j.elapsed := by
  have hi := i.clock.micros_mem
  have hj := j.clock.micros_mem
  show (i.date < j.date ∨ i.date = j.date ∧ i.clock < j.clock) ↔ _
  rw [Date.lt_iff_dayNumber_lt, ← Date.dayNumber_inj, Clock.lt_iff_micros_lt]
  unfold elapsed
  omega

theorem le_iff_elapsed_le : i ≤ j ↔ i.elapsed ≤ j.elapsed := by
  show ¬ j < i ↔ _
  rw [lt_iff_elapsed_lt, Int.not_lt]

theorem le_of_lt (h : i < j) : i ≤ j :=
  le_iff_elapsed_le.2 (Int.le_of_lt (lt_iff_elapsed_lt.1 h))

/-- Between two moments there is one at each microsecond. -/
theorem exists_elapsed_eq {n : Int} (h0 : i.elapsed ≤ n) (h1 : n ≤ j.elapsed) :
    ∃ k : DateTime, k.elapsed = n := by
  have hi := i.clock.micros_mem
  have hj := j.clock.micros_mem
  have hpos := i.date.dayNumber_pos
  unfold elapsed at h0 h1
  obtain ⟨d, hd⟩ := Date.exists_dayNumber_eq (d := i.date) (e := j.date)
    (n := (n / 86400000000).toNat + 1) (by omega) (by omega)
  obtain ⟨t, ht⟩ := Clock.exists_micros_eq (n := n % 86400000000) (by omega) (by omega)
  refine ⟨⟨d, t⟩, ?_⟩
  show (d.dayNumber - 1) * 86400000000 + t.micros = n
  omega

/-- Whether two moments are in one round of a scale: in the same hour, day, week from Monday to
Sunday, month or year. -/
def InOneRound : Scale → DateTime → DateTime → Prop
  | .minuteOfHour, i, j => i.date = j.date ∧ i.clock.hour = j.clock.hour
  | .hourOfDay, i, j => i.date = j.date
  | .dayOfWeek, i, j => i.date.monday = j.date.monday
  | .dayOfMonth, i, j => i.date.year = j.date.year ∧ i.date.month = j.date.month
  | .monthOfYear, i, j => i.date.year = j.date.year

theorem month_le_of_lt (h : i < j) (hyear : i.date.year = j.date.year) :
    i.date.month ≤ j.date.month := by
  rcases h with hdate | ⟨hdate, -⟩
  · rw [Date.lt_iff] at hdate
    omega
  · exact Nat.le_of_eq (congrArg Date.month hdate)

/-- The rounds of the minutes, the hours and the weekdays cut the time of the calendar. -/
theorem inOneRound_iff_elapsed {s : Scale} (hs : s ∈ [.minuteOfHour, .hourOfDay, .dayOfWeek]) :
    InOneRound s i j ↔ i.elapsed / s.round.duration = j.elapsed / s.round.duration := by
  have hi := i.clock.micros_mem
  have hj := j.clock.micros_mem
  unfold elapsed
  simp only [List.mem_cons, List.not_mem_nil, or_false] at hs
  rcases hs with rfl | rfl | rfl
  · have hhi := i.clock.micros_div_hour
    have hhj := j.clock.micros_div_hour
    show (i.date = j.date ∧ i.clock.hour = j.clock.hour) ↔
      ((i.date.dayNumber - 1) * 86400000000 + i.clock.micros) / 3600000000 =
        ((j.date.dayNumber - 1) * 86400000000 + j.clock.micros) / 3600000000
    rw [← Date.dayNumber_inj]
    omega
  · show i.date = j.date ↔
      ((i.date.dayNumber - 1) * 86400000000 + i.clock.micros) / 86400000000 =
        ((j.date.dayNumber - 1) * 86400000000 + j.clock.micros) / 86400000000
    rw [← Date.dayNumber_inj]
    omega
  · show i.date.monday = j.date.monday ↔
      ((i.date.dayNumber - 1) * 86400000000 + i.clock.micros) / 604800000000 =
        ((j.date.dayNumber - 1) * 86400000000 + j.clock.micros) / 604800000000
    unfold Date.monday Date.weekday
    omega

/-- What lies between two moments of a round is in it. -/
theorem InOneRound.of_le {k : DateTime} {s : Scale}
    (hs : s ∈ [.minuteOfHour, .hourOfDay, .dayOfWeek]) (hij : InOneRound s i j) (hik : i ≤ k)
    (hkj : k ≤ j) : InOneRound s i k := by
  rw [inOneRound_iff_elapsed hs] at hij ⊢
  have hlow := Int.ediv_le_ediv s.round.duration_pos (le_iff_elapsed_le.1 hik)
  have hhigh := Int.ediv_le_ediv s.round.duration_pos (le_iff_elapsed_le.1 hkj)
  omega

end DateTime

end OpeningHours
