import OpeningHours.Calendar.Date

/-!
# The days of the calendar in a row

Dates are ordered by year, month and day. The days of a year fill it up to the next one
(`daysBeforeYear_succ`, `dayOfYear_le`), and so the number of the day goes up with the date
(`lt_iff_dayNumber_lt`). The day after has the next number (`dayNumber_of_next?`), and only the last
day of the calendar has none. So no number between those of two dates is left out
(`exists_dayNumber_eq`).
-/

namespace OpeningHours

def yearLength (y : Nat) : Nat :=
  if isLeapYear y then 366 else 365

theorem isLeapYear_iff {y : Nat} :
    isLeapYear y = true ↔ 4 ∣ y ∧ (¬ 100 ∣ y ∨ 400 ∣ y) := by
  simp [isLeapYear, Nat.dvd_iff_mod_eq_zero]

namespace Date

theorem daysBeforeYear_succ {y : Nat} (h : 1 ≤ y) :
    daysBeforeYear (y + 1) = daysBeforeYear y + yearLength y := by
  obtain ⟨n, rfl⟩ := Nat.exists_eq_add_of_le' h
  have hle : n / 100 ≤ n / 4 := Nat.div_le_div_left (by decide) (by decide)
  have h4 : 100 ∣ n + 1 → 4 ∣ n + 1 := Nat.dvd_trans (by decide)
  have h100 : 400 ∣ n + 1 → 100 ∣ n + 1 := Nat.dvd_trans (by decide)
  unfold daysBeforeYear yearLength
  simp only [isLeapYear_iff, Nat.add_sub_cancel, Nat.succ_div]
  generalize n / 4 = a at hle ⊢
  generalize n / 100 = b at hle ⊢
  -- each quotient goes up by one where the year is a multiple of its divisor
  by_cases hd : 400 ∣ n + 1
  · simp only [hd, h100 hd, h4 (h100 hd), not_true_eq_false, false_or, and_true, if_true]
    omega
  · by_cases hc : 100 ∣ n + 1
    · simp only [hd, hc, h4 hc, not_true_eq_false, or_false, and_false, if_true, if_false]
      omega
    · by_cases hb : 4 ∣ n + 1
      · simp only [hd, hc, hb, not_false_eq_true, true_or, and_true, if_true, if_false]
        omega
      · simp only [hd, hc, hb, false_and, if_false]
        omega

theorem daysBeforeYear_mono {y z : Nat} (hy : 1 ≤ y) (h : y ≤ z) :
    daysBeforeYear y ≤ daysBeforeYear z := by
  induction h with
  | refl => exact Nat.le_refl _
  | @step z hz ih =>
    rw [Nat.succ_eq_add_one, daysBeforeYear_succ (Nat.le_trans hy hz)]
    omega

variable {y m n : Nat}

theorem daysBeforeMonth_succ (h : 1 ≤ m) :
    daysBeforeMonth y (m + 1) = daysBeforeMonth y m + daysInMonth y m := by
  cases m with
  | zero => omega
  | succ m => rfl

theorem daysBeforeMonth_mono (hm : 1 ≤ m) (h : m ≤ n) :
    daysBeforeMonth y m ≤ daysBeforeMonth y n := by
  induction h with
  | refl => exact Nat.le_refl _
  | @step n hn ih =>
    rw [Nat.succ_eq_add_one, daysBeforeMonth_succ (Nat.le_trans hm hn)]
    omega

/-- The twelve months make up the year. -/
theorem daysBeforeMonth_thirteen (y : Nat) : daysBeforeMonth y 13 = yearLength y := by
  unfold yearLength
  cases hl : isLeapYear y <;> simp [daysBeforeMonth, daysInMonth, hl]

/-- A day of one month comes before the first day of a later month. -/
theorem dayOfYear_le {d : Date} (h : d.month < n) :
    daysBeforeMonth d.year d.month + d.day ≤ daysBeforeMonth d.year n := by
  have hday := d.day_mem.2
  have hsucc := daysBeforeMonth_succ (y := d.year) d.month_mem.1
  have hmono := daysBeforeMonth_mono (y := d.year) (show 1 ≤ d.month + 1 by omega) h
  omega

instance : LT Date := ⟨fun d e => [d.year, d.month, d.day] < [e.year, e.month, e.day]⟩

theorem lt_iff {d e : Date} : d < e ↔ d.year < e.year ∨ d.year = e.year ∧
    (d.month < e.month ∨ d.month = e.month ∧ d.day < e.day) := by
  show [d.year, d.month, d.day] < [e.year, e.month, e.day] ↔ _
  simp [List.cons_lt_cons_iff]

theorem lt_trichotomy (d e : Date) : d < e ∨ d = e ∨ e < d := by
  rw [lt_iff, lt_iff]
  by_cases h : d.year = e.year ∧ d.month = e.month ∧ d.day = e.day
  · obtain ⟨hy, hm, hd⟩ := h
    refine Or.inr (Or.inl ?_)
    cases d
    cases e
    simp_all
  · omega

theorem dayNumber_lt_of_lt {d e : Date} (h : d < e) : d.dayNumber < e.dayNumber := by
  have hpos := e.day_mem.1
  unfold dayNumber
  rcases lt_iff.1 h with hy | ⟨hy, hm | ⟨hm, hd⟩⟩
  · have hyear := dayOfYear_le (d := d) (n := 13) (by have := d.month_mem; omega)
    have hmono := daysBeforeYear_mono (show 1 ≤ d.year + 1 by omega) hy
    rw [daysBeforeMonth_thirteen] at hyear
    rw [daysBeforeYear_succ d.year_mem.1] at hmono
    omega
  · have hmonth := dayOfYear_le hm
    rw [← hy]
    omega
  · rw [← hy, ← hm]
    omega

theorem lt_iff_dayNumber_lt {d e : Date} : d < e ↔ d.dayNumber < e.dayNumber := by
  constructor
  · exact dayNumber_lt_of_lt
  · intro h
    rcases lt_trichotomy d e with hlt | rfl | hgt
    · exact hlt
    · omega
    · have := dayNumber_lt_of_lt hgt
      omega

theorem dayNumber_inj {d e : Date} : d.dayNumber = e.dayNumber ↔ d = e := by
  constructor
  · intro h
    have hde := mt lt_iff_dayNumber_lt.1 (Nat.not_lt.2 (Nat.le_of_eq h.symm))
    have hed := mt lt_iff_dayNumber_lt.1 (Nat.not_lt.2 (Nat.le_of_eq h))
    exact ((lt_trichotomy d e).resolve_left hde).resolve_right hed
  · rintro rfl
    rfl

theorem dayNumber_pos (d : Date) : 1 ≤ d.dayNumber := by
  have := d.day_mem.1
  unfold dayNumber
  omega

theorem dayNumber_of_next? {d e : Date} (h : d.next? = some e) :
    e.dayNumber = d.dayNumber + 1 := by
  have hm := d.month_mem
  have hd := d.day_mem
  have hsucc := daysBeforeMonth_succ (y := d.year) hm.1
  unfold next? at h
  split at h
  · cases h
    rfl
  · split at h
    · cases h
      show daysBeforeYear d.year + daysBeforeMonth d.year (d.month + 1) + 1 =
        daysBeforeYear d.year + daysBeforeMonth d.year d.month + d.day + 1
      omega
    · split at h
      · cases h
        have hyear : daysBeforeMonth d.year (d.month + 1) = yearLength d.year := by
          rw [show d.month + 1 = 13 by omega, daysBeforeMonth_thirteen]
        have hnext := daysBeforeYear_succ d.year_mem.1
        show daysBeforeYear (d.year + 1) + 0 + 1 =
          daysBeforeYear d.year + daysBeforeMonth d.year d.month + d.day + 1
        omega
      · cases h

/-- Only the last day of the calendar has no day after. -/
theorem dayNumber_le_of_next?_eq_none {d : Date} (h : d.next? = none) (e : Date) :
    e.dayNumber ≤ d.dayNumber := by
  have hy := e.year_mem
  have hm := e.month_mem
  have hd := e.day_mem
  unfold next? at h
  split at h
  · cases h
  · split at h
    · cases h
    · split at h
      · cases h
      · rw [← Nat.not_lt, ← lt_iff_dayNumber_lt, lt_iff]
        intro hlt
        have hmonth : e.month = d.month := by omega
        have hyear : e.year = d.year := by omega
        rw [hmonth, hyear] at hd
        omega

/-- Each number between those of two dates is the number of a date. -/
theorem exists_dayNumber_eq {d e : Date} {n : Nat} (h0 : d.dayNumber ≤ n) (h1 : n ≤ e.dayNumber) :
    ∃ f : Date, f.dayNumber = n := by
  induction h0 with
  | refl => exact ⟨d, rfl⟩
  | @step n _ ih =>
    obtain ⟨f, hf⟩ := ih (Nat.le_of_succ_le h1)
    cases hnext : f.next? with
    | none =>
      have := dayNumber_le_of_next?_eq_none hnext e
      omega
    | some g => exact ⟨g, by rw [dayNumber_of_next? hnext, hf]⟩

end Date

end OpeningHours
