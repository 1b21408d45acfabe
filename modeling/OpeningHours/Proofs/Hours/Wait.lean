import OpeningHours.Proofs.Hours.Cover
import OpeningHours.Proofs.Point.Wait

/-!
# The wait for the next opening

Times of the week are counted in microseconds from Monday 00:00 (`Instant.weekTime`), and they go
round after a week. The wait of hours that close at some time is the least way forward from the
time of an instant to the start of a period (`waitBefore_eq`). Between two times with no start
from the first one on, what is open at the second is open at the first
(`covered_of_no_start_between`). So who waits outside the hours waits for the first open moment
(`waitBefore_exact`).
-/

namespace OpeningHours

/-- The microseconds from the start of the week to an instant, which should carry the weekday. -/
def Instant.weekTime (i : Instant) : Int :=
  ((i.read? .dayOfWeek).getD 1 - 1) * TimeUnit.days.duration + i.timeOfDay

/-- The minute of the week at a time of the week. -/
def weekMinute (x : Int) : Point .week :=
  Point.ofIndex .week (x / TimeUnit.minutes.duration)

theorem index_weekMinute (x : Int) : (weekMinute x).index = x / 60000000 % 10080 :=
  Point.index_ofIndex _

theorem index_week_mem (t : Point .week) : 0 ≤ t.index ∧ t.index < 10080 :=
  t.index_mem

theorem index_week_eq (t : Point .week) :
    t.index = t.value .minute + 60 * (t.value .hour + 24 * (t.value .weekday - 1)) := by
  have hdigits : t.digits = [(.minuteOfHour, t.value .minute), (.hourOfDay, t.value .hour),
      (.dayOfWeek, t.value .weekday)] := t.digits_eq_map_value
  rw [Point.index, hdigits]
  show t.value .minute - 0 + 60 * (t.value .hour - 0 + 24 * (t.value .weekday - 1 + 7 * 0)) = _
  omega

/-- Only the week has all three scales. -/
theorem Cycle.eq_week {c : Cycle} (h : ∀ a : Axis, a.scale ∈ c.scales) : c = .week := by
  have hruns : ∀ ss ∈ Scale.runs, (∀ a ∈ Axis.all, a.scale ∈ ss) → ss = Cycle.week.scales := by
    decide
  have hs : c.scales = Cycle.week.scales := hruns c.scales c.scales_mem_runs fun a _ => h a
  cases c
  cases hs
  rfl

theorem weekTime_point (t : Point .week) : (Instant.point t).weekTime = t.index * 60000000 := by
  have hdigits : t.digits = [(.minuteOfHour, t.value .minute), (.hourOfDay, t.value .hour),
      (.dayOfWeek, t.value .weekday)] := t.digits_eq_map_value
  have hday : (Instant.point t).read? .dayOfWeek = some (t.value .weekday) := t.digit?_axis .weekday
  have htime : (Instant.point t).timeOfDay =
      t.value .minute * 60000000 + t.value .hour * 3600000000 := by
    show t.digits.timeOfDay = _
    rw [hdigits]
    simp [Digits.timeOfDay, Scale.step, Scale.minimum, TimeUnit.duration]
  unfold Instant.weekTime
  rw [hday, htime, index_week_eq]
  show (t.value .weekday - 1) * 86400000000 + _ = _
  omega

theorem weekTime_dateTime (d : DateTime) (t : Point .week)
    (h : (Instant.dateTime d).project .week = .ok t) :
    (Instant.dateTime d).weekTime = t.phase (.dateTime d) := by
  have hread := Instant.read?_of_project h
  have hm : (d.clock.minute : Int) = t.value .minute := Option.some.inj (hread .minute)
  have hh : (d.clock.hour : Int) = t.value .hour := Option.some.inj (hread .hour)
  have hw : (Instant.dateTime d).read? .dayOfWeek = some (t.value .weekday) := hread .weekday
  have hs := d.clock.second_lt
  have hu := d.clock.micro_lt
  unfold Instant.weekTime Point.phase
  rw [hw, index_week_eq, ← hm, ← hh]
  show (t.value .weekday - 1) * 86400000000 + d.clock.micros =
    (d.clock.minute + 60 * (d.clock.hour + 24 * (t.value .weekday - 1))) * 60000000 +
      d.clock.micros % 60000000
  unfold Clock.micros Clock.seconds
  omega

/-- The time of the week of an instant that carries minute, hour and weekday is its phase. -/
theorem weekTime_eq_phase {i : Instant} {v : Axis → Int}
    (hv : ∀ a : Axis, i.read? a.scale = some (v a)) {t : Point .week}
    (ht : i.project .week = .ok t) : i.weekTime = t.phase i := by
  cases i with
  | dateTime d => exact weekTime_dateTime d t ht
  | date d => cases hv .minute
  | clock d => cases hv .weekday
  | @point c p =>
    obtain rfl : c = .week := by
      apply Cycle.eq_week
      intro a
      rw [← p.scales_eq]
      exact List.mem_map_of_mem (Point.digit?_eq_some_iff.1 (hv a))
    rw [Instant.project_point] at ht
    cases ht
    rw [weekTime_point]
    exact (Int.add_zero _).symm

theorem weekMinute_weekTime {i : Instant} {v : Axis → Int}
    (hv : ∀ a : Axis, i.read? a.scale = some (v a)) {t : Point .week}
    (ht : i.project .week = .ok t) : weekMinute i.weekTime = t := by
  have hdiv := t.phase_div i
  rw [← weekTime_eq_phase hv ht] at hdiv
  have hdiv : i.weekTime / 60000000 = t.index := hdiv
  have hmem := index_week_mem t
  apply Point.ext_index
  rw [index_weekMinute, hdiv]
  omega

namespace Period

/-- The way forward from a time of the week to the next start of a period. -/
def wayTo (p : Period .week) (x : Int) : Int :=
  ((Instant.point p.start).weekTime - x) % TimeUnit.weeks.duration

theorem wayTo_eq (p : Period .week) (x : Int) :
    p.wayTo x = (p.start.index * 60000000 - x) % 604800000000 := by
  unfold wayTo
  rw [weekTime_point]
  rfl

theorem wayTo_mem (p : Period .week) (x : Int) : 0 ≤ p.wayTo x ∧ p.wayTo x < 604800000000 := by
  rw [wayTo_eq]
  omega

/-- A period starts when the way to it has been gone, and at no earlier time. -/
theorem start_eq_iff {p : Period .week} {x e : Int} (h0 : 0 ≤ e) (h1 : e < 604800000000) :
    (Instant.point p.start).weekTime = (x + e) % TimeUnit.weeks.duration ↔ e = p.wayTo x := by
  have hs := index_week_mem p.start
  rw [weekTime_point, wayTo_eq]
  show p.start.index * 60000000 = (x + e) % 604800000000 ↔ _
  omega

theorem waitBefore_eq {p : Period .week} (ha : ¬ p.isAlways = true) {i : Instant} {v : Axis → Int}
    (hv : ∀ a : Axis, i.read? a.scale = some (v a)) (u : TimeUnit) :
    p.waitBefore i u = .ok (.amount (p.wayTo i.weekTime / u.duration)) := by
  obtain ⟨t, ht, -⟩ := Instant.exists_project_week hv
  unfold waitBefore wayTo
  rw [if_neg ha, Point.since_eq ht, weekTime_eq_phase hv ht, weekTime_point]
  rfl

/-- If no period starts from `x` up to a later covered time, then it is covered from `x` on. -/
theorem covered_of_no_start_between {ps : List (Period .week)} {x e : Int} (he : 0 ≤ e)
    (hno : ∀ p ∈ ps, e < p.wayTo x) (hc : Covered ps (weekMinute (x + e))) :
    Covered ps (weekMinute x) := by
  obtain ⟨p, hp, hc⟩ := hc
  have hway := hno p hp
  have hs := index_week_mem p.start
  have hl := index_week_mem p.last
  rw [wayTo_eq] at hway
  rw [covers_iff_index, index_weekMinute] at hc
  refine ⟨p, hp, ?_⟩
  rw [covers_iff_index, index_weekMinute]
  omega

theorem covered_weekMinute_start {ps : List (Period .week)} (hps : IsNormal ps) {p : Period .week}
    (hp : p ∈ ps) {x : Int}
    (hx : (Instant.point p.start).weekTime = x % TimeUnit.weeks.duration) :
    Covered ps (weekMinute x) := by
  have hf := Point.le_iff_index.1 (hps.forward p hp)
  have hs := index_week_mem p.start
  rw [weekTime_point] at hx
  have hx : p.start.index * 60000000 = x % 604800000000 := hx
  refine ⟨p, hp, ?_⟩
  rw [covers_iff_index, index_weekMinute]
  omega

end Period

theorem foldl_min_amount (n : Int) (ns : List Int) :
    (ns.map Wait.amount).foldl Wait.min (.amount n) = .amount (ns.foldl min n) := by
  induction ns generalizing n with
  | nil => rfl
  | cons m ns ih => exact ih (min n m)

/-- The least of some waits, of which there is at least one. -/
theorem foldl_min_eq {ns : List Int} {m : Int} (h : ns.min? = some m) :
    (ns.map Wait.amount).foldl Wait.min .unbounded = .amount m := by
  cases ns with
  | nil => cases h
  | cons n ns =>
    rw [List.min?_cons'] at h
    cases h
    exact foldl_min_amount n ns

/-- Division by a unit does not change which wait is the least. -/
theorem min?_map_ediv {ns : List Int} {m : Int} (h : ns.min? = some m) {k : Int} (hk : 0 < k) :
    (ns.map (· / k)).min? = some (m / k) := by
  obtain ⟨hm, hle⟩ := List.min?_eq_some_iff.1 h
  refine List.min?_eq_some_iff.2 ⟨List.mem_map_of_mem hm, ?_⟩
  intro q hq
  obtain ⟨n, hn, rfl⟩ := List.mem_map.1 hq
  exact Int.ediv_le_ediv hk (hle n hn)

namespace Hours

variable {h : Hours}

/-- Whether the hours are open at a time of the week. -/
def openAtTime (h : Hours) (x : Int) : Bool :=
  h.openAt (weekMinute x)

theorem isOpen_eq_openAtTime {i : Instant} {v : Axis → Int}
    (hv : ∀ a : Axis, i.read? a.scale = some (v a)) :
    h.isOpen i = .ok (h.openAtTime i.weekTime) := by
  obtain ⟨t, ht, -⟩ := Instant.exists_project_week hv
  rw [isOpen_of_project ht, openAtTime, weekMinute_weekTime hv ht]

/-- The wait in any unit is the least way to a start, in whole units. -/
theorem waitBefore_eq (ha : h.isAlways = false) {i : Instant} {v : Axis → Int}
    (hv : ∀ a : Axis, i.read? a.scale = some (v a)) {d : Int}
    (hd : (h.periods.map (·.wayTo i.weekTime)).min? = some d) (u : TimeUnit) :
    h.waitBefore i u = .ok (.amount (d / u.duration)) := by
  have hwaits : h.periods.mapM (·.waitBefore i u) =
      .ok (h.periods.map fun p => .amount (p.wayTo i.weekTime / u.duration)) :=
    mapM_eq_ok_map fun p hp => Period.waitBefore_eq (isAlways_of_mem ha hp) hv u
  have hmin := foldl_min_eq (min?_map_ediv hd u.duration_pos)
  rw [List.map_map, List.map_map] at hmin
  unfold waitBefore
  rw [hwaits]
  exact congrArg Except.ok hmin

/-- The wait before hours that close at some time is the exact way to the next start of a period;
outside the hours it is all closed time, and the hours are open after it. In another unit the
wait is that way in whole units. -/
theorem waitBefore_exact {config : Config} {spec : String} {h : Hours}
    (hh : ofSpec? config spec = .ok h) (ha : h.isAlways = false) {i : Instant} {v : Axis → Int}
    (hv : ∀ a : Axis, i.read? a.scale = some (v a)) :
    ∃ d, h.waitBefore i .micros = .ok (.amount d) ∧ 0 ≤ d ∧ d < TimeUnit.weeks.duration ∧
      (∃ p ∈ h.periods,
        (Instant.point p.start).weekTime = (i.weekTime + d) % TimeUnit.weeks.duration) ∧
      (∀ e, 0 ≤ e → e < d → ∀ p ∈ h.periods,
        (Instant.point p.start).weekTime ≠ (i.weekTime + e) % TimeUnit.weeks.duration) ∧
      (h.isOpen i = .ok false → 0 < d ∧
        (∀ e, 0 ≤ e → e < d → h.openAtTime (i.weekTime + e) = false) ∧
        h.openAtTime (i.weekTime + d) = true) ∧
      ∀ u, h.waitBefore i u = .ok (.amount (d / u.duration)) := by
  have hne : h.periods.map (·.wayTo i.weekTime) ≠ [] := by
    rw [ne_eq, List.map_eq_nil_iff]
    exact periods_ne_nil hh
  obtain ⟨d, hd⟩ := Option.isSome_iff_exists.1 (List.isSome_min?_of_ne_nil hne)
  obtain ⟨hmem, hle⟩ := List.min?_eq_some_iff.1 hd
  obtain ⟨p, hp, hpd⟩ := List.mem_map.1 hmem
  obtain ⟨hd0, hdw⟩ : 0 ≤ d ∧ d < 604800000000 := hpd ▸ p.wayTo_mem i.weekTime
  have hleast : ∀ q ∈ h.periods, d ≤ q.wayTo i.weekTime := fun q hq =>
    hle _ (List.mem_map_of_mem hq)
  have hstart := (Period.start_eq_iff hd0 hdw).2 hpd.symm
  have hunit := waitBefore_eq ha hv hd
  refine ⟨d, ?_, hd0, hdw, ⟨p, hp, hstart⟩, ?_, ?_, hunit⟩
  · rw [hunit]
    show Except.ok (Wait.amount (d / 1)) = _
    rw [Int.ediv_one]
  · intro e he hed q hq hqe
    have := hleast q hq
    rw [Period.start_eq_iff he (by omega)] at hqe
    omega
  · intro hclosed
    rw [isOpen_eq_openAtTime hv] at hclosed
    have hnow : ¬ Period.Covered h.periods (weekMinute i.weekTime) := by
      rw [← openAt_iff_covered, Bool.not_eq_true]
      exact Except.ok.inj hclosed
    have hthen : Period.Covered h.periods (weekMinute (i.weekTime + d)) :=
      Period.covered_weekMinute_start (isNormal_periods hh) hp hstart
    refine ⟨?_, ?_, openAt_iff_covered.2 hthen⟩
    · by_cases h0 : d = 0
      · rw [h0, Int.add_zero] at hthen
        exact absurd hthen hnow
      · omega
    · intro e he hed
      rw [openAtTime, ← Bool.not_eq_true, openAt_iff_covered]
      refine fun hc => hnow (Period.covered_of_no_start_between he ?_ hc)
      intro q hq
      have := hleast q hq
      omega

set_option maxRecDepth 4000 in
/-- A Sunday night before office hours, a quarter of a minute past half past eleven. -/
theorem waitBefore_exact_sunday_night : ∃ (h : Hours) (i : Instant) (v : Axis → Int),
    ofSpec? .default "wd {Mon-Fri} hr {9-18}" = .ok h ∧ h.isAlways = false ∧
    (∀ a : Axis, i.read? a.scale = some (v a)) ∧ i.weekTime = 603015000000 ∧
    ∃ d, h.waitBefore i .micros = .ok (.amount d) ∧ 0 ≤ d ∧ d < TimeUnit.weeks.duration ∧
      (∃ p ∈ h.periods,
        (Instant.point p.start).weekTime = (i.weekTime + d) % TimeUnit.weeks.duration) ∧
      (∀ e, 0 ≤ e → e < d → ∀ p ∈ h.periods,
        (Instant.point p.start).weekTime ≠ (i.weekTime + e) % TimeUnit.weeks.duration) ∧
      (h.isOpen i = .ok false → 0 < d ∧
        (∀ e, 0 ≤ e → e < d → h.openAtTime (i.weekTime + e) = false) ∧
        h.openAtTime (i.weekTime + d) = true) ∧
      ∀ u, h.waitBefore i u = .ok (.amount (d / u.duration)) := by
  have hok : ((ofSpec? .default "wd {Mon-Fri} hr {9-18}").toOption.any
      fun h => !h.isAlways) = true := by cbv
  obtain ⟨h, hh, ha⟩ := exists_eq_ok_of_any hok
  have ha : h.isAlways = false := by simpa using ha
  have hv := Instant.read?_dateTime ⟨⟨2024, 1, 7, by decide, by decide, by decide⟩,
    ⟨23, 30, 15, 0, by decide, by decide, by decide, by decide⟩⟩
  exact ⟨h, _, _, hh, ha, hv, rfl, waitBefore_exact hh ha hv⟩

end Hours

end OpeningHours
