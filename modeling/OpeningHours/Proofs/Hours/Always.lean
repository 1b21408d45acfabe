import OpeningHours.Proofs.Hours.Partition
import OpeningHours.Proofs.Hours.Wait

/-!
# Hours that never close

A period that does not wrap never closes exactly if it is the whole week, and a normal form that
covers every minute of the week has nothing but this period (`eq_wholeWeek_iff_covered`). So the
hours that say of themselves that they never close are those that are open at every minute, however
their cover came about, and they alone have no wait and no triggers (`periods_shape`).
-/

namespace OpeningHours

namespace Period

/-- Monday 00:00 to Sunday 23:59. -/
def wholeWeek : Period .week where
  start := ⟨[(.minuteOfHour, 0), (.hourOfDay, 0), (.dayOfWeek, 1)], rfl, by decide⟩
  last := ⟨[(.minuteOfHour, 59), (.hourOfDay, 23), (.dayOfWeek, 7)], rfl, by decide⟩

theorem index_start_wholeWeek : wholeWeek.start.index = 0 := by
  decide

theorem index_last_wholeWeek : wholeWeek.last.index = 10079 := by
  decide

theorem isAlways_wholeWeek : wholeWeek.isAlways = true := by
  decide

theorem covers_wholeWeek (t : Point .week) : wholeWeek.covers t = true := by
  have ht := index_week_mem t
  rw [covers_iff_index, index_start_wholeWeek, index_last_wholeWeek]
  omega

theorem isAlways_iff_eq_wholeWeek {p : Period .week} (hf : p.start ≤ p.last) :
    p.isAlways = true ↔ p = wholeWeek := by
  constructor
  · intro ha
    obtain ⟨hs, hl⟩ := IsNormal.index_of_isAlways hf ha
    have hsize : Cycle.week.size = 10080 := by decide
    apply ext_index
    · rw [hs, index_start_wholeWeek]
    · rw [index_last_wholeWeek]
      omega
  · rintro rfl
    exact isAlways_wholeWeek

theorem isNormal_wholeWeek : IsNormal [wholeWeek] :=
  .cons (by decide) .nil (by simp)

/-- A normal form that covers every minute of the week is the whole week in one period. -/
theorem eq_wholeWeek_iff_covered {ps : List (Period .week)} (hps : IsNormal ps) :
    ps = [wholeWeek] ↔ ∀ t, Covered ps t := by
  have hall : ∀ t, Covered [wholeWeek] t := fun t =>
    covered_cons.2 (Or.inl (covers_wholeWeek t))
  constructor
  · rintro rfl
    exact hall
  · intro hc
    exact hps.eq_of_covered_iff isNormal_wholeWeek fun t => iff_of_true (hc t) (hall t)

/-- A period that never closes does so for the whole list. -/
theorem eq_wholeWeek_iff_exists_isAlways {ps : List (Period .week)} (hps : IsNormal ps) :
    ps = [wholeWeek] ↔ ∃ p ∈ ps, p.isAlways = true := by
  constructor
  · rintro rfl
    exact ⟨wholeWeek, List.mem_singleton_self _, isAlways_wholeWeek⟩
  · rintro ⟨p, hp, ha⟩
    obtain rfl := (isAlways_iff_eq_wholeWeek (hps.forward p hp)).1 ha
    exact (eq_wholeWeek_iff_covered hps).2 fun t => ⟨_, hp, covers_wholeWeek t⟩

end Period

namespace Hours

variable {config : Config} {spec : String} {h : Hours}

theorem isAlways_iff_periods_eq (hh : ofSpec? config spec = .ok h) :
    h.isAlways = true ↔ h.periods = [Period.wholeWeek] := by
  rw [Period.eq_wholeWeek_iff_exists_isAlways (isNormal_periods hh)]
  exact List.any_eq_true

theorem isAlways_iff_isOpen (hh : ofSpec? config spec = .ok h) :
    h.isAlways = true ↔ ∀ t : Point .week, h.isOpen (.point t) = .ok true := by
  rw [isAlways_iff_periods_eq hh, Period.eq_wholeWeek_iff_covered (isNormal_periods hh)]
  refine forall_congr' fun t => ?_
  rw [isOpen_of_project (Instant.project_point t), Except.ok.injEq, openAt_iff_covered]

/-- Hours that never close are never waited for, not even by an instant that carries nothing. -/
theorem waitBefore_of_isAlways (hh : ofSpec? config spec = .ok h) (ha : h.isAlways = true)
    (i : Instant) (u : TimeUnit) : h.waitBefore i u = .ok .unbounded := by
  have hwhole : Period.wholeWeek.waitBefore i u = .ok .unbounded :=
    if_pos Period.isAlways_wholeWeek
  rw [waitBefore, (isAlways_iff_periods_eq hh).1 ha, List.mapM_cons, hwhole]
  rfl

/-- Other hours are waited for, at the latest until the start of their first period. -/
theorem exists_waitBefore_eq (hh : ofSpec? config spec = .ok h) (ha : h.isAlways = false)
    {i : Instant} {t : Point .week} (hi : i.project .week = .ok t) (u : TimeUnit) :
    ∃ n, h.waitBefore i u = .ok (.amount n) := by
  have hne : h.periods.map (·.wayTo i.weekTime) ≠ [] := by
    rw [ne_eq, List.map_eq_nil_iff]
    exact periods_ne_nil hh
  obtain ⟨d, hd⟩ := Option.isSome_iff_exists.1 (List.isSome_min?_of_ne_nil hne)
  exact ⟨_, waitBefore_eq ha (Instant.read?_of_project hi) hd u⟩

theorem isAlways_iff_waitBefore (hh : ofSpec? config spec = .ok h) (u : TimeUnit) :
    h.isAlways = true ↔ ∀ i, h.waitBefore i u = .ok .unbounded := by
  constructor
  · intro ha i
    exact waitBefore_of_isAlways hh ha i u
  · intro hw
    cases ha : h.isAlways with
    | true => rfl
    | false =>
      have hi := Instant.project_point (Point.first .week)
      obtain ⟨n, hn⟩ := exists_waitBefore_eq hh ha hi u
      rw [hw] at hn
      cases hn

/-- Each period that closes has its line, so only hours that never close have no texts. -/
theorem isAlways_iff_cronTexts_eq_nil (hh : ofSpec? config spec = .ok h)
    {line? : Period .week → Option Cron} {edge : Period .week → Point .week}
    (hline : ∀ p, line? p = if p.isAlways then none else some (.ofPoint (edge p))) :
    h.isAlways = true ↔ cronTexts (Cron.mergeAll (h.periods.filterMap line?)) = [] := by
  constructor
  · intro ha
    exact texts_eq_nil fun p hp => (hline p).trans (if_pos (isAlways_of_isAlways hh ha p hp))
  · intro hnil
    cases ha : h.isAlways with
    | true => rfl
    | false =>
      have hsome : ∀ p ∈ h.periods, line? p = some (.ofPoint (edge p)) := fun p hp =>
        (hline p).trans (if_neg (isAlways_of_mem ha hp))
      obtain ⟨p, hp⟩ := List.exists_mem_of_ne_nil _ (periods_ne_nil hh)
      obtain ⟨line, hmem, -⟩ := (announced_ofPoint_iff hsome).2 ⟨p, hp, rfl⟩
      rw [hnil] at hmem
      exact absurd hmem List.not_mem_nil

/-- What is read is not empty, its periods run forward, and from the end of one to the start of any
later one it is two minutes or more. For the hours that it makes, to say that they never close is
to say any of these: they are open at every minute of the week, they are the one period of the whole
week, there is no instant that waits for them, they have no opening triggers, no closing ones. -/
theorem periods_shape {config : Config} {spec : String} {ps : List (Period .week)}
    (hps : readPeriods config spec = .ok ps) :
    ps ≠ [] ∧
    (∀ p ∈ ps, p.start.digits.map Prod.fst = [.minuteOfHour, .hourOfDay, .dayOfWeek] ∧
      p.last.digits.map Prod.fst = [.minuteOfHour, .hourOfDay, .dayOfWeek] ∧ p.start ≤ p.last) ∧
    ps.Pairwise (fun p q => (Instant.point p.last).weekTime + 2 * TimeUnit.minutes.duration ≤
      (Instant.point q.start).weekTime) ∧
    ∃ h, ofSpec? config spec = .ok h ∧ h.periods = ps ∧ ∀ u : TimeUnit, List.TFAE [
      h.isAlways = true,
      ∀ t : Point .week, h.isOpen (.point t) = .ok true,
      ps = [Period.wholeWeek],
      ∀ i, h.waitBefore i u = .ok .unbounded,
      h.openingTexts = [],
      h.closingTexts = []] := by
  obtain ⟨hnormal, hne, -⟩ := covered_readPeriods hps
  have hh : ofSpec? config spec = .ok ⟨spec, ps⟩ := by
    rw [ofSpec?, hps]
    rfl
  refine ⟨hne, ?_, ?_, ⟨spec, ps⟩, hh, rfl, ?_⟩
  · intro p hp
    exact ⟨p.start.scales_eq, p.last.scales_eq, hnormal.forward p hp⟩
  · refine hnormal.gap.imp fun {p q} hgap => ?_
    rw [weekTime_point, weekTime_point]
    show p.last.index * 60000000 + 2 * 60000000 ≤ q.start.index * 60000000
    omega
  · intro u
    tfae_have 1 ↔ 2 := isAlways_iff_isOpen hh
    tfae_have 1 ↔ 3 := isAlways_iff_periods_eq hh
    tfae_have 1 ↔ 4 := isAlways_iff_waitBefore hh u
    tfae_have 1 ↔ 5 := isAlways_iff_cronTexts_eq_nil hh fun _ => rfl
    tfae_have 1 ↔ 6 := isAlways_iff_cronTexts_eq_nil hh fun _ => rfl
    tfae_finish

set_option maxRecDepth 4000 in
/-- The two halves of the day, in two pieces and in another order, never close. A night over the end
of the week and a lunch break are three periods, and there everything is otherwise. -/
theorem periods_shape_two_halves :
    (∃ h, ofSpec? .default "hr {12pm-11pm}, hr {0-11}" = .ok h ∧
      readPeriods .default "hr {12pm-11pm}, hr {0-11}" = .ok h.periods ∧
      h.isAlways = true ∧ (∀ t : Point .week, h.isOpen (.point t) = .ok true) ∧
      h.periods = [Period.wholeWeek] ∧ (∀ u i, h.waitBefore i u = .ok .unbounded) ∧
      h.openingTexts = [] ∧ h.closingTexts = []) ∧
    ∃ h, ofSpec? .default "wd {Sun} hr {22 23}, wd {Mon} hr {0 12}" = .ok h ∧
      readPeriods .default "wd {Sun} hr {22 23}, wd {Mon} hr {0 12}" = .ok h.periods ∧
      h.periods.length = 3 ∧ (∀ p ∈ h.periods, p.start ≤ p.last) ∧
      h.periods.Pairwise (fun p q => (Instant.point p.last).weekTime +
        2 * TimeUnit.minutes.duration ≤ (Instant.point q.start).weekTime) ∧
      h.isAlways = false ∧ (¬ ∀ t : Point .week, h.isOpen (.point t) = .ok true) ∧
      (∀ u, ¬ ∀ i, h.waitBefore i u = .ok .unbounded) ∧
      h.openingTexts ≠ [] ∧ h.closingTexts ≠ [] := by
  constructor
  · have hok : (readPeriods .default "hr {12pm-11pm}, hr {0-11}").toOption.any
        (fun ps => ps.any (·.isAlways)) = true := by cbv
    obtain ⟨ps, hps, ha⟩ := exists_eq_ok_of_any hok
    obtain ⟨-, -, -, h, hh, rfl, hsame⟩ := periods_shape hps
    have hu := hsame .minutes
    exact ⟨h, hh, hps, ha, (hu.out 0 1).1 ha, (hu.out 0 2).1 ha,
      fun u => ((hsame u).out 0 3).1 ha, (hu.out 0 4).1 ha, (hu.out 0 5).1 ha⟩
  · have hok : (readPeriods .default "wd {Sun} hr {22 23}, wd {Mon} hr {0 12}").toOption.any
        (fun ps => ps.length == 3 && !ps.any (·.isAlways)) = true := by cbv
    obtain ⟨ps, hps, hb⟩ := exists_eq_ok_of_any hok
    simp only [Bool.and_eq_true, Bool.not_eq_true', beq_iff_eq] at hb
    obtain ⟨-, hforward, hgap, h, hh, rfl, hsame⟩ := periods_shape hps
    have hnever : ¬ h.isAlways = true := by
      rw [isAlways, hb.2]
      decide
    have hu := hsame .minutes
    exact ⟨h, hh, hps, hb.1, fun p hp => (hforward p hp).2.2, hgap, hb.2, mt (hu.out 0 1).2 hnever,
      fun u => mt ((hsame u).out 0 3).2 hnever, mt (hu.out 0 4).2 hnever, mt (hu.out 0 5).2 hnever⟩

end Hours

end OpeningHours
