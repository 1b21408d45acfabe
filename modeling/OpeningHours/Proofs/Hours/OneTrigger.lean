import OpeningHours.Proofs.Cron.Family
import OpeningHours.Proofs.Hours.Triggers

/-!
# Hours with a single opening trigger

If the starts of all periods have the same value on two of the scales of the week, their lines are a
family along the third, and the merge leaves a single line of them
(`exists_openings_eq_singleton`). So there is one text of an opening, with the values of the third
scale listed in one field (`family_gives_one_line`).
-/

namespace OpeningHours.Hours

variable {config : Config} {spec : String} {h : Hours} {s t : Scale}

/-- Whether the starts of all periods have one value on a scale. -/
def StartsAgreeOn (h : Hours) (s : Scale) : Prop :=
  ∀ p ∈ h.periods, ∀ q ∈ h.periods, p.start.digit? s = q.start.digit? s

/-- Of the three scales of the week two leave one over. -/
theorem exists_third_scale (hs : s ∈ Cycle.week.scales) (ht : t ∈ Cycle.week.scales) (hne : s ≠ t) :
    ∃ s₀, ∀ r ∈ Cycle.week.scales, r ≠ s₀ → r = s ∨ r = t := by
  have hthird : ∀ s ∈ Cycle.week.scales, ∀ t ∈ Cycle.week.scales, s ≠ t →
      ∃ s₀ ∈ Cycle.week.scales, ∀ r ∈ Cycle.week.scales, r ≠ s₀ → r = s ∨ r = t := by decide
  obtain ⟨s₀, -, h⟩ := hthird s hs t ht hne
  exact ⟨s₀, h⟩

/-- Periods that close at some time open at their starts. -/
theorem filterMap_openingCron? (ha : h.isAlways = false) :
    h.periods.filterMap Period.openingCron? =
      (h.periods.map Period.start).map Cron.ofPoint := by
  rw [List.map_map, ← List.filterMap_eq_map]
  exact List.filterMap_congr fun p hp => if_neg (isAlways_of_mem ha hp)

theorem exists_openings_eq_singleton (hh : ofSpec? config spec = .ok h) (ha : h.isAlways = false)
    (hs : s ∈ Cycle.week.scales) (ht : t ∈ Cycle.week.scales) (hne : s ≠ t)
    (hsa : h.StartsAgreeOn s) (hta : h.StartsAgreeOn t) : ∃ c, h.openings = [c] := by
  obtain ⟨s₀, hs₀⟩ := exists_third_scale hs ht hne
  have hfam : Cron.Family s₀ ((h.periods.map Period.start).map Cron.ofPoint) := by
    apply Cron.family_ofPoint
    intro a ha b hb r hr hrs₀
    obtain ⟨p, hp, rfl⟩ := List.mem_map.1 ha
    obtain ⟨q, hq, rfl⟩ := List.mem_map.1 hb
    rcases hs₀ r hr hrs₀ with rfl | rfl
    · exact hsa p hp q hq
    · exact hta p hp q hq
  have hlines : (h.periods.map Period.start).map Cron.ofPoint ≠ [] := by
    rw [ne_eq, List.map_eq_nil_iff, List.map_eq_nil_iff]
    exact periods_ne_nil hh
  rw [openings, filterMap_openingCron? ha]
  exact Cron.exists_mergeAll_eq_singleton hlines hfam

theorem cronTexts_singleton (c : Cron) : cronTexts [c] = [c.text] := by
  rw [cronTexts, List.map_singleton, List.mergeSort_singleton]
  rfl

/-- A family of lines is merged into one line, the union of their fields on the scale on which they
differ. So hours whose periods start with the same value on two of the scales of the week have one
opening trigger. -/
theorem family_gives_one_line :
    (∀ (cs : List Cron) (s₀ : Scale), cs ≠ [] → Cron.Family s₀ cs →
      ∃ d, Cron.mergeAll cs = [d] ∧ (∀ v, v ∈ d.field s₀ ↔ ∃ c ∈ cs, v ∈ c.field s₀) ∧
        ∀ s, s ≠ s₀ → ∀ c ∈ cs, d.field s = c.field s) ∧
    ∀ (config : Config) (spec : String) (h : Hours), ofSpec? config spec = .ok h →
      h.isAlways = false →
      ∀ s ∈ Cycle.week.scales, ∀ t ∈ Cycle.week.scales, s ≠ t →
        h.StartsAgreeOn s → h.StartsAgreeOn t → ∃ line, h.openingTexts = [line] := by
  constructor
  · intro cs s₀ hne hfam
    obtain ⟨d, hd⟩ := Cron.exists_mergeAll_eq_singleton hne hfam
    refine ⟨d, hd, fun v => Cron.mem_field_iff_of_mergeAll hd, ?_⟩
    intro s hs c hc
    exact Cron.field_mergeAll (fun e he => hfam e he c hc s hs) d (hd ▸ List.mem_singleton_self d)
  · intro config spec h hh ha s hs t ht hne hsa hta
    obtain ⟨c, hc⟩ := exists_openings_eq_singleton hh ha hs ht hne hsa hta
    refine ⟨c.text, ?_⟩
    rw [openingTexts, hc, cronTexts_singleton]

set_option maxRecDepth 4000 in
/-- Three mornings, one of them twice and out of order, and hours that open at nine on five days. -/
theorem family_gives_one_line_mornings :
    (∃ (cs : List Cron) (d : Cron), Cron.Family .dayOfWeek cs ∧
      cs.map Cron.text = ["0 9 * * 3", "0 9 * * 1", "0 9 * * 3", "0 9 * * 2"] ∧
      Cron.mergeAll cs = [d] ∧ d.text = "0 9 * * 1-3" ∧
      (∀ v, v ∈ d.dayOfWeek ↔ ∃ c ∈ cs, v ∈ c.dayOfWeek)) ∧
    ∃ (h : Hours) (line : String), ofSpec? .default "wd {Mon-Fri} hr {9-18}" = .ok h ∧
      h.isAlways = false ∧ h.StartsAgreeOn .minuteOfHour ∧ h.StartsAgreeOn .hourOfDay ∧
      h.openingTexts = [line] ∧ line = "0 9 * * 1-5" := by
  constructor
  · let days : List (ValueSet .dayOfWeek) := [.single _ 3 (by decide), .single _ 1 (by decide),
      .single _ 3 (by decide), .single _ 2 (by decide)]
    let cs := days.map (Cron.weekly (.single _ 9 (by decide)))
    have hfam : Cron.Family .dayOfWeek cs := by
      intro c hc d hd s hs
      obtain ⟨v, -, rfl⟩ := List.mem_map.1 hc
      obtain ⟨w, -, rfl⟩ := List.mem_map.1 hd
      cases s with
      | dayOfWeek => exact absurd rfl hs
      | _ => rfl
    obtain ⟨d, hd, hmem, -⟩ := family_gives_one_line.1 cs .dayOfWeek (by decide) hfam
    have htext : (Cron.mergeAll cs).map Cron.text = ["0 9 * * 1-3"] := by decide
    rw [hd] at htext
    exact ⟨cs, d, hfam, by decide, hd, List.singleton_inj.1 htext, hmem⟩
  · have hok : ((ofSpec? .default "wd {Mon-Fri} hr {9-18}").toOption.any fun h =>
        !h.isAlways && h.openingTexts == ["0 9 * * 1-5"] &&
          h.periods.all fun p => h.periods.all fun q =>
            p.start.digit? .minuteOfHour == q.start.digit? .minuteOfHour &&
              p.start.digit? .hourOfDay == q.start.digit? .hourOfDay) = true := by cbv
    obtain ⟨h, hh, hb⟩ := exists_eq_ok_of_any hok
    simp only [Bool.and_eq_true, Bool.not_eq_true', List.all_eq_true, beq_iff_eq] at hb
    obtain ⟨⟨ha, htext⟩, hagree⟩ := hb
    have hminute : h.StartsAgreeOn .minuteOfHour := fun p hp q hq => (hagree p hp q hq).1
    have hhour : h.StartsAgreeOn .hourOfDay := fun p hp q hq => (hagree p hp q hq).2
    obtain ⟨line, hline⟩ := family_gives_one_line.2 _ _ h hh ha .minuteOfHour (by decide)
      .hourOfDay (by decide) (by decide) hminute hhour
    exact ⟨h, line, hh, ha, hminute, hhour, hline, List.singleton_inj.1 (hline.symm.trans htext)⟩

end OpeningHours.Hours
