import Mathlib
import OpeningHours.Hours
import OpeningHours.Proofs.Period.Merging
import OpeningHours.Proofs.Spec.Denotation

/-!
# The cover of opening hours

The periods of hours that have been read are in normal form, and there is at least one
(`isNormal_periods`, `periods_ne_nil`). They cover a minute of the week exactly if some piece of
the specification allows its values (`openAt_iff_exists_piece`). So whether the hours are open at
an instant is what the specification denotes, and only the instant's minute, hour and weekday
count (`isOpen_iff_exists_piece`).
-/

namespace OpeningHours

theorem forward_of_mapM_piecePeriods {strict : Bool} {pieces : List (List Char)}
    {pss : List (List (Period .week))} (h : pieces.mapM (piecePeriods strict) = .ok pss) :
    ∀ p ∈ pss.flatten, p.start ≤ p.last := by
  intro p hp
  obtain ⟨ps, hps, hp⟩ := List.mem_flatten.1 hp
  obtain ⟨piece, -, hok⟩ := (mem_of_mapM_eq_ok h ps).1 hps
  exact (covered_piecePeriods hok).1 p hp

/-- What is read covers the minutes of the week that some piece allows. -/
theorem covered_readPeriods {config : Config} {text : String} {ps : List (Period .week)}
    (h : readPeriods config text = .ok ps) :
    Period.IsNormal ps ∧ ps ≠ [] ∧ ∀ t, Period.Covered ps t ↔
      ∃ piece ∈ Text.pieces config.separator.toList config.separator_ne text.toList,
        ∀ a : Axis, a.Allows piece (t.value a) := by
  obtain ⟨pss, hpss, h⟩ := bind_eq_ok_iff.1 h
  cases h
  have hmem := mem_of_mapM_eq_ok hpss
  have hall := exists_eq_ok_of_mapM hpss
  have hforward := forward_of_mapM_piecePeriods hpss
  refine ⟨Period.isNormal_merge hforward, ?_, ?_⟩
  · intro hnil
    have hflat := Period.merge_eq_nil_iff.1 hnil
    obtain ⟨piece, hpiece⟩ := List.exists_mem_of_ne_nil _
      (Text.pieces_ne_nil config.separator.toList config.separator_ne text.toList)
    obtain ⟨ps, hps, hok⟩ := hall piece hpiece
    obtain ⟨p, hp⟩ := List.exists_mem_of_ne_nil _ (covered_piecePeriods hok).2.1
    exact List.not_mem_nil (hflat ▸ List.mem_flatten.2 ⟨ps, hps, hp⟩)
  · intro t
    rw [Period.covered_merge hforward]
    constructor
    · intro hx
      obtain ⟨p, hp, ht⟩ := hx
      obtain ⟨ps, hps, hp⟩ := List.mem_flatten.1 hp
      obtain ⟨piece, hpiece, hok⟩ := (hmem ps).1 hps
      exact ⟨piece, hpiece, ((covered_piecePeriods hok).2.2 t).1 ⟨p, hp, ht⟩⟩
    · intro hx
      obtain ⟨piece, hpiece, hallows⟩ := hx
      obtain ⟨ps, hps, hok⟩ := hall piece hpiece
      obtain ⟨p, hp, ht⟩ := ((covered_piecePeriods hok).2.2 t).2 hallows
      exact ⟨p, List.mem_flatten.2 ⟨ps, hps, hp⟩, ht⟩

namespace Hours

variable {config : Config} {spec : String} {h : Hours}

theorem readPeriods_of_ofSpec? (hh : ofSpec? config spec = .ok h) :
    readPeriods config spec = .ok h.periods := by
  obtain ⟨ps, hps, hh⟩ := bind_eq_ok_iff.1 hh
  cases hh
  exact hps

theorem isNormal_periods (hh : ofSpec? config spec = .ok h) : Period.IsNormal h.periods :=
  (covered_readPeriods (readPeriods_of_ofSpec? hh)).1

theorem periods_ne_nil (hh : ofSpec? config spec = .ok h) : h.periods ≠ [] :=
  (covered_readPeriods (readPeriods_of_ofSpec? hh)).2.1

theorem openAt_iff_covered {t : Point .week} : h.openAt t = true ↔ Period.Covered h.periods t :=
  List.any_eq_true

theorem isAlways_of_mem (ha : h.isAlways = false) {p : Period .week} (hp : p ∈ h.periods) :
    ¬ p.isAlways = true :=
  List.any_eq_false.1 ha p hp

theorem isOpen_of_project {i : Instant} {t : Point .week} (ht : i.project .week = .ok t) :
    h.isOpen i = .ok (h.openAt t) := by
  rw [isOpen, ht]
  rfl

/-- Hours are open at the minutes of the week that some piece allows. -/
theorem openAt_iff_exists_piece (hh : ofSpec? config spec = .ok h) {t : Point .week} :
    h.openAt t = true ↔
      ∃ piece ∈ Text.pieces config.separator.toList config.separator_ne spec.toList,
        ∀ a : Axis, a.Allows piece (t.value a) := by
  rw [openAt_iff_covered]
  exact (covered_readPeriods (readPeriods_of_ofSpec? hh)).2.2 t

end Hours

namespace Instant

theorem read?_of_project {i : Instant} {t : Point .week} (ht : i.project .week = .ok t) (a : Axis) :
    i.read? a.scale = some (t.value a) :=
  project_eq_ok_iff.1 ht (a.scale, t.value a) (Point.digit?_eq_some_iff.1 (t.digit?_axis a))

theorem read?_dateTime (d : DateTime) (a : Axis) : (dateTime d).read? a.scale =
    some (Axis.pick (d.clock.minute : Int) d.clock.hour d.date.weekday a) := by
  cases a <;> rfl

/-- An instant that carries minute, hour and weekday falls on the minute of the week with these
values. -/
theorem exists_project_week {i : Instant} {v : Axis → Int}
    (hv : ∀ a : Axis, i.read? a.scale = some (v a)) :
    ∃ t : Point .week, i.project .week = .ok t ∧ ∀ a, t.value a = v a := by
  have hs : ∀ s ∈ Cycle.week.scales, (i.read? s).isSome = true := by
    intro s hs
    have hs : s ∈ Axis.all.map Axis.scale := hs
    obtain ⟨a, -, rfl⟩ := List.mem_map.1 hs
    rw [hv a]
    rfl
  obtain ⟨t, ht⟩ := exists_project hs
  refine ⟨t, ht, fun a => ?_⟩
  have hread := read?_of_project ht a
  rw [hv a] at hread
  exact (Option.some.inj hread).symm

end Instant

namespace Hours

/-- Hours are open at an instant exactly if some piece of their specification allows its minute,
its hour and its weekday, whatever else the instant says. -/
theorem isOpen_iff_exists_piece {config : Config} {spec : String} {h : Hours}
    (hh : ofSpec? config spec = .ok h) {i : Instant} {v : Axis → Int}
    (hv : ∀ a : Axis, i.read? a.scale = some (v a)) :
    ∃ b, h.isOpen i = .ok b ∧
      (b = true ↔ ∃ piece ∈ Text.pieces config.separator.toList config.separator_ne spec.toList,
        ∀ a : Axis, a.Allows piece (v a)) ∧
      ∀ j : Instant, (∀ a : Axis, j.read? a.scale = some (v a)) → h.isOpen j = .ok b := by
  obtain ⟨t, ht, htv⟩ := Instant.exists_project_week hv
  refine ⟨h.openAt t, isOpen_of_project ht, ?_, ?_⟩
  · rw [openAt_iff_exists_piece hh]
    simp only [htv]
  · intro j hj
    obtain ⟨u, hu, huv⟩ := Instant.exists_project_week hj
    have htu : t = u := by
      apply Point.ext_digits
      rw [t.digits_eq_map_value, u.digits_eq_map_value]
      simp only [htv, huv]
    rw [htu]
    exact isOpen_of_project hu

set_option maxRecDepth 4000 in
/-- A Sunday night, under a piece whose ranges both go round the end of their scale: the hours are
open, and so they are at every instant with the same minute, hour and weekday. -/
theorem isOpen_iff_exists_piece_sunday_night : ∃ (h : Hours) (i : Instant) (v : Axis → Int),
    ofSpec? .default "wd {Sat-Mon} hr {10pm-1}, min {5} wd {Tue} hr {9}" = .ok h ∧
    (∀ a : Axis, i.read? a.scale = some (v a)) ∧ v .hour = 23 ∧ v .weekday = 7 ∧
    h.isOpen i = .ok true ∧
    (∃ piece ∈ Text.pieces [','] (by decide)
      "wd {Sat-Mon} hr {10pm-1}, min {5} wd {Tue} hr {9}".toList,
        ∀ a : Axis, a.Allows piece (v a)) ∧
    ∀ j : Instant, (∀ a : Axis, j.read? a.scale = some (v a)) → h.isOpen j = .ok true := by
  let t : Point .week :=
    ⟨[(.minuteOfHour, 30), (.hourOfDay, 23), (.dayOfWeek, 7)], rfl, by decide⟩
  have hok : (ofSpec? .default "wd {Sat-Mon} hr {10pm-1}, min {5} wd {Tue} hr {9}").toOption.any
      (·.openAt t) = true := by cbv
  obtain ⟨h, hh, hopen⟩ := exists_eq_ok_of_any hok
  have hv := Instant.read?_dateTime ⟨⟨2024, 1, 7, by decide, by decide, by decide⟩,
    ⟨23, 30, 15, 0, by decide, by decide, by decide, by decide⟩⟩
  obtain ⟨b, hi, hiff, hsame⟩ := isOpen_iff_exists_piece hh hv
  have hb : h.isOpen (.point t) = .ok b := hsame _ fun a => by cases a <;> rfl
  rw [isOpen_of_project (Instant.project_point t), hopen] at hb
  cases hb
  exact ⟨h, _, _, hh, hv, rfl, rfl, hi, hiff.1 rfl, hsame⟩

end Hours

end OpeningHours
