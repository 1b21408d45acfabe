import OpeningHours.Proofs.Cron.Firing
import OpeningHours.Proofs.Cron.Rendering
import OpeningHours.Proofs.Hours.Cover
import OpeningHours.Proofs.Period.Edges

/-!
# The triggers of opening hours

The texts of `openingTexts` and `closingTexts`, read back as cron lines, match exactly the starts
of the periods and the points after their ends (`announced_openingTexts_iff`,
`announced_closingTexts_iff`). These are the minutes of the week at which the hours open and
close, with one exception. Periods are stretches of one round, so hours that stay open from
Sunday 23:59 to Monday 00:00 have two periods there, and both an opening and a closing are
announced for Monday 00:00 (`triggers_mark_edges_iff`).
-/

namespace OpeningHours

theorem mem_eraseReps_loop_iff {α : Type} [BEq α] [LawfulBEq α] {a b : α} {xs acc : List α} :
    b ∈ List.eraseRepsBy.loop (· == ·) a xs acc ↔ b = a ∨ b ∈ xs ∨ b ∈ acc := by
  induction xs generalizing a acc with
  | nil => simp [List.eraseRepsBy.loop, or_comm]
  | cons x xs ih =>
    rw [List.eraseRepsBy.loop]
    split
    · rename_i hax
      have hax : a = x := beq_iff_eq.1 hax
      subst hax
      rw [ih, List.mem_cons]
      constructor
      · rintro (h | h | h) <;> simp [h]
      · rintro (h | (h | h) | h) <;> simp [h]
    · rw [ih, List.mem_cons, List.mem_cons]
      constructor
      · rintro (h | h | h | h) <;> simp [h]
      · rintro (h | (h | h) | h) <;> simp [h]

theorem mem_eraseReps_iff {α : Type} [BEq α] [LawfulBEq α] {b : α} {xs : List α} :
    b ∈ xs.eraseReps ↔ b ∈ xs := by
  cases xs with
  | nil => rfl
  | cons a xs =>
    show b ∈ List.eraseRepsBy.loop (· == ·) a xs [] ↔ b ∈ a :: xs
    rw [mem_eraseReps_loop_iff]
    simp

/-- Whether a text is a cron line whose minute, hour and weekday contain those of `t`. -/
def Cron.Matches (line : String) (t : Point .week) : Prop :=
  ∃ c, Cron.ofText? line = some c ∧ c.FiresOn t.digits

/-- Whether one of some texts matches a minute of the week. -/
def Announced (lines : List String) (t : Point .week) : Prop :=
  ∃ line ∈ lines, Cron.Matches line t

namespace Hours

variable {h : Hours} {t : Point .week}

/-- Whether the hours open at a minute of the week: they were closed the minute before. -/
def OpensAt (h : Hours) (t : Point .week) : Prop :=
  h.openAt t = true ∧ h.openAt t.previous = false

/-- Whether the hours close at a minute of the week: they were open the minute before. -/
def ClosesAt (h : Hours) (t : Point .week) : Prop :=
  h.openAt t = false ∧ h.openAt t.previous = true

/-- Whether the hours stay open from the last minute of the week to the first. -/
def OpenOverEnd (h : Hours) : Prop :=
  h.openAt (Point.first .week) = true ∧ h.openAt (Point.first .week).previous = true

theorem mem_cronTexts_iff {cs : List Cron} {line : String} :
    line ∈ cronTexts cs ↔ ∃ c ∈ cs, c.text = line := by
  unfold cronTexts
  rw [mem_eraseReps_iff, List.mem_mergeSort, List.mem_map]

/-- The texts of merged lines match where one of the lines fires. -/
theorem announced_cronTexts_mergeAll_iff {cs : List Cron} :
    Announced (cronTexts (Cron.mergeAll cs)) t ↔ ∃ c ∈ cs, c.FiresOn t.digits := by
  rw [← Cron.exists_firesOn_mergeAll_iff t.scales_nodup]
  constructor
  · intro hx
    obtain ⟨line, hline, d, hd, hf⟩ := hx
    obtain ⟨c, hc, rfl⟩ := mem_cronTexts_iff.1 hline
    rw [Cron.ofText?_text] at hd
    cases hd
    exact ⟨_, hc, hf⟩
  · intro hx
    obtain ⟨c, hc, hf⟩ := hx
    exact ⟨c.text, mem_cronTexts_iff.2 ⟨c, hc, rfl⟩, c, Cron.ofText?_text c, hf⟩

/-- Where each of some periods has the line of one point, these points are announced. -/
theorem announced_ofPoint_iff {ps : List (Period .week)} {line? : Period .week → Option Cron}
    {edge : Period .week → Point .week} (hline : ∀ p ∈ ps, line? p = some (.ofPoint (edge p))) :
    Announced (cronTexts (Cron.mergeAll (ps.filterMap line?))) t ↔ ∃ p ∈ ps, edge p = t := by
  rw [announced_cronTexts_mergeAll_iff]
  constructor
  · intro hx
    obtain ⟨c, hc, hf⟩ := hx
    obtain ⟨p, hp, hpc⟩ := List.mem_filterMap.1 hc
    rw [hline p hp] at hpc
    cases hpc
    exact ⟨p, hp, (Cron.firesOn_ofPoint_iff.1 hf).symm⟩
  · intro hx
    obtain ⟨p, hp, rfl⟩ := hx
    exact ⟨_, List.mem_filterMap.2 ⟨p, hp, hline p hp⟩, Cron.firesOn_ofPoint_iff.2 rfl⟩

theorem announced_openingTexts_iff (ha : h.isAlways = false) :
    Announced h.openingTexts t ↔ ∃ p ∈ h.periods, p.start = t :=
  announced_ofPoint_iff fun _ hp => if_neg (isAlways_of_mem ha hp)

theorem announced_closingTexts_iff (ha : h.isAlways = false) :
    Announced h.closingTexts t ↔ ∃ p ∈ h.periods, p.last.increment = t :=
  announced_ofPoint_iff fun _ hp => if_neg (isAlways_of_mem ha hp)

variable {config : Config} {spec : String}

/-- What is announced besides the openings is a stay over the end of the week. -/
theorem announced_openingTexts_iff_opensAt (hh : ofSpec? config spec = .ok h)
    (ha : h.isAlways = false) :
    Announced h.openingTexts t ↔ h.OpensAt t ∨ t = Point.first .week ∧ h.OpenOverEnd := by
  rw [announced_openingTexts_iff ha, (isNormal_periods hh).exists_start_eq_iff,
    ← openAt_iff_covered, ← openAt_iff_covered, Bool.not_eq_true]
  unfold OpensAt OpenOverEnd
  constructor
  · intro hx
    obtain ⟨hopen, rfl | hprev⟩ := hx
    · cases hprev : h.openAt (Point.first .week).previous with
      | false => exact Or.inl ⟨hopen, rfl⟩
      | true => exact Or.inr ⟨rfl, hopen, rfl⟩
    · exact Or.inl ⟨hopen, hprev⟩
  · intro hx
    rcases hx with ⟨hopen, hprev⟩ | ⟨rfl, hopen, -⟩
    · exact ⟨hopen, Or.inr hprev⟩
    · exact ⟨hopen, Or.inl rfl⟩

theorem announced_closingTexts_iff_closesAt (hh : ofSpec? config spec = .ok h)
    (ha : h.isAlways = false) :
    Announced h.closingTexts t ↔ h.ClosesAt t ∨ t = Point.first .week ∧ h.OpenOverEnd := by
  rw [announced_closingTexts_iff ha, (isNormal_periods hh).exists_increment_last_eq_iff,
    ← openAt_iff_covered, ← openAt_iff_covered, Bool.not_eq_true]
  unfold ClosesAt OpenOverEnd
  constructor
  · intro hx
    obtain ⟨hprev, rfl | hclosed⟩ := hx
    · cases hopen : h.openAt (Point.first .week) with
      | false => exact Or.inl ⟨rfl, hprev⟩
      | true => exact Or.inr ⟨rfl, rfl, hprev⟩
    · exact Or.inl ⟨hclosed, hprev⟩
  · intro hx
    rcases hx with ⟨hclosed, hprev⟩ | ⟨rfl, -, hprev⟩
    · exact ⟨hprev, Or.inr hclosed⟩
    · exact ⟨hprev, Or.inl rfl⟩

/-- The triggers of hours that close at some time announce every opening and every closing, and
nothing else unless the hours stay open over the end of the week; then both announce its first
minute too. -/
theorem triggers_mark_edges_iff {config : Config} {spec : String} {h : Hours}
    (hh : ofSpec? config spec = .ok h) (ha : h.isAlways = false) :
    (∀ t, Announced h.openingTexts t ↔ h.OpensAt t ∨ t = Point.first .week ∧ h.OpenOverEnd) ∧
    (∀ t, Announced h.closingTexts t ↔ h.ClosesAt t ∨ t = Point.first .week ∧ h.OpenOverEnd) ∧
    ((∀ t, (Announced h.openingTexts t ↔ h.OpensAt t) ∧
      (Announced h.closingTexts t ↔ h.ClosesAt t)) ↔ ¬ h.OpenOverEnd) := by
  refine ⟨fun t => announced_openingTexts_iff_opensAt hh ha,
    fun t => announced_closingTexts_iff_closesAt hh ha, ?_⟩
  constructor
  · intro hmark hover
    have hann : Announced h.openingTexts (Point.first .week) :=
      (announced_openingTexts_iff_opensAt hh ha).2 (Or.inr ⟨rfl, hover⟩)
    have hopens := (hmark _).1.1 hann
    rw [OpensAt, hover.2] at hopens
    exact absurd hopens.2 (by decide)
  · intro hover t
    rw [announced_openingTexts_iff_opensAt hh ha, announced_closingTexts_iff_closesAt hh ha]
    exact ⟨or_iff_left fun ht => hover ht.2, or_iff_left fun ht => hover ht.2⟩

set_option maxRecDepth 4000 in
/-- Hours that close over night open and close where their triggers say. -/
theorem triggers_mark_edges_iff_office : ∃ h : Hours,
    ofSpec? .default "wd {Mon-Fri} hr {9-18}" = .ok h ∧ h.isAlways = false ∧
    (∀ t, Announced h.openingTexts t ↔ h.OpensAt t ∨ t = Point.first .week ∧ h.OpenOverEnd) ∧
    (∀ t, Announced h.closingTexts t ↔ h.ClosesAt t ∨ t = Point.first .week ∧ h.OpenOverEnd) ∧
    ((∀ t, (Announced h.openingTexts t ↔ h.OpensAt t) ∧
      (Announced h.closingTexts t ↔ h.ClosesAt t)) ↔ ¬ h.OpenOverEnd) := by
  have hok : ((ofSpec? .default "wd {Mon-Fri} hr {9-18}").toOption.any
      fun h => !h.isAlways) = true := by cbv
  obtain ⟨h, hh, ha⟩ := exists_eq_ok_of_any hok
  have ha : h.isAlways = false := by simpa using ha
  exact ⟨h, hh, ha, triggers_mark_edges_iff hh ha⟩

set_option maxRecDepth 4000 in
/-- Hours from Sunday 22:00 to Monday 01:59 announce an opening and a closing in between, when they
neither open nor close. -/
theorem announced_over_end_of_week : ∃ h : Hours,
    ofSpec? .default "wd {Sun} hr {22-23}, wd {Mon} hr {0-1}" = .ok h ∧ h.isAlways = false ∧
    (Announced h.openingTexts (Point.first .week) ∧ ¬ h.OpensAt (Point.first .week)) ∧
    (Announced h.closingTexts (Point.first .week) ∧ ¬ h.ClosesAt (Point.first .week)) := by
  have hok : ((ofSpec? .default "wd {Sun} hr {22-23}, wd {Mon} hr {0-1}").toOption.any fun h =>
      !h.isAlways && h.openAt (Point.first .week) && h.openAt (Point.first .week).previous) =
        true := by cbv
  obtain ⟨h, hh, hb⟩ := exists_eq_ok_of_any hok
  simp only [Bool.and_eq_true, Bool.not_eq_true'] at hb
  obtain ⟨⟨ha, hopen⟩, hprev⟩ := hb
  have hover : h.OpenOverEnd := ⟨hopen, hprev⟩
  refine ⟨h, hh, ha, ⟨?_, ?_⟩, ?_, ?_⟩
  · exact (announced_openingTexts_iff_opensAt hh ha).2 (Or.inr ⟨rfl, hover⟩)
  · intro hx
    obtain ⟨-, hclosed⟩ := hx
    rw [hprev] at hclosed
    cases hclosed
  · exact (announced_closingTexts_iff_closesAt hh ha).2 (Or.inr ⟨rfl, hover⟩)
  · intro hx
    obtain ⟨hclosed, -⟩ := hx
    rw [hopen] at hclosed
    cases hclosed

end Hours

end OpeningHours
