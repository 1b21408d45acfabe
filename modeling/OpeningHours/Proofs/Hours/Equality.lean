import OpeningHours.Proofs.Hours.Cover

/-!
# Equal hours

Hours are equal if they have the same periods, as sets. Their periods are normal forms, so the
same periods come in the same order (`beq_iff_periods_eq`), and the same cover has the same
periods (`periods_eq_iff_openAt_eq`). Everything else that hours are asked is computed from the
list of their periods, so equal hours give equal answers to all of it (`beq_iff_isOpen_eq`).
-/

namespace OpeningHours

namespace Period.IsNormal

variable {c : Cycle} {ps qs : List (Period c)}

/-- Normal forms with the same members are the same list. -/
theorem eq_of_mem_iff (hp : IsNormal ps) (hq : IsNormal qs) (h : ∀ p, p ∈ ps ↔ p ∈ qs) : ps = qs :=
  hp.eq_of_covered_iff hq fun _ => covered_congr h

end Period.IsNormal

namespace Hours

variable {config₁ config₂ : Config} {spec₁ spec₂ : String} {h₁ h₂ : Hours}

theorem beq_iff_mem_iff : (h₁ == h₂) = true ↔ ∀ p, p ∈ h₁.periods ↔ p ∈ h₂.periods := by
  show (h₁.periods.all (fun p => decide (p ∈ h₂.periods)) &&
    h₂.periods.all fun p => decide (p ∈ h₁.periods)) = true ↔ _
  simp only [Bool.and_eq_true, List.all_eq_true, decide_eq_true_eq]
  constructor
  · intro h p
    exact ⟨h.1 p, h.2 p⟩
  · intro h
    exact ⟨fun p => (h p).1, fun p => (h p).2⟩

theorem beq_iff_periods_eq (hh₁ : ofSpec? config₁ spec₁ = .ok h₁)
    (hh₂ : ofSpec? config₂ spec₂ = .ok h₂) : (h₁ == h₂) = true ↔ h₁.periods = h₂.periods := by
  rw [beq_iff_mem_iff]
  constructor
  · exact (isNormal_periods hh₁).eq_of_mem_iff (isNormal_periods hh₂)
  · intro h p
    rw [h]

/-- Hours that are open at the same minutes of the week have the same periods. -/
theorem periods_eq_iff_openAt_eq (hh₁ : ofSpec? config₁ spec₁ = .ok h₁)
    (hh₂ : ofSpec? config₂ spec₂ = .ok h₂) :
    h₁.periods = h₂.periods ↔ ∀ t, h₁.openAt t = h₂.openAt t := by
  constructor
  · intro h t
    rw [openAt, openAt, h]
  · intro h
    apply (isNormal_periods hh₁).eq_of_covered_iff (isNormal_periods hh₂)
    intro t
    rw [← openAt_iff_covered, ← openAt_iff_covered, h t]

theorem isOpen_point (h : Hours) (t : Point .week) : h.isOpen (.point t) = .ok (h.openAt t) :=
  isOpen_of_project (Instant.project_point t)

/-- Hours are equal exactly if they are open at the same minutes of the week. Then they have the
same periods and the same triggers, and give the same wait at every instant. -/
theorem beq_iff_isOpen_eq {config₁ config₂ : Config} {spec₁ spec₂ : String} {h₁ h₂ : Hours}
    (hh₁ : ofSpec? config₁ spec₁ = .ok h₁) (hh₂ : ofSpec? config₂ spec₂ = .ok h₂) :
    ((h₁ == h₂) = true ↔ ∀ t : Point .week, h₁.isOpen (.point t) = h₂.isOpen (.point t)) ∧
    ((h₁ == h₂) = true → h₁.openingTexts = h₂.openingTexts ∧ h₁.closingTexts = h₂.closingTexts ∧
      h₁.isAlways = h₂.isAlways ∧ h₁.periods = h₂.periods ∧
      ∀ i u, h₁.waitBefore i u = h₂.waitBefore i u) := by
  constructor
  · rw [beq_iff_periods_eq hh₁ hh₂, periods_eq_iff_openAt_eq hh₁ hh₂]
    simp only [isOpen_point, Except.ok.injEq]
  · intro h
    have hp := (beq_iff_periods_eq hh₁ hh₂).1 h
    refine ⟨?_, ?_, ?_, hp, ?_⟩
    · rw [openingTexts, openingTexts, openings, openings, hp]
    · rw [closingTexts, closingTexts, closings, closings, hp]
    · rw [isAlways, isAlways, hp]
    · intro i u
      rw [waitBefore, waitBefore, hp]

set_option maxRecDepth 4000 in
/-- Nights in one piece that goes round midnight, and in two pieces, in another notation and under
another separator. -/
theorem beq_iff_isOpen_eq_nights : ∃ h₁ h₂ : Hours,
    ofSpec? .default "hr {22-2}" = .ok h₁ ∧
    ofSpec? ⟨";", true, by decide⟩ "hour{12am-2am}; hr {10pm 11pm}" = .ok h₂ ∧
    (h₁ == h₂) = true ∧ (∀ t : Point .week, h₁.isOpen (.point t) = h₂.isOpen (.point t)) ∧
    h₁.openingTexts = h₂.openingTexts ∧ h₁.closingTexts = h₂.closingTexts ∧
    h₁.isAlways = h₂.isAlways ∧ h₁.periods = h₂.periods ∧
    ∀ i u, h₁.waitBefore i u = h₂.waitBefore i u := by
  have hok : ((ofSpec? .default "hr {22-2}").toOption.any fun h₁ =>
      (ofSpec? ⟨";", true, by decide⟩ "hour{12am-2am}; hr {10pm 11pm}").toOption.any fun h₂ =>
        h₁ == h₂) = true := by cbv
  obtain ⟨h₁, hh₁, hok⟩ := exists_eq_ok_of_any hok
  obtain ⟨h₂, hh₂, heq⟩ := exists_eq_ok_of_any hok
  have hopen := (beq_iff_isOpen_eq hh₁ hh₂).1.1 heq
  exact ⟨h₁, h₂, hh₁, hh₂, heq, hopen, (beq_iff_isOpen_eq hh₁ hh₂).2 heq⟩

end Hours

end OpeningHours
