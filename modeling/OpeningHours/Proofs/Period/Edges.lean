import OpeningHours.Proofs.Period.NormalForm

/-!
# Where a cover begins and ends

The starts of the periods of a normal form are the covered points before which the cover has a
gap (`exists_start_eq_iff`), and the points after their ends are the uncovered points before
which there is none (`exists_increment_last_eq_iff`). The first point of the cycle is an exception
to both: no period goes across it, so one that is covered is a start, and the point before it, if
covered, is an end.
-/

namespace OpeningHours.Period.IsNormal

variable {c : Cycle} {p q : Period c} {ps : List (Period c)} {t : Point c}

/-- Of two different periods one comes before the other, with a gap between them. -/
theorem eq_or_apart (h : IsNormal ps) (hp : p ∈ ps) (hq : q ∈ ps) :
    p = q ∨ p.last.index + 1 < q.start.index ∨ q.last.index + 1 < p.start.index := by
  induction ps with
  | nil => cases hp
  | cons r ps ih =>
    rcases List.mem_cons.1 hp with rfl | hp'
    · rcases List.mem_cons.1 hq with rfl | hq'
      · exact Or.inl rfl
      · exact Or.inr (Or.inl (List.rel_of_pairwise_cons h.gap hq'))
    · rcases List.mem_cons.1 hq with rfl | hq'
      · exact Or.inr (Or.inr (List.rel_of_pairwise_cons h.gap hp'))
      · exact ih h.tail hp' hq'

theorem covered_of_mem (hp : p ∈ ps) (hs : p.start.index ≤ t.index)
    (hl : t.index ≤ p.last.index) : Covered ps t :=
  ⟨p, hp, covers_iff_index.2 ⟨hs, hl⟩⟩

/-- A period starts at the covered points that no covered point comes right before. -/
theorem exists_start_eq_iff (h : IsNormal ps) :
    (∃ p ∈ ps, p.start = t) ↔
      Covered ps t ∧ (t = Point.first c ∨ ¬ Covered ps t.previous) := by
  constructor
  · intro hx
    obtain ⟨p, hp, rfl⟩ := hx
    have hf := Point.le_iff_index.1 (h.forward p hp)
    refine ⟨covered_of_mem hp (Int.le_refl _) hf, ?_⟩
    by_cases h0 : p.start.index = 0
    · exact Or.inl (Point.ext_index (h0.trans (Point.index_first c).symm))
    · apply Or.inr
      intro hx
      obtain ⟨q, hq, hc⟩ := hx
      have hmem := p.start.index_mem
      rw [covers_iff_index, Point.index_previous_of_pos (by omega)] at hc
      rcases h.eq_or_apart hp hq with rfl | hgap | hgap <;> omega
  · intro hx
    obtain ⟨⟨p, hp, hc⟩, hedge⟩ := hx
    refine ⟨p, hp, Point.ext_index ?_⟩
    obtain ⟨hs, hl⟩ := covers_iff_index.1 hc
    have hmem := p.start.index_mem
    rcases hedge with rfl | hedge
    · rw [Point.index_first] at hs ⊢
      omega
    · -- else the period also covers the point before
      by_cases hlt : p.start.index < t.index
      · have hprev := Point.index_previous_of_pos (p := t) (by omega)
        exact absurd (covered_of_mem hp (by omega) (by omega)) hedge
      · omega

/-- A period ends right before the points that no period covers, if one covers the point
before. -/
theorem exists_increment_last_eq_iff (h : IsNormal ps) :
    (∃ p ∈ ps, p.last.increment = t) ↔
      Covered ps t.previous ∧ (t = Point.first c ∨ ¬ Covered ps t) := by
  have hmem := t.index_mem
  constructor
  · intro hx
    obtain ⟨p, hp, hi⟩ := hx
    have hl := Point.increment_eq_iff.1 hi
    have hf := Point.le_iff_index.1 (h.forward p hp)
    refine ⟨hl ▸ covered_of_mem hp hf (Int.le_refl _), ?_⟩
    by_cases h0 : t.index = 0
    · exact Or.inl (Point.ext_index (h0.trans (Point.index_first c).symm))
    · apply Or.inr
      intro hx
      obtain ⟨q, hq, hc⟩ := hx
      have hprev := Point.index_previous_of_pos (p := t) (by omega)
      rw [← hl] at hprev
      rw [covers_iff_index] at hc
      rcases h.eq_or_apart hp hq with rfl | hgap | hgap <;> omega
  · intro hx
    obtain ⟨⟨p, hp, hc⟩, hedge⟩ := hx
    refine ⟨p, hp, Point.increment_eq_iff.2 (Point.ext_index ?_)⟩
    obtain ⟨hs, hl⟩ := covers_iff_index.1 hc
    have hlast := p.last.index_mem
    by_cases h0 : t.index = 0
    · rw [Point.index_previous_of_eq_zero h0] at hl ⊢
      omega
    · have hprev := Point.index_previous_of_pos (p := t) (by omega)
      have hout : ¬ Covered ps t := by
        apply hedge.resolve_left
        intro ht
        apply h0
        rw [ht, Point.index_first]
      -- else the period also covers `t`
      by_cases hlt : t.previous.index < p.last.index
      · exact absurd (covered_of_mem hp (by omega) (by omega)) hout
      · omega

end OpeningHours.Period.IsNormal
