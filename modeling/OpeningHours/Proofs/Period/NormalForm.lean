import OpeningHours.Period.Basic
import OpeningHours.Proofs.Instant.Projection

/-!
# Normal forms of covers

A list of periods covers the points, and the instants, that some period of it covers. It is in
normal form if no period wraps and between a period and every later one there is a point that
neither of them covers. So a cover has at most one normal form: the first start is the first
covered point, the first period ends before the first point from there on that is not covered,
and the rest is the normal form of what comes after (`IsNormal.eq_of_covered_iff`).
-/

namespace OpeningHours.Period

variable {c : Cycle} {p q : Period c} {ps qs : List (Period c)} {t : Point c}

theorem ext_index (hs : p.start.index = q.start.index) (hl : p.last.index = q.last.index) :
    p = q := by
  cases p
  cases q
  rw [mk.injEq]
  exact ⟨Point.ext_index hs, Point.ext_index hl⟩

theorem covers_iff_index :
    p.covers t = true ↔ p.start.index ≤ t.index ∧ t.index ≤ p.last.index := by
  rw [covers_iff, Point.le_iff_index, Point.le_iff_index]

/-- Whether some period of the list covers the point. -/
def Covered (ps : List (Period c)) (t : Point c) : Prop :=
  ∃ p ∈ ps, p.covers t = true

/-- Whether some period of the list covers the point that the instant falls on. -/
def CoversInstant (ps : List (Period c)) (i : Instant) : Prop :=
  ∃ p ∈ ps, p.contains i = .ok true

@[simp] theorem not_covered_nil : ¬ Covered ([] : List (Period c)) t := by
  simp [Covered]

@[simp] theorem covered_cons : Covered (p :: ps) t ↔ p.covers t = true ∨ Covered ps t := by
  simp [Covered]

@[simp] theorem covered_append : Covered (ps ++ qs) t ↔ Covered ps t ∨ Covered qs t := by
  simp [Covered, or_and_right, exists_or]

theorem covered_congr (h : ∀ p, p ∈ ps ↔ p ∈ qs) : Covered ps t ↔ Covered qs t := by
  simp only [Covered, h]

theorem contains_eq_ok_true_iff {i : Instant} :
    p.contains i = .ok true ↔ ∃ t, i.project c = .ok t ∧ p.covers t = true := by
  unfold contains
  rw [bind_eq_ok_iff]
  constructor
  · intro hx
    obtain ⟨t, ht, h⟩ := hx
    exact ⟨t, ht, by simpa [pure, Except.pure] using h⟩
  · intro hx
    obtain ⟨t, ht, h⟩ := hx
    exact ⟨t, ht, by rw [h]; rfl⟩

theorem coversInstant_iff {i : Instant} :
    CoversInstant ps i ↔ ∃ t, i.project c = .ok t ∧ Covered ps t := by
  simp only [CoversInstant, contains_eq_ok_true_iff, Covered]
  constructor
  · intro hx
    obtain ⟨p, hp, t, ht, h⟩ := hx
    exact ⟨t, ht, p, hp, h⟩
  · intro hx
    obtain ⟨t, ht, p, hp, h⟩ := hx
    exact ⟨p, hp, t, ht, h⟩

theorem coversInstant_point : CoversInstant ps (.point t) ↔ Covered ps t := by
  rw [coversInstant_iff, Instant.project_point]
  constructor
  · intro hx
    obtain ⟨u, hu, h⟩ := hx
    cases hu
    exact h
  · intro h
    exact ⟨t, rfl, h⟩

/-- Two lists cover the same instants exactly if they cover the same points. -/
theorem coversInstant_congr_iff :
    (∀ i, CoversInstant ps i ↔ CoversInstant qs i) ↔ ∀ t, Covered ps t ↔ Covered qs t := by
  constructor
  · intro h t
    rw [← coversInstant_point, ← coversInstant_point]
    exact h (.point t)
  · intro h i
    simp only [coversInstant_iff, h]

/-- In order, no period wraps, and between any two there is a point that neither covers. -/
structure IsNormal (ps : List (Period c)) : Prop where
  forward : ∀ p ∈ ps, p.start ≤ p.last
  gap : ps.Pairwise fun p q => p.last.index + 1 < q.start.index

namespace IsNormal

theorem nil : IsNormal ([] : List (Period c)) where
  forward := by simp
  gap := List.Pairwise.nil

theorem tail (h : IsNormal (p :: ps)) : IsNormal ps where
  forward := fun q hq => h.forward q (by simp [hq])
  gap := h.gap.of_cons

theorem head_forward (h : IsNormal (p :: ps)) : p.start.index ≤ p.last.index :=
  Point.le_iff_index.1 (h.forward p (by simp))

theorem cons (hp : p.start ≤ p.last) (hps : IsNormal ps)
    (hgap : ∀ q ∈ ps, p.last.index + 1 < q.start.index) : IsNormal (p :: ps) where
  forward := by
    intro q hq
    rcases List.mem_cons.1 hq with rfl | hq
    · exact hp
    · exact hps.forward q hq
  gap := List.pairwise_cons.2 ⟨hgap, hps.gap⟩

/-- What later periods cover comes after the first one and the point that follows it. -/
theorem lt_of_covered_tail (h : IsNormal (p :: ps)) (ht : Covered ps t) :
    p.last.index + 1 < t.index := by
  obtain ⟨q, hq, hc⟩ := ht
  have hgap := List.rel_of_pairwise_cons h.gap hq
  have hle := (covers_iff_index.1 hc).1
  omega

theorem start_le_of_covered (h : IsNormal (p :: ps)) (ht : Covered (p :: ps) t) :
    p.start.index ≤ t.index := by
  have hp := h.head_forward
  rcases covered_cons.1 ht with ht | ht
  · exact (covers_iff_index.1 ht).1
  · have := h.lt_of_covered_tail ht
    omega

theorem covered_start (h : IsNormal (p :: ps)) : Covered (p :: ps) p.start :=
  covered_cons.2 (Or.inl (covers_iff_index.2 ⟨Int.le_refl _, h.head_forward⟩))

/-- The point after the first period is not covered. -/
theorem not_covered_next (h : IsNormal (p :: ps)) (ht : t.index = p.last.index + 1) :
    ¬ Covered (p :: ps) t := by
  intro hc
  rcases covered_cons.1 hc with hc | hc
  · have := (covers_iff_index.1 hc).2
    omega
  · have := h.lt_of_covered_tail hc
    omega

theorem covered_tail_iff (h : IsNormal (p :: ps)) :
    Covered ps t ↔ Covered (p :: ps) t ∧ p.last.index < t.index := by
  constructor
  · intro ht
    have := h.lt_of_covered_tail ht
    exact ⟨covered_cons.2 (Or.inr ht), by omega⟩
  · intro hx
    obtain ⟨ht, hlt⟩ := hx
    rcases covered_cons.1 ht with ht | ht
    · have := (covers_iff_index.1 ht).2
      omega
    · exact ht

/-- Of two normal forms of one cover, neither starts before the other. -/
theorem start_le_start (hp : IsNormal (p :: ps)) (hq : IsNormal (q :: qs))
    (h : ∀ t, Covered (p :: ps) t ↔ Covered (q :: qs) t) : p.start.index ≤ q.start.index :=
  hp.start_le_of_covered ((h _).2 hq.covered_start)

/-- Of two normal forms of one cover with one start, neither first period ends before the other. -/
theorem last_le_last (hp : IsNormal (p :: ps)) (hs : p.start.index = q.start.index)
    (h : ∀ t, Covered (p :: ps) t ↔ Covered (q :: qs) t) : q.last.index ≤ p.last.index := by
  by_cases hlt : p.last.index < q.last.index
  · have h0 := p.last.index_mem
    have h1 := q.last.index_mem
    have hpf := hp.head_forward
    have ht := Point.index_ofIndex_of_mem (c := c) (n := p.last.index + 1) (by omega) (by omega)
    have hc : Covered (q :: qs) (Point.ofIndex c (p.last.index + 1)) :=
      covered_cons.2 (Or.inl (covers_iff_index.2 ⟨by omega, by omega⟩))
    exact absurd ((h _).2 hc) (hp.not_covered_next ht)
  · omega

/-- A cover has one normal form. -/
theorem eq_of_covered_iff (hp : IsNormal ps) (hq : IsNormal qs)
    (h : ∀ t, Covered ps t ↔ Covered qs t) : ps = qs := by
  induction ps generalizing qs with
  | nil =>
    cases qs with
    | nil => rfl
    | cons q qs => exact absurd ((h q.start).2 hq.covered_start) not_covered_nil
  | cons p ps ih =>
    cases qs with
    | nil => exact absurd ((h p.start).1 hp.covered_start) not_covered_nil
    | cons q qs =>
      have h' : ∀ t, Covered (q :: qs) t ↔ Covered (p :: ps) t := fun t => (h t).symm
      have hs : p.start.index = q.start.index :=
        Int.le_antisymm (hp.start_le_start hq h) (hq.start_le_start hp h')
      have hl : p.last.index = q.last.index :=
        Int.le_antisymm (hq.last_le_last hs.symm h') (hp.last_le_last hs h)
      have htail : ∀ t, Covered ps t ↔ Covered qs t := by
        intro t
        rw [hp.covered_tail_iff, hq.covered_tail_iff, h t, hl]
      rw [ext_index hs hl, ih hp.tail hq.tail htail]

theorem ascending (h : IsNormal ps) : ps.Pairwise fun p q => p.start < q.start := by
  refine List.Pairwise.imp_of_mem ?_ h.gap
  intro p q hp _ hgap
  have := Point.le_iff_index.1 (h.forward p hp)
  rw [Point.lt_iff_index]
  omega

theorem disjoint (h : IsNormal ps) :
    ps.Pairwise fun p q => ∀ i, ¬ (p.contains i = .ok true ∧ q.contains i = .ok true) := by
  refine List.Pairwise.imp ?_ h.gap
  intro p q hgap i hi
  obtain ⟨t, ht, hpt⟩ := contains_eq_ok_true_iff.1 hi.1
  obtain ⟨u, hu, hqu⟩ := contains_eq_ok_true_iff.1 hi.2
  rw [ht] at hu
  cases hu
  have h1 := (covers_iff_index.1 hpt).2
  have h2 := (covers_iff_index.1 hqu).1
  omega

theorem apart (h : IsNormal ps) : ps.Pairwise fun p q => p.last.increment ≠ q.start := by
  refine List.Pairwise.imp ?_ h.gap
  intro p q hgap hi
  have h0 := p.last.index_mem
  rw [Point.increment_eq_iff_index] at hi
  omega

end IsNormal

end OpeningHours.Period
