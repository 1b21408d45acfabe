import OpeningHours.Period.Merge
import OpeningHours.Proofs.Period.NormalForm

/-!
# Merging computes the normal form

The periods are sorted and read from the left with the present one as accumulator. While no
period wraps there are two kinds of step: a period that overlaps the present one or starts right
after it extends it (`absorb_cons_of_touching`), and any other closes it (`absorb_cons_of_gap`).
Either keeps the points covered, and what is closed lies before all that follows, with a gap. So
the result is the normal form of the input's cover (`covered_merge`, `isNormal_merge`); it
depends on the cover alone (`merge_eq_merge`) and is the shortest list for it.
-/

namespace OpeningHours.Period

variable {c : Cycle} {p q : Period c} {ps qs : List (Period c)} {t : Point c}

/-- The period up to the later of two last points. -/
def extend (p q : Period c) : Period c :=
  ⟨p.start, p.last.later q.last⟩

@[simp] theorem start_extend (p q : Period c) : (p.extend q).start = p.start := rfl

theorem index_last_extend (p q : Period c) :
    (p.extend q).last.index = max p.last.index q.last.index :=
  Point.index_later _ _

/-- A period that starts inside the present one or right after it extends it. -/
theorem absorb_cons_of_touching (hq : q.start ≤ q.last) (hs : p.start ≤ q.start)
    (h : q.start.index ≤ p.last.index + 1) : absorb p (q :: ps) = absorb (p.extend q) ps := by
  have hs := Point.le_iff_index.1 hs
  have hq := Point.le_iff_index.1 hq
  rw [absorb]
  by_cases hc : p.covers q.start = true
  · rw [if_pos hc]
    rfl
  · have hnext : q.start.index = p.last.index + 1 := by
      have := mt covers_iff_index.2 hc
      omega
    have hinc : p.last.increment = q.start := Point.increment_eq_iff_index.2 (Or.inl hnext)
    have hlast : p.last.later q.last = q.last := by
      rw [← Point.index_eq_iff, Point.index_later]
      omega
    rw [if_neg hc, if_pos hinc, extend, hlast]

/-- A period with a gap in front of it closes the present one. -/
theorem absorb_cons_of_gap (h : p.last.index + 1 < q.start.index) :
    absorb p (q :: ps) = p :: absorb q ps := by
  have h0 := p.last.index_mem
  have hc : ¬ p.covers q.start = true := by
    rw [covers_iff_index]
    omega
  have hinc : p.last.increment ≠ q.start := by
    rw [ne_eq, Point.increment_eq_iff_index]
    omega
  rw [absorb, if_neg hc, if_neg hinc]

/-- Sorted periods that do not wrap, with the present one in front. -/
structure Row (p : Period c) (ps : List (Period c)) : Prop where
  forward : ∀ q ∈ p :: ps, q.start ≤ q.last
  sorted : (p :: ps).Pairwise fun q r => q.start ≤ r.start

namespace Row

theorem start_le (h : Row p ps) (hq : q ∈ ps) : p.start.index ≤ q.start.index :=
  Point.le_iff_index.1 (List.rel_of_pairwise_cons h.sorted hq)

theorem next (h : Row p (q :: ps)) : Row q ps where
  forward := fun r hr => h.forward r (List.mem_cons_of_mem _ hr)
  sorted := h.sorted.of_cons

theorem extend (h : Row p (q :: ps)) : Row (p.extend q) ps where
  forward := by
    intro r hr
    rcases List.mem_cons.1 hr with rfl | hr
    · have hp := Point.le_iff_index.1 (h.forward p (by simp))
      rw [Point.le_iff_index, start_extend, index_last_extend]
      omega
    · exact h.forward r (by simp [hr])
  sorted := by
    refine List.pairwise_cons.2 ⟨?_, h.next.sorted.of_cons⟩
    intro r hr
    exact Point.le_iff_index.2 (h.start_le (List.mem_cons_of_mem _ hr))

/-- In a row the first period either touches the next one or leaves a gap. -/
theorem absorb_cons (h : Row p (q :: ps)) :
    q.start.index ≤ p.last.index + 1 ∧ absorb p (q :: ps) = absorb (p.extend q) ps ∨
      p.last.index + 1 < q.start.index ∧ absorb p (q :: ps) = p :: absorb q ps := by
  by_cases ht : q.start.index ≤ p.last.index + 1
  · have hs : p.start ≤ q.start := Point.le_iff_index.2 (h.start_le (by simp))
    exact Or.inl ⟨ht, absorb_cons_of_touching (h.forward q (by simp)) hs ht⟩
  · exact Or.inr ⟨by omega, absorb_cons_of_gap (by omega)⟩

theorem covers_extend_iff (h : Row p (q :: ps)) (ht : q.start.index ≤ p.last.index + 1) :
    (p.extend q).covers t = true ↔ p.covers t = true ∨ q.covers t = true := by
  have hp := Point.le_iff_index.1 (h.forward p (by simp))
  have hq := Point.le_iff_index.1 (h.forward q (by simp))
  have hs := h.start_le (q := q) (by simp)
  rw [covers_iff_index, covers_iff_index, covers_iff_index, start_extend, index_last_extend]
  omega

theorem covered_absorb (h : Row p ps) : Covered (absorb p ps) t ↔ Covered (p :: ps) t := by
  induction ps generalizing p with
  | nil => rfl
  | cons q ps ih =>
    rcases h.absorb_cons with ⟨ht, ha⟩ | ⟨-, ha⟩
    · rw [ha, ih h.extend, covered_cons, covered_cons, covered_cons, h.covers_extend_iff ht,
        or_assoc]
    · rw [ha, covered_cons, ih h.next, covered_cons, covered_cons, covered_cons]

theorem start_le_of_mem_absorb (h : Row p ps) (hq : q ∈ absorb p ps) :
    p.start.index ≤ q.start.index := by
  induction ps generalizing p with
  | nil =>
    obtain rfl := List.mem_singleton.1 hq
    exact Int.le_refl _
  | cons r ps ih =>
    rcases h.absorb_cons with ⟨-, ha⟩ | ⟨-, ha⟩
    · rw [ha] at hq
      have hle := ih h.extend hq
      rwa [start_extend] at hle
    · rw [ha] at hq
      rcases List.mem_cons.1 hq with rfl | hq
      · exact Int.le_refl _
      · exact Int.le_trans (h.start_le (by simp)) (ih h.next hq)

theorem isNormal_absorb (h : Row p ps) : IsNormal (absorb p ps) := by
  induction ps generalizing p with
  | nil => exact IsNormal.nil.cons (h.forward p (by simp)) (by simp)
  | cons q ps ih =>
    rcases h.absorb_cons with ⟨-, ha⟩ | ⟨hgap, ha⟩
    · rw [ha]
      exact ih h.extend
    · rw [ha]
      apply (ih h.next).cons (h.forward p (by simp))
      intro r hr
      have := h.next.start_le_of_mem_absorb hr
      omega

end Row

theorem length_absorb_le (p : Period c) (ps : List (Period c)) :
    (absorb p ps).length ≤ ps.length + 1 := by
  induction ps generalizing p with
  | nil => exact Nat.le_refl _
  | cons q ps ih =>
    rw [absorb]
    split
    · exact Nat.le_trans (ih _) (Nat.le_succ _)
    · split
      · exact Nat.le_trans (ih _) (Nat.le_succ _)
      · exact Nat.succ_le_succ (ih _)

theorem mem_sortByStart : p ∈ sortByStart ps ↔ p ∈ ps :=
  List.mem_mergeSort

theorem pairwise_sortByStart (ps : List (Period c)) :
    (sortByStart ps).Pairwise fun p q => p.start ≤ q.start := by
  have h : (sortByStart ps).Pairwise fun p q => decide (p.start ≤ q.start) = true := by
    apply List.pairwise_mergeSort
    · intro p q r hpq hqr
      simp only [decide_eq_true_eq, Point.le_iff_index] at hpq hqr ⊢
      omega
    · intro p q
      simp only [Bool.or_eq_true, decide_eq_true_eq, Point.le_iff_index]
      omega
  simpa using h

/-- Merging is reading a row, unless there is nothing to merge. -/
theorem merge_eq_absorb (hps : ∀ p ∈ ps, p.start ≤ p.last) (hne : ps ≠ []) :
    ∃ p rest, Row p rest ∧ merge ps = absorb p rest ∧ ∀ q, q ∈ p :: rest ↔ q ∈ ps := by
  cases hs : sortByStart ps with
  | nil => exact absurd (sortByStart_eq_nil_iff.1 hs) hne
  | cons p rest =>
    have hmem : ∀ q, q ∈ p :: rest ↔ q ∈ ps := by
      intro q
      rw [← hs]
      exact mem_sortByStart
    have hrow : Row p rest :=
      ⟨fun q hq => hps q ((hmem q).1 hq), hs ▸ pairwise_sortByStart ps⟩
    refine ⟨p, rest, hrow, ?_, hmem⟩
    rw [merge, hs]

theorem merge_nil : merge ([] : List (Period c)) = [] :=
  merge_eq_nil_iff.2 rfl

theorem covered_merge (hps : ∀ p ∈ ps, p.start ≤ p.last) :
    Covered (merge ps) t ↔ Covered ps t := by
  by_cases hne : ps = []
  · rw [hne, merge_nil]
  · obtain ⟨p, rest, hrow, hm, hmem⟩ := merge_eq_absorb hps hne
    rw [hm, hrow.covered_absorb]
    exact covered_congr hmem

theorem isNormal_merge (hps : ∀ p ∈ ps, p.start ≤ p.last) : IsNormal (merge ps) := by
  by_cases hne : ps = []
  · rw [hne, merge_nil]
    exact IsNormal.nil
  · obtain ⟨p, rest, hrow, hm, -⟩ := merge_eq_absorb hps hne
    rw [hm]
    exact hrow.isNormal_absorb

theorem length_merge_le (ps : List (Period c)) : (merge ps).length ≤ ps.length := by
  have hl : (sortByStart ps).length = ps.length := List.length_mergeSort _
  rw [merge]
  cases hs : sortByStart ps with
  | nil => exact Nat.zero_le _
  | cons p rest =>
    rw [← hl, hs]
    exact length_absorb_le p rest

/-- The merged list depends on the cover alone. -/
theorem merge_eq_merge (hps : ∀ p ∈ ps, p.start ≤ p.last) (hqs : ∀ q ∈ qs, q.start ≤ q.last)
    (h : ∀ t, Covered ps t ↔ Covered qs t) : merge ps = merge qs := by
  apply (isNormal_merge hps).eq_of_covered_iff (isNormal_merge hqs)
  intro t
  rw [covered_merge hps, covered_merge hqs, h t]

theorem forward_append (hps : ∀ p ∈ ps, p.start ≤ p.last) (hqs : ∀ q ∈ qs, q.start ≤ q.last) :
    ∀ p ∈ ps ++ qs, p.start ≤ p.last := by
  intro p hp
  rcases List.mem_append.1 hp with hp | hp
  · exact hps p hp
  · exact hqs p hp

/-- Periods may be merged before others are added. -/
theorem merge_merge_append (hps : ∀ p ∈ ps, p.start ≤ p.last) (hqs : ∀ q ∈ qs, q.start ≤ q.last) :
    merge (merge ps ++ qs) = merge (ps ++ qs) := by
  refine merge_eq_merge (forward_append (isNormal_merge hps).forward hqs)
    (forward_append hps hqs) ?_
  intro t
  rw [covered_append, covered_append, covered_merge hps]

/-- Both of two lists may be merged before they are merged together. -/
theorem merge_merge_append_merge (hps : ∀ p ∈ ps, p.start ≤ p.last)
    (hqs : ∀ q ∈ qs, q.start ≤ q.last) : merge (merge ps ++ merge qs) = merge (ps ++ qs) := by
  have hmp := (isNormal_merge hps).forward
  have hmq := (isNormal_merge hqs).forward
  refine merge_eq_merge (forward_append hmp hmq) (forward_append hps hqs) ?_
  intro t
  rw [covered_append, covered_append, covered_merge hps, covered_merge hqs]

/-- Merging one period after the other into a merged list is merging them all. -/
theorem foldl_merge (hps : ∀ p ∈ ps, p.start ≤ p.last) (hqs : ∀ q ∈ qs, q.start ≤ q.last) :
    qs.foldl (fun acc q => merge (acc ++ [q])) (merge ps) = merge (ps ++ qs) := by
  induction qs generalizing ps with
  | nil => rw [List.append_nil, List.foldl_nil]
  | cons q qs ih =>
    have hq : ∀ r ∈ [q], r.start ≤ r.last := fun r hr => hqs r (by simp_all)
    have hrest : ∀ r ∈ qs, r.start ≤ r.last := fun r hr => hqs r (by simp [hr])
    rw [List.foldl_cons, merge_merge_append hps hq, ih (forward_append hps hq) hrest,
      List.append_assoc, List.singleton_append]

/-- Merging keeps the cover and brings it into its normal form, the shortest list of periods
that do not wrap and the same list for every other one with that cover. -/
theorem merge_canonical {ps : List (Period c)} (hps : ∀ p ∈ ps, p.start ≤ p.last) :
    (∀ i, CoversInstant (merge ps) i ↔ CoversInstant ps i) ∧
    (∀ p ∈ merge ps, p.start ≤ p.last) ∧
    ((merge ps).Pairwise fun p q => p.start < q.start) ∧
    ((merge ps).Pairwise fun p q =>
      ∀ i, ¬ (p.contains i = .ok true ∧ q.contains i = .ok true)) ∧
    ((merge ps).Pairwise fun p q => p.last.increment ≠ q.start) ∧
    (∀ qs : List (Period c), (∀ q ∈ qs, q.start ≤ q.last) →
      (∀ i, CoversInstant qs i ↔ CoversInstant ps i) →
        (merge ps).length ≤ qs.length ∧ merge qs = merge ps) ∧
    ps.foldl (fun acc p => merge (acc ++ [p])) [] = merge ps := by
  have hn := isNormal_merge hps
  refine ⟨?_, hn.forward, hn.ascending, hn.disjoint, hn.apart, ?_, ?_⟩
  · rw [coversInstant_congr_iff]
    intro t
    exact covered_merge hps
  · intro qs hqs h
    have heq := merge_eq_merge hqs hps (coversInstant_congr_iff.1 h)
    exact ⟨heq ▸ length_merge_le qs, heq⟩
  · have hnil : ∀ p ∈ ([] : List (Period c)), p.start ≤ p.last := by simp
    have hfold := foldl_merge hnil hps
    rwa [merge_nil, List.nil_append] at hfold

/-- Four periods of minutes, out of order: two overlap, one touches them and one stands apart. -/
theorem merge_canonical_of_four : ∃ ps : List (Period .week), ps =
      [⟨.ofIndex _ 24, .ofIndex _ 27⟩, ⟨.ofIndex _ 21, .ofIndex _ 22⟩,
        ⟨.ofIndex _ 12, .ofIndex _ 20⟩, ⟨.ofIndex _ 10, .ofIndex _ 15⟩] ∧
    (∀ p ∈ ps, p.start ≤ p.last) ∧
    (∀ i, CoversInstant (merge ps) i ↔ CoversInstant ps i) ∧
    ps.foldl (fun acc p => merge (acc ++ [p])) [] = merge ps := by
  refine ⟨_, rfl, by decide, ?_, ?_⟩
  · exact (merge_canonical (by decide)).1
  · exact (merge_canonical (by decide)).2.2.2.2.2.2

end OpeningHours.Period
