import OpeningHours.Proofs.Period.Settled

/-!
# Periods that wrap

A period whose last point comes before its first covers no point (`not_covers_of_wraps`). Twice
nothing is asked about that. A period says that it never closes if its last point is followed by its
first: of one that does not wrap this is true (`isAlways_iff_forall_covers`), and one that wraps may
say it too. And a period that starts right after the present one hands over its last point: if it
wraps, that point lies back, and what the present one covers from there on is cut off (`Clips`).
Where nothing is cut off, merging keeps the cover; what is cut off is lost, since it lies before all
that is read later (`covered_absorb_iff`).
-/

namespace OpeningHours.Period

variable {c : Cycle} {p q : Period c} {ps past before : List (Period c)} {t : Point c}

theorem not_covers_of_wraps (h : p.last < p.start) : ¬ p.covers t = true := by
  rw [Point.lt_iff_index] at h
  rw [covers_iff_index]
  omega

theorem isAlways_iff_index :
    p.isAlways = true ↔
      p.start.index = p.last.index + 1 ∨ p.last.index + 1 = c.size ∧ p.start.index = 0 := by
  rw [isAlways, decide_eq_true_eq, Point.increment_eq_iff_index]

/-- Only the whole row covers every point. -/
theorem forall_covers_iff_index :
    (∀ t, p.covers t = true) ↔ p.start.index = 0 ∧ p.last.index + 1 = c.size := by
  have hl := p.last.index_mem
  constructor
  · intro h
    have hfirst := (covers_iff_index.1 (h (.ofIndex c 0))).1
    have hend := (covers_iff_index.1 (h (.ofIndex c (c.size - 1)))).2
    have hs := p.start.index_mem
    rw [Point.index_ofIndex_of_mem (by omega) (by omega)] at hfirst hend
    omega
  · intro h t
    have ht := t.index_mem
    rw [covers_iff_index]
    omega

theorem isAlways_iff_forall_covers (h : p.start ≤ p.last) :
    p.isAlways = true ↔ ∀ t, p.covers t = true := by
  rw [Point.le_iff_index] at h
  rw [isAlways_iff_index, forall_covers_iff_index]
  omega

theorem contains_point : p.contains (.point t) = .ok true ↔ p.covers t = true := by
  rw [contains_eq_ok_true_iff, Instant.project_point]
  constructor
  · rintro ⟨u, hu, h⟩
    cases hu
    exact h
  · exact fun h => ⟨t, rfl, h⟩

/-- No point is in a period that wraps. So a period says that it never closes exactly when every
point is in it, unless it wraps and its last point is followed by its first. -/
theorem isAlways_iff_contains_iff (p : Period c) :
    (p.last < p.start → ∀ t : Point c, p.contains (.point t) = .ok false) ∧
    ((p.isAlways = true ↔ ∀ t : Point c, p.contains (.point t) = .ok true) ↔
      ¬ (p.last < p.start ∧ p.last.increment = p.start)) := by
  simp only [contains_point]
  constructor
  · intro hw t
    rw [contains, Instant.project_point]
    exact congrArg _ (Bool.eq_false_iff.2 (not_covers_of_wraps hw))
  · constructor
    · rintro h ⟨hw, hnext⟩
      exact not_covers_of_wraps hw (h.1 (decide_eq_true hnext) (Point.first c))
    · intro h
      by_cases hw : p.last < p.start
      · refine iff_of_false (fun ha => h ⟨hw, of_decide_eq_true ha⟩) fun hc => ?_
        exact not_covers_of_wraps hw (hc (Point.first c))
      · refine isAlways_iff_forall_covers (Point.le_iff_index.2 ?_)
        have hle := mt Point.lt_iff_index.2 hw
        omega

/-- The period that covers every hour never closes, and every hour is in it. -/
theorem isAlways_iff_contains_iff_every_hour : ∃ (c : Cycle) (p : Period c),
    c.scales = [.hourOfDay] ∧ p = ⟨.ofIndex c 0, .ofIndex c 23⟩ ∧ p.isAlways = true ∧
    ∀ t : Point c, p.contains (.point t) = .ok true := by
  let c : Cycle := ⟨[.hourOfDay], by decide, by decide⟩
  let p : Period c := ⟨.ofIndex c 0, .ofIndex c 23⟩
  have ha : p.isAlways = true := by decide
  have hw : ¬ (p.last < p.start ∧ p.last.increment = p.start) := by decide
  exact ⟨c, p, rfl, rfl, ha, ((isAlways_iff_contains_iff p).2.2 hw).1 ha⟩

/-- A period from 5 o'clock round to 4 says that it never closes, and no hour is in it. -/
theorem isAlways_without_contains : ∃ (c : Cycle) (p : Period c),
    c.scales = [.hourOfDay] ∧ p = ⟨.ofIndex c 5, .ofIndex c 4⟩ ∧ p.isAlways = true ∧
    ∀ t : Point c, ¬ p.contains (.point t) = .ok true := by
  let c : Cycle := ⟨[.hourOfDay], by decide, by decide⟩
  let p : Period c := ⟨.ofIndex c 5, .ofIndex c 4⟩
  refine ⟨c, p, rfl, rfl, by decide, fun t => ?_⟩
  rw [contains_point]
  exact not_covers_of_wraps (by decide)

/-- The stretch that is left of `p` when `q` starts right after it: up to the last point of `q`. -/
def upTo (p q : Period c) : Period c :=
  ⟨p.start, q.last⟩

theorem covers_extend_iff (h : p.covers q.start = true) :
    (p.extend q).covers t = true ↔ p.covers t = true ∨ q.covers t = true := by
  rw [covers_iff_index] at h
  rw [covers_iff_index, covers_iff_index, covers_iff_index, start_extend, index_last_extend]
  omega

theorem covers_upTo_iff_index :
    (p.upTo q).covers t = true ↔ p.start.index ≤ t.index ∧ t.index ≤ q.last.index :=
  covers_iff_index

/-- What is covered after `q` has followed `p` was covered by one of them. -/
theorem covers_of_covers_upTo (hnext : p.last.increment = q.start)
    (ht : (p.upTo q).covers t = true) : p.covers t = true ∨ q.covers t = true := by
  rw [Point.increment_eq_iff_index] at hnext
  rw [covers_upTo_iff_index] at ht
  have hmem := t.index_mem
  rw [covers_iff_index, covers_iff_index]
  omega

/-- Merging covers no point that was not covered. -/
theorem covered_of_covered_absorb (h : Covered (absorb p ps) t) : Covered (p :: ps) t := by
  fun_induction absorb p ps with
  | case1 p => exact h
  | case2 p q ps hin ih =>
    rw [covered_cons, covered_cons, ← or_assoc]
    exact (covered_cons.1 (ih h)).imp_left (covers_extend_iff hin).1
  | case3 p q ps _ hnext ih =>
    rw [covered_cons, covered_cons, ← or_assoc]
    exact (covered_cons.1 (ih h)).imp_left (covers_of_covers_upTo hnext)
  | case4 p q ps _ _ ih =>
    rw [covered_cons]
    exact (covered_cons.1 h).imp_right ih

/-- When the periods `past` have been read, `q` cuts off what they cover right before its start:
it wraps, and it does not lead up to that start again. -/
structure Clips (past : List (Period c)) (q : Period c) : Prop where
  wraps : q.last < q.start
  short : q.last.increment ≠ q.start
  reached : Covered past q.start.previous
  unreached : ¬ Covered past q.start

/-- None of the periods cuts off what is covered when it is read. -/
def Unclipped (past ps : List (Period c)) : Prop :=
  ∀ before q after, ps = before ++ q :: after → ¬ Clips (past ++ before) q

namespace Clips

theorem index_previous (h : Clips past q) : q.start.previous.index = q.start.index - 1 := by
  have hw := Point.lt_iff_index.1 h.wraps
  have hl := q.last.index_mem
  exact Point.index_previous_of_pos (by omega)

theorem index_last_lt (h : Clips past q) : q.last.index + 1 < q.start.index := by
  have hw := Point.lt_iff_index.1 h.wraps
  have hs := mt Point.increment_eq_iff_index.2 h.short
  omega

/-- Only what is covered from the point before its start on matters. -/
theorem congr (h : Clips past q)
    (hp : ∀ t : Point c, q.start.index ≤ t.index + 1 → (Covered past t ↔ Covered before t)) :
    Clips before q where
  wraps := h.wraps
  short := h.short
  reached := by
    have hi := h.index_previous
    exact (hp _ (by omega)).1 h.reached
  unreached := fun hc => h.unreached ((hp _ (by omega)).2 hc)

end Clips

namespace Unclipped

theorem nil : Unclipped past [] := by
  intro before q after h
  simp at h

theorem cons_iff : Unclipped past (q :: ps) ↔ ¬ Clips past q ∧ Unclipped (past ++ [q]) ps := by
  rw [Unclipped, forall_split_cons_iff, List.append_nil]
  simp only [Unclipped, List.append_assoc, List.singleton_append]

/-- For periods that start at `s` or later, only what is covered from the point before `s` on
matters. -/
theorem congr {s : Point c} (h : Unclipped past ps) (hs : ∀ r ∈ ps, s ≤ r.start)
    (hp : ∀ t : Point c, s.index ≤ t.index + 1 → (Covered past t ↔ Covered before t)) :
    Unclipped before ps := by
  intro front r after hps hr
  have hsr := Point.le_iff_index.1 (hs r (by simp [hps]))
  refine h front r after hps (hr.congr fun t ht => ?_)
  rw [covered_append, covered_append, hp t (by omega)]

end Unclipped

theorem covers_upTo_iff (hs : p.start ≤ q.start) (hout : ¬ p.covers q.start = true)
    (hnext : p.last.increment = q.start) (hc : ¬ Clips [p] q) :
    (p.upTo q).covers t = true ↔ p.covers t = true ∨ q.covers t = true := by
  refine ⟨covers_of_covers_upTo hnext, ?_⟩
  have hs := Point.le_iff_index.1 hs
  have hi := Point.increment_eq_iff_index.1 hnext
  have houti := mt covers_iff_index.2 hout
  have hmem := t.index_mem
  rw [covers_upTo_iff_index, covers_iff_index, covers_iff_index]
  rintro (hp | hq)
  · refine ⟨hp.1, Int.not_lt.1 fun hlt => hc ?_⟩
    -- the last point of `q` lies back, before a point of `p`
    have hlast : q.start.index = p.last.index + 1 := by omega
    have hprev : q.start.previous = p.last := (Point.increment_eq_iff.1 hnext).symm
    exact {
      wraps := Point.lt_iff_index.2 (by omega)
      short := by
        rw [ne_eq, Point.increment_eq_iff_index]
        omega
      reached := by
        rw [hprev]
        exact covered_cons.2 (Or.inl (covers_iff_index.2 (by omega)))
      unreached := by simpa using hout }
  · omega

/-- What is cut off is lost, since all that is read later starts after it. -/
theorem not_covered_of_clips (hps : ∀ r ∈ ps, q.start ≤ r.start) (hc : Clips [p] q) :
    ¬ Covered (absorb (p.upTo q) ps) q.start.previous := by
  have hprev := hc.index_previous
  have hlast := hc.index_last_lt
  intro h
  rcases covered_cons.1 (covered_of_covered_absorb h) with h | ⟨r, hr, h⟩
  · have hle : q.start.previous.index ≤ q.last.index := (covers_iff_index.1 h).2
    omega
  · have hle := Point.le_iff_index.1 (hps r hr)
    have hge := (covers_iff_index.1 h).1
    omega

/-- What `p` covers lies before a period that it does not touch, with a gap. -/
theorem Parts.lt_of_covers (h : Parts p q) (hs : p.start ≤ q.start) (ht : p.covers t = true) :
    t.index + 1 < q.start.index := by
  have hs := Point.le_iff_index.1 hs
  have hout := mt covers_iff_index.2 h.outside
  have hnext := mt Point.increment_eq_iff_index.2 h.notNext
  rw [covers_iff_index] at ht
  omega

/-- The present period `j` stands for `p` and `q` together. -/
theorem covered_absorb_iff_of_join {j : Period c}
    (hj : ∀ t, j.covers t = true ↔ p.covers t = true ∨ q.covers t = true)
    (hsorted : ∀ r ∈ ps, q.start ≤ r.start) (hc : ¬ Clips [p] q)
    (ih : (∀ t, Covered (absorb j ps) t ↔ Covered (j :: ps) t) ↔ Unclipped [j] ps) :
    (∀ t, Covered (absorb j ps) t ↔ Covered (p :: q :: ps) t) ↔ Unclipped [p] (q :: ps) := by
  have hcover : ∀ t, Covered (j :: ps) t ↔ Covered (p :: q :: ps) t := by
    intro t
    rw [covered_cons, covered_cons, covered_cons, hj, or_assoc]
  have hpast : ∀ t, Covered [j] t ↔ Covered [p, q] t := by
    intro t
    rw [covered_cons, covered_cons, covered_cons, hj, or_assoc]
  rw [Unclipped.cons_iff, and_iff_right hc]
  simp only [← hcover]
  rw [ih]
  constructor
  · exact fun h => h.congr hsorted fun t _ => hpast t
  · exact fun h => h.congr hsorted fun t _ => (hpast t).symm

/-- The present period `p` is closed, and `q` is next. -/
theorem covered_absorb_iff_of_parts (hpq : Parts p q) (hs : p.start ≤ q.start)
    (hsorted : ∀ r ∈ q :: ps, q.start ≤ r.start)
    (ih : (∀ t, Covered (absorb q ps) t ↔ Covered (q :: ps) t) ↔ Unclipped [q] ps) :
    (∀ t, Covered (p :: absorb q ps) t ↔ Covered (p :: q :: ps) t) ↔
      Unclipped [p] (q :: ps) := by
  have hfar : ∀ t, p.covers t = true → t.index + 1 < q.start.index :=
    fun t => hpq.lt_of_covers hs
  have hc : ¬ Clips [p] q := by
    intro hc
    have hprev := hc.index_previous
    have hlt := hfar _ (by simpa using hc.reached)
    omega
  have hpast : ∀ t, q.start.index ≤ t.index + 1 → (Covered [q] t ↔ Covered [p, q] t) := by
    intro t ht
    have hp : ¬ p.covers t = true := fun hp => absurd (hfar t hp) (by omega)
    exact ((covered_cons (p := p)).trans (or_iff_right hp)).symm
  have hlater : ∀ t, Covered (q :: ps) t → ¬ p.covers t = true := by
    rintro t ⟨r, hr, ht⟩ hp
    have hle := Point.le_iff_index.1 (hsorted r hr)
    have hge := (covers_iff_index.1 ht).1
    have hlt := hfar t hp
    omega
  have hrest : (∀ t, Covered (p :: absorb q ps) t ↔ Covered (p :: q :: ps) t) ↔
      ∀ t, Covered (absorb q ps) t ↔ Covered (q :: ps) t := by
    refine forall_congr' fun t => ?_
    rw [covered_cons, covered_cons (p := p)]
    constructor
    · intro h
      refine ⟨covered_of_covered_absorb, fun ht => ?_⟩
      exact (h.2 (Or.inr ht)).resolve_left (hlater t ht)
    · intro h
      rw [h]
  rw [Unclipped.cons_iff, and_iff_right hc, hrest, ih]
  have hps : ∀ r ∈ ps, q.start ≤ r.start := fun r hr => hsorted r (List.mem_cons_of_mem _ hr)
  constructor
  · exact fun h => h.congr hps hpast
  · exact fun h => h.congr hps fun t ht => (hpast t ht).symm

/-- Reading a row of sorted periods keeps the cover exactly if none of them cuts off what is
covered right before it. -/
theorem covered_absorb_iff (h : (p :: ps).Pairwise fun q r => q.start ≤ r.start) :
    (∀ t, Covered (absorb p ps) t ↔ Covered (p :: ps) t) ↔ Unclipped [p] ps := by
  induction ps generalizing p with
  | nil => exact ⟨fun _ => Unclipped.nil, fun _ t => Iff.rfl⟩
  | cons q ps ih =>
    have hpq : p.start ≤ q.start := List.rel_of_pairwise_cons h (by simp)
    have hq : ∀ r ∈ ps, q.start ≤ r.start := fun r hr => List.rel_of_pairwise_cons h.of_cons hr
    have hjoin {j : Period c} (hj : j.start = p.start) :
        (j :: ps).Pairwise fun q r => q.start ≤ r.start := by
      refine List.pairwise_cons.2 ⟨fun r hr => ?_, h.of_cons.of_cons⟩
      rw [hj]
      exact List.rel_of_pairwise_cons h (List.mem_cons_of_mem _ hr)
    rw [absorb]
    by_cases hin : p.covers q.start = true
    · rw [if_pos hin]
      have hc : ¬ Clips [p] q := fun hc => hc.unreached (by simpa using hin)
      exact covered_absorb_iff_of_join (fun t => covers_extend_iff hin) hq hc (ih (hjoin rfl))
    · rw [if_neg hin]
      by_cases hnext : p.last.increment = q.start
      · rw [if_pos hnext]
        by_cases hc : Clips [p] q
        · refine iff_of_false (fun hk => ?_) fun hu => (Unclipped.cons_iff.1 hu).1 hc
          refine not_covered_of_clips hq hc ((hk _).2 ?_)
          rw [covered_cons]
          exact Or.inl (by simpa using hc.reached)
        · exact covered_absorb_iff_of_join (fun t => covers_upTo_iff hpq hin hnext hc) hq hc
            (ih (hjoin rfl))
      · rw [if_neg hnext]
        refine covered_absorb_iff_of_parts ⟨hin, hnext⟩ hpq ?_ (ih h.of_cons)
        intro r hr
        rcases List.mem_cons.1 hr with rfl | hr
        · exact Point.le_iff_index.2 (Int.le_refl _)
        · exact hq r hr

theorem covered_sortByStart : Covered (sortByStart ps) t ↔ Covered ps t :=
  covered_congr fun _ => mem_sortByStart

theorem covered_of_covered_merge (h : Covered (merge ps) t) : Covered ps t := by
  rw [← covered_sortByStart]
  rw [merge] at h
  cases hs : sortByStart ps with
  | nil => rwa [hs] at h
  | cons p rest =>
    rw [hs] at h
    exact covered_of_covered_absorb h

theorem covered_merge_iff_unclipped :
    (∀ t, Covered (merge ps) t ↔ Covered ps t) ↔ Unclipped [] (sortByStart ps) := by
  have hsorted := pairwise_sortByStart ps
  have hcover : ∀ t, Covered ps t ↔ Covered (sortByStart ps) t := fun _ => covered_sortByStart.symm
  simp only [hcover]
  rw [merge]
  cases hs : sortByStart ps with
  | nil => exact ⟨fun _ => Unclipped.nil, fun _ t => Iff.rfl⟩
  | cons p rest =>
    rw [hs] at hsorted
    have hp : ¬ Clips [] p := fun hc => not_covered_nil hc.reached
    rw [Unclipped.cons_iff, and_iff_right hp]
    exact covered_absorb_iff hsorted

/-- Merging adds nothing to a cover, whether periods wrap or not. It keeps the cover exactly if no
period, in the order in which they are read, cuts off what was covered right before its start. -/
theorem coversInstant_merge_iff (ps : List (Period c)) :
    (∀ i, CoversInstant (merge ps) i → CoversInstant ps i) ∧
    ((∀ i, CoversInstant (merge ps) i ↔ CoversInstant ps i) ↔
      ∀ before q after, sortByStart ps = before ++ q :: after → ¬ Clips before q) := by
  constructor
  · intro i h
    rw [coversInstant_iff] at h ⊢
    obtain ⟨t, ht, hc⟩ := h
    exact ⟨t, ht, covered_of_covered_merge hc⟩
  · rw [coversInstant_congr_iff, covered_merge_iff_unclipped]
    exact Iff.rfl

/-- From 9 to 17 o'clock, with a period beside it that starts at 18 and leads round to 17. -/
theorem coversInstant_merge_iff_round : ∃ (c : Cycle) (ps : List (Period c)),
    c.scales = [.hourOfDay] ∧
    ps = [⟨.ofIndex c 9, .ofIndex c 17⟩, ⟨.ofIndex c 18, .ofIndex c 17⟩] ∧
    (∀ before q after, sortByStart ps = before ++ q :: after → ¬ Clips before q) ∧
    ∀ i, CoversInstant (merge ps) i ↔ CoversInstant ps i := by
  let c : Cycle := ⟨[.hourOfDay], by decide, by decide⟩
  let p : Period c := ⟨.ofIndex c 9, .ofIndex c 17⟩
  let q : Period c := ⟨.ofIndex c 18, .ofIndex c 17⟩
  have hsort : sortByStart [p, q] = [p, q] := sortByStart_of_sorted (by decide)
  have hu : Unclipped [] (sortByStart [p, q]) := by
    rw [hsort, Unclipped.cons_iff, Unclipped.cons_iff]
    exact ⟨fun hc => not_covered_nil hc.reached, fun hc => hc.short (by decide), Unclipped.nil⟩
  exact ⟨c, [p, q], rfl, rfl, hu, (coversInstant_merge_iff [p, q]).2.2 hu⟩

/-- From 9 to 17 o'clock, with a period beside it that starts at 18 and leads round to 12: the
afternoon is lost. -/
theorem merge_loses_afternoon : ∃ (c : Cycle) (ps : List (Period c)),
    c.scales = [.hourOfDay] ∧
    ps = [⟨.ofIndex c 9, .ofIndex c 17⟩, ⟨.ofIndex c 18, .ofIndex c 12⟩] ∧
    merge ps = [⟨.ofIndex c 9, .ofIndex c 12⟩] ∧
    CoversInstant ps (.point (.ofIndex c 13)) ∧
    ¬ CoversInstant (merge ps) (.point (.ofIndex c 13)) := by
  let c : Cycle := ⟨[.hourOfDay], by decide, by decide⟩
  let p : Period c := ⟨.ofIndex c 9, .ofIndex c 17⟩
  let q : Period c := ⟨.ofIndex c 18, .ofIndex c 12⟩
  have hsort : sortByStart [p, q] = [p, q] := sortByStart_of_sorted (by decide)
  have hmerge : merge [p, q] = [⟨.ofIndex c 9, .ofIndex c 12⟩] := by
    rw [merge, hsort]
    decide
  refine ⟨c, [p, q], rfl, rfl, hmerge, ?_, ?_⟩
  · rw [coversInstant_point, covered_cons]
    exact Or.inl (by decide)
  · rw [hmerge, coversInstant_point, covered_cons]
    exact not_or.2 ⟨by decide, not_covered_nil⟩

end OpeningHours.Period
