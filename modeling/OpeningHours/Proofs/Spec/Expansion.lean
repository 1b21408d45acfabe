import Mathlib
import OpeningHours.Proofs.Spec.Box

/-!
# The periods of an expansion

The lists of spans on the scales of a cycle have as many combinations as the product of their
lengths says (`length_choices`). Each combination is expanded to one block for each choice of its
coarser digits (`Combination.exists_expands`): no choice is made twice (`nodup_choices`), and blocks
with different coarser digits share no point (`not_covers_of_ne`). Together the blocks of all
combinations cover the box that the lists describe, in whatever order the scales are given, since by
rank they are in the order of the cycle (`expansion_exact`).
-/

namespace OpeningHours

section Choices

variable {κ α : Type}

theorem length_choices (ranges : List (κ × List α)) :
    (choices ranges).length = (ranges.map fun d => d.2.length).prod := by
  induction ranges with
  | nil => rfl
  | cons d ranges ih =>
    rw [List.map_cons, List.prod_cons, ← ih]
    simp [choices, List.length_flatMap]

/-- No choice is made twice if no list has a repeat. -/
theorem nodup_choices {ranges : List (κ × List α)} (h : ∀ d ∈ ranges, d.2.Nodup) :
    (choices ranges).Nodup := by
  induction ranges with
  | nil => exact List.nodup_singleton _
  | cons d ranges ih =>
    obtain ⟨k, xs⟩ := d
    have htails : (choices ranges).Nodup := ih fun e he => h e (by simp [he])
    rw [choices, List.nodup_flatMap]
    constructor
    · intro x _
      exact htails.map fun _ _ he => (List.cons.inj he).2
    · have hxs : xs.Nodup := h (k, xs) (by simp)
      refine hxs.imp fun hne => ?_
      simp only [Function.onFun, List.disjoint_left, List.mem_map]
      rintro _ ⟨tail, -, rfl⟩ ⟨tail', -, he⟩
      exact hne (Prod.mk.inj (List.cons.inj he).1).2.symm

end Choices

namespace Span

theorem nodup_values (r : Span) : r.values.Nodup :=
  List.nodup_range.map fun i j hij => by simpa using hij

theorem length_values {r : Span} {s : Scale} (h : r.Fits s) : (r.values.length : Int) = r.length := by
  have := h.ordered
  rw [values, List.length_map, List.length_range, length]
  omega

end Span

variable {c : Cycle}

/-- Blocks with different coarser digits share no point. -/
theorem not_covers_of_ne {s : Scale} {a b : Int} {fixed fixed' : Digits} {p q : Period c}
    (hp : p.start.digits = (s, a) :: fixed) (hp' : p.last.digits = (s, b) :: fixed)
    (hq : q.start.digits = (s, a) :: fixed') (hq' : q.last.digits = (s, b) :: fixed')
    (hne : fixed ≠ fixed') (t : Point c) : ¬ (p.covers t = true ∧ q.covers t = true) := by
  rintro ⟨hpt, hqt⟩
  obtain ⟨v, hv, -⟩ := (covers_block_iff hp hp').1 hpt
  obtain ⟨w, hw, -⟩ := (covers_block_iff hq hq').1 hqt
  rw [hv] at hw
  exact hne (List.cons.inj hw).2

/-- Blocks for different choices of coarser digits are apart. -/
theorem pairwise_blocks {s : Scale} {a b : Int} {ds : List Digits} {block : Digits → Period c}
    (hstart : ∀ fixed ∈ ds, (block fixed).start.digits = (s, a) :: fixed)
    (hlast : ∀ fixed ∈ ds, (block fixed).last.digits = (s, b) :: fixed) (hn : ds.Nodup) :
    (ds.map block).Pairwise fun p q => ∀ t, ¬ (p.covers t = true ∧ q.covers t = true) := by
  rw [List.pairwise_map]
  refine hn.pairwise_of_forall_ne fun fixed hf fixed' hf' hne => ?_
  exact not_covers_of_ne (hstart _ hf) (hlast _ hf) (hstart _ hf') (hlast _ hf') hne

namespace Combination

/-- What a combination is expanded to: as many periods as the lengths of the coarser spans say, which
do not wrap, share no point and cover its box. -/
structure Expands (c : Cycle) (ch : Combination) (ps : List (Period c)) : Prop where
  periods_eq : ch.periods = .ok (ps.map (Sigma.mk c))
  length_eq : (ps.length : Int) = (ch.tail.map fun d => d.2.length).prod
  forward : ∀ p ∈ ps, p.start ≤ p.last
  apart : ps.Pairwise fun p q => ∀ t, ¬ (p.covers t = true ∧ q.covers t = true)
  covered_iff : ∀ t, Period.Covered ps t ↔ ch.Holds t.digits

theorem length_choices_values {ch : Combination} (hf : ch.Fits) :
    ((choices ch.values).length : Int) = (ch.map fun d => d.2.length).prod := by
  rw [length_choices, values, List.map_map]
  induction ch with
  | nil => rfl
  | cons d ch ih =>
    rw [List.map_cons, List.map_cons, List.prod_cons, List.prod_cons, Nat.cast_mul,
      ih fun e he => hf e (by simp [he])]
    exact congrArg (· * _) (Span.length_values (hf d (by simp)))

theorem nodup_choices_values (ch : Combination) : (choices ch.values).Nodup := by
  refine nodup_choices fun d hd => ?_
  obtain ⟨e, -, rfl⟩ := List.mem_map.1 hd
  exact e.2.nodup_values

/-- A combination on the scales of a cycle is expanded to one block for each choice of values on its
coarser scales. -/
theorem exists_expands {ch : Combination} (hs : ch.map Prod.fst = c.scales) (hf : ch.Fits) :
    ∃ ps, Expands c ch ps := by
  obtain ⟨aps, haps, hcover⟩ := exists_periods_eq_ok hs hf
  cases ch with
  | nil => exact absurd hs.symm c.nonempty
  | cons d coarser =>
    obtain ⟨s, r⟩ := d
    have : Nonempty (Period c) := ⟨⟨.first c, .first c⟩⟩
    have hat : ∀ fixed ∈ choices (values coarser), ∃ p : Period c,
        periodAt s r fixed = .ok ⟨c, p⟩ ∧
        p.start.digits = (s, r.start) :: fixed ∧ p.last.digits = (s, r.stop) :: fixed :=
      fun fixed h => exists_periodAt_eq_ok hs hf (mem_choices_values_iff.1 h)
    choose! block hblock hstart hlast using hat
    have hperiods : periods ((s, r) :: coarser) =
        .ok (((choices (values coarser)).map block).map (Sigma.mk c)) := by
      rw [periods, Cycle.byRank_eq hs, List.map_map]
      exact mapM_eq_ok_map hblock
    rw [haps, Except.ok.injEq] at hperiods
    subst hperiods
    refine ⟨(choices (values coarser)).map block, haps, ?_, ?_, ?_, ?_⟩
    · rw [List.length_map]
      exact length_choices_values fun d hd => hf d (by simp [hd])
    · intro p hp
      obtain ⟨q, hq, hle⟩ := hcover.forward _ (List.mem_map_of_mem hp)
      cases hq
      exact hle
    · exact pairwise_blocks hstart hlast (nodup_choices_values coarser)
    · intro t
      rw [← hcover.covered_iff]
      simp only [Period.Covered, List.mem_map_of_injective sigma_mk_injective]

end Combination

/-- By rank, the scales of a cycle that are given in some order are in its own. -/
theorem Cycle.map_fst_byRank {α : Type} {ds : List (Scale × α)}
    (h : (ds.map Prod.fst).Perm c.scales) : (byRank ds).map Prod.fst = c.scales := by
  have hperm : ((byRank ds).map Prod.fst).Perm c.scales := ((perm_byRank ds).map _).trans h
  refine hperm.eq_of_pairwise (fun s t _ _ hst hts => ?_) (pairwise_byRank ds)
    (c.pairwise_rank.imp Nat.le_of_lt)
  exact Scale.rank_inj (Nat.le_antisymm hst hts)

/-- An instant is covered by the box of some choice exactly if on each scale its value is in one of
the spans listed there. -/
theorem exists_holds_iff {ranges : List (Scale × List Span)} {i : Instant} {v : Scale → Int}
    {t : Point c} (hs : ranges.map Prod.fst = c.scales)
    (hv : ∀ s ∈ c.scales, i.read? s = some (v s)) (ht : i.project c = .ok t) :
    (∃ ch ∈ choices ranges, Combination.Holds ch t.digits) ↔
      ∀ d ∈ ranges, ∃ r ∈ d.2, v d.1 ∈ r := by
  have hdigits : t.digits = ranges.map fun d => (d.1, v d.1) := by
    have hscales : t.digits.map (fun d => (d.1, v d.1)) = ranges.map fun d => (d.1, v d.1) := by
      have h := congrArg (List.map fun s => (s, v s)) (t.scales_eq.trans hs.symm)
      rwa [List.map_map, List.map_map] at h
    rw [← hscales]
    refine (List.map_id _).symm.trans (List.map_congr_left fun d hd => ?_)
    have hread := Instant.project_eq_ok_iff.1 ht d hd
    rw [hv d.1 (t.mem_scales_of_mem hd)] at hread
    exact Prod.ext rfl (Option.some.inj hread).symm
  rw [exists_choice_iff, hdigits, ← offered_map_iff, List.map_id']

/-- Lists of spans that are given for the scales of a cycle, in whatever order, have as many
combinations as the product of their lengths. Each is expanded to disjoint periods that do not wrap,
as many as the product of the lengths of its coarser spans; and the periods of all of them cover an
instant exactly if on each scale some listed span contains its value. -/
theorem expansion_exact (c : Cycle) (ranges : List (Scale × List Span))
    (hs : (ranges.map Prod.fst).Perm c.scales) (hf : ∀ d ∈ ranges, ∀ r ∈ d.2, r.Fits d.1) :
    (combinations ranges).length = (ranges.map fun d => d.2.length).prod ∧
    (∀ ch ∈ combinations ranges, ∃ ps, ch.Expands c ps) ∧
    ∀ (i : Instant) (v : Scale → Int), (∀ s ∈ c.scales, i.read? s = some (v s)) →
      ((∃ ch ∈ combinations ranges, ∃ ps, ch.Expands c ps ∧ Period.CoversInstant ps i) ↔
        ∀ d ∈ ranges, ∃ r ∈ d.2, v d.1 ∈ r) := by
  have hperm := perm_byRank ranges
  have hscales := Cycle.map_fst_byRank hs
  have hexpand : ∀ ch ∈ combinations ranges, ∃ ps, ch.Expands c ps := by
    intro ch hch
    refine Combination.exists_expands ((map_fst_of_mem_choices hch).trans hscales) fun d hd => ?_
    obtain ⟨e, he, h1, h2⟩ := mem_of_mem_choices hch d hd
    rw [h1]
    exact hf e (hperm.mem_iff.1 he) d.2 h2
  refine ⟨?_, hexpand, ?_⟩
  · rw [combinations, length_choices]
    exact (hperm.map _).prod_eq
  · intro i v hv
    obtain ⟨t, ht⟩ := Instant.exists_project fun s hs => by rw [hv s hs]; rfl
    have hiff : (∃ ch ∈ combinations ranges, Combination.Holds ch t.digits) ↔
        ∀ d ∈ ranges, ∃ r ∈ d.2, v d.1 ∈ r := by
      rw [combinations, exists_holds_iff hscales hv ht]
      simp only [hperm.mem_iff]
    rw [← hiff]
    constructor
    · rintro ⟨ch, hch, ps, hps, hcovers⟩
      obtain ⟨u, hu, hcovered⟩ := Period.coversInstant_iff.1 hcovers
      rw [ht] at hu
      cases hu
      exact ⟨ch, hch, (hps.covered_iff t).1 hcovered⟩
    · rintro ⟨ch, hch, hholds⟩
      obtain ⟨ps, hps⟩ := hexpand ch hch
      exact ⟨ch, hch, ps, hps, Period.coversInstant_iff.2 ⟨t, ht, (hps.covered_iff t).2 hholds⟩⟩

/-- Two stretches of working hours from Monday to Friday, given from the weekday down and asked for
a Wednesday afternoon. -/
theorem expansion_exact_working_hours :
    ∃ (ranges : List (Scale × List Span)) (i : Instant) (v : Scale → Int),
      ranges.map Prod.fst = [.dayOfWeek, .hourOfDay, .minuteOfHour] ∧
      (ranges.map Prod.fst).Perm Cycle.week.scales ∧ (∀ d ∈ ranges, ∀ r ∈ d.2, r.Fits d.1) ∧
      (∀ s ∈ Cycle.week.scales, i.read? s = some (v s)) ∧
      (combinations ranges).length = 2 ∧
      ∃ ch ∈ combinations ranges, ∃ ps, ch.Expands .week ps ∧ Period.CoversInstant ps i := by
  let ranges : List (Scale × List Span) :=
    [(.dayOfWeek, [⟨1, 5, by decide, by decide⟩]),
     (.hourOfDay, [⟨9, 11, by decide, by decide⟩, ⟨14, 15, by decide, by decide⟩]),
     (.minuteOfHour, [.full .minuteOfHour])]
  let i : Instant := .dateTime ⟨⟨2024, 1, 3, by decide, by decide, by decide⟩,
    ⟨14, 30, 59, 0, by decide, by decide, by decide, by decide⟩⟩
  let v : Scale → Int := fun s => (i.read? s).getD 0
  have hs : (ranges.map Prod.fst).Perm Cycle.week.scales := by decide
  have hbounds : ∀ d ∈ ranges, ∀ r ∈ d.2,
      r.start ≤ r.stop ∧ d.1.contains r.start = true ∧ d.1.contains r.stop = true := by decide
  have hf : ∀ d ∈ ranges, ∀ r ∈ d.2, r.Fits d.1 := fun d hd r hr =>
    ⟨(hbounds d hd r hr).1, (hbounds d hd r hr).2.1, (hbounds d hd r hr).2.2⟩
  have hv : ∀ s ∈ Cycle.week.scales, i.read? s = some (v s) := by decide
  obtain ⟨hlength, -, hcovers⟩ := expansion_exact .week ranges hs hf
  have hin : ∀ d ∈ ranges, ∃ r ∈ d.2, r.start ≤ v d.1 ∧ v d.1 ≤ r.stop := by decide
  exact ⟨ranges, i, v, rfl, hs, hf, hv, hlength, (hcovers i v hv).2 hin⟩

end OpeningHours
