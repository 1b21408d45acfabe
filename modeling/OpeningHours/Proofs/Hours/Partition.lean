import OpeningHours.Proofs.Cron.Apart
import OpeningHours.Proofs.Hours.Triggers

/-!
# The triggers share out the edges

The periods of hours have different starts, and different points after their ends. So the lines of
these points are pairwise apart, and they stay so when they are merged: each edge is matched by one
trigger only (`partition_ofPoint`). Hours that never close have no triggers. In either case the
triggers share out the edges of the periods among them (`triggers_partition_edges`).
-/

namespace OpeningHours

namespace Period.IsNormal

variable {c : Cycle} {p q : Period c} {ps : List (Period c)}

theorem starts_ne (h : IsNormal ps) : ps.Pairwise fun p q => p.start ≠ q.start := by
  refine h.ascending.imp fun hlt heq => ?_
  rw [Point.lt_iff_index, heq] at hlt
  omega

theorem ends_ne (h : IsNormal ps) :
    ps.Pairwise fun p q => p.last.increment ≠ q.last.increment := by
  refine List.Pairwise.imp_of_mem ?_ h.gap
  intro p q _ hq hgap heq
  have hlast : p.last = q.last :=
    (Point.increment_eq_iff.1 heq).trans (Point.increment_eq_iff.1 rfl).symm
  have hf := Point.le_iff_index.1 (h.forward q hq)
  rw [hlast] at hgap
  omega

/-- A period that never closes takes the whole round. -/
theorem index_of_isAlways (hf : p.start ≤ p.last) (ha : p.isAlways = true) :
    p.start.index = 0 ∧ p.last.index + 1 = c.size := by
  have hi := Point.increment_eq_iff_index.1 (of_decide_eq_true ha)
  have hf := Point.le_iff_index.1 hf
  omega

/-- Beside a period that never closes there is no other. -/
theorem eq_of_isAlways (h : IsNormal ps) (hp : p ∈ ps) (ha : p.isAlways = true) (hq : q ∈ ps) :
    q = p := by
  obtain ⟨h0, h1⟩ := index_of_isAlways (h.forward p hp) ha
  have hs := q.start.index_mem
  have hl := q.last.index_mem
  rcases h.eq_or_apart hq hp with rfl | hgap | hgap
  · rfl
  · omega
  · omega

end Period.IsNormal

theorem Cron.matches_text_iff {c : Cron} {t : Point .week} :
    Cron.Matches c.text t ↔ c.FiresOn t.digits := by
  unfold Matches
  rw [ofText?_text]
  simp

/-- Some lines share out the edges among the minutes of the week: each edge is matched by exactly
one of them, no other minute is matched, and the fields of day and month do not restrict. -/
structure Partition (lines : List String) (Edge : Point .week → Prop) : Prop where
  wildcards : ∀ line ∈ lines, ∃ c, Cron.ofText? line = some c ∧ c.text = line ∧
    c.dayOfMonth.text = "*" ∧ c.month.text = "*"
  once : ∀ t, Edge t → ∃ line ∈ lines, Cron.Matches line t ∧
    ∀ other ∈ lines, Cron.Matches other t → other = line
  only : ∀ t, ∀ line ∈ lines, Cron.Matches line t → Edge t

theorem Partition.nil {Edge : Point .week → Prop} (he : ∀ t, ¬ Edge t) : Partition [] Edge where
  wildcards := by simp
  once := fun t ht => absurd ht (he t)
  only := by simp

namespace Hours

theorem text_full (s : Scale) : (ValueSet.full s).text = "*" :=
  if_pos rfl

/-- The merged lines of different points share them out. -/
theorem partition_ofPoint {ps : List (Period .week)} {line? : Period .week → Option Cron}
    {edge : Period .week → Point .week} (hline : ∀ p ∈ ps, line? p = some (.ofPoint (edge p)))
    (hne : ps.Pairwise fun p q => edge p ≠ edge q) :
    Partition (cronTexts (Cron.mergeAll (ps.filterMap line?))) fun t => ∃ p ∈ ps, edge p = t := by
  have hapart : (ps.filterMap line?).Pairwise (Cron.Apart .week) := by
    rw [List.pairwise_filterMap]
    refine List.Pairwise.imp_of_mem ?_ hne
    intro p q hp hq hpq c hc d hd
    rw [hline p hp] at hc
    rw [hline q hq] at hd
    cases hc
    cases hd
    exact Cron.apart_ofPoint hpq
  have hmerged := Cron.pairwise_apart_mergeAll hapart
  have hfull : ∀ s, s ∉ Cycle.week.scales →
      Cycle.week.precision.duration < s.step.duration →
      ∀ c ∈ Cron.mergeAll (ps.filterMap line?), c.field s = .full s := by
    intro s hs hd
    apply Cron.field_mergeAll
    intro c hc
    obtain ⟨p, hp, hpc⟩ := List.mem_filterMap.1 hc
    rw [hline p hp] at hpc
    cases hpc
    exact Cron.field_ofPoint_of_coarser hs hd
  refine ⟨?_, ?_, ?_⟩
  · intro line hl
    obtain ⟨c, hc, rfl⟩ := mem_cronTexts_iff.1 hl
    have hday : c.dayOfMonth = .full .dayOfMonth := hfull .dayOfMonth (by decide) (by decide) c hc
    have hmonth : c.month = .full .monthOfYear := hfull .monthOfYear (by decide) (by decide) c hc
    refine ⟨c, Cron.ofText?_text c, rfl, ?_, ?_⟩
    · rw [hday, text_full]
    · rw [hmonth, text_full]
  · intro t ht
    obtain ⟨line, hl, hm⟩ := (announced_ofPoint_iff hline).2 ht
    refine ⟨line, hl, hm, ?_⟩
    intro other ho hom
    obtain ⟨c, hc, rfl⟩ := mem_cronTexts_iff.1 hl
    obtain ⟨d, hd, rfl⟩ := mem_cronTexts_iff.1 ho
    rw [Cron.matches_text_iff] at hm hom
    rw [Cron.eq_of_firesOn hmerged hd hc hom hm]
  · intro t line hl hm
    exact (announced_ofPoint_iff hline).1 ⟨line, hl, hm⟩

variable {config : Config} {spec : String} {h : Hours}

theorem isAlways_of_isAlways (hh : ofSpec? config spec = .ok h) (ha : h.isAlways = true) :
    ∀ p ∈ h.periods, p.isAlways = true := by
  obtain ⟨p, hp, hpa⟩ := List.any_eq_true.1 ha
  intro q hq
  rw [(isNormal_periods hh).eq_of_isAlways hp hpa hq]
  exact hpa

/-- Periods without lines have no triggers. -/
theorem texts_eq_nil {ps : List (Period .week)} {line? : Period .week → Option Cron}
    (hline : ∀ p ∈ ps, line? p = none) : cronTexts (Cron.mergeAll (ps.filterMap line?)) = [] := by
  rw [List.filterMap_eq_nil_iff.2 hline, Cron.mergeAll, List.foldl_nil, cronTexts, List.map_nil,
    List.mergeSort_nil]
  rfl

/-- The opening triggers share out the starts of the periods, and the closing triggers the points
after their ends; hours that never close have neither. -/
theorem triggers_partition_edges {config : Config} {spec : String} {h : Hours}
    (hh : ofSpec? config spec = .ok h) :
    Partition h.openingTexts (fun t => h.isAlways = false ∧ ∃ p ∈ h.periods, p.start = t) ∧
    Partition h.closingTexts
      (fun t => h.isAlways = false ∧ ∃ p ∈ h.periods, p.last.increment = t) := by
  have hn := isNormal_periods hh
  cases ha : h.isAlways with
  | true =>
    have hall := isAlways_of_isAlways hh ha
    have hopen : h.openingTexts = [] := texts_eq_nil fun p hp => if_pos (hall p hp)
    have hclose : h.closingTexts = [] := texts_eq_nil fun p hp => if_pos (hall p hp)
    rw [hopen, hclose]
    exact ⟨.nil (by simp), .nil (by simp)⟩
  | false =>
    have hnever := fun p (hp : p ∈ h.periods) => isAlways_of_mem ha hp
    simp only [true_and]
    exact ⟨partition_ofPoint (fun p hp => if_neg (hnever p hp)) hn.starts_ne,
      partition_ofPoint (fun p hp => if_neg (hnever p hp)) hn.ends_ne⟩

set_option maxRecDepth 4000 in
/-- Two openings on some days and one on others, at the same hour and at different ones, with a
stay over the end of the week. Five lines share out the ten openings. -/
theorem triggers_partition_edges_shifts : ∃ h : Hours,
    ofSpec? .default "wd {Mon Wed} hr {9-11 14-16}, wd {Tue} hr {9}, wd {Sat-Mon} hr {22-1}" =
      .ok h ∧
    h.isAlways = false ∧ h.periods.length = 10 ∧
    (∀ line, line ∈ h.openingTexts ↔ line ∈ ["0 0,9,14,22 * * 1", "0 9 * * 2-3", "0 14 * * 3",
      "0 0,22 * * 6", "0 22 * * 7"]) ∧
    Partition h.openingTexts (fun t => h.isAlways = false ∧ ∃ p ∈ h.periods, p.start = t) ∧
    Partition h.closingTexts
      (fun t => h.isAlways = false ∧ ∃ p ∈ h.periods, p.last.increment = t) := by
  have hok : (ofSpec? .default
      "wd {Mon Wed} hr {9-11 14-16}, wd {Tue} hr {9}, wd {Sat-Mon} hr {22-1}").toOption.any
        (fun h => !h.isAlways && h.periods.length == 10 && h.openings.map Cron.text ==
          ["0 0,9,14,22 * * 1", "0 9 * * 2-3", "0 14 * * 3", "0 0,22 * * 6", "0 22 * * 7"]) =
        true := by cbv
  obtain ⟨h, hh, hb⟩ := exists_eq_ok_of_any hok
  simp only [Bool.and_eq_true, Bool.not_eq_true', beq_iff_eq] at hb
  obtain ⟨⟨ha, hlength⟩, hlines⟩ := hb
  refine ⟨h, hh, ha, hlength, fun line => ?_, triggers_partition_edges hh⟩
  rw [openingTexts, mem_cronTexts_iff, ← hlines, List.mem_map]

end Hours

end OpeningHours
