import OpeningHours.Proofs.Cron.Grouping

/-!
# Families of lines along one scale

Lines that agree outside one scale are a family along it. The greedy merge turns a family into a
single line (`exists_mergeAll_eq_singleton`): what has been merged so far still agrees with the
next line outside the scale, so there is always one line to unite it with. A single line that comes
out has all places of the input in its group, and so it is the union of the whole input
(`mem_field_iff_of_mergeAll`). The lines of points of one cycle are a family along a scale if the
points agree on the other scales (`family_ofPoint`).
-/

namespace OpeningHours.Cron

variable {c d : Cron} {cs : List Cron} {s s₀ : Scale} {v : Int}

/-- Whether lines agree on every scale but one. -/
def Family (s₀ : Scale) (cs : List Cron) : Prop :=
  ∀ c ∈ cs, ∀ d ∈ cs, ∀ s, s ≠ s₀ → c.field s = d.field s

theorem insertMerged_singleton (h : d.canMerge c = true) : insertMerged [d] c = [d.union c] := by
  have hf : [d].find? (·.canMerge c) = some d := List.find?_cons_of_pos h
  have he : [d].eraseP (·.canMerge c) = [] := List.eraseP_cons_of_pos h
  rw [insertMerged, hf, he]
  rfl

/-- A family is merged into a single line. -/
theorem exists_mergeAll_eq_singleton (hne : cs ≠ []) (h : Family s₀ cs) :
    ∃ d, mergeAll cs = [d] := by
  induction cs using List.reverseRecOn with
  | nil => exact absurd rfl hne
  | append_singleton cs c ih =>
    rw [mergeAll_append_singleton]
    by_cases hcs : cs = []
    · subst hcs
      exact ⟨c, rfl⟩
    · have hfam : Family s₀ cs := fun a ha b hb =>
        h a (List.mem_append_left _ ha) b (List.mem_append_left _ hb)
      obtain ⟨d, hd⟩ := ih hcs hfam
      -- outside the scale the merged line has the fields that all lines have
      have hfield : ∀ s, s ≠ s₀ → d.field s = c.field s := by
        intro s hs
        have hcommon : ∀ e ∈ cs, e.field s = c.field s := fun e he =>
          h e (List.mem_append_left _ he) c (List.mem_append_right _ (List.mem_singleton_self c)) s hs
        exact field_mergeAll hcommon d (hd ▸ List.mem_singleton_self d)
      rw [hd, insertMerged_singleton (canMerge_iff.2 ⟨s₀, hfield⟩)]
      exact ⟨_, rfl⟩

/-- A line that comes out alone unites the whole input. -/
theorem mem_field_iff_of_mergeAll (h : mergeAll cs = [d]) :
    v ∈ d.field s ↔ ∃ c ∈ cs, v ∈ c.field s := by
  obtain ⟨groups, hgroups⟩ := exists_grouping_mergeAll cs
  rw [h] at hgroups
  constructor
  · intro hv
    obtain ⟨places, rest, hunites, -, rfl⟩ := List.forall₂_cons_right_iff.1 hgroups.unites
    obtain ⟨i, -, c, hc, hv⟩ := (hunites.mem_field_iff s v).1 hv
    exact ⟨c, List.mem_of_getElem? hc, hv⟩
  · intro hx
    obtain ⟨c, hc, hv⟩ := hx
    obtain ⟨e, he, hsub⟩ := hgroups.exists_subset_of_mem hc
    obtain rfl := List.mem_singleton.1 he
    exact hsub s v hv

/-- The field of a point's line depends on the point's value on the scale only. -/
theorem field_ofPoint_congr {y : Cycle} {p q : Point y} (h : p.digit? s = q.digit? s) :
    (ofPoint p).field s = (ofPoint q).field s := by
  cases hq : q.digit? s with
  | some w =>
    refine ValueSet.ext_mem fun v => ?_
    rw [mem_field_ofPoint_iff (h.trans hq), mem_field_ofPoint_iff hq]
  | none =>
    have hs : s ∉ y.scales := Point.digit?_eq_none_iff.1 hq
    rw [field_ofPoint_of_not_mem hs, field_ofPoint_of_not_mem hs]

theorem family_ofPoint {y : Cycle} {ps : List (Point y)}
    (h : ∀ p ∈ ps, ∀ q ∈ ps, ∀ s ∈ y.scales, s ≠ s₀ → p.digit? s = q.digit? s) :
    Family s₀ (ps.map ofPoint) := by
  intro c hc d hd s hs
  obtain ⟨p, hp, rfl⟩ := List.mem_map.1 hc
  obtain ⟨q, hq, rfl⟩ := List.mem_map.1 hd
  apply field_ofPoint_congr
  by_cases hy : s ∈ y.scales
  · exact h p hp q hq s hy hs
  · rw [Point.digit?_eq_none_iff.2 hy, Point.digit?_eq_none_iff.2 hy]

end OpeningHours.Cron
