import OpeningHours.Cron.Basic
import OpeningHours.Proofs.Cron.Values
import OpeningHours.Proofs.Instant.Projection

/-!
# When cron lines fire

A line is asked about some of its fields: whether they contain the values of a list of digits
(`FiresOn`). The line of a point fires, on the scales of the cycle, at that point only
(`firesOn_ofPoint_iff`). Two lines that differ in at most one field fire together when their
union does (`firesOn_union_iff`). One step of the greedy merge either adds a line or replaces
one by such a union (`insertMerged_cases`), so the whole merge keeps what fires
(`exists_firesOn_mergeAll_iff`).
-/

namespace OpeningHours.Cron

variable {a b c : Cron} {cs merged : List Cron} {ds : Digits}

/-- Whether the fields that a list of digits names contain its values. -/
def FiresOn (c : Cron) (ds : Digits) : Prop :=
  ∀ d ∈ ds, d.2 ∈ c.field d.1

theorem nodup_order : order.Nodup := by
  decide

/-- A line fires at a tuple if its fields contain the values of all scales. -/
theorem firesOn_order_iff {t : Scale → Int} :
    c.FiresOn (order.map fun s => (s, t s)) ↔ c.fires t = true := by
  rw [fires_iff]
  constructor
  · intro h s
    exact h (s, t s) (List.mem_map_of_mem (mem_order s))
  · intro h d hd
    obtain ⟨s, -, rfl⟩ := List.mem_map.1 hd
    exact h s

theorem mem_field_ofPoint_iff {y : Cycle} {p : Point y} {s : Scale} {v w : Int}
    (h : p.digit? s = some v) : w ∈ (ofPoint p).field s ↔ w = v := by
  unfold ofPoint
  rw [field_ofFields]
  split
  · rename_i u hu
    rw [h] at hu
    cases hu
    exact ValueSet.mem_single_iff
  · rename_i hu
    rw [h] at hu
    cases hu

/-- On a scale that the point does not have, its line does not depend on the point. -/
theorem field_ofPoint_of_not_mem {y : Cycle} {p : Point y} {s : Scale} (hs : s ∉ y.scales) :
    (ofPoint p).field s =
      if y.precision.duration < s.step.duration then .full s
      else .single s s.minimum s.contains_minimum := by
  unfold ofPoint
  rw [field_ofFields]
  split
  · rename_i v hv
    rw [Point.digit?_eq_none_iff.2 hs] at hv
    cases hv
  · rfl

/-- The line of a point fires on the scales of its cycle when the point comes round. -/
theorem firesOn_ofPoint_iff {y : Cycle} {p q : Point y} :
    (ofPoint p).FiresOn q.digits ↔ q = p := by
  constructor
  · intro h
    -- a digit of `q` has a scale of the cycle, and there `p` has the only value that fires
    have hmem : ∀ d ∈ q.digits, d ∈ p.digits := by
      intro d hd
      have hs : d.1 ∈ p.digits.map Prod.fst := by
        rw [p.scales_eq, ← q.scales_eq]
        exact List.mem_map_of_mem hd
      obtain ⟨e, he, hes⟩ := List.mem_map.1 hs
      have hv := (mem_field_ofPoint_iff (Point.digit?_eq_some_iff.2 he)).1 (hes ▸ h d hd)
      have hde : d = e := Prod.ext hes.symm hv
      rw [hde]
      exact he
    have hq : Instant.project (.point p) y = .ok q :=
      Instant.project_eq_ok_iff.2 fun d hd => Point.digit?_eq_some_iff.2 (hmem d hd)
    rw [Instant.project_point] at hq
    cases hq
    rfl
  · rintro rfl d hd
    exact (mem_field_ofPoint_iff (Point.digit?_eq_some_iff.2 hd)).2 rfl

theorem exists_of_canMerge (h : a.canMerge b = true) :
    ∃ s₀, ∀ s, s ≠ s₀ → a.field s = b.field s := by
  have hlen : (order.filter fun s => a.field s ≠ b.field s).length ≤ 1 := of_decide_eq_true h
  have hin : ∀ s, a.field s ≠ b.field s → s ∈ order.filter fun s => a.field s ≠ b.field s :=
    fun s hs => List.mem_filter.2 ⟨mem_order s, decide_eq_true hs⟩
  match hf : order.filter fun s => a.field s ≠ b.field s with
  | [] =>
    refine ⟨.minuteOfHour, fun s _ => Classical.byContradiction fun hs => ?_⟩
    exact absurd (hf ▸ hin s hs) List.not_mem_nil
  | [s₀] =>
    refine ⟨s₀, fun s hne => Classical.byContradiction fun hs => hne ?_⟩
    exact List.mem_singleton.1 (hf ▸ hin s hs)
  | s₀ :: s₁ :: rest =>
    rw [hf] at hlen
    simp at hlen

theorem mem_field_union_iff {s : Scale} {v : Int} :
    v ∈ (a.union b).field s ↔ v ∈ a.field s ∨ v ∈ b.field s := by
  unfold union
  rw [field_ofFields]
  exact ValueSet.mem_union_iff

/-- Lines that differ in at most one field fire when their union does. -/
theorem firesOn_union_iff (hn : (ds.map Prod.fst).Nodup) (h : a.canMerge b = true) :
    (a.union b).FiresOn ds ↔ a.FiresOn ds ∨ b.FiresOn ds := by
  constructor
  · intro hu
    obtain ⟨s₀, hs₀⟩ := exists_of_canMerge h
    have hother : ∀ d ∈ ds, d.1 ≠ s₀ → d.2 ∈ a.field d.1 ∧ d.2 ∈ b.field d.1 := by
      intro d hd hne
      have hm := mem_field_union_iff.1 (hu d hd)
      rw [hs₀ d.1 hne, or_self_iff] at hm
      rw [hs₀ d.1 hne]
      exact ⟨hm, hm⟩
    by_cases ha : a.FiresOn ds
    · exact Or.inl ha
    · apply Or.inr
      intro d hd
      by_cases hd₀ : d.1 = s₀
      · -- the value that `a` lacks is the one on `s₀`, and so `b` has it
        apply (mem_field_union_iff.1 (hu d hd)).resolve_left
        intro hda
        apply ha
        intro e he
        by_cases he₀ : e.1 = s₀
        · have hf := Digits.find?_eq_some_of_mem hn hd
          rw [hd₀, ← he₀, Digits.find?_eq_some_of_mem hn he] at hf
          cases hf
          exact hda
        · exact (hother e he he₀).1
      · exact (hother d hd hd₀).2
  · rintro (ha | hb) d hd
    · exact mem_field_union_iff.2 (Or.inl (ha d hd))
    · exact mem_field_union_iff.2 (Or.inr (hb d hd))

/-- One step of the merge: the new line is added, or united with a line that it replaces. -/
theorem insertMerged_cases (merged : List Cron) (c : Cron) :
    (∀ d ∈ merged, d.canMerge c = false) ∧ insertMerged merged c = merged ++ [c] ∨
    ∃ before found after, merged = before ++ found :: after ∧
      (∀ d ∈ before, d.canMerge c = false) ∧ found.canMerge c = true ∧
      insertMerged merged c = before ++ after ++ [found.union c] := by
  unfold insertMerged
  split
  · rename_i found hf
    obtain ⟨hc, before, after, rfl, hb⟩ := List.find?_eq_some_iff_append.1 hf
    have hb : ∀ d ∈ before, d.canMerge c = false := by simpa using hb
    have he : (found :: after).eraseP (·.canMerge c) = after := List.eraseP_cons_of_pos hc
    refine Or.inr ⟨before, found, after, rfl, hb, hc, ?_⟩
    rw [List.eraseP_append_right _ (by simpa using hb), he]
  · rename_i hf
    exact Or.inl ⟨by simpa using hf, rfl⟩

theorem exists_firesOn_insertMerged_iff (hn : (ds.map Prod.fst).Nodup) :
    (∃ d ∈ insertMerged merged c, d.FiresOn ds) ↔ (∃ d ∈ merged, d.FiresOn ds) ∨ c.FiresOn ds := by
  rcases insertMerged_cases merged c with ⟨-, h⟩ | ⟨before, found, after, rfl, -, hc, h⟩
  · rw [h]
    simp [or_and_right, exists_or]
  · rw [h]
    simp only [List.mem_append, List.mem_cons, List.not_mem_nil, or_false, or_and_right, exists_or,
      exists_eq_left, firesOn_union_iff hn hc]
    constructor
    · rintro ((h | h) | h | h)
      · exact Or.inl (Or.inl h)
      · exact Or.inl (Or.inr (Or.inr h))
      · exact Or.inl (Or.inr (Or.inl h))
      · exact Or.inr h
    · rintro ((h | h | h) | h)
      · exact Or.inl (Or.inl h)
      · exact Or.inr (Or.inl h)
      · exact Or.inl (Or.inr h)
      · exact Or.inr (Or.inr h)

theorem exists_firesOn_foldl_iff (hn : (ds.map Prod.fst).Nodup) :
    (∃ d ∈ cs.foldl insertMerged merged, d.FiresOn ds) ↔
      (∃ d ∈ merged, d.FiresOn ds) ∨ ∃ d ∈ cs, d.FiresOn ds := by
  induction cs generalizing merged with
  | nil => simp
  | cons c cs ih =>
    rw [List.foldl_cons, ih, exists_firesOn_insertMerged_iff hn, or_assoc]
    simp only [List.mem_cons, or_and_right, exists_or, exists_eq_left]

/-- The merge neither adds nor loses a firing. -/
theorem exists_firesOn_mergeAll_iff (hn : (ds.map Prod.fst).Nodup) :
    (∃ d ∈ mergeAll cs, d.FiresOn ds) ↔ ∃ d ∈ cs, d.FiresOn ds := by
  unfold mergeAll
  rw [exists_firesOn_foldl_iff hn]
  simp

end OpeningHours.Cron
