import OpeningHours.Proofs.Cron.Firing

/-!
# Lines that never fire together

Two lines are apart on a cycle if they fire together at none of its points. Lines that are pairwise
apart stay so when they are merged (`pairwise_apart_mergeAll`): a union fires only where one of the
two lines does that it stands for. So of merged lines that were apart at most one fires at a point
(`eq_of_firesOn`). A field that is the same in all lines is left as it is (`field_mergeAll`).
-/

namespace OpeningHours

namespace ValueSet

variable {s : Scale}

@[simp] theorem union_self (a : ValueSet s) : a.union a = a :=
  ext_mem fun _ => by rw [mem_union_iff, or_self_iff]

end ValueSet

namespace Cron

variable {y : Cycle} {a b c : Cron} {cs merged : List Cron}

/-- Whether two lines fire together at no point of a cycle. -/
def Apart (y : Cycle) (a b : Cron) : Prop :=
  ∀ t : Point y, ¬ (a.FiresOn t.digits ∧ b.FiresOn t.digits)

theorem Apart.symm (h : Apart y a b) : Apart y b a :=
  fun t ht => h t ⟨ht.2, ht.1⟩

theorem apart_ofPoint {p q : Point y} (h : p ≠ q) : Apart y (ofPoint p) (ofPoint q) := by
  intro t ht
  apply h
  rw [← firesOn_ofPoint_iff.1 ht.1, ← firesOn_ofPoint_iff.1 ht.2]

theorem Apart.union (hm : b.canMerge c = true) (hb : Apart y a b) (hc : Apart y a c) :
    Apart y a (b.union c) := by
  intro t ht
  rcases (firesOn_union_iff t.scales_nodup hm).1 ht.2 with h | h
  · exact hb t ⟨ht.1, h⟩
  · exact hc t ⟨ht.1, h⟩

/-- Of lines that are pairwise apart only one fires at a point. -/
theorem eq_of_firesOn (h : cs.Pairwise (Apart y)) (ha : a ∈ cs) (hb : b ∈ cs) {t : Point y}
    (hat : a.FiresOn t.digits) (hbt : b.FiresOn t.digits) : a = b := by
  have hall : ∀ a ∈ cs, ∀ b ∈ cs, a = b ∨ Apart y a b := by
    apply List.Pairwise.forall_of_forall_of_flip
    · exact fun _ _ => Or.inl rfl
    · exact h.imp Or.inr
    · exact h.imp fun hab => Or.inr hab.symm
  exact (hall a ha b hb).resolve_right fun hab => hab t ⟨hat, hbt⟩

/-- A line that is apart from all others is merged into them, and they stay apart. -/
theorem pairwise_apart_insertMerged (h : merged.Pairwise (Apart y))
    (hc : ∀ d ∈ merged, Apart y d c) : (insertMerged merged c).Pairwise (Apart y) := by
  rcases insertMerged_cases merged c with ⟨-, hm⟩ | ⟨before, found, after, rfl, -, hcan, hm⟩
  · rw [hm, List.pairwise_append]
    refine ⟨h, List.pairwise_singleton _ _, ?_⟩
    intro d hd e he
    obtain rfl := List.mem_singleton.1 he
    exact hc d hd
  · have hmiddle := List.pairwise_middle (fun hab => hab.symm) |>.1 h
    obtain ⟨hfound, hrest⟩ := List.pairwise_cons.1 hmiddle
    rw [hm, List.pairwise_append]
    refine ⟨hrest, List.pairwise_singleton _ _, ?_⟩
    intro d hd e he
    obtain rfl := List.mem_singleton.1 he
    have hmem : d ∈ before ++ found :: after := by
      rcases List.mem_append.1 hd with hd | hd
      · exact List.mem_append_left _ hd
      · exact List.mem_append_right _ (List.mem_cons_of_mem _ hd)
    exact (hfound d hd).symm.union hcan (hc d hmem)

theorem pairwise_apart_foldl (h : (merged ++ cs).Pairwise (Apart y)) :
    (cs.foldl insertMerged merged).Pairwise (Apart y) := by
  induction cs generalizing merged with
  | nil => simpa using h
  | cons c cs ih =>
    obtain ⟨hm, hcs, hcross⟩ := List.pairwise_append.1 h
    obtain ⟨hc, hrest⟩ := List.pairwise_cons.1 hcs
    rw [List.foldl_cons]
    apply ih
    rw [List.pairwise_append]
    refine ⟨pairwise_apart_insertMerged hm fun d hd => hcross d hd c (by simp), hrest, ?_⟩
    intro d hd e he t ht
    -- where a line fires after the step, one fired before it
    rcases (exists_firesOn_insertMerged_iff t.scales_nodup).1 ⟨d, hd, ht.1⟩ with ⟨d', hd', hf⟩ | hf
    · exact hcross d' hd' e (by simp [he]) t ⟨hf, ht.2⟩
    · exact hc e he t ⟨hf, ht.2⟩

/-- The greedy merge keeps lines apart. -/
theorem pairwise_apart_mergeAll (h : cs.Pairwise (Apart y)) : (mergeAll cs).Pairwise (Apart y) :=
  pairwise_apart_foldl h

section Field

variable {s : Scale} {v : ValueSet s}

theorem field_insertMerged (hm : ∀ d ∈ merged, d.field s = v) (hc : c.field s = v) :
    ∀ d ∈ insertMerged merged c, d.field s = v := by
  intro d hd
  rcases insertMerged_cases merged c with ⟨-, he⟩ | ⟨before, found, after, rfl, -, -, he⟩
  · rw [he] at hd
    rcases List.mem_append.1 hd with hd | hd
    · exact hm d hd
    · obtain rfl := List.mem_singleton.1 hd
      exact hc
  · rw [he] at hd
    rcases List.mem_append.1 hd with hd | hd
    · apply hm d
      rcases List.mem_append.1 hd with hd | hd
      · exact List.mem_append_left _ hd
      · exact List.mem_append_right _ (List.mem_cons_of_mem _ hd)
    · obtain rfl := List.mem_singleton.1 hd
      rw [union, field_ofFields, hm found (by simp), hc, ValueSet.union_self]

theorem field_foldl (hm : ∀ d ∈ merged, d.field s = v) (hcs : ∀ c ∈ cs, c.field s = v) :
    ∀ d ∈ cs.foldl insertMerged merged, d.field s = v := by
  induction cs generalizing merged with
  | nil => exact hm
  | cons c cs ih =>
    rw [List.foldl_cons]
    exact ih (field_insertMerged hm (hcs c (by simp))) fun e he => hcs e (by simp [he])

/-- A field on which all lines agree is the same in the merged lines. -/
theorem field_mergeAll (hcs : ∀ c ∈ cs, c.field s = v) : ∀ d ∈ mergeAll cs, d.field s = v :=
  field_foldl (by simp) hcs

/-- A scale that is coarser than the cycle does not restrict the line of a point. -/
theorem field_ofPoint_of_coarser {p : Point y} (hs : s ∉ y.scales)
    (hd : y.precision.duration < s.step.duration) : (ofPoint p).field s = .full s := by
  rw [field_ofPoint_of_not_mem hs, if_pos hd]

end Field

end Cron

end OpeningHours
