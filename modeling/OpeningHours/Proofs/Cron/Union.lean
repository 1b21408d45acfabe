import OpeningHours.Proofs.Cron.Apart

/-!
# When a union is exact

The union of two lines fires where either of them does, and in general at more tuples: it mixes
values of the one with values of the other. It adds none if the lines differ in at most one field,
or if one of them lies in the other (`canMerge_iff`, `union_eq_right`). Otherwise each of the lines
has a value that the other lacks, and two such values can be found on different scales
(`exists_ne_not_subset`). A tuple with both of them fires neither line but does fire the union
(`exists_fires_union_only`).
-/

namespace OpeningHours

namespace ValueSet

variable {s : Scale} {a b : ValueSet s}

instance : HasSubset (ValueSet s) := ⟨fun a b => ∀ v, v ∈ a → v ∈ b⟩

theorem subset_antisymm (hab : a ⊆ b) (hba : b ⊆ a) : a = b :=
  ext_mem fun v => ⟨hab v, hba v⟩

theorem exists_mem_not_mem (h : ¬ a ⊆ b) : ∃ v, v ∈ a ∧ v ∉ b := by
  obtain ⟨v, hv⟩ := Classical.not_forall.1 h
  exact ⟨v, Classical.not_imp.1 hv⟩

/-- The values of two sets, one list after the other, make up their union. -/
theorem ofList?_append (a b : ValueSet s) : ofList? s (a.values ++ b.values) = .ok (a.union b) := by
  refine ofList?_eq_ok fun v => ?_
  rw [mem_union_iff]
  exact List.mem_append

end ValueSet

namespace Cron

variable {a b c : Cron}

/-- The constructor accepts lists that hold the members of a line's fields. -/
theorem ofLists?_eq_ok {f : Scale → List Int}
    (h : ∀ s, ValueSet.ofList? s (f s) = .ok (c.field s)) : ofLists? f = .ok c := by
  unfold ofLists?
  rw [h .minuteOfHour, h .hourOfDay, h .dayOfMonth, h .monthOfYear, h .dayOfWeek]
  rfl

/-- One line lies in another if each of its fields does. -/
instance : HasSubset Cron := ⟨fun a b => ∀ s, a.field s ⊆ b.field s⟩

theorem fires_mono {t : Scale → Int} (h : a ⊆ b) (ha : a.fires t = true) : b.fires t = true :=
  fires_iff.2 fun s => h s _ (fires_iff.1 ha s)

theorem union_eq_right (h : a ⊆ b) : a.union b = b := by
  ext s
  refine ValueSet.ext_mem fun v => ?_
  rw [mem_field_union_iff]
  exact or_iff_right_of_imp (h s v)

theorem union_eq_left (h : b ⊆ a) : a.union b = a := by
  ext s
  refine ValueSet.ext_mem fun v => ?_
  rw [mem_field_union_iff]
  exact or_iff_left_of_imp (h s v)

/-- Lines can be merged exactly if all fields outside one scale are the same. -/
theorem canMerge_iff : a.canMerge b = true ↔ ∃ s₀, ∀ s, s ≠ s₀ → a.field s = b.field s := by
  constructor
  · exact exists_of_canMerge
  · rintro ⟨s₀, hs₀⟩
    have hnodup : (order.filter fun s => a.field s ≠ b.field s).Nodup :=
      List.Pairwise.filter _ nodup_order
    have hsubset : (order.filter fun s => a.field s ≠ b.field s) ⊆ [s₀] := by
      intro s hs
      refine List.mem_singleton.2 (Classical.byContradiction fun hne => ?_)
      exact of_decide_eq_true (List.mem_filter.1 hs).2 (hs₀ s hne)
    exact decide_eq_true (hnodup.length_le_of_subset hsubset)

theorem exists_ne_of_not_canMerge (h : ¬ a.canMerge b = true) (s₀ : Scale) :
    ∃ s, s ≠ s₀ ∧ a.field s ≠ b.field s := by
  refine Classical.byContradiction fun hnone => h (canMerge_iff.2 ⟨s₀, fun s hs => ?_⟩)
  exact Classical.byContradiction fun hne => hnone ⟨s, hs, hne⟩

/-- Of two lines of which neither lies in the other, and which differ in two fields, each exceeds
the other, and that on two different scales. -/
theorem exists_ne_not_subset (h : ¬ a.canMerge b = true) (hab : ¬ a ⊆ b) (hba : ¬ b ⊆ a) :
    ∃ s₀ s₁, s₁ ≠ s₀ ∧ ¬ a.field s₀ ⊆ b.field s₀ ∧ ¬ b.field s₁ ⊆ a.field s₁ := by
  obtain ⟨s₀, hs₀⟩ := Classical.not_forall.1 hab
  obtain ⟨s₁, hs₁⟩ := Classical.not_forall.1 hba
  by_cases hne : s₁ = s₀
  · -- they exceed each other on one scale, and differ on some other scale too
    subst hne
    obtain ⟨r, hr, hdiff⟩ := exists_ne_of_not_canMerge h s₁
    by_cases har : a.field r ⊆ b.field r
    · have hbr : ¬ b.field r ⊆ a.field r := fun hbr => hdiff (ValueSet.subset_antisymm har hbr)
      exact ⟨s₁, r, hr, hs₀, hbr⟩
    · exact ⟨r, s₁, hr.symm, har, hs₁⟩
  · exact ⟨s₀, s₁, hne, hs₀, hs₁⟩

/-- A tuple that takes from each line a value that the other lacks fires the union only. -/
theorem exists_fires_union_only {s₀ s₁ : Scale} (hne : s₁ ≠ s₀)
    (h₀ : ¬ a.field s₀ ⊆ b.field s₀) (h₁ : ¬ b.field s₁ ⊆ a.field s₁) :
    ∃ t, (a.union b).fires t = true ∧ a.fires t = false ∧ b.fires t = false := by
  obtain ⟨v₀, hva, hvb⟩ := ValueSet.exists_mem_not_mem h₀
  obtain ⟨v₁, hwb, hwa⟩ := ValueSet.exists_mem_not_mem h₁
  let t : Scale → Int := fun s =>
    if s = s₀ then v₀ else if s = s₁ then v₁ else (a.field s).values.head (a.field s).nonempty
  have ht₀ : t s₀ = v₀ := if_pos rfl
  have ht₁ : t s₁ = v₁ := (if_neg hne).trans (if_pos rfl)
  refine ⟨t, fires_iff.2 fun s => mem_field_union_iff.2 ?_, ?_, ?_⟩
  · by_cases hs₀ : s = s₀
    · subst hs₀
      exact Or.inl (ht₀ ▸ hva)
    · by_cases hs₁ : s = s₁
      · subst hs₁
        exact Or.inr (ht₁ ▸ hwb)
      · have ht : t s = (a.field s).values.head (a.field s).nonempty :=
          (if_neg hs₀).trans (if_neg hs₁)
        rw [ht]
        exact Or.inl (List.head_mem _)
  · exact Bool.eq_false_iff.2 fun hf => hwa (ht₁ ▸ fires_iff.1 hf s₁)
  · exact Bool.eq_false_iff.2 fun hf => hvb (ht₀ ▸ fires_iff.1 hf s₀)

/-- Lines that differ in at most one field fire at a tuple when their union does. -/
theorem fires_union_iff (h : a.canMerge b = true) (t : Scale → Int) :
    (a.union b).fires t = true ↔ a.fires t = true ∨ b.fires t = true := by
  simp only [← firesOn_order_iff]
  exact firesOn_union_iff nodup_order h

/-- The fields of two lines always make up a line, their union. It fires exactly when either line
does if they differ in at most one field or one lies in the other, and only then; otherwise it fires
at some tuple at which neither does. -/
theorem union_exact_iff (a b : Cron) :
    ofLists? (fun s => (a.field s).values ++ (b.field s).values) = .ok (a.union b) ∧
    ((∀ t, (a.union b).fires t = true ↔ a.fires t = true ∨ b.fires t = true) ↔
      a.canMerge b = true ∨ a ⊆ b ∨ b ⊆ a) ∧
    (¬ (a.canMerge b = true ∨ a ⊆ b ∨ b ⊆ a) →
      ∃ t, (a.union b).fires t = true ∧ a.fires t = false ∧ b.fires t = false) := by
  have hcross : ¬ (a.canMerge b = true ∨ a ⊆ b ∨ b ⊆ a) →
      ∃ t, (a.union b).fires t = true ∧ a.fires t = false ∧ b.fires t = false := by
    intro h
    obtain ⟨hm, h⟩ := not_or.1 h
    obtain ⟨hab, hba⟩ := not_or.1 h
    obtain ⟨s₀, s₁, hne, h₀, h₁⟩ := exists_ne_not_subset hm hab hba
    exact exists_fires_union_only hne h₀ h₁
  refine ⟨ofLists?_eq_ok fun s => ?_, ⟨?_, ?_⟩, hcross⟩
  · rw [union, field_ofFields]
    exact ValueSet.ofList?_append _ _
  · intro hexact
    refine Classical.byContradiction fun h => ?_
    obtain ⟨t, ht, ha, hb⟩ := hcross h
    rcases (hexact t).1 ht with hf | hf
    · rw [ha] at hf
      cases hf
    · rw [hb] at hf
      cases hf
  · rintro (hm | hab | hba) t
    · exact fires_union_iff hm t
    · rw [union_eq_right hab]
      exact (or_iff_right_of_imp (fires_mono hab)).symm
    · rw [union_eq_left hba]
      exact (or_iff_left_of_imp (fires_mono hba)).symm

/-- The line of some full hours on some days of the week. -/
def weekly (hours : ValueSet .hourOfDay) (weekdays : ValueSet .dayOfWeek) : Cron :=
  ⟨.single _ 0 (by decide), hours, .full _, .full _, weekdays⟩

/-- Monday at nine and Tuesday at ten: their union also fires on Monday at ten. With Tuesday at nine
in place of the second nothing is added. -/
theorem union_exact_iff_two_mornings : ∃ a b c : Cron,
    [a.text, b.text, c.text] = ["0 9 * * 1", "0 10 * * 2", "0 9 * * 2"] ∧
    ¬ (a.canMerge b = true ∨ a ⊆ b ∨ b ⊆ a) ∧
    (∃ t, (a.union b).fires t = true ∧ a.fires t = false ∧ b.fires t = false) ∧
    a.canMerge c = true ∧
    ∀ t, (a.union c).fires t = true ↔ a.fires t = true ∨ c.fires t = true := by
  let a := weekly (.single _ 9 (by decide)) (.single _ 1 (by decide))
  let b := weekly (.single _ 10 (by decide)) (.single _ 2 (by decide))
  let c := weekly (.single _ 9 (by decide)) (.single _ 2 (by decide))
  have hcross : ¬ (a.canMerge b = true ∨ a ⊆ b ∨ b ⊆ a) := by
    rintro (hm | hab | hba)
    · exact absurd hm (by decide)
    · exact absurd (hab .hourOfDay 9 (by decide)) (by decide)
    · exact absurd (hba .hourOfDay 10 (by decide)) (by decide)
  have hac : a.canMerge c = true := by decide
  exact ⟨a, b, c, by decide, hcross, (union_exact_iff a b).2.2 hcross, hac,
    (union_exact_iff a c).2.1.2 (Or.inl hac)⟩

end Cron

end OpeningHours
