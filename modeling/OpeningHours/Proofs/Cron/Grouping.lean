import Mathlib.Data.List.Forall2
import Mathlib.Data.List.Induction
import OpeningHours.Proofs.Cron.Union

/-!
# What merged lines are made of

The greedy merge sorts the places of its input into groups, one for each line that comes out
(`Grouping`), and that line is the union of the lines at the places of its group, field by field
(`Unites`). A step puts the new place into the group of the line that the new line is united with,
which goes to the end, or into a group of its own (`exists_grouping_insertMerged`). So each line of
the input lies whole in one that comes out, and since the steps are exact unions the merged lines
fire at the same tuples (`mergeAll_exact`).
-/

namespace OpeningHours.Cron

variable {c d : Cron} {cs merged : List Cron} {places : List Nat} {groups : List (List Nat)}

/-- A line is the union, field by field, of the lines at some places of a list. -/
structure Unites (cs : List Cron) (places : List Nat) (d : Cron) : Prop where
  lt_length : ∀ i ∈ places, i < cs.length
  mem_field_iff : ∀ s v, v ∈ d.field s ↔ ∃ i ∈ places, ∃ c, cs[i]? = some c ∧ v ∈ c.field s

/-- The places of a list are shared out among groups, one for each of the lines `merged`, and each
line unites its group. -/
structure Grouping (cs merged : List Cron) (groups : List (List Nat)) : Prop where
  places_perm : groups.flatten.Perm (List.range cs.length)
  unites : List.Forall₂ (Unites cs) groups merged

namespace Unites

theorem snoc (h : Unites cs places d) : Unites (cs ++ [c]) places d where
  lt_length i hi := by
    have := h.lt_length i hi
    rw [List.length_append]
    omega
  mem_field_iff s v := by
    rw [h.mem_field_iff]
    refine exists_congr fun i => and_congr_right fun hi => ?_
    rw [List.getElem?_append_left (h.lt_length i hi)]

theorem last : Unites (cs ++ [c]) [cs.length] c where
  lt_length i hi := by
    obtain rfl := List.mem_singleton.1 hi
    simp
  mem_field_iff s v := by simp

theorem union {found : Cron} (h : Unites cs places found) :
    Unites (cs ++ [c]) (places ++ [cs.length]) (found.union c) where
  lt_length i hi := by
    rcases List.mem_append.1 hi with hi | hi
    · exact h.snoc.lt_length i hi
    · exact last.lt_length i hi
  mem_field_iff s v := by
    have hold : Unites (cs ++ [c]) places found := h.snoc
    have hnew : Unites (cs ++ [c]) [cs.length] c := last
    rw [mem_field_union_iff, hold.mem_field_iff, hnew.mem_field_iff]
    simp only [List.mem_append, or_and_right, exists_or]

theorem subset_of_mem (h : Unites cs places d) {i : Nat} (hi : i ∈ places) (hc : cs[i]? = some c) :
    c ⊆ d :=
  fun s v hv => (h.mem_field_iff s v).2 ⟨i, hi, c, hc, hv⟩

end Unites

section Lists

variable {α β : Type} {R : α → β → Prop}

theorem exists_append_of_forall₂ {xs : List α} {before after : List β} {y : β}
    (h : List.Forall₂ R xs (before ++ y :: after)) : ∃ xs₁ x xs₂, xs = xs₁ ++ x :: xs₂ ∧
      List.Forall₂ R xs₁ before ∧ R x y ∧ List.Forall₂ R xs₂ after := by
  obtain ⟨x, xs₂, hx, hafter, hdrop⟩ :=
    List.forall₂_cons_right_iff.1 (List.forall₂_drop_append _ _ _ h)
  refine ⟨_, x, xs₂, ?_, List.forall₂_take_append _ _ _ h, hx, hafter⟩
  rw [← hdrop, List.take_append_drop]

/-- One list of several goes to the end and takes a new member there. -/
theorem flatten_snoc_last_perm (before after : List (List α)) (xs : List α) (x : α) :
    (before ++ after ++ [xs ++ [x]]).flatten.Perm ((before ++ xs :: after).flatten ++ [x]) := by
  simp only [List.flatten_append, List.flatten_cons, List.flatten_nil, List.append_nil,
    List.append_assoc]
  exact (List.perm_append_comm_assoc _ _ _).append_left _

end Lists

/-- One step of the merge keeps the places grouped. -/
theorem exists_grouping_insertMerged (h : Grouping cs merged groups) (c : Cron) :
    ∃ groups', Grouping (cs ++ [c]) (insertMerged merged c) groups' := by
  have hrange : List.range (cs ++ [c]).length = List.range cs.length ++ [cs.length] := by
    rw [List.length_append, List.length_singleton, List.range_succ]
  have hperm := h.places_perm.append_right [cs.length]
  rw [← hrange] at hperm
  rcases insertMerged_cases merged c with ⟨-, hm⟩ | ⟨before, found, after, rfl, -, -, hm⟩
  · -- the new line stands alone
    refine ⟨groups ++ [[cs.length]], ?_, ?_⟩
    · rw [List.flatten_append]
      exact hperm
    · rw [hm]
      exact List.rel_append (h.unites.imp fun _ _ => .snoc) (.cons .last .nil)
  · -- the group of the line that it is united with gets the new place and goes to the end
    obtain ⟨gs, g, gs', rfl, hbefore, hfound, hafter⟩ := exists_append_of_forall₂ h.unites
    refine ⟨gs ++ gs' ++ [g ++ [cs.length]], (flatten_snoc_last_perm ..).trans hperm, ?_⟩
    rw [hm]
    exact List.rel_append
      (List.rel_append (hbefore.imp fun _ _ => .snoc) (hafter.imp fun _ _ => .snoc))
      (.cons hfound.union .nil)

theorem exists_grouping_mergeAll (cs : List Cron) : ∃ groups, Grouping cs (mergeAll cs) groups := by
  induction cs using List.reverseRecOn with
  | nil => exact ⟨[], .refl _, .nil⟩
  | append_singleton cs c ih =>
    obtain ⟨groups, h⟩ := ih
    rw [mergeAll_append_singleton]
    exact exists_grouping_insertMerged h c

namespace Grouping

/-- Each place is in the group of some line. -/
theorem exists_unites (h : Grouping cs merged groups) {i : Nat} (hi : i < cs.length) :
    ∃ d ∈ merged, ∃ places, i ∈ places ∧ Unites cs places d := by
  have hmem : i ∈ groups.flatten := h.places_perm.mem_iff.2 (List.mem_range.2 hi)
  obtain ⟨places, hplaces, hi⟩ := List.mem_flatten.1 hmem
  obtain ⟨k, hk, rfl⟩ := List.getElem_of_mem hplaces
  have hk' : k < merged.length := h.unites.length_eq ▸ hk
  exact ⟨merged[k], List.getElem_mem hk', groups[k], hi, h.unites.get hk hk'⟩

theorem exists_subset_of_mem (h : Grouping cs merged groups) (hc : c ∈ cs) :
    ∃ d ∈ merged, c ⊆ d := by
  obtain ⟨i, hi, rfl⟩ := List.getElem_of_mem hc
  obtain ⟨d, hd, places, hmem, hu⟩ := h.exists_unites hi
  exact ⟨d, hd, hu.subset_of_mem hmem (List.getElem?_eq_getElem hi)⟩

end Grouping

theorem length_insertMerged_le (merged : List Cron) (c : Cron) :
    (insertMerged merged c).length ≤ merged.length + 1 := by
  rcases insertMerged_cases merged c with ⟨-, h⟩ | ⟨before, found, after, rfl, -, -, h⟩
  · simp [h]
  · rw [h]
    simp only [List.length_append, List.length_cons, List.length_nil]
    omega

theorem length_mergeAll_le (cs : List Cron) : (mergeAll cs).length ≤ cs.length := by
  induction cs using List.reverseRecOn with
  | nil => exact Nat.le_refl _
  | append_singleton cs c ih =>
    rw [mergeAll_append_singleton, List.length_append, List.length_singleton]
    exact Nat.le_trans (length_insertMerged_le _ c) (Nat.succ_le_succ ih)

/-- Merged lines fire at the tuples at which the lines do that they are made of. The places of the
input are shared out among the merged lines, and each merged line unites its share; so each line of
the input lies whole in a merged one, and there are no more of these. -/
theorem mergeAll_exact (cs : List Cron) :
    (∀ t, (∃ d ∈ mergeAll cs, d.fires t = true) ↔ ∃ c ∈ cs, c.fires t = true) ∧
    (∃ groups, Grouping cs (mergeAll cs) groups) ∧
    (∀ c ∈ cs, ∃ d ∈ mergeAll cs, c ⊆ d) ∧
    (mergeAll cs).length ≤ cs.length := by
  obtain ⟨groups, hgroups⟩ := exists_grouping_mergeAll cs
  refine ⟨fun t => ?_, ⟨groups, hgroups⟩, fun c => hgroups.exists_subset_of_mem,
    length_mergeAll_le cs⟩
  simp only [← firesOn_order_iff]
  exact exists_firesOn_mergeAll_iff nodup_order

/-- Monday at nine, Tuesday at ten and Tuesday at nine: the last line goes to the first, and their
union to the end. -/
theorem mergeAll_exact_three_mornings : ∃ (cs : List Cron) (c : Cron),
    cs.map text = ["0 9 * * 1", "0 10 * * 2", "0 9 * * 2"] ∧
    (mergeAll cs).map text = ["0 10 * * 2", "0 9 * * 1-2"] ∧
    (∃ groups, Grouping cs (mergeAll cs) groups) ∧
    c ∈ cs ∧ c.text = "0 9 * * 2" ∧ ∃ d ∈ mergeAll cs, c ⊆ d := by
  let c := weekly (.single _ 9 (by decide)) (.single _ 2 (by decide))
  let cs :=
    [weekly (.single _ 9 (by decide)) (.single _ 1 (by decide)),
      weekly (.single _ 10 (by decide)) (.single _ 2 (by decide)), c]
  have hc : c ∈ cs := by simp [cs]
  obtain ⟨-, hgroups, hsubset, -⟩ := mergeAll_exact cs
  exact ⟨cs, c, by decide, by decide, hgroups, hc, by decide, hsubset c hc⟩

end OpeningHours.Cron
