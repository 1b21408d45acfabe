import OpeningHours.Cron.ValueSet

/-!
# Members and runs of a value set

What belongs to the sets that cron fields are made of, and how a set is known: by its members
(`ext_mem`), by any list of them (`ofList?_values`), and by its runs, which hold the members in
order (`flatMap_runs`).
-/

namespace OpeningHours.ValueSet

variable {s : Scale} {v w : Int}

theorem contains_of_mem {a : ValueSet s} (h : v ∈ a) : s.contains v = true := by
  have h : v ∈ a.values := h
  rw [← a.canonical] at h
  exact Scale.mem_domain_iff.1 (List.mem_filter.1 h).1

theorem mem_ofTest_iff {p : Int → Bool} {h : s.domain.filter p ≠ []} :
    v ∈ ofTest s p h ↔ s.contains v = true ∧ p v = true := by
  show v ∈ s.domain.filter p ↔ s.contains v = true ∧ p v = true
  rw [List.mem_filter, Scale.mem_domain_iff]

@[simp] theorem mem_single_iff {h : s.contains w = true} : v ∈ single s w h ↔ v = w := by
  unfold single
  rw [mem_ofTest_iff, beq_iff_eq]
  constructor
  · exact fun hv => hv.2
  · rintro rfl
    exact ⟨h, rfl⟩

@[simp] theorem mem_full_iff : v ∈ full s ↔ s.contains v = true := by
  unfold full
  rw [mem_ofTest_iff]
  exact and_iff_left rfl

@[simp] theorem mem_union_iff {a b : ValueSet s} : v ∈ a.union b ↔ v ∈ a ∨ v ∈ b := by
  unfold union
  rw [mem_ofTest_iff, Bool.or_eq_true, decide_eq_true_eq, decide_eq_true_eq]
  constructor
  · exact fun h => h.2
  · rintro (h | h)
    · exact ⟨contains_of_mem h, Or.inl h⟩
    · exact ⟨contains_of_mem h, Or.inr h⟩

theorem ext_values {a b : ValueSet s} (h : a.values = b.values) : a = b := by
  cases a
  cases b
  simp_all

/-- A set is known by its members. -/
theorem ext_mem {a b : ValueSet s} (h : ∀ v, v ∈ a ↔ v ∈ b) : a = b := by
  apply ext_values
  rw [← a.canonical, ← b.canonical]
  refine List.filter_congr fun v _ => ?_
  exact decide_eq_decide.2 (h v)

/-- A list of the members of a set, in any order and with any repeats, is read as the set. -/
theorem ofList?_eq_ok {a : ValueSet s} {vs : List Int} (h : ∀ v, v ∈ vs ↔ v ∈ a) :
    ofList? s vs = .ok a := by
  cases vs with
  | nil =>
    obtain ⟨v, hv⟩ := List.exists_mem_of_ne_nil _ a.nonempty
    exact absurd ((h v).2 hv) List.not_mem_nil
  | cons v vs =>
    have hf : (v :: vs).find? (fun w => !s.contains w) = none := by
      rw [List.find?_eq_none]
      intro w hw
      simp [contains_of_mem ((h w).1 hw)]
    rw [ofList?]
    split
    · rename_i w hw
      rw [hf] at hw
      cases hw
    · apply congrArg Except.ok
      apply ext_values
      show s.domain.filter (· ∈ v :: vs) = a.values
      rw [← a.canonical]
      exact List.filter_congr fun w _ => decide_eq_decide.2 (h w)

/-- A set is read back from the list of its values. -/
theorem ofList?_values (a : ValueSet s) : ofList? s a.values = .ok a :=
  ofList?_eq_ok fun _ => Iff.rfl

/-- The values from the first to the last of a run. -/
def runValues (r : Int × Int) : List Int :=
  (List.range (r.2 + 1 - r.1).toNat).map fun (i : Nat) => r.1 + i

theorem runValues_of_eq {r : Int × Int} (h : r.1 = r.2) : runValues r = [r.1] := by
  have hn : (r.2 + 1 - r.1).toNat = 1 := by omega
  unfold runValues
  rw [hn]
  simp

theorem runValues_cons {v w : Int} (h : v ≤ w) : runValues (v, w) = v :: runValues (v + 1, w) := by
  have hn : (w + 1 - v).toNat = (w + 1 - (v + 1)).toNat + 1 := by omega
  unfold runValues
  rw [hn, List.range_succ_eq_map, List.map_cons, List.map_map]
  refine List.cons_eq_cons.2 ⟨by simp, List.map_congr_left fun i _ => ?_⟩
  show v + ((i + 1 : Nat) : Int) = v + 1 + i
  omega

/-- A run goes forward between two values of the list. -/
theorem mem_of_mem_runs {vs : List Int} {r : Int × Int} (h : r ∈ runs vs) :
    r.1 ∈ vs ∧ r.2 ∈ vs ∧ r.1 ≤ r.2 := by
  induction vs generalizing r with
  | nil => simp [runs] at h
  | cons v vs ih =>
    rw [runs] at h
    split at h
    · rename_i first last rest hr
      have hold : ∀ q ∈ (first, last) :: rest, q.1 ∈ v :: vs ∧ q.2 ∈ v :: vs ∧ q.1 ≤ q.2 := by
        intro q hq
        rw [← hr] at hq
        obtain ⟨hf, hl, hle⟩ := ih hq
        exact ⟨by simp [hf], by simp [hl], hle⟩
      split at h
      · rename_i hv
        obtain ⟨-, hl, hle⟩ := hold (first, last) (by simp)
        rcases List.mem_cons.1 h with rfl | h
        · refine ⟨by simp, hl, ?_⟩
          show v ≤ last
          have hle : first ≤ last := hle
          omega
        · exact hold r (by simp [h])
      · rcases List.mem_cons.1 h with rfl | h
        · exact ⟨by simp, by simp, Int.le_refl _⟩
        · exact hold r h
    · obtain rfl : r = (v, v) := by simpa using h
      exact ⟨by simp, by simp, Int.le_refl _⟩

/-- The runs of a list hold its values and no others, in the same order. -/
theorem flatMap_runs (vs : List Int) : (runs vs).flatMap runValues = vs := by
  induction vs with
  | nil => rfl
  | cons v vs ih =>
    rw [runs]
    split
    · rename_i first last rest hr
      have hmem : (first, last) ∈ runs vs := by simp [hr]
      have hle : first ≤ last := (mem_of_mem_runs hmem).2.2
      rw [hr, List.flatMap_cons] at ih
      split
      · rename_i hv
        rw [List.flatMap_cons, runValues_cons (by omega), List.cons_append, ← hv, ih]
      · rw [List.flatMap_cons, List.flatMap_cons, ih, runValues_of_eq rfl]
        rfl
    · rename_i hr
      rw [hr] at ih
      rw [List.flatMap_cons, runValues_of_eq rfl, ← ih]
      rfl

end OpeningHours.ValueSet
