import OpeningHours.Cron.Reader
import OpeningHours.Proofs.Cron.Values

/-!
# Reading back what was written

A cron line is read back from its text (`Cron.ofText?_text`). The steps follow the text from the
inside: a number from its digits (`Text.natural?_repr`), a run from its item
(`ValueSet.itemValues?_runText`), a field from its items (`ValueSet.ofText?_text`). The separators
cut where they were put, because no item holds a comma and no field a space.
-/

namespace OpeningHours

namespace Text

theorem decimal?_of_isDigit {c : Char} (h : c.isDigit = true) :
    decimal? c = some (c.toNat - '0'.toNat) := by
  have hc : 48 ≤ c.toNat ∧ c.toNat ≤ 57 := Char.isDigit_iff_toNat.1 h
  have hz : (decide (0x30 ≤ c.toNat) && decide (c.toNat < 0x30 + 10)) = true := by
    simp only [Bool.and_eq_true, decide_eq_true_eq]
    omega
  have hfind : zeros.find? (fun z => decide (z ≤ c.toNat) && decide (c.toNat < z + 10)) =
      some 0x30 := List.find?_cons_of_pos hz
  unfold decimal?
  rw [hfind]
  rfl

theorem foldl_decimal?_eq_ofDigitChars {cs : List Char} (h : ∀ c ∈ cs, c.isDigit = true)
    (n : Nat) : cs.foldl (fun n c => 10 * n + (decimal? c).getD 0) n = Nat.ofDigitChars 10 cs n := by
  induction cs generalizing n with
  | nil => rfl
  | cons c cs ih =>
    rw [List.foldl_cons, Nat.ofDigitChars_cons, decimal?_of_isDigit (h c (by simp))]
    exact ih (fun d hd => h d (by simp [hd])) _

theorem isDigit_of_mem_repr {n : Nat} {c : Char} (h : c ∈ n.repr.toList) : c.isDigit = true := by
  rw [Nat.toList_repr] at h
  exact Nat.isDigit_of_mem_toDigits (by decide) (by decide) h

/-- A number is read back from its digits. -/
theorem natural?_repr (n : Nat) : natural? n.repr.toList = some n := by
  have hd : ∀ c ∈ n.repr.toList, c.isDigit = true := fun c hc => isDigit_of_mem_repr hc
  refine natural?_eq_some_iff.2 ⟨?_, hd, ?_⟩
  · rw [Nat.toList_repr]
    exact Nat.toDigits_ne_nil
  · unfold decimalValue
    rw [foldl_decimal?_eq_ofDigitChars hd, Nat.toList_repr]
    exact Nat.ofDigitChars_ten_toDigits

theorem mem_of_mem_intercalate {sep : Char} {pieces : List (List Char)} {c : Char}
    (h : c ∈ [sep].intercalate pieces) : c = sep ∨ ∃ piece ∈ pieces, c ∈ piece := by
  induction pieces with
  | nil => simp at h
  | cons piece rest ih =>
    cases rest with
    | nil => exact Or.inr ⟨piece, by simp, by simpa using h⟩
    | cons next rest =>
      rw [List.intercalate_cons_cons, List.mem_append, List.mem_append] at h
      rcases h with (h | h) | h
      · exact Or.inr ⟨piece, by simp, h⟩
      · exact Or.inl (by simpa using h)
      · rcases ih h with h | ⟨q, hq, h⟩
        · exact Or.inl h
        · exact Or.inr ⟨q, by simp [hq], h⟩

end Text

namespace ValueSet

theorem toString_of_nonneg {v : Int} (h : 0 ≤ v) : toString v = v.toNat.repr := by
  rw [Int.toString_eq_repr, Int.repr_eq_if, if_pos h]

theorem not_mem_repr {c : Char} (hc : c.isDigit = false) (n : Nat) : c ∉ n.repr.toList := by
  intro h
  rw [Text.isDigit_of_mem_repr h] at hc
  cases hc

theorem toList_runText {r : Int × Int} (h0 : 0 ≤ r.1) (hle : r.1 ≤ r.2) :
    (runText r).toList = if r.1 = r.2 then r.1.toNat.repr.toList
      else r.1.toNat.repr.toList ++ '-' :: r.2.toNat.repr.toList := by
  unfold runText
  rw [toString_of_nonneg h0, toString_of_nonneg (Int.le_trans h0 hle)]
  split
  · rfl
  · rw [String.toList_append, String.toList_append, List.append_assoc]
    rfl

/-- A run is read back from its text. -/
theorem itemValues?_runText {r : Int × Int} (h0 : 0 ≤ r.1) (hle : r.1 ≤ r.2) :
    itemValues? (runText r).toList = some (runValues r) := by
  have hdash : ∀ n : Nat, '-' ∉ n.repr.toList := not_mem_repr rfl
  unfold itemValues?
  rw [toList_runText h0 hle]
  by_cases he : r.1 = r.2
  · rw [if_pos he, List.splitOn_eq_singleton (hdash _), runValues_of_eq he, List.map_singleton,
      Text.natural?_repr]
    show some [((r.1.toNat : Nat) : Int)] = some [r.1]
    rw [Int.toNat_of_nonneg h0]
  · rw [if_neg he, List.splitOn_append_cons_self_of_not_mem (hdash _),
      List.splitOn_eq_singleton (hdash _), List.map_cons, List.map_singleton, Text.natural?_repr,
      Text.natural?_repr]
    have hn : r.2.toNat + 1 - r.1.toNat = (r.2 + 1 - r.1).toNat := by omega
    show some ((List.range (r.2.toNat + 1 - r.1.toNat)).map
      fun (i : Nat) => ((r.1.toNat : Nat) : Int) + i) = some (runValues r)
    rw [hn, Int.toNat_of_nonneg h0]
    rfl

theorem mem_runText {r : Int × Int} (h0 : 0 ≤ r.1) (hle : r.1 ≤ r.2) {c : Char}
    (h : c ∈ (runText r).toList) : c = '-' ∨ c.isDigit = true := by
  rw [toList_runText h0 hle] at h
  split at h
  · exact Or.inr (Text.isDigit_of_mem_repr h)
  · rcases List.mem_append.1 h with h | h
    · exact Or.inr (Text.isDigit_of_mem_repr h)
    · rcases List.mem_cons.1 h with h | h
      · exact Or.inl h
      · exact Or.inr (Text.isDigit_of_mem_repr h)

variable {s : Scale}

theorem nonneg_of_mem_runs {a : ValueSet s} {r : Int × Int} (h : r ∈ runs a.values) :
    0 ≤ r.1 ∧ r.1 ≤ r.2 := by
  obtain ⟨hf, -, hle⟩ := mem_of_mem_runs h
  have hmin : 0 ≤ s.minimum := by cases s <;> decide
  have := (Scale.contains_iff.1 (contains_of_mem hf)).1
  exact ⟨by omega, hle⟩

theorem runs_values_ne_nil (a : ValueSet s) : runs a.values ≠ [] := by
  intro h
  have hflat := flatMap_runs a.values
  rw [h] at hflat
  exact a.nonempty hflat.symm

/-- The items of the text of a set that is not the whole domain. -/
def items (a : ValueSet s) : List (List Char) :=
  (runs a.values).map fun r => (runText r).toList

theorem toList_text {a : ValueSet s} (h : a ≠ full s) :
    a.text.toList = [','].intercalate a.items := by
  unfold text
  rw [if_neg h, String.toList_intercalate, List.map_map]
  rfl

theorem mem_items {a : ValueSet s} {item : List Char} (h : item ∈ a.items) :
    ∀ c ∈ item, c = '-' ∨ c.isDigit = true := by
  obtain ⟨r, hr, rfl⟩ := List.mem_map.1 h
  obtain ⟨h0, hle⟩ := nonneg_of_mem_runs hr
  exact fun c hc => mem_runText h0 hle hc

theorem mem_text {a : ValueSet s} {c : Char} (h : c ∈ a.text.toList) :
    c = '*' ∨ c = ',' ∨ c = '-' ∨ c.isDigit = true := by
  by_cases hf : a = full s
  · unfold text at h
    rw [if_pos hf] at h
    exact Or.inl (by simpa using h)
  · rw [toList_text hf] at h
    rcases Text.mem_of_mem_intercalate h with h | ⟨item, hi, h⟩
    · exact Or.inr (Or.inl h)
    · exact Or.inr (Or.inr (mem_items hi c h))

theorem space_not_mem_text (a : ValueSet s) : ' ' ∉ a.text.toList := by
  intro h
  rcases mem_text h with h | h | h | h <;> exact absurd h (by decide)

theorem splitOn_text {a : ValueSet s} (h : a ≠ full s) : a.text.toList.splitOn ',' = a.items := by
  rw [toList_text h]
  apply List.splitOn_intercalate ','
  · intro item hi hc
    rcases mem_items hi _ hc with h | h <;> exact absurd h (by decide)
  · unfold items
    rw [ne_eq, List.map_eq_nil_iff]
    exact runs_values_ne_nil a

theorem mapM_itemValues?_items (a : ValueSet s) :
    a.items.mapM itemValues? = some ((runs a.values).map runValues) := by
  have hread : ∀ rs : List (Int × Int), (∀ r ∈ rs, 0 ≤ r.1 ∧ r.1 ≤ r.2) →
      (rs.map fun r => (runText r).toList).mapM itemValues? = some (rs.map runValues) := by
    intro rs hrs
    induction rs with
    | nil => rfl
    | cons r rs ih =>
      obtain ⟨h0, hle⟩ := hrs r (by simp)
      rw [List.map_cons, List.mapM_cons, itemValues?_runText h0 hle,
        ih fun q hq => hrs q (by simp [hq])]
      rfl
  exact hread _ fun r hr => nonneg_of_mem_runs hr

/-- A field is read back from its text. -/
theorem ofText?_text (a : ValueSet s) : ofText? s a.text.toList = some a := by
  by_cases hf : a = full s
  · unfold text
    rw [if_pos hf, hf]
    rfl
  · have hstar : a.text.toList ≠ ['*'] := by
      intro h
      have hstar : (['*'].splitOn ',').mapM itemValues? = none := by decide
      rw [← h, splitOn_text hf, mapM_itemValues?_items] at hstar
      cases hstar
    unfold ofText?
    rw [if_neg hstar, splitOn_text hf, mapM_itemValues?_items]
    show (ofList? s ((runs a.values).map runValues).flatten).toOption = some a
    rw [← List.flatMap_def, flatMap_runs, ofList?_values]
    rfl

end ValueSet

namespace Cron

theorem toList_text (c : Cron) :
    c.text.toList = [' '].intercalate (order.map fun s => (c.field s).text.toList) := by
  unfold text
  rw [String.toList_intercalate, List.map_map]
  rfl

theorem splitOn_text (c : Cron) :
    c.text.toList.splitOn ' ' = order.map fun s => (c.field s).text.toList := by
  rw [toList_text]
  refine List.splitOn_intercalate ' ' ?_ (by simp [order])
  intro cs hcs
  obtain ⟨s, -, rfl⟩ := List.mem_map.1 hcs
  exact (c.field s).space_not_mem_text

/-- A line is read back from its text. -/
theorem ofText?_text (c : Cron) : ofText? c.text = some c := by
  unfold ofText?
  rw [splitOn_text]
  simp only [order, List.map_cons, List.map_nil, ValueSet.ofText?_text, field]
  rfl

end Cron

end OpeningHours
