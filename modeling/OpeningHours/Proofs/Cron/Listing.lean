import OpeningHours.Proofs.Cron.Rendering

/-!
# The text of a cron line

A field is written as a star for the whole domain and otherwise as a list of items, single values
and ranges, in ascending order and with a value missing between neighbours (`Listing`). The items
are the runs of the set: in an ascending list the runs leave a gap before the next one
(`pairwise_gap_runs`), and they hold the members and no others (`exists_listing`). Only the whole
domain gives the star, since the star is read back as the domain (`text_eq_star_iff`). So the text
of a line has the form that is asked for, and the lines are told apart by it (`text_canonical`).
-/

namespace OpeningHours

theorem Scale.pairwise_lt_domain (s : Scale) : s.domain.Pairwise (· < ·) := by
  unfold domain
  rw [List.pairwise_map]
  refine List.pairwise_lt_range.imp fun hij => ?_
  omega

namespace ValueSet

variable {s : Scale} {v : Int}

theorem pairwise_lt_values (a : ValueSet s) : a.values.Pairwise (· < ·) := by
  rw [← a.canonical]
  exact s.pairwise_lt_domain.filter _

theorem mem_runValues_iff {r : Int × Int} : v ∈ runValues r ↔ r.1 ≤ v ∧ v ≤ r.2 := by
  unfold runValues
  simp only [List.mem_map, List.mem_range]
  constructor
  · rintro ⟨i, hi, rfl⟩
    omega
  · intro h
    exact ⟨(v - r.1).toNat, by omega, by omega⟩

theorem mem_iff_exists_run {a : ValueSet s} :
    v ∈ a ↔ ∃ r ∈ runs a.values, r.1 ≤ v ∧ v ≤ r.2 := by
  simp only [← mem_runValues_iff]
  rw [← List.mem_flatMap, flatMap_runs]
  exact Iff.rfl

/-- The runs of an ascending list do not touch. -/
theorem pairwise_gap_runs {vs : List Int} (h : vs.Pairwise (· < ·)) :
    (runs vs).Pairwise fun r q => r.2 + 1 < q.1 := by
  induction vs with
  | nil => exact List.Pairwise.nil
  | cons v vs ih =>
    obtain ⟨hv, hvs⟩ := List.pairwise_cons.1 h
    have ih := ih hvs
    rw [runs]
    split
    · rename_i first last rest hr
      have hmem : (first, last) ∈ runs vs := by simp [hr]
      obtain ⟨hfirst, -, hle⟩ := mem_of_mem_runs hmem
      have hlt := hv first hfirst
      rw [hr] at ih
      obtain ⟨hrest, hpair⟩ := List.pairwise_cons.1 ih
      split
      · exact List.pairwise_cons.2 ⟨hrest, hpair⟩
      · refine List.pairwise_cons.2 ⟨?_, ih⟩
        intro q hq
        have hle : first ≤ last := hle
        show v + 1 < q.1
        rcases List.mem_cons.1 hq with rfl | hq
        · show v + 1 < first
          omega
        · have hgap : last + 1 < q.1 := hrest q hq
          omega
    · exact List.pairwise_singleton _ _

/-- What a field lists: a value, or all values from one to a later one. -/
inductive Item where
  | value (v : Int)
  | range (first last : Int) (lt : first < last)

namespace Item

def first : Item → Int
  | value v => v
  | range v _ _ => v

def last : Item → Int
  | value v => v
  | range _ w _ => w

def text : Item → String
  | value v => toString v
  | range v w _ => toString v ++ "-" ++ toString w

/-- The item for the values from one to another, which should not come before it. -/
def ofRun (r : Int × Int) : Item :=
  if h : r.1 < r.2 then range r.1 r.2 h else value r.1

@[simp] theorem first_ofRun (r : Int × Int) : (ofRun r).first = r.1 := by
  unfold ofRun
  split <;> rfl

theorem last_ofRun {r : Int × Int} (h : r.1 ≤ r.2) : (ofRun r).last = r.2 := by
  unfold ofRun
  split
  · rfl
  · show r.1 = r.2
    omega

theorem text_ofRun {r : Int × Int} (h : r.1 ≤ r.2) : (ofRun r).text = runText r := by
  unfold ofRun runText
  split
  · rw [if_neg (by omega)]
    rfl
  · rw [if_pos (by omega)]
    rfl

end Item

/-- Items list a set: they ascend with a value missing between one and the next, and what lies in
them is what belongs to the set. -/
structure Listing (items : List Item) (a : ValueSet s) : Prop where
  gap : items.Pairwise fun i j => i.last + 1 < j.first
  mem_iff : ∀ v, v ∈ a ↔ ∃ i ∈ items, i.first ≤ v ∧ v ≤ i.last

/-- The runs of a set list it. -/
theorem listing_runs (a : ValueSet s) : Listing ((runs a.values).map Item.ofRun) a where
  gap := by
    rw [List.pairwise_map]
    refine List.Pairwise.imp_of_mem ?_ (pairwise_gap_runs a.pairwise_lt_values)
    intro r q hr hq hgap
    rw [Item.last_ofRun (mem_of_mem_runs hr).2.2, Item.first_ofRun]
    exact hgap
  mem_iff v := by
    rw [mem_iff_exists_run]
    constructor
    · rintro ⟨r, hr, hv⟩
      refine ⟨_, List.mem_map_of_mem hr, ?_⟩
      rw [Item.first_ofRun, Item.last_ofRun (mem_of_mem_runs hr).2.2]
      exact hv
    · rintro ⟨i, hi, hv⟩
      obtain ⟨r, hr, rfl⟩ := List.mem_map.1 hi
      rw [Item.first_ofRun, Item.last_ofRun (mem_of_mem_runs hr).2.2] at hv
      exact ⟨r, hr, hv⟩

/-- The text of a set that is not the whole domain lists it. -/
theorem exists_listing {a : ValueSet s} (h : a ≠ full s) :
    ∃ items, a.text = ",".intercalate (items.map Item.text) ∧ Listing items a := by
  refine ⟨_, ?_, a.listing_runs⟩
  have htext : (runs a.values).map runText = ((runs a.values).map Item.ofRun).map Item.text := by
    rw [List.map_map]
    exact List.map_congr_left fun r hr => (Item.text_ofRun (mem_of_mem_runs hr).2.2).symm
  rw [text, if_neg h, htext]

theorem eq_full_iff {a : ValueSet s} : a = full s ↔ ∀ v, s.contains v = true → v ∈ a := by
  constructor
  · rintro rfl v hv
    exact mem_full_iff.2 hv
  · intro h
    refine ext_mem fun v => ?_
    rw [mem_full_iff]
    exact ⟨contains_of_mem, h v⟩

/-- Only the whole domain is written as a star. -/
theorem text_eq_star_iff {a : ValueSet s} : a.text = "*" ↔ a = full s := by
  constructor
  · intro h
    have hread := ofText?_text a
    rw [h] at hread
    exact (Option.some.inj hread).symm
  · rintro rfl
    exact if_pos rfl

end ValueSet

namespace Cron

theorem text_inj {c d : Cron} : c.text = d.text ↔ c = d := by
  constructor
  · intro h
    have hread := ofText?_text c
    rw [h, ofText?_text] at hread
    exact (Option.some.inj hread).symm
  · rintro rfl
    rfl

/-- The text of a line is five field texts with a space between. A field is a star exactly if it is
the whole domain, and otherwise it lists its values in items that do not touch. The line is read
back from its text, so different lines have different texts. -/
theorem text_canonical (c : Cron) :
    c.text = " ".intercalate
      [c.minute.text, c.hour.text, c.dayOfMonth.text, c.month.text, c.dayOfWeek.text] ∧
    c.text.toList.splitOn ' ' = [c.minute.text.toList, c.hour.text.toList,
      c.dayOfMonth.text.toList, c.month.text.toList, c.dayOfWeek.text.toList] ∧
    (∀ s, ((c.field s).text = "*" ↔ ∀ v, s.contains v = true → v ∈ c.field s) ∧
      ((c.field s).text ≠ "*" → ∃ items, ValueSet.Listing items (c.field s) ∧
        (c.field s).text = ",".intercalate (items.map ValueSet.Item.text))) ∧
    ofText? c.text = some c ∧
    ∀ d : Cron, c.text = d.text ↔ c = d := by
  refine ⟨rfl, c.splitOn_text, fun s => ⟨?_, fun h => ?_⟩, ofText?_text c, fun d => text_inj⟩
  · rw [ValueSet.text_eq_star_iff, ValueSet.eq_full_iff]
  · obtain ⟨items, htext, hitems⟩ := ValueSet.exists_listing (mt ValueSet.text_eq_star_iff.2 h)
    exact ⟨items, hitems, htext⟩

end Cron

end OpeningHours
