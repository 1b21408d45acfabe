import OpeningHours.Point.Distance
import OpeningHours.Point.Index

/-!
# Points in a row

The points of a cycle stand in a row from `Point.first` on, and the index is the place in the
row: a point is known by its index (`ext_index`) and every place is taken (`index_ofIndex`).
One place is worth one unit of the precision. So the signed duration between two points is the
difference of their indices (`durationTo_eq`), and the order by signed distance is the order of
the row (`le_iff_index`, `lt_iff_index`). `increment` goes to the next place and from the end
of the row to its head (`index_increment`), and `previous` goes back (`increment_eq_iff`); the row
lasts one round (`round_duration`).
-/

namespace OpeningHours

theorem Scale.step_duration_of_precedes {s t : Scale} (hs : s.regular = true)
    (ht : t.regular = true) (h : s.precedes t = true) :
    t.step.duration = s.size * s.step.duration := by
  revert hs ht h
  cases s <;> cases t <;> decide

namespace Digits

/-- One step of the finest digit's index is worth one step of its scale. -/
theorem durationTo_eq {s : Scale} {v w : Int} {ds es : Digits}
    (he : ds.map Prod.fst = es.map Prod.fst)
    (hl : Scale.linked (s :: ds.map Prod.fst) = true) :
    durationTo ((s, v) :: ds) ((s, w) :: es) =
      (index ((s, w) :: es) - index ((s, v) :: ds)) * s.step.duration := by
  induction ds generalizing s v w es with
  | nil =>
    have hes : es = [] := by simpa using he.symm
    subst hes
    simp only [durationTo, index]
    grind
  | cons d ds ih =>
    obtain ⟨t, v'⟩ := d
    cases es with
    | nil => simp at he
    | cons e es =>
      obtain ⟨t', w'⟩ := e
      simp only [List.map_cons, List.cons.injEq] at he
      obtain ⟨rfl, he⟩ := he
      have hl' : Scale.linked (t :: ds.map Prod.fst) = true := by
        simp only [List.map_cons, Scale.linked_cons, Bool.and_eq_true] at hl ⊢
        exact hl.2
      have hp : s.precedes t = true := by
        simp only [List.map_cons, Scale.linked_cons, List.head?_cons, Option.all_some,
          Bool.and_eq_true] at hl
        exact hl.1.2
      have hstep := Scale.step_duration_of_precedes (Scale.regular_of_linked hl)
        (Scale.regular_of_linked hl') hp
      show (w - v) * s.step.duration + durationTo ((t, v') :: ds) ((t, w') :: es) =
        (w - s.minimum + s.size * index ((t, w') :: es) -
          (v - s.minimum + s.size * index ((t, v') :: ds))) * s.step.duration
      rw [ih he hl', hstep]
      grind

theorem index_inj {ds es : Digits} (hs : ds.map Prod.fst = es.map Prod.fst)
    (hd : ∀ d ∈ ds, d.1.contains d.2 = true) (he : ∀ e ∈ es, e.1.contains e.2 = true)
    (h : index ds = index es) : ds = es := by
  induction ds generalizing es with
  | nil =>
    cases es with
    | nil => rfl
    | cons e es => simp at hs
  | cons d ds ih =>
    cases es with
    | nil => simp at hs
    | cons e es =>
      obtain ⟨s, v⟩ := d
      obtain ⟨s', w⟩ := e
      simp only [List.map_cons, List.cons.injEq] at hs
      obtain ⟨rfl, hs⟩ := hs
      have hpos := s.size_pos
      have hsize : s.size = s.maximum - s.minimum + 1 := rfl
      have hv : s.minimum ≤ v ∧ v ≤ s.maximum := Scale.contains_iff.1 (hd (s, v) (by simp))
      have hw : s.minimum ≤ w ∧ w ≤ s.maximum := Scale.contains_iff.1 (he (s, w) (by simp))
      have h : v - s.minimum + s.size * index ds = w - s.minimum + s.size * index es := h
      -- the finest digit is the remainder of the index, the others are its quotient
      have hr := congrArg (· % s.size) h
      simp only [Int.add_mul_emod_self_left] at hr
      rw [Int.emod_eq_of_lt (by omega) (by omega), Int.emod_eq_of_lt (by omega) (by omega)] at hr
      have hvw : v = w := by omega
      subst hvw
      have hi : index ds = index es :=
        Int.eq_of_mul_eq_mul_left (Int.ne_of_gt hpos) (Int.add_left_cancel h)
      rw [ih hs (fun d h => hd d (by simp [h])) (fun e h => he e (by simp [h])) hi]

theorem index_minimum (ss : List Scale) : index (ss.map fun s => (s, s.minimum)) = 0 := by
  induction ss with
  | nil => rfl
  | cons s ss ih =>
    show s.minimum - s.minimum + s.size * index (ss.map fun s => (s, s.minimum)) = 0
    rw [ih]
    omega

end Digits

namespace Point

variable {c : Cycle}

/-- The point with the least value on each scale. -/
def first (c : Cycle) : Point c where
  digits := c.scales.map fun s => (s, s.minimum)
  scales_eq := by
    rw [List.map_map]
    exact List.map_id _
  inDomain := by
    intro d hd
    obtain ⟨s, -, rfl⟩ := List.mem_map.1 hd
    exact s.contains_minimum

end Point

/-- The number of points. -/
def Cycle.size (c : Cycle) : Int :=
  (Point.first c).digits.volume

/-- The points of one round last as long as the round. -/
theorem Cycle.round_duration (c : Cycle) : c.round.duration = c.size * c.precision.duration := by
  obtain ⟨scales, nonempty, linked⟩ := c
  have h : scales ∈ Scale.runs := Scale.mem_runs_iff.2 ⟨nonempty, linked⟩
  simp only [Scale.runs, List.mem_cons, List.not_mem_nil, or_false] at h
  rcases h with rfl | rfl | rfl | rfl | rfl | rfl | rfl <;> rfl

namespace Point

variable {c : Cycle}

theorem volume_digits (p : Point c) : p.digits.volume = c.size :=
  Digits.volume_congr (by rw [p.scales_eq, (first c).scales_eq])

theorem index_mem (p : Point c) : 0 ≤ p.index ∧ p.index < c.size := by
  rw [← p.volume_digits]
  exact Digits.index_mem p.inDomain

@[simp] theorem index_first (c : Cycle) : (first c).index = 0 :=
  Digits.index_minimum c.scales

theorem ext_digits {p q : Point c} (h : p.digits = q.digits) : p = q := by
  cases p
  cases q
  simp_all

theorem ext_index {p q : Point c} (h : p.index = q.index) : p = q :=
  ext_digits (Digits.index_inj (p.scales_eq.trans q.scales_eq.symm) p.inDomain q.inDomain h)

theorem index_eq_iff {p q : Point c} : p.index = q.index ↔ p = q :=
  ⟨ext_index, fun h => h ▸ rfl⟩

/-- A point has a finest digit, and it is on the cycle's finest scale. -/
theorem exists_digits_eq_cons (p : Point c) :
    ∃ v rest, p.digits = (c.finest, v) :: rest ∧ c.scales = c.finest :: rest.map Prod.fst := by
  obtain ⟨⟨s, v⟩, rest, h⟩ := List.exists_cons_of_ne_nil p.digits_ne_nil
  have hs := p.scales_eq
  rw [h, List.map_cons] at hs
  have hf : c.finest = s := by
    unfold Cycle.finest
    simp only [← hs, List.head_cons]
  exact ⟨v, rest, by rw [h, hf], by rw [hf, ← hs]⟩

theorem weight_precision (p : Point c) : p.digits.weight c.precision = 1 := by
  obtain ⟨v, rest, h, -⟩ := p.exists_digits_eq_cons
  rw [h]
  exact if_pos rfl

theorem index_advance_precision (p : Point c) (n : Int) :
    (p.advance n c.precision).index = (p.index + n) % c.size := by
  rw [index_advance, weight_precision, volume_digits, Int.mul_one]

theorem index_increment (p : Point c) : p.increment.index = (p.index + 1) % c.size :=
  p.index_advance_precision 1

/-- The next point is one place further on, or at the head of the row. -/
theorem increment_eq_iff_index {p q : Point c} :
    p.increment = q ↔ q.index = p.index + 1 ∨ p.index + 1 = c.size ∧ q.index = 0 := by
  have hp := p.index_mem
  have hq := q.index_mem
  rw [← index_eq_iff, index_increment]
  by_cases hlast : p.index + 1 < c.size
  · rw [Int.emod_eq_of_lt (by omega) hlast]
    omega
  · have hsize : p.index + 1 = c.size := by omega
    rw [hsize, Int.emod_self]
    omega

/-- The point before, which for the first point is the last one of the row. -/
def previous (p : Point c) : Point c :=
  p.advance (-1) c.precision

theorem index_previous (p : Point c) : p.previous.index = (p.index - 1) % c.size :=
  p.index_advance_precision (-1)

theorem index_previous_of_pos {p : Point c} (h : 0 < p.index) : p.previous.index = p.index - 1 := by
  have := p.index_mem
  rw [index_previous, Int.emod_eq_of_lt (by omega) (by omega)]

theorem index_previous_of_eq_zero {p : Point c} (h : p.index = 0) :
    p.previous.index = c.size - 1 := by
  have := p.index_mem
  rw [index_previous, h, ← Int.add_emod_right, Int.emod_eq_of_lt (by omega) (by omega)]
  omega

theorem increment_eq_iff {p q : Point c} : p.increment = q ↔ p = q.previous := by
  have hp := p.index_mem
  have hq := q.index_mem
  rw [increment_eq_iff_index, ← index_eq_iff]
  by_cases h0 : q.index = 0
  · rw [index_previous_of_eq_zero h0]
    omega
  · rw [index_previous_of_pos (by omega)]
    omega

/-- The point that comes `n` places after the first one. -/
def ofIndex (c : Cycle) (n : Int) : Point c :=
  (first c).advance n c.precision

theorem index_ofIndex (n : Int) : (ofIndex c n).index = n % c.size := by
  rw [ofIndex, index_advance_precision, index_first, Int.zero_add]

theorem index_ofIndex_of_mem {n : Int} (h0 : 0 ≤ n) (h1 : n < c.size) :
    (ofIndex c n).index = n := by
  rw [index_ofIndex, Int.emod_eq_of_lt h0 h1]

theorem durationTo_eq (p q : Point c) :
    p.durationTo q = (q.index - p.index) * c.precision.duration := by
  obtain ⟨v, ds, hp, hs⟩ := p.exists_digits_eq_cons
  obtain ⟨w, es, hq, hs'⟩ := q.exists_digits_eq_cons
  have he : ds.map Prod.fst = es.map Prod.fst := (List.cons.inj (hs.symm.trans hs')).2
  have hl : Scale.linked (c.finest :: ds.map Prod.fst) = true := hs ▸ c.linked
  rw [durationTo, index, index, hp, hq, Digits.durationTo_eq he hl]
  rfl

theorem count_durationTo (p q : Point c) :
    c.precision.count (p.durationTo q) = q.index - p.index := by
  rw [durationTo_eq, TimeUnit.count]
  exact Int.mul_tdiv_cancel _ (Int.ne_of_gt c.precision.duration_pos)

theorem compare_eq (p q : Point c) : p.compare q = Ord.compare p.index q.index := by
  rw [compare, count_durationTo]
  rcases Int.lt_trichotomy p.index q.index with h | h | h
  · rw [Std.compare_eq_lt.2 h, Std.compare_eq_lt.2 (by omega)]
  · rw [Std.compare_eq_iff_eq.2 h, Std.compare_eq_iff_eq.2 (by omega)]
  · rw [Std.compare_eq_gt.2 h, Std.compare_eq_gt.2 (by omega)]

theorem le_iff_index {p q : Point c} : p ≤ q ↔ p.index ≤ q.index := by
  rw [le_def, compare_eq]
  exact Std.isLE_compare

theorem lt_iff_index {p q : Point c} : p < q ↔ p.index < q.index := by
  rw [lt_def, compare_eq, Ordering.isLT_iff_eq_lt]
  exact Std.compare_eq_lt

theorem index_later (p q : Point c) : (p.later q).index = max p.index q.index := by
  unfold later
  split
  · rename_i h
    have := lt_iff_index.1 h
    omega
  · rename_i h
    have := mt lt_iff_index.2 h
    omega

end Point

end OpeningHours
