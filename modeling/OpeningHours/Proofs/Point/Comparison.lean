import OpeningHours.Proofs.Instant.Projection

/-!
# Comparing points

Points are compared by their signed distance, and the distance is the difference of their indices.
Digit by digit, an index is greater than another if the coarsest digit that differs is greater
(`compare_index`): the points of a cycle stand in the order of their values, read from the coarsest
scale down (`compare_eq_values`). To go the distance from a point to another leads there
(`advance_index_sub`). Other instants are compared through their projection, so that two instants
with the same values on the scales of a cycle cannot be told apart on it (`project_congr`).
-/

namespace OpeningHours

/-- The lists agree up to their last members, or an earlier one decides. -/
theorem compare_append_singleton {xs ys : List Int} (h : xs.length = ys.length) (a b : Int) :
    compare (xs ++ [a]) (ys ++ [b]) = (compare xs ys).then (compare a b) := by
  induction xs generalizing ys with
  | nil =>
    obtain rfl : ys = [] := List.length_eq_zero_iff.1 h.symm
    rw [List.nil_append, List.nil_append, List.compare_cons_cons, List.compare_nil_nil,
      Ordering.then_eq, Ordering.eq_then]
  | cons x xs ih =>
    obtain ⟨y, ys, rfl⟩ := List.exists_cons_of_length_eq_add_one h.symm
    rw [List.cons_append, List.cons_append, List.compare_cons_cons, List.compare_cons_cons,
      ih (Nat.succ.inj h), Ordering.then_assoc]

theorem compare_eq_of_sub_eq {a b x y : Int} (h : b - a = y - x) : compare a b = compare x y := by
  rcases Int.lt_trichotomy a b with hab | hab | hab
  · rw [Std.compare_eq_lt.2 hab, Std.compare_eq_lt.2 (by omega)]
  · rw [Std.compare_eq_iff_eq.2 hab, Std.compare_eq_iff_eq.2 (by omega)]
  · rw [Std.compare_eq_gt.2 hab, Std.compare_eq_gt.2 (by omega)]

/-- Of two numbers in one base the quotients are compared first. -/
theorem compare_add_mul {k a b x y : Int} (ha : 0 ≤ a ∧ a < k) (hb : 0 ≤ b ∧ b < k) :
    compare (a + k * x) (b + k * y) = (compare x y).then (compare a b) := by
  have hk : 0 ≤ k := by omega
  rcases Int.lt_trichotomy x y with h | h | h
  · have hle : k * (x + 1) ≤ k * y := Int.mul_le_mul_of_nonneg_left h hk
    rw [Int.mul_add, Int.mul_one] at hle
    rw [Std.compare_eq_lt.2 h, Ordering.lt_then]
    exact Std.compare_eq_lt.2 (by omega)
  · rw [h, Std.compare_self, Ordering.eq_then]
    exact compare_eq_of_sub_eq (by omega)
  · have hle : k * (y + 1) ≤ k * x := Int.mul_le_mul_of_nonneg_left h hk
    rw [Int.mul_add, Int.mul_one] at hle
    rw [Std.compare_eq_gt.2 h, Ordering.gt_then]
    exact Std.compare_eq_gt.2 (by omega)

namespace Digits

/-- The values alone, from the coarsest scale down. -/
def values (ds : Digits) : List Int :=
  (ds.map Prod.snd).reverse

theorem values_cons (d : Scale × Int) (ds : Digits) : values (d :: ds) = values ds ++ [d.2] :=
  List.reverse_cons ..

/-- The order of the indices is the lexicographic order of the values. -/
theorem compare_index {ds es : Digits} (hs : ds.map Prod.fst = es.map Prod.fst)
    (hd : ∀ d ∈ ds, d.1.contains d.2 = true) (he : ∀ e ∈ es, e.1.contains e.2 = true) :
    compare (index ds) (index es) = compare (values ds) (values es) := by
  induction ds generalizing es with
  | nil =>
    obtain rfl : es = [] := by simpa using hs.symm
    rfl
  | cons d ds ih =>
    cases es with
    | nil => simp at hs
    | cons e es =>
      obtain ⟨s, v⟩ := d
      obtain ⟨s', w⟩ := e
      simp only [List.map_cons, List.cons.injEq] at hs
      obtain ⟨rfl, hs⟩ := hs
      have hsize : s.size = s.maximum - s.minimum + 1 := rfl
      have hv : s.minimum ≤ v ∧ v ≤ s.maximum := Scale.contains_iff.1 (hd (s, v) (by simp))
      have hw : s.minimum ≤ w ∧ w ≤ s.maximum := Scale.contains_iff.1 (he (s, w) (by simp))
      have hlength : (values ds).length = (values es).length := by
        simpa [values] using congrArg List.length hs
      have hcoarser := ih hs (fun d h => hd d (by simp [h])) (fun e h => he e (by simp [h]))
      have hvw : compare (v - s.minimum) (w - s.minimum) = compare v w :=
        compare_eq_of_sub_eq (by omega)
      show compare (v - s.minimum + s.size * index ds) (w - s.minimum + s.size * index es) = _
      rw [compare_add_mul (by omega) (by omega), hcoarser, hvw, values_cons, values_cons,
        compare_append_singleton hlength]

end Digits

namespace Instant

variable {c : Cycle}

/-- Instants with the same values on the scales of a cycle fall on the same point of it. -/
theorem project_congr {i j : Instant} (h : ∀ s ∈ c.scales, i.read? s = j.read? s) :
    i.project c = j.project c := by
  have hlacking : i.lacking? c = j.lacking? c := by
    rw [lacking?, lacking?, ← List.head?_filter, ← List.head?_filter]
    exact congrArg List.head? (List.filter_congr fun s hs => by rw [h s hs])
  cases hs : j.lacking? c with
  | some s => rw [project_of_lacking? hs, project_of_lacking? (hlacking.trans hs)]
  | none =>
    obtain ⟨q, hq⟩ := exists_project (lacking?_eq_none_iff.1 hs)
    rw [hq, project_eq_ok_iff]
    intro d hd
    rw [h d.1 (Point.mem_scales_of_mem hd), project_eq_ok_iff.1 hq d hd]

end Instant

namespace Point

variable {c : Cycle}

/-- The values from the coarsest scale down. -/
def values (p : Point c) : List Int :=
  p.digits.values

theorem compare_eq_values (p q : Point c) : p.compare q = Ord.compare p.values q.values := by
  rw [compare_eq]
  exact Digits.compare_index (p.scales_eq.trans q.scales_eq.symm) p.inDomain q.inDomain

instance : Std.TransCmp (compare (c := c)) where
  eq_swap {p q} := by
    rw [compare_eq, compare_eq]
    exact Std.OrientedOrd.eq_swap
  isLE_trans {p q r} hpq hqr := by
    rw [compare_eq] at hpq hqr ⊢
    exact Std.TransOrd.isLE_trans hpq hqr

instance : Std.LawfulEqCmp (compare (c := c)) where
  compare_self {p} := by
    rw [compare_eq]
    exact Std.compare_self
  eq_of_compare {p q} h := by
    rw [compare_eq] at h
    exact ext_index (Std.compare_eq_iff_eq.1 h)

theorem compareTo_point (p q : Point c) : p.compareTo (.point q) = .ok (p.compare q) := by
  rw [compareTo, Instant.project_point]
  rfl

theorem unitsUntil_point (p q : Point c) (u : TimeUnit) :
    p.unitsUntil (.point q) u = .ok (u.count (p.durationTo q)) := by
  rw [unitsUntil, Instant.project_point]
  rfl

/-- A point has no part below the precision of its cycle. -/
theorem durationUntil_point (p q : Point c) :
    p.durationUntil (.point q) = .ok (p.durationTo q) := by
  have hbelow : (Instant.point q).remainderBelow c.precision = 0 := if_pos (Int.le_refl _)
  rw [durationUntil, Instant.project_point, hbelow]
  exact congrArg Except.ok (Int.add_zero _)

/-- The distance to another point leads there. -/
theorem advance_index_sub (p q : Point c) : p.advance (q.index - p.index) c.precision = q := by
  have hq := q.index_mem
  apply ext_index
  rw [index_advance_precision, Int.add_comm, Int.sub_add_cancel, Int.emod_eq_of_lt hq.1 hq.2]

/-- What the distance and the comparison of two points owe to their indices and values. -/
structure Compared (p q : Point c) : Prop where
  distance : ∀ u, p.unitsUntil (.point q) u =
    .ok (Int.tdiv ((q.index - p.index) * c.precision.duration) u.duration)
  odd : ∀ u, p.unitsUntil (.point q) u = (q.unitsUntil (.point p) u).map (- ·)
  leads : ∃ n, p.unitsUntil (.point q) c.precision = .ok n ∧ p.plus n c.precision = .ok q
  compareTo_eq : p.compareTo (.point q) = .ok (p.compare q)
  lexicographic : p.compare q = Ord.compare p.values q.values
  eq_iff : p.compare q = .eq ↔ p = q
  lt_iff : p < q ↔ p.compare q = .lt
  le_iff : p ≤ q ↔ p.compare q ≠ .gt
  gt_iff : p > q ↔ p.compare q = .gt
  ge_iff : p ≥ q ↔ p.compare q ≠ .lt

theorem compared (p q : Point c) : p.Compared q where
  distance u := by
    rw [unitsUntil_point, durationTo_eq]
    rfl
  odd u := by
    rw [unitsUntil_point, unitsUntil_point, durationTo_eq, durationTo_eq, ← Int.neg_sub,
      Int.neg_mul, TimeUnit.count_neg]
    rfl
  leads := by
    refine ⟨q.index - p.index, ?_, ?_⟩
    · rw [unitsUntil_point, count_durationTo]
    · rw [plus_of_supportsUnit c.supportsUnit_precision, advance_index_sub]
  compareTo_eq := compareTo_point p q
  lexicographic := compare_eq_values p q
  eq_iff := Std.LawfulEqCmp.compare_eq_iff_eq
  lt_iff := by rw [lt_def, Ordering.isLT_iff_eq_lt]
  le_iff := by rw [le_def, Ordering.isLE_iff_ne_gt]
  gt_iff := by
    rw [gt_iff_lt, lt_def, Ordering.isLT_iff_eq_lt]
    exact Std.OrientedCmp.gt_iff_lt.symm
  ge_iff := by
    rw [ge_iff_le, le_def, Ordering.isLE_iff_ne_gt]
    exact not_congr Std.OrientedCmp.gt_iff_lt

/-- From every point of the cycle the instant looks as the point `r` does, and as any instant does
that has the values of `r`. -/
structure LooksAs (i : Instant) (r : Point c) : Prop where
  reads : ∀ s ∈ c.scales, i.read? s = r.digit? s
  compareTo_eq : ∀ p : Point c, p.compareTo i = p.compareTo (.point r)
  unitsUntil_eq : ∀ (p : Point c) u, p.unitsUntil i u = p.unitsUntil (.point r) u
  unitsUntil_eq_count : ∀ (p : Point c) u,
    p.unitsUntil i u = (p.durationUntil (.point r)).map u.count
  same : ∀ j : Instant, (∀ s ∈ c.scales, j.read? s = r.digit? s) → ∀ p : Point c,
    p.compareTo j = p.compareTo i ∧ ∀ u, p.unitsUntil j u = p.unitsUntil i u

theorem looksAs_of_project {i : Instant} {r : Point c} (hr : i.project c = .ok r) :
    LooksAs i r := by
  have hreads : ∀ s ∈ c.scales, i.read? s = r.digit? s := by
    intro s hs
    obtain ⟨d, hd, rfl⟩ := r.exists_mem_of_mem_scales hs
    rw [Instant.project_eq_ok_iff.1 hr d hd, digit?_eq_some_iff.2 hd]
  have hpoint : i.project c = (Instant.point r).project c := by rw [hr, Instant.project_point]
  refine ⟨hreads, ?_, ?_, ?_, ?_⟩
  · intro p
    rw [compareTo, compareTo, hpoint]
  · intro p u
    rw [unitsUntil, unitsUntil, hpoint]
  · intro p u
    rw [unitsUntil, hr, durationUntil_point]
    rfl
  · intro j hj p
    have hproject : j.project c = i.project c :=
      Instant.project_congr fun s hs => (hj s hs).trans (hreads s hs).symm
    refine ⟨?_, fun u => ?_⟩
    · rw [compareTo, compareTo, hproject]
    · rw [unitsUntil, unitsUntil, hproject]

/-- Points are compared by a total order, which is the lexicographic one of their values from the
coarsest scale down. It agrees with the signed distance, the difference of the indices in whole
units toward zero, and to add the distance leads from one point to the other. Of another instant
that carries the scales of the cycle only its projection matters. -/
theorem distance_agrees_with_order (c : Cycle) :
    Std.TransCmp (compare (c := c)) ∧ (∀ p q : Point c, p.Compared q) ∧
    ∀ i : Instant, (∀ s ∈ c.scales, (i.read? s).isSome = true) → ∃ r : Point c, LooksAs i r := by
  refine ⟨inferInstance, compared, ?_⟩
  intro i hi
  obtain ⟨r, hr⟩ := Instant.exists_project hi
  exact ⟨r, looksAs_of_project hr⟩

/-- The last minute of the week is later than the first, by less than seven days, and by the way
back one comes from it to the first. A moment in the first minute looks as that minute does. -/
theorem distance_agrees_with_order_over_sunday : ∃ (p q : Point .week) (i : Instant),
    p.digits = [(.minuteOfHour, 59), (.hourOfDay, 23), (.dayOfWeek, 7)] ∧
    q.digits = [(.minuteOfHour, 0), (.hourOfDay, 0), (.dayOfWeek, 1)] ∧
    p.values = [7, 23, 59] ∧ q.values = [1, 0, 0] ∧ p > q ∧
    p.unitsUntil (.point q) .days = .ok (-6) ∧
    (∃ n, p.unitsUntil (.point q) .minutes = .ok n ∧ p.plus n .minutes = .ok q) ∧
    (∀ s ∈ Cycle.week.scales, (i.read? s).isSome = true) ∧ ∃ r : Point .week, LooksAs i r := by
  let p : Point .week :=
    ⟨[(.minuteOfHour, 59), (.hourOfDay, 23), (.dayOfWeek, 7)], rfl, by decide⟩
  let q : Point .week :=
    ⟨[(.minuteOfHour, 0), (.hourOfDay, 0), (.dayOfWeek, 1)], rfl, by decide⟩
  let i : Instant := .dateTime ⟨⟨2024, 1, 1, by decide, by decide, by decide⟩,
    ⟨0, 0, 59, 999999, by decide, by decide, by decide, by decide⟩⟩
  have hi : ∀ s ∈ Cycle.week.scales, (i.read? s).isSome = true := by decide
  obtain ⟨-, hcompared, hlooks⟩ := distance_agrees_with_order .week
  have hpq := hcompared p q
  exact ⟨p, q, i, rfl, rfl, rfl, rfl, hpq.gt_iff.2 rfl, hpq.distance .days, hpq.leads, hi,
    hlooks i hi⟩

end Point

end OpeningHours
