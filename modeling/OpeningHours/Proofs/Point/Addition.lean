import Mathlib.Logic.Function.Iterate
import OpeningHours.Proofs.Point.Order

/-!
# Addition in the row

To add to a point is to go on in the row of its cycle, and from the end of the row to its head. A
step of a scale goes as many places as all finer digits have values together (`weight_append`), and
the finer digits stay as they are (`add_append`). All else is arithmetic of the indices: additions
in any units can be made in any order (`foldl_advance_perm`), taking away undoes them
(`advance_neg_advance`), a round of one scale is a step of the next
(`advance_size`), and only whole rows lead back (`iterate_increment_eq_iff`). `plus_cyclic` says all
of this of `plus`, which succeeds in every unit that the cycle has.
-/

namespace OpeningHours

/-- No two scales of a cycle step in one unit. -/
theorem Cycle.steps_nodup (c : Cycle) : (c.scales.map Scale.step).Nodup := by
  have hruns : ∀ ss ∈ Scale.runs, (ss.map Scale.step).Nodup := by decide
  exact hruns c.scales c.scales_mem_runs

namespace Digits

theorem weight_congr {ds es : Digits} (u : TimeUnit) (h : ds.map Prod.fst = es.map Prod.fst) :
    weight u ds = weight u es := by
  induction ds generalizing es with
  | nil =>
    cases es with
    | nil => rfl
    | cons e es => simp at h
  | cons d ds ih =>
    cases es with
    | nil => simp at h
    | cons e es =>
      simp only [List.map_cons, List.cons.injEq] at h
      show (if d.1.step = u then 1 else d.1.size * weight u ds) =
        if e.1.step = u then 1 else e.1.size * weight u es
      rw [h.1, ih h.2]

/-- A step weighs as much as the digits before its scale have values. -/
theorem weight_append {u : TimeUnit} {finer rest : Digits} (h : ∀ d ∈ finer, d.1.step ≠ u) :
    weight u (finer ++ rest) = volume finer * weight u rest := by
  induction finer with
  | nil => exact (Int.one_mul _).symm
  | cons d finer ih =>
    have hd : weight u (d :: finer ++ rest) = d.1.size * weight u (finer ++ rest) :=
      if_neg (h d (by simp))
    rw [hd, ih fun e he => h e (by simp [he]), ← Int.mul_assoc]
    rfl

theorem weight_self (s : Scale) (v : Int) (rest : Digits) : weight s.step ((s, v) :: rest) = 1 :=
  if_pos rfl

/-- Addition passes over the digits before its scale. -/
theorem add_append {u : TimeUnit} {finer rest : Digits} (h : ∀ d ∈ finer, d.1.step ≠ u) (n : Int) :
    add u n (finer ++ rest) = finer ++ add u n rest := by
  induction finer with
  | nil => rfl
  | cons d finer ih =>
    have hd : add u n (d :: finer ++ rest) = d :: add u n (finer ++ rest) := if_neg (h d (by simp))
    rw [hd, ih fun e he => h e (by simp [he])]
    rfl

theorem volume_append (ds es : Digits) : volume (ds ++ es) = volume ds * volume es := by
  induction ds with
  | nil => exact (Int.one_mul _).symm
  | cons d ds ih =>
    show d.1.size * volume (ds ++ es) = d.1.size * volume ds * volume es
    rw [ih, Int.mul_assoc]

end Digits

/-- The places that one step of the unit goes. -/
def Cycle.weight (c : Cycle) (u : TimeUnit) : Int :=
  (Point.first c).digits.weight u

namespace Point

variable {c : Cycle}

theorem weight_digits (p : Point c) (u : TimeUnit) : p.digits.weight u = c.weight u :=
  Digits.weight_congr u (p.scales_eq.trans (first c).scales_eq.symm)

theorem index_advance_eq (p : Point c) (n : Int) (u : TimeUnit) :
    (p.advance n u).index = (p.index + n * c.weight u) % c.size := by
  rw [index_advance, weight_digits, volume_digits]

theorem index_advance_advance (p : Point c) (a b : Int) (u w : TimeUnit) :
    ((p.advance a u).advance b w).index =
      (p.index + a * c.weight u + b * c.weight w) % c.size := by
  rw [index_advance_eq, index_advance_eq, Int.emod_add_emod]

theorem index_emod_size (p : Point c) : p.index % c.size = p.index :=
  Int.emod_eq_of_lt p.index_mem.1 p.index_mem.2

theorem advance_comm (p : Point c) (a b : Int) (u w : TimeUnit) :
    (p.advance a u).advance b w = (p.advance b w).advance a u := by
  apply ext_index
  rw [index_advance_advance, index_advance_advance, Int.add_right_comm]

theorem advance_neg_advance (p : Point c) (a : Int) (u : TimeUnit) :
    (p.advance a u).advance (-a) u = p := by
  apply ext_index
  rw [index_advance_advance, Int.neg_mul, Int.add_neg_cancel_right, index_emod_size]

/-- Additions can be made in any order. -/
theorem foldl_advance_perm {steps steps' : List (Int × TimeUnit)} (h : steps.Perm steps')
    (p : Point c) :
    steps.foldl (fun q x => q.advance x.1 x.2) p = steps'.foldl (fun q x => q.advance x.1 x.2) p :=
  h.foldl_eq' (fun x _ y _ q => q.advance_comm x.1 y.1 x.2 y.2) p

section Scales

variable {p : Point c} {finer coarser : Digits} {s t : Scale} {v w : Int}

theorem supportsUnit_of_digits_eq (h : p.digits = finer ++ (s, v) :: coarser) :
    c.supportsUnit s.step = true := by
  rw [Cycle.supportsUnit, ← p.scales_eq, h]
  simp

theorem step_ne_of_digits_eq (h : p.digits = finer ++ (s, v) :: coarser) :
    ∀ d ∈ finer, d.1.step ≠ s.step := by
  have hn := c.steps_nodup
  rw [← p.scales_eq, h, List.map_map, List.map_append, List.nodup_append] at hn
  intro d hd
  exact hn.2.2 _ (List.mem_map_of_mem hd) _ (List.mem_map_of_mem (List.mem_cons_self ..))

/-- A step of a scale goes as many places as the finer digits have values. -/
theorem weight_of_digits_eq (h : p.digits = finer ++ (s, v) :: coarser) :
    c.weight s.step = Digits.volume finer := by
  rw [← p.weight_digits, h, Digits.weight_append (step_ne_of_digits_eq h), Digits.weight_self,
    Int.mul_one]

theorem digits_eq_of_next (h : p.digits = finer ++ (s, v) :: (t, w) :: coarser) :
    p.digits = (finer ++ [(s, v)]) ++ (t, w) :: coarser := by
  rw [h, List.append_assoc]
  rfl

/-- One round of a scale is one step of the next. -/
theorem advance_size (h : p.digits = finer ++ (s, v) :: (t, w) :: coarser) :
    p.advance s.size s.step = p.advance 1 t.step := by
  have ht : c.weight t.step = Digits.volume finer * s.size := by
    rw [weight_of_digits_eq (digits_eq_of_next h), Digits.volume_append]
    exact congrArg (Digits.volume finer * ·) (Int.mul_one s.size)
  apply ext_index
  rw [index_advance_eq, index_advance_eq, weight_of_digits_eq h, ht, Int.one_mul, Int.mul_comm]

end Scales

theorem index_iterate_increment (p : Point c) (n : Nat) :
    (increment^[n] p).index = (p.index + n) % c.size := by
  induction n with
  | zero => rw [Function.iterate_zero_apply, Int.natCast_zero, Int.add_zero, index_emod_size]
  | succ n ih =>
    rw [Function.iterate_succ_apply', index_increment, ih, Int.emod_add_emod, Int.natCast_add,
      Int.add_assoc]
    rfl

/-- Only whole rows of increments lead back. -/
theorem iterate_increment_eq_iff (p : Point c) (n : Nat) :
    increment^[n] p = p ↔ c.size ∣ (n : Int) := by
  rw [← index_eq_iff, index_iterate_increment, Int.dvd_iff_emod_eq_zero]
  conv => lhs; rhs; rw [← p.index_emod_size]
  rw [Int.emod_eq_emod_iff_emod_sub_eq_zero, Int.add_comm, Int.add_sub_cancel]

theorem foldlM_plus {steps : List (Int × TimeUnit)}
    (h : ∀ x ∈ steps, c.supportsUnit x.2 = true) (p : Point c) :
    steps.foldlM (fun q x => q.plus x.1 x.2) p =
      .ok (steps.foldl (fun q x => q.advance x.1 x.2) p) := by
  induction steps generalizing p with
  | nil => rfl
  | cons x steps ih =>
    rw [List.foldlM_cons, plus_of_supportsUnit (h x (by simp))]
    exact ih (fun y hy => h y (by simp [hy])) (p.advance x.1 x.2)

/-- Adding to a scale of a point adds to its index, as often as the finer digits have values, and
starts anew at the end of the row; the finer digits stay. So additions in any units can be made in
any order, taking away undoes adding, a round of a scale is a step of the next one, and increments
lead back exactly after whole rows. -/
theorem plus_cyclic (p : Point c) :
    (∀ finer s v coarser, p.digits = finer ++ (s, v) :: coarser → ∀ n, ∃ q,
      p.plus n s.step = .ok q ∧
      q.index = (p.index + n * Digits.volume finer) % p.digits.volume ∧ finer <+: q.digits) ∧
    (∀ steps steps' : List (Int × TimeUnit), steps.Perm steps' →
      (∀ x ∈ steps, c.supportsUnit x.2 = true) → ∃ q,
      steps.foldlM (fun q x => q.plus x.1 x.2) p = .ok q ∧
      steps'.foldlM (fun q x => q.plus x.1 x.2) p = .ok q) ∧
    (∀ n u, c.supportsUnit u = true → ∃ q, p.plus n u = .ok q ∧ q.plus (-n) u = .ok p) ∧
    (∀ finer s v t w coarser, p.digits = finer ++ (s, v) :: (t, w) :: coarser →
      p.plus s.size s.step = p.plus 1 t.step) ∧
    ∀ n : Nat, increment^[n] p = p ↔ p.digits.volume ∣ (n : Int) := by
  refine ⟨?_, ?_, ?_, ?_, ?_⟩
  · intro finer s v coarser h n
    refine ⟨p.advance n s.step, plus_of_supportsUnit (supportsUnit_of_digits_eq h) p n, ?_, ?_⟩
    · rw [index_advance_eq, weight_of_digits_eq h, volume_digits]
    · show finer <+: p.digits.add s.step n
      rw [h, Digits.add_append (step_ne_of_digits_eq h)]
      exact List.prefix_append ..
  · intro steps steps' hperm hsteps
    refine ⟨_, foldlM_plus hsteps p, ?_⟩
    rw [foldlM_plus fun x hx => hsteps x (hperm.mem_iff.2 hx), foldl_advance_perm hperm]
  · intro n u hu
    refine ⟨_, plus_of_supportsUnit hu p n, ?_⟩
    rw [plus_of_supportsUnit hu, advance_neg_advance]
  · intro finer s v t w coarser h
    rw [plus_of_supportsUnit (supportsUnit_of_digits_eq h),
      plus_of_supportsUnit (supportsUnit_of_digits_eq (digits_eq_of_next h)), advance_size h]
  · intro n
    rw [volume_digits]
    exact p.iterate_increment_eq_iff n

/-- Half past eleven on a Sunday night, and what is added to it. -/
theorem plus_cyclic_sunday_night : ∃ p : Point .week,
    p.digits = [(.minuteOfHour, 30), (.hourOfDay, 23), (.dayOfWeek, 7)] ∧
    (∃ q, p.plus 49 .hours = .ok q ∧ q.index = (p.index + 49 * 60) % 10080 ∧
      [(.minuteOfHour, 30)] <+: q.digits) ∧
    (∃ q, [(90, TimeUnit.minutes), (-2, .days)].foldlM (fun q x => q.plus x.1 x.2) p = .ok q ∧
      [(-2, TimeUnit.days), (90, .minutes)].foldlM (fun q x => q.plus x.1 x.2) p = .ok q) ∧
    (∃ q, p.plus (-1000) .days = .ok q ∧ q.plus 1000 .days = .ok p) ∧
    p.plus 24 .hours = p.plus 1 .days ∧ increment^[10080] p = p := by
  let p : Point .week :=
    ⟨[(.minuteOfHour, 30), (.hourOfDay, 23), (.dayOfWeek, 7)], rfl, by decide⟩
  obtain ⟨hadd, hperm, hminus, hsize, hround⟩ := plus_cyclic p
  exact ⟨p, rfl, hadd [(.minuteOfHour, 30)] .hourOfDay 23 [(.dayOfWeek, 7)] rfl 49,
    hperm _ _ (.swap ..) (by decide), hminus (-1000) .days rfl,
    hsize [(.minuteOfHour, 30)] .hourOfDay 23 .dayOfWeek 7 [] rfl, (hround 10080).2 (by decide)⟩

end Point

end OpeningHours
