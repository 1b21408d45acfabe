import OpeningHours.Point.Carry

/-!
# The index of a point

The points of a cycle are numbered from zero, the finest digit counting single steps and each
coarser digit the rounds of those below it. Adding with carry is addition of the index in the
cycle: `index_addCarry` for the finest digit, `index_add` for a coarser one, whose step weighs as
much as all finer digits have values.
-/

namespace OpeningHours

namespace Digits

/-- The number of values that digits on these scales can have together. -/
def volume : Digits → Int
  | [] => 1
  | (s, _) :: rest => s.size * volume rest

/-- The number of the point, less than `volume`. -/
def index : Digits → Int
  | [] => 0
  | (s, v) :: rest => v - s.minimum + s.size * index rest

/-- The index that one step of the unit adds. -/
def weight (u : TimeUnit) : Digits → Int
  | [] => 0
  | (s, _) :: rest => if s.step = u then 1 else s.size * weight u rest

theorem volume_pos (ds : Digits) : 0 < volume ds := by
  induction ds with
  | nil => decide
  | cons d rest ih => exact Int.mul_pos d.1.size_pos ih

theorem volume_congr {ds es : Digits} (h : ds.map Prod.fst = es.map Prod.fst) :
    volume ds = volume es := by
  induction ds generalizing es with
  | nil =>
    cases es with
    | nil => rfl
    | cons e es => simp at h
  | cons d ds ih =>
    cases es with
    | nil => simp at h
    | cons e es =>
      simp only [List.map_cons, List.cons.injEq] at h
      show d.1.size * volume ds = e.1.size * volume es
      rw [h.1, ih h.2]

theorem index_mem {ds : Digits} (h : ∀ d ∈ ds, d.1.contains d.2 = true) :
    0 ≤ index ds ∧ index ds < volume ds := by
  induction ds with
  | nil => decide
  | cons d rest ih =>
    obtain ⟨s, v⟩ := d
    have hv : s.minimum ≤ v ∧ v ≤ s.maximum := Scale.contains_iff.1 (h (s, v) (by simp))
    have hs : s.size = s.maximum - s.minimum + 1 := rfl
    obtain ⟨h0, h1⟩ := ih fun d hd => h d (by simp [hd])
    have hlo : 0 ≤ s.size * index rest := Int.mul_nonneg (Int.le_of_lt s.size_pos) h0
    have hhi : s.size * (index rest + 1) ≤ s.size * volume rest :=
      Int.mul_le_mul_of_nonneg_left h1 (Int.le_of_lt s.size_pos)
    rw [Int.mul_add, Int.mul_one] at hhi
    show 0 ≤ v - s.minimum + s.size * index rest ∧
      v - s.minimum + s.size * index rest < s.size * volume rest
    constructor <;> omega

/-- The remainder by a product, taken digit by digit. -/
theorem emod_mul_eq {a b : Int} (ha : 0 < a) (hb : 0 < b) (n : Int) :
    n % (a * b) = n % a + a * (n / a % b) := by
  have h1 := Int.emod_nonneg n (Int.ne_of_gt ha)
  have h2 := Int.emod_lt_of_pos n ha
  have h3 := Int.emod_nonneg (n / a) (Int.ne_of_gt hb)
  have h4 := Int.emod_lt_of_pos (n / a) hb
  have hle : a * (n / a % b + 1) ≤ a * b := Int.mul_le_mul_of_nonneg_left h4 (Int.le_of_lt ha)
  have hge : 0 ≤ a * (n / a % b) := Int.mul_nonneg (Int.le_of_lt ha) h3
  rw [Int.mul_add, Int.mul_one] at hle
  have hsum : n = n % a + a * (n / a % b) + a * b * (n / a / b) := by
    calc n = n % a + a * (n / a) := (Int.emod_add_mul_ediv n a).symm
      _ = n % a + a * (n / a % b + b * (n / a / b)) :=
        congrArg (fun q => n % a + a * q) (Int.emod_add_mul_ediv (n / a) b).symm
      _ = n % a + a * (n / a % b) + a * b * (n / a / b) := by
        rw [Int.mul_add, Int.mul_assoc, Int.add_assoc]
  calc n % (a * b) = (n % a + a * (n / a % b) + a * b * (n / a / b)) % (a * b) := by rw [← hsum]
    _ = (n % a + a * (n / a % b)) % (a * b) := by rw [Int.add_mul_emod_self_left]
    _ = n % a + a * (n / a % b) := Int.emod_eq_of_lt (by omega) (by omega)

theorem index_addCarry (ds : Digits) (n : Int) :
    index (addCarry ds n) = (index ds + n) % volume ds := by
  induction ds generalizing n with
  | nil => simp [addCarry, index, volume]
  | cons d rest ih =>
    obtain ⟨s, v⟩ := d
    have hs := s.size_pos
    have hn : v - s.minimum + s.size * index rest + n = v - s.minimum + n + s.size * index rest := by
      omega
    show s.minimum + (v - s.minimum + n) % s.size - s.minimum +
      s.size * index (addCarry rest ((v - s.minimum + n) / s.size)) =
        (v - s.minimum + s.size * index rest + n) % (s.size * volume rest)
    rw [ih, hn, emod_mul_eq hs (volume_pos rest), Int.add_mul_emod_self_left,
      Int.add_mul_ediv_left _ _ (Int.ne_of_gt hs), Int.add_comm (index rest)]
    omega

theorem index_add {u : TimeUnit} {ds : Digits} (hds : ∀ d ∈ ds, d.1.contains d.2 = true)
    (n : Int) : index (add u n ds) = (index ds + n * weight u ds) % volume ds := by
  induction ds with
  | nil => simp [add, index, weight, volume]
  | cons d rest ih =>
    obtain ⟨s, v⟩ := d
    by_cases h : s.step = u
    · have hw : weight u ((s, v) :: rest) = 1 := if_pos h
      have ha : add u n ((s, v) :: rest) = addCarry ((s, v) :: rest) n := if_pos h
      rw [hw, ha, Int.mul_one, index_addCarry]
    · have hw : weight u ((s, v) :: rest) = s.size * weight u rest := if_neg h
      have ha : add u n ((s, v) :: rest) = (s, v) :: add u n rest := if_neg h
      have hv : s.minimum ≤ v ∧ v ≤ s.maximum := Scale.contains_iff.1 (hds (s, v) (by simp))
      have hs : s.size = s.maximum - s.minimum + 1 := rfl
      have hpos := s.size_pos
      have hr : (v - s.minimum) % s.size = v - s.minimum :=
        Int.emod_eq_of_lt (by omega) (by omega)
      have hq : (v - s.minimum) / s.size = 0 := Int.ediv_eq_zero_of_lt (by omega) (by omega)
      have hn : v - s.minimum + s.size * index rest + n * (s.size * weight u rest) =
          v - s.minimum + s.size * (index rest + n * weight u rest) := by
        rw [Int.mul_add, Int.mul_left_comm n, Int.add_assoc]
      rw [hw, ha]
      show v - s.minimum + s.size * index (add u n rest) =
        (v - s.minimum + s.size * index rest + n * (s.size * weight u rest)) %
          (s.size * volume rest)
      rw [ih fun d hd => hds d (by simp [hd]), hn, emod_mul_eq hpos (volume_pos rest),
        Int.add_mul_emod_self_left, Int.add_mul_ediv_left _ _ (Int.ne_of_gt hpos), hr, hq,
        Int.zero_add]

end Digits

namespace Point

variable {c : Cycle}

/-- The number of the point among the points of its cycle. -/
def index (p : Point c) : Int :=
  p.digits.index

theorem index_advance (p : Point c) (n : Int) (u : TimeUnit) :
    (p.advance n u).index = (p.index + n * p.digits.weight u) % p.digits.volume :=
  Digits.index_add p.inDomain n

end Point

end OpeningHours
