import OpeningHours.Point.Basic

/-!
# Arithmetic with carry

Adding to a digit leaves the digit in its domain and carries whole rounds into the next
coarser digit; what the coarsest digit carries is dropped, since the cycle starts anew. Amounts
may be negative: quotients are rounded down. Digits finer than the unit added stay as they are.
-/

namespace OpeningHours

namespace Digits

/-- Adds `carry` to the finest digit, and carries on. -/
def addCarry : Digits → Int → Digits
  | [], _ => []
  | (s, v) :: rest, carry =>
    let offset := v - s.minimum + carry
    (s, s.minimum + offset % s.size) :: addCarry rest (offset / s.size)

/-- Adds to the finest digit whose step takes the unit; there may be none. -/
def add (u : TimeUnit) (amount : Int) : Digits → Digits
  | [] => []
  | (s, v) :: rest =>
    if s.step = u then addCarry ((s, v) :: rest) amount else (s, v) :: add u amount rest

/-- Puts `v` on every digit of the scale `s`. -/
def put (s : Scale) (v : Int) (ds : Digits) : Digits :=
  ds.map fun d => if d.1 = s then (s, v) else d

@[simp] theorem map_fst_addCarry (ds : Digits) (n : Int) :
    (addCarry ds n).map Prod.fst = ds.map Prod.fst := by
  induction ds generalizing n with
  | nil => rfl
  | cons d rest ih => simp [addCarry, ih]

@[simp] theorem map_fst_add (u : TimeUnit) (n : Int) (ds : Digits) :
    (add u n ds).map Prod.fst = ds.map Prod.fst := by
  induction ds with
  | nil => rfl
  | cons d rest ih =>
    simp only [add]
    split
    · simp
    · simp [ih]

@[simp] theorem map_fst_put (s : Scale) (v : Int) (ds : Digits) :
    (put s v ds).map Prod.fst = ds.map Prod.fst := by
  rw [put, List.map_map]
  refine List.map_congr_left fun d _ => ?_
  by_cases h : d.1 = s <;> simp [h]

theorem contains_of_mem_addCarry {ds : Digits} {n : Int} {d : Scale × Int}
    (h : d ∈ addCarry ds n) : d.1.contains d.2 = true := by
  induction ds generalizing n with
  | nil => simp [addCarry] at h
  | cons e rest ih =>
    rcases List.mem_cons.1 h with rfl | h
    · exact Scale.contains_add_emod _ _
    · exact ih h

theorem contains_of_mem_add {u : TimeUnit} {n : Int} {ds : Digits} {d : Scale × Int}
    (hds : ∀ d ∈ ds, d.1.contains d.2 = true) (h : d ∈ add u n ds) :
    d.1.contains d.2 = true := by
  induction ds with
  | nil => simp [add] at h
  | cons e rest ih =>
    simp only [add] at h
    split at h
    · exact contains_of_mem_addCarry h
    · rcases List.mem_cons.1 h with rfl | h
      · exact hds _ (by simp)
      · exact ih (fun d hd => hds d (by simp [hd])) h

theorem contains_of_mem_put {s : Scale} {v : Int} {ds : Digits} {d : Scale × Int}
    (hv : s.contains v = true) (hds : ∀ d ∈ ds, d.1.contains d.2 = true) (h : d ∈ put s v ds) :
    d.1.contains d.2 = true := by
  obtain ⟨e, he, rfl⟩ := List.mem_map.1 h
  split
  · exact hv
  · exact hds e he

end Digits

namespace Point

variable {c : Cycle}

/-- The point `amount` units later, or the same point if the cycle does not have the unit. -/
def advance (p : Point c) (amount : Int) (u : TimeUnit) : Point c :=
  ⟨p.digits.add u amount, by rw [Digits.map_fst_add, p.scales_eq],
    fun _ h => Digits.contains_of_mem_add p.inDomain h⟩

/-- The next point. -/
def increment (p : Point c) : Point c :=
  p.advance 1 c.precision

/-- The point `amount` units later, which the cycle must have. -/
def plus (p : Point c) (amount : Int) (u : TimeUnit) : Except Fault (Point c) :=
  if c.supportsUnit u then .ok (p.advance amount u) else .error (.unsupportedUnit u.name)

theorem plus_of_supportsUnit {u : TimeUnit} (hu : c.supportsUnit u = true) (p : Point c) (n : Int) :
    p.plus n u = .ok (p.advance n u) :=
  if_pos hu

/-- The point with another value on one of its scales. -/
def set (p : Point c) (s : Scale) (v : Int) : Except Fault (Point c) :=
  if s ∉ c.scales then .error (.lacks s)
  else if h : s.contains v = true then
    .ok ⟨p.digits.put s v, by rw [Digits.map_fst_put, p.scales_eq],
      fun _ hd => Digits.contains_of_mem_put h p.inDomain hd⟩
  else .error (s.outside v)

/-- The value on a scale of the point. -/
def get (p : Point c) (s : Scale) : Except Fault Int :=
  match p.digit? s with
  | some v => .ok v
  | none => .error (.lacks s)

end Point

end OpeningHours
