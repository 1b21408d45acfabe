import OpeningHours.Instant
import OpeningHours.Proofs.Outcome
import OpeningHours.Proofs.Point.Order

/-!
# Projecting instants

An instant falls on a point exactly if it has the point's value on each of its scales
(`project_eq_ok_iff`). So it has a projection if it carries the cycle's scales, and a point of
the cycle is its own projection (`project_point`). Otherwise the finest scale that it does not carry
is the fault (`project_of_lacking?`).
-/

namespace OpeningHours

theorem Cycle.scales_nodup (c : Cycle) : c.scales.Nodup := by
  have h := c.scales_mem_runs
  simp only [Scale.runs, List.mem_cons, List.not_mem_nil, or_false] at h
  rcases h with h | h | h | h | h | h | h <;> rw [h] <;> decide

theorem Digits.find?_eq_some_of_mem {ds : Digits} (hn : (ds.map Prod.fst).Nodup) {d : Scale × Int}
    (h : d ∈ ds) : ds.find? (fun e => e.1 == d.1) = some d := by
  induction ds with
  | nil => simp at h
  | cons e ds ih =>
    rw [List.map_cons, List.nodup_cons] at hn
    rcases List.mem_cons.1 h with rfl | h
    · simp
    · have hne : (e.1 == d.1) = false := by
        apply beq_false_of_ne
        intro he
        apply hn.1
        rw [he]
        exact List.mem_map_of_mem h
      rw [List.find?_cons, hne]
      exact ih hn.2 h

theorem Digits.filterMap_values {ds : Digits} {value? : Scale → Option Int}
    (h : ∀ d ∈ ds, value? d.1 = some d.2) :
    (ds.map Prod.fst).filterMap (fun s => (value? s).map (s, ·)) = ds := by
  induction ds with
  | nil => rfl
  | cons d ds ih =>
    rw [List.map_cons, List.filterMap_cons, h d (by simp), ih fun e he => h e (by simp [he])]
    rfl

namespace Point

variable {c : Cycle}

theorem scales_nodup (p : Point c) : (p.digits.map Prod.fst).Nodup :=
  p.scales_eq ▸ c.scales_nodup

theorem mem_scales_of_mem {p : Point c} {d : Scale × Int} (h : d ∈ p.digits) : d.1 ∈ c.scales :=
  p.scales_eq ▸ List.mem_map_of_mem h

theorem exists_mem_of_mem_scales (p : Point c) {s : Scale} (h : s ∈ c.scales) :
    ∃ d ∈ p.digits, d.1 = s :=
  List.mem_map.1 (p.scales_eq ▸ h)

theorem digit?_eq_some_iff {p : Point c} {s : Scale} {v : Int} :
    p.digit? s = some v ↔ (s, v) ∈ p.digits := by
  unfold digit?
  constructor
  · intro h
    obtain ⟨d, hd, rfl⟩ := Option.map_eq_some_iff.1 h
    have hs : d.1 = s := by simpa using List.find?_some hd
    exact hs ▸ List.mem_of_find?_eq_some hd
  · intro h
    rw [Digits.find?_eq_some_of_mem p.scales_nodup h]
    rfl

theorem digit?_eq_none_iff {p : Point c} {s : Scale} : p.digit? s = none ↔ s ∉ c.scales := by
  rw [← p.scales_eq, digit?, Option.map_eq_none_iff, List.find?_eq_none, List.mem_map]
  simp only [beq_iff_eq, not_exists, not_and]

/-- The digits are the values on the scales of the cycle. -/
theorem digits_eq_map_digit? (p : Point c) :
    p.digits = c.scales.map fun s => (s, (p.digit? s).getD s.minimum) := by
  have hd : ∀ d ∈ p.digits, d = (d.1, (p.digit? d.1).getD d.1.minimum) := by
    intro d hd
    rw [digit?_eq_some_iff.2 hd]
    rfl
  rw [← p.scales_eq, List.map_map]
  exact (List.map_id _).symm.trans (List.map_congr_left hd)

/-- A point is read back from its values. -/
theorem ofValues?_digit? (p : Point c) : ofValues? p.digit? = .ok ⟨c, p⟩ := by
  have hscales : Scale.all.filter (· ∈ c.scales) = c.scales := by
    have hruns : ∀ ss ∈ Scale.runs, Scale.all.filter (· ∈ ss) = ss := by decide
    exact hruns c.scales c.scales_mem_runs
  have hlacking : ∀ s, (p.digit? s).map (s, ·) =
      if decide (s ∈ c.scales) = true then (p.digit? s).map (s, ·) else none := by
    intro s
    by_cases hs : s ∈ c.scales
    · simp [hs]
    · simp [hs, digit?_eq_none_iff.2 hs]
  have hdigits : Scale.all.filterMap (fun s => (p.digit? s).map (s, ·)) = p.digits := by
    calc Scale.all.filterMap (fun s => (p.digit? s).map (s, ·))
        = (Scale.all.filter (· ∈ c.scales)).filterMap fun s => (p.digit? s).map (s, ·) := by
          rw [List.filterMap_filter]
          exact congrArg Scale.all.filterMap (funext hlacking)
      _ = p.digits := by
          rw [hscales, ← p.scales_eq]
          exact Digits.filterMap_values fun d hd => digit?_eq_some_iff.2 hd
  rw [ofValues?, hdigits, ofDigits?_digits]

end Point

namespace Instant

theorem read_eq_ok_iff {i : Instant} {s : Scale} {v : Int} :
    i.read s = .ok v ↔ i.read? s = some v := by
  unfold read
  cases i.read? s with
  | none => simp
  | some w => simp

theorem digits_eq_ok_iff {i : Instant} {ss : List Scale} {ds : Digits} :
    i.digits ss = .ok ds ↔ ds.map Prod.fst = ss ∧ ∀ d ∈ ds, i.read? d.1 = some d.2 := by
  constructor
  · intro h
    refine ⟨map_fst_of_digits h, ?_⟩
    induction ss generalizing ds with
    | nil =>
      cases h
      simp
    | cons s ss ih =>
      obtain ⟨v, ds', hv, h', rfl⟩ := digits_cons_eq_ok h
      intro d hd
      rcases List.mem_cons.1 hd with rfl | hd
      · exact read_eq_ok_iff.1 hv
      · exact ih h' d hd
  · intro hx
    obtain ⟨rfl, h⟩ := hx
    induction ds with
    | nil => rfl
    | cons d ds ih =>
      have hd := read_eq_ok_iff.2 (h d (by simp))
      have hds := ih fun e he => h e (by simp [he])
      rw [List.map_cons, digits, hd, hds]
      rfl

variable {c : Cycle}

theorem digits_of_project {i : Instant} {q : Point c} (h : i.project c = .ok q) :
    i.digits c.scales = .ok q.digits := by
  unfold project at h
  split at h
  · rename_i ds hds
    cases h
    exact hds
  · cases h

theorem project_eq_ok_iff {i : Instant} {q : Point c} :
    i.project c = .ok q ↔ ∀ d ∈ q.digits, i.read? d.1 = some d.2 := by
  constructor
  · intro h
    exact (digits_eq_ok_iff.1 (digits_of_project h)).2
  · intro h
    have hd : i.digits c.scales = .ok q.digits := digits_eq_ok_iff.2 ⟨q.scales_eq, h⟩
    unfold project
    split
    · rename_i ds hds
      rw [hd] at hds
      cases hds
      rfl
    · rename_i f hf
      rw [hd] at hf
      cases hf

/-- An instant that carries the scales of a cycle falls on a point of it. -/
theorem exists_project {i : Instant} (h : ∀ s ∈ c.scales, (i.read? s).isSome = true) :
    ∃ q, i.project c = .ok q := by
  have hd : ∀ ss : List Scale, (∀ s ∈ ss, (i.read? s).isSome = true) →
      ∃ ds, i.digits ss = .ok ds := by
    intro ss hss
    refine ⟨ss.map fun s => (s, (i.read? s).getD 0), digits_eq_ok_iff.2 ⟨?_, ?_⟩⟩
    · rw [List.map_map]
      exact List.map_id _
    · intro d hd
      obtain ⟨s, hs, rfl⟩ := List.mem_map.1 hd
      obtain ⟨v, hv⟩ := Option.isSome_iff_exists.1 (hss s hs)
      simp [hv]
  obtain ⟨ds, hds⟩ := hd c.scales h
  obtain ⟨hs, hr⟩ := digits_eq_ok_iff.1 hds
  exact ⟨⟨ds, hs, contains_of_digits hds⟩, project_eq_ok_iff.2 hr⟩

/-- The finest scale of the cycle that the instant does not carry. -/
def lacking? (i : Instant) (c : Cycle) : Option Scale :=
  c.scales.find? fun s => (i.read? s).isNone

theorem lacking?_eq_none_iff {i : Instant} :
    i.lacking? c = none ↔ ∀ s ∈ c.scales, (i.read? s).isSome = true := by
  simp [lacking?, Option.isSome_iff_ne_none]

theorem digits_of_find? {i : Instant} {ss : List Scale} {s : Scale}
    (h : ss.find? (fun s => (i.read? s).isNone) = some s) : i.digits ss = .error (.lacks s) := by
  induction ss with
  | nil => cases h
  | cons t ss ih =>
    rw [digits, read]
    cases hr : i.read? t with
    | none =>
      rw [List.find?_cons_of_pos (by rw [hr]; rfl)] at h
      cases h
      rfl
    | some v =>
      rw [List.find?_cons_of_neg (by rw [hr]; exact Bool.false_ne_true)] at h
      show (i.digits ss >>= fun ds => .ok ((t, v) :: ds)) = .error (.lacks s)
      rw [ih h]
      rfl

/-- The fault names the finest scale that is missing. -/
theorem project_of_lacking? {i : Instant} {s : Scale} (h : i.lacking? c = some s) :
    i.project c = .error (.lacks s) := by
  have hd : i.digits c.scales = .error (.lacks s) := digits_of_find? h
  unfold project
  split
  · rename_i ds hds
    rw [hd] at hds
    cases hds
  · rename_i f hf
    rw [hd] at hf
    cases hf
    rfl

@[simp] theorem project_point (p : Point c) : (point p).project c = .ok p := by
  rw [project_eq_ok_iff]
  intro d hd
  exact Point.digit?_eq_some_iff.2 hd

end Instant

end OpeningHours
