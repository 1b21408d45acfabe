import OpeningHours.Calendar.Cycle
import OpeningHours.Fault

/-!
# Points

A point of a cycle has one value on each of its scales, inside the scale's domain. `ofDigits?`
reads a point, cycle and all, from a list of scales and values; the first digit from the left
that is wrong is the fault, and on one digit the scale is looked at before its neighbour and
the neighbour before the value. Every point is read back from its digits (`ofDigits?_digits`).
-/

namespace OpeningHours

/-- Values on scales, the finest first. -/
abbrev Digits := List (Scale × Int)

structure Point (c : Cycle) where
  digits : Digits
  scales_eq : digits.map Prod.fst = c.scales
  inDomain : ∀ d ∈ digits, d.1.contains d.2 = true
  deriving DecidableEq

/-- A point together with its cycle. -/
abbrev AnyPoint := (c : Cycle) × Point c

namespace Digits

/-- The first fault of the digits that follow the scale `before`, of all `scales`. -/
def fault? (scales : List Scale) : Option Scale → Digits → Option Fault
  | _, [] => none
  | before, (s, v) :: rest =>
    if !s.regular then some (.irregular s)
    else match before.filter fun b => !b.precedes s with
      | some b => some (.gap b s scales)
      | none =>
        if !s.contains v then some (s.outside v)
        else fault? scales (some s) rest

theorem linked_of_fault? {scales : List Scale} {before : Option Scale} {ds : Digits}
    (h : fault? scales before ds = none) :
    Scale.linked (ds.map Prod.fst) = true ∧
      (∀ b ∈ before, ∀ s ∈ (ds.map Prod.fst).head?, b.precedes s = true) ∧
      ∀ d ∈ ds, d.1.contains d.2 = true := by
  induction ds generalizing before with
  | nil => simp [Scale.linked]
  | cons d rest ih =>
    obtain ⟨s, v⟩ := d
    simp only [fault?] at h
    split at h
    · simp at h
    · rename_i hr
      split at h
      · simp at h
      · rename_i hb
        split at h
        · simp at h
        · rename_i hv
          obtain ⟨h1, h2, h3⟩ := ih h
          have hr : s.regular = true := by simpa using hr
          have hv : s.contains v = true := by simpa using hv
          refine ⟨?_, ?_, ?_⟩
          · simp only [List.map_cons, Scale.linked_cons, hr, h1, Bool.true_and, Bool.and_true]
            cases hh : (rest.map Prod.fst).head? with
            | none => rfl
            | some t => exact h2 s rfl t hh
          · intro b hb' s' hs'
            simp only [List.map_cons, List.head?_cons, Option.mem_def, Option.some.injEq] at hb' hs'
            subst hb' hs'
            simpa using hb
          · intro d hd
            rcases List.mem_cons.1 hd with rfl | hd
            · exact hv
            · exact h3 d hd

theorem fault?_of_linked {scales : List Scale} {before : Option Scale} {ds : Digits}
    (hl : Scale.linked (ds.map Prod.fst) = true)
    (hb : ∀ b ∈ before, ∀ s ∈ (ds.map Prod.fst).head?, b.precedes s = true)
    (hd : ∀ d ∈ ds, d.1.contains d.2 = true) : fault? scales before ds = none := by
  induction ds generalizing before with
  | nil => rfl
  | cons d rest ih =>
    obtain ⟨s, v⟩ := d
    simp only [List.map_cons, Scale.linked_cons, Bool.and_eq_true] at hl
    obtain ⟨⟨hr, hn⟩, hl⟩ := hl
    have hv : s.contains v = true := hd (s, v) (by simp)
    have hf : before.filter (fun b => !b.precedes s) = none := by
      simp only [Option.filter_eq_none_iff]
      intro b hb'
      simpa using hb b hb' s (by simp)
    have hi : fault? scales (some s) rest = none := by
      refine ih hl ?_ fun d h => hd d (by simp [h])
      intro b hb' t ht
      cases hb'
      rw [Option.mem_def.1 ht] at hn
      exact hn
    simp [fault?, hr, hf, hv, hi]

/-- No digit is wrong exactly if the scales are linked and the values in their domains. -/
theorem fault?_eq_none_iff {scales : List Scale} {ds : Digits} :
    fault? scales none ds = none ↔
      Scale.linked (ds.map Prod.fst) = true ∧ ∀ d ∈ ds, d.1.contains d.2 = true :=
  ⟨fun h => ⟨(linked_of_fault? h).1, (linked_of_fault? h).2.2⟩,
    fun h => fault?_of_linked h.1 (by simp) h.2⟩

end Digits

namespace Point

/-- The point with the given digits, which are taken in the order they have. -/
def ofDigits? (ds : Digits) : Except Fault AnyPoint :=
  if hn : ds = [] then .error .noScale
  else match h : ds.fault? (ds.map Prod.fst) none with
    | some f => .error f
    | none =>
      have := Digits.linked_of_fault? h
      .ok ⟨⟨ds.map Prod.fst, by simpa using hn, this.1⟩, ⟨ds, rfl, this.2.2⟩⟩

/-- The point with the given value on each scale that has one. -/
def ofValues? (value? : Scale → Option Int) : Except Fault AnyPoint :=
  ofDigits? (Scale.all.filterMap fun s => (value? s).map (s, ·))

variable {c : Cycle}

theorem digits_ne_nil (p : Point c) : p.digits ≠ [] := by
  intro h
  have := p.scales_eq
  rw [h] at this
  exact c.nonempty this.symm

/-- A point is read back from its digits. -/
theorem ofDigits?_digits (p : Point c) : ofDigits? p.digits = .ok ⟨c, p⟩ := by
  obtain ⟨scales, nonempty, linked⟩ := c
  obtain ⟨digits, scales_eq, inDomain⟩ := p
  dsimp only at scales_eq
  subst scales_eq
  have hf : Digits.fault? (digits.map Prod.fst) none digits = none :=
    Digits.fault?_eq_none_iff.2 ⟨linked, inDomain⟩
  unfold ofDigits?
  rw [dif_neg (by simpa using nonempty)]
  split
  · simp_all
  · rfl

/-- The value on a scale, if the cycle has it. -/
def digit? (p : Point c) (s : Scale) : Option Int :=
  (p.digits.find? fun d => d.1 == s).map Prod.snd

theorem contains_of_digit? {p : Point c} {s : Scale} {v : Int} (h : p.digit? s = some v) :
    s.contains v = true := by
  obtain ⟨d, hd, rfl⟩ := Option.map_eq_some_iff.1 h
  have hs : d.1 = s := by simpa using List.find?_some hd
  exact hs ▸ p.inDomain d (List.mem_of_find?_eq_some hd)

/-- The point's name and its values, the coarsest scale first. -/
def text (p : Point c) : String :=
  "PeriodicTemporal(" ++
    ", ".intercalate (p.digits.reverse.map fun d => d.1.name ++ "=" ++ toString d.2) ++ ")"

end Point

end OpeningHours
