import Mathlib.Data.List.Sublists
import OpeningHours.Proofs.Instant.Projection

/-!
# Which digits make a point

Digits make a point if their scales, in the order they have, are a stretch of minute, hour and
weekday or the month alone, and the values are in their domains. Nothing is sorted and no rank is
looked at: that each scale steps in the round of the one before it leaves no other order, no gap and
no repeat (`Scale.mem_runs_iff_stretch`). Of digits that make no point the first from the left that
cannot stand where it does is the fault (`Digits.Fails`). Main statement: `Point.admission_exact`.
-/

namespace OpeningHours

namespace Scale

variable {ss : List Scale}

/-- Neighbours among minute, hour and weekday, from the finest on, or the month alone. -/
structure Stretch (ss : List Scale) : Prop where
  nonempty : ss ≠ []
  inOrder : ss <:+: [minuteOfHour, hourOfDay, dayOfWeek] ∨ ss = [monthOfYear]

theorem mem_runs_iff_stretch : ss ∈ runs ↔ Stretch ss := by
  constructor
  · intro h
    refine ⟨(mem_runs_iff.1 h).1, ?_⟩
    have hruns : ∀ ss ∈ runs,
        ss <:+: [minuteOfHour, hourOfDay, dayOfWeek] ∨ ss = [monthOfYear] := by decide
    exact hruns ss h
  · rintro ⟨hne, h | rfl⟩
    · have hparts : ∀ ss ∈ [minuteOfHour, hourOfDay, dayOfWeek].sublists,
          ss <:+: [minuteOfHour, hourOfDay, dayOfWeek] → ss ≠ [] → ss ∈ runs := by decide
      exact hparts ss (List.mem_sublists.2 h.sublist) h hne
    · decide

/-- No scale goes before `s`, or one in whose round `s` steps. -/
theorem filter_precedes_eq_none_iff {before : Option Scale} {s : Scale} :
    before.filter (fun b => !b.precedes s) = none ↔ ∀ b, before = some b → s.step = b.round := by
  simp only [Option.filter_eq_none_iff, precedes, Bool.not_eq_true', beq_eq_false_iff_ne, ne_eq,
    not_not]

end Scale

namespace Digits

variable {scales : List Scale} {before : Option Scale} {d : Scale × Int} {past ds : Digits}
  {fault : Fault}

/-- The scale of the last digit. -/
def lastScale? (ds : Digits) : Option Scale :=
  (ds.map Prod.fst).getLast?

@[simp] theorem lastScale?_concat (ds : Digits) (d : Scale × Int) :
    (ds ++ [d]).lastScale? = some d.1 := by
  simp [lastScale?]

/-- Why a digit cannot stand after a digit on the scale `before`, if there is one. The first of
three reasons counts: rounds of different lengths, a step that is not the round of the scale before
it, a value outside the domain. All the digits have the scales `scales`. -/
inductive Refuses (scales : List Scale) (before : Option Scale) : Scale × Int → Fault → Prop where
  | irregular {s : Scale} {v : Int} : s.regular = false →
      Refuses scales before (s, v) (.irregular s)
  | gap {s b : Scale} {v : Int} : s.regular = true → before = some b → s.step ≠ b.round →
      Refuses scales before (s, v) (.gap b s scales)
  | outside {s : Scale} {v : Int} : s.regular = true → (∀ b, before = some b → s.step = b.round) →
      s.contains v = false → Refuses scales before (s, v) (s.outside v)

/-- The fault of digits that make no point: there are none, or one is refused and those in front of
it are not. -/
inductive Fails : Digits → Fault → Prop where
  | empty : Fails [] .noScale
  | digit {ds front rest : Digits} {d : Scale × Int} {fault : Fault} : ds = front ++ d :: rest →
      (∀ (before : Digits) e after, front = before ++ e :: after →
        ∀ f, ¬ Refuses (ds.map Prod.fst) before.lastScale? e f) →
      Refuses (ds.map Prod.fst) front.lastScale? d fault → Fails ds fault

theorem fault?_cons_of_refuses (h : Refuses scales before d fault) (rest : Digits) :
    fault? scales before (d :: rest) = some fault := by
  cases h with
  | irregular hr => simp [fault?, hr]
  | @gap s b v hr hb hs =>
    have hp : b.precedes s = false := beq_eq_false_iff_ne.2 hs
    have hf : (some b).filter (fun b => !b.precedes s) = some b := by
      simp [Option.filter_some, hp]
    simp [fault?, hr, hb, hf]
  | outside hr hb hv =>
    simp [fault?, hr, Scale.filter_precedes_eq_none_iff.2 hb, hv]

theorem fault?_cons_of_not_refuses (h : ∀ f, ¬ Refuses scales before d f) (rest : Digits) :
    fault? scales before (d :: rest) = fault? scales (some d.1) rest := by
  obtain ⟨s, v⟩ := d
  have hr : s.regular = true := by
    by_contra hr
    exact h _ (.irregular (by simpa using hr))
  have hb : ∀ b, before = some b → s.step = b.round := by
    intro b hb
    by_contra hs
    exact h _ (.gap hr hb hs)
  have hv : s.contains v = true := by
    by_contra hv
    exact h _ (.outside hr hb (by simpa using hv))
  simp [fault?, hr, Scale.filter_precedes_eq_none_iff.2 hb, hv]

/-- The digits `past` have been read and none was refused. -/
theorem fault?_eq_some_iff :
    fault? scales past.lastScale? ds = some fault ↔ ∃ front d rest, ds = front ++ d :: rest ∧
      (∀ before e after, front = before ++ e :: after →
        ∀ f, ¬ Refuses scales (past ++ before).lastScale? e f) ∧
      Refuses scales (past ++ front).lastScale? d fault := by
  induction ds generalizing past with
  | nil => simp [fault?]
  | cons d ds ih =>
    by_cases hd : ∃ g, Refuses scales past.lastScale? d g
    · obtain ⟨g, hg⟩ := hd
      rw [fault?_cons_of_refuses hg ds]
      constructor
      · rintro ⟨⟩
        exact ⟨[], d, ds, rfl, by simp, by simpa using hg⟩
      · rintro ⟨front, e, rest, hds, hfront, he⟩
        cases front with
        | nil =>
          cases hds
          rw [List.append_nil] at he
          exact (fault?_cons_of_refuses hg ds).symm.trans (fault?_cons_of_refuses he ds)
        | cons e' front =>
          cases hds
          exact absurd hg (by simpa using hfront [] d front rfl g)
    · have hd : ∀ g, ¬ Refuses scales past.lastScale? d g := not_exists.1 hd
      rw [fault?_cons_of_not_refuses hd ds, ← lastScale?_concat past d, ih]
      constructor
      · rintro ⟨front, e, rest, rfl, hfront, he⟩
        refine ⟨d :: front, e, rest, rfl, ?_, by simpa using he⟩
        rw [forall_split_cons_iff]
        exact ⟨by simpa using hd, by simpa using hfront⟩
      · rintro ⟨front, e, rest, hds, hfront, he⟩
        cases front with
        | nil =>
          cases hds
          exact absurd he (by simpa using hd fault)
        | cons d' front =>
          cases hds
          rw [forall_split_cons_iff] at hfront
          exact ⟨front, e, rest, rfl, by simpa using hfront.2, by simpa using he⟩

end Digits

namespace Point

variable {c : Cycle} {ds : Digits} {fault : Fault}

theorem ofDigits?_eq_error_iff_fault? (hne : ds ≠ []) :
    ofDigits? ds = .error fault ↔ ds.fault? (ds.map Prod.fst) none = some fault := by
  unfold ofDigits?
  rw [dif_neg hne]
  split
  · rename_i f hf
    rw [hf, Except.error.injEq, Option.some.injEq]
  · rename_i hf
    exact iff_of_false (by simp) (by simp [hf])

theorem ofDigits?_eq_error_iff : ofDigits? ds = .error fault ↔ ds.Fails fault := by
  by_cases hds : ds = []
  · subst hds
    constructor
    · intro h
      cases h
      exact .empty
    · intro h
      cases h with
      | empty => rfl
      | digit hsplit => simp at hsplit
  · rw [ofDigits?_eq_error_iff_fault? hds]
    have hnone : (none : Option Scale) = Digits.lastScale? [] := rfl
    rw [hnone, Digits.fault?_eq_some_iff]
    constructor
    · rintro ⟨front, d, rest, hsplit, hfront, hd⟩
      exact .digit hsplit hfront hd
    · intro h
      cases h with
      | empty => exact absurd rfl hds
      | digit hsplit hfront hd => exact ⟨_, _, _, hsplit, hfront, hd⟩

theorem ofDigits?_eq_ok_iff {p : Point c} : ofDigits? ds = .ok ⟨c, p⟩ ↔ p.digits = ds := by
  constructor
  · intro h
    unfold ofDigits? at h
    split at h
    · cases h
    · split at h
      · cases h
      · cases h
        rfl
  · rintro rfl
    exact p.ofDigits?_digits

theorem exists_ofDigits?_eq_ok_iff :
    (∃ x, ofDigits? ds = .ok x) ↔
      Scale.Stretch (ds.map Prod.fst) ∧ ∀ d ∈ ds, d.1.contains d.2 = true := by
  rw [← Scale.mem_runs_iff_stretch]
  constructor
  · rintro ⟨⟨c, p⟩, h⟩
    obtain rfl := ofDigits?_eq_ok_iff.1 h
    exact ⟨p.scales_eq ▸ c.scales_mem_runs, p.inDomain⟩
  · rintro ⟨hruns, hdomain⟩
    obtain ⟨hne, hlinked⟩ := Scale.mem_runs_iff.1 hruns
    let p : Point ⟨ds.map Prod.fst, hne, hlinked⟩ := ⟨ds, rfl, hdomain⟩
    exact ⟨⟨_, p⟩, ofDigits?_eq_ok_iff.2 rfl⟩

theorem pairwise_rank_digits (p : Point c) :
    p.digits.Pairwise fun d e => d.1.rank < e.1.rank := by
  have h := c.pairwise_rank
  rwa [← p.scales_eq, List.pairwise_map] at h

/-- Digits make a point exactly if their scales are a stretch of minute, hour and weekday or the
month alone, in the order they have, and their values are in the domains. The point has these digits
and no others, with ranks that ascend, and is the one put together from its values. Any other digits
are refused for the first of them that cannot stand where it does. -/
theorem admission_exact (ds : Digits) :
    ((∃ x, ofDigits? ds = .ok x) ↔
      Scale.Stretch (ds.map Prod.fst) ∧ ∀ d ∈ ds, d.1.contains d.2 = true) ∧
    (∀ (c : Cycle) (p : Point c), ofDigits? ds = .ok ⟨c, p⟩ →
      p.digits = ds ∧ (ds.Pairwise fun d e => d.1.rank < e.1.rank) ∧
      (∀ s v, p.digit? s = some v ↔ (s, v) ∈ ds) ∧ ofValues? p.digit? = .ok ⟨c, p⟩) ∧
    ∀ fault, ofDigits? ds = .error fault ↔ ds.Fails fault := by
  refine ⟨exists_ofDigits?_eq_ok_iff, ?_, fun fault => ofDigits?_eq_error_iff⟩
  intro c p h
  obtain rfl := ofDigits?_eq_ok_iff.1 h
  exact ⟨rfl, p.pairwise_rank_digits, fun s v => digit?_eq_some_iff, p.ofValues?_digit?⟩

/-- Nine o'clock on a Sunday, the hour first; the weekday first is refused at the hour, though the
minute after it is out of its domain. -/
theorem admission_exact_sunday :
    (∃ c, ∃ p : Point c, ofDigits? [(.hourOfDay, 9), (.dayOfWeek, 7)] = .ok ⟨c, p⟩ ∧
      ofValues? p.digit? = .ok ⟨c, p⟩) ∧
    ofDigits? [(.dayOfWeek, 7), (.hourOfDay, 9), (.minuteOfHour, 60)] =
      .error (.gap .dayOfWeek .hourOfDay [.dayOfWeek, .hourOfDay, .minuteOfHour]) := by
  constructor
  · have hok : Scale.Stretch [.hourOfDay, .dayOfWeek] := ⟨by decide, by decide⟩
    obtain ⟨⟨c, p⟩, h⟩ :=
      (admission_exact [(.hourOfDay, 9), (.dayOfWeek, 7)]).1.2 ⟨hok, by decide⟩
    exact ⟨c, p, h, ((admission_exact _).2.1 c p h).2.2.2⟩
  · let front : Digits := [(.dayOfWeek, 7)]
    have hsplit : [(.dayOfWeek, 7), (.hourOfDay, 9), (.minuteOfHour, 60)] =
      front ++ (.hourOfDay, 9) :: [(.minuteOfHour, 60)] := rfl
    refine ((admission_exact _).2.2 _).2 (.digit hsplit ?_ ?_)
    · rw [forall_split_cons_iff]
      refine ⟨fun f hf => ?_, by simp⟩
      cases hf with
      | irregular hr => exact absurd hr (by decide)
      | gap _ hb => cases hb
      | outside _ _ hv => exact absurd hv (by decide)
    · exact .gap (by decide) rfl (by decide)

end Point

end OpeningHours
