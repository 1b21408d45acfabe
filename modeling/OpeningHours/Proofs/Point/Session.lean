import Mathlib
import OpeningHours.Point.Edit
import OpeningHours.Proofs.Instant.Projection

/-!
# What a session keeps

An edit that adds to a point or puts a value on one of its scales works on bare digits, and what it
leaves is a point again: put together anew, digit by digit or from its values, it is accepted, on
the cycle it was on (`ofDigits?_add`, `ofValues?_digit?`). So an edit fails for what it asks and for
nothing else: the unit that no scale steps in, the scale that the point does not have or that is
only named, the value outside its scale (`outcome`). The fault of such a value names it, unless it
has too many digits to be written (`huge_minute_unnamed`). From the single edit follows the whole
session (`run_keeps`): whatever came before, the scales are those of the start, and an edit that
fails leaves the point as it was.
-/

namespace OpeningHours

theorem Text.isWritable_iff {v : Int} : isWritable v = true ↔ v.natAbs < 10 ^ maxDigits := by
  rw [isWritable, decide_eq_true_iff]
  exact Nat.length_toDigits_le_iff (by decide) (by decide)

/-- Every value of a scale can be written. -/
theorem Scale.isWritable_of_contains {s : Scale} {v : Int} (h : s.contains v = true) :
    Text.isWritable v = true := by
  have hv := contains_iff.1 h
  have hmin : 0 ≤ s.minimum := by cases s <;> decide
  have hmax : s.maximum ≤ 59 := by cases s <;> decide
  have hsmall : v.natAbs < 10 ^ 2 := by omega
  exact Text.isWritable_iff.2
    (Nat.lt_of_lt_of_le hsmall (Nat.pow_le_pow_right (by decide) (by decide)))

namespace Digits

/-- Digits with a value on one of their scales. -/
theorem mem_put_iff {s t : Scale} {v w : Int} {ds : Digits} (hs : s ∈ ds.map Prod.fst) :
    (t, w) ∈ put s v ds ↔ if t = s then w = v else (t, w) ∈ ds := by
  rw [put, List.mem_map]
  by_cases hts : t = s
  · subst hts
    rw [if_pos rfl]
    constructor
    · rintro ⟨d, -, hd⟩
      split at hd
      · exact (Prod.mk.inj hd).2.symm
      · exact absurd (congrArg Prod.fst hd) ‹_›
    · rintro rfl
      obtain ⟨d, hd, hdt⟩ := List.mem_map.1 hs
      exact ⟨d, hd, if_pos hdt⟩
  · rw [if_neg hts]
    constructor
    · rintro ⟨d, hd, hdt⟩
      split at hdt
      · exact absurd (Prod.mk.inj hdt).1.symm hts
      · exact hdt ▸ hd
    · intro h
      exact ⟨(t, w), h, if_neg hts⟩

end Digits

namespace Point

variable {c : Cycle} {p q : Point c} {s : Scale} {v : Int}

/-- The digits that an addition leaves are a point's, as they stand. -/
theorem ofDigits?_add (p : Point c) (n : Int) (u : TimeUnit) :
    ofDigits? (p.digits.add u n) = .ok ⟨c, p.advance n u⟩ :=
  (p.advance n u).ofDigits?_digits

theorem set_of_not_mem (p : Point c) (hs : s ∉ c.scales) (v : Int) :
    p.set s v = .error (.lacks s) :=
  if_pos hs

theorem set_of_not_contains (p : Point c) (hs : s ∈ c.scales) (hv : s.contains v = false) :
    p.set s v = .error (s.outside v) := by
  rw [set, if_neg (not_not_intro hs), dif_neg (by rw [hv]; exact Bool.false_ne_true)]

theorem exists_set_eq_ok (p : Point c) (hs : s ∈ c.scales) (hv : s.contains v = true) :
    ∃ q, p.set s v = .ok q ∧ q.digits = p.digits.put s v := by
  rw [set, if_neg (not_not_intro hs), dif_pos hv]
  exact ⟨_, rfl, rfl⟩

theorem digit?_of_put (hs : s ∈ c.scales) (hq : q.digits = p.digits.put s v) (t : Scale) :
    q.digit? t = if t = s then some v else p.digit? t := by
  rw [← p.scales_eq] at hs
  apply Option.ext
  intro w
  rw [digit?_eq_some_iff, hq, Digits.mem_put_iff hs]
  split
  · rw [Option.some.injEq, eq_comm]
  · exact digit?_eq_some_iff.symm

end Point

namespace Edit

variable {c : Cycle}

/-- Adding `n` units of a name to `p` is answered by `a` and leads to `q`: it fails exactly if no
scale of `p` steps in that unit; otherwise the digits with their carries are put together anew. -/
structure Adds (p : Point c) (n : Int) (name : String) (a : Except Fault (Answer c))
    (q : Point c) : Prop where
  fails_iff : ∀ f, a = .error f ↔
    f = .unsupportedUnit name ∧ ∀ d ∈ p.digits, d.1.step.name ≠ name
  moves : ∀ d ∈ p.digits, d.1.step.name = name →
    a = .ok (.moved q) ∧ Point.ofDigits? (p.digits.add d.1.step n) = .ok ⟨c, q⟩

/-- Why the value `v` cannot be put on the scale that `key` gives. That `p` does not have the scale
comes first; then the scale must be given itself and not by its name, and then the value must be
inside it. A value outside is named if it has few enough digits to be written. -/
inductive SetFails (p : Point c) : ScaleKey → Int → Fault → Prop where
  | lacking {key : ScaleKey} {v : Int} : (∀ d ∈ p.digits, d.1.name ≠ key.text) →
      SetFails p key v (.unsupportedScale key.text)
  | named {d : Scale × Int} {v : Int} : d ∈ p.digits → SetFails p (.name d.1.name) v .nameForScale
  | outside {d : Scale × Int} {v : Int} : d ∈ p.digits → d.1.contains v = false →
      v.natAbs < 10 ^ Text.maxDigits → SetFails p (.scale d.1) v (.outOfDomain d.1 v)
  | unwritable {d : Scale × Int} {v : Int} : d ∈ p.digits → d.1.contains v = false →
      10 ^ Text.maxDigits ≤ v.natAbs → SetFails p (.scale d.1) v .unwritable

/-- Putting the value `v` on a scale of `p` is answered by `a` and leads to `q`: it fails for one of
those reasons; otherwise the values, of which one has changed, are put together anew. -/
structure Sets (p : Point c) (key : ScaleKey) (v : Int) (a : Except Fault (Answer c))
    (q : Point c) : Prop where
  fails_iff : ∀ f, a = .error f ↔ SetFails p key v f
  moves : ∀ d ∈ p.digits, key = .scale d.1 → d.1.contains v = true →
    a = .ok (.moved q) ∧
    Point.ofValues? (fun s => if s = d.1 then some v else p.digit? s) = .ok ⟨c, q⟩ ∧
    ∀ s, q.digit? s = if s = d.1 then some v else p.digit? s

/-- Asking for a value of `p` is answered by `a`: it fails exactly if `p` does not have the
scale. -/
structure Gets (p : Point c) (name : String) (a : Except Fault (Answer c)) : Prop where
  fails_iff : ∀ f, a = .error f ↔ f = .unsupportedScale name ∧ ∀ d ∈ p.digits, d.1.name ≠ name
  answers : ∀ d ∈ p.digits, d.1.name = name → a = .ok (.value d.2)

/-- What comes of an edit of `p`, which is answered by `a` and leaves `q`. -/
def Outcome (p : Point c) (a : Except Fault (Answer c)) (q : Point c) : Edit → Prop
  | plus n name => Adds p n name a q
  | minus n name => Adds p (-n) name a q
  | increment =>
    a = .ok (.moved q) ∧ Point.ofDigits? (p.digits.add c.precision 1) = .ok ⟨c, q⟩
  | set key v => Sets p key v a q
  | get name => Gets p name a ∧ q = p
  | supports _ _ | text => (∃ b, a = .ok b) ∧ q = p
  | assign name => a = .error (.immutable name) ∧ q = p

variable {p : Point c} {name : String}

theorem step_of_apply_eq_ok {e : Edit} {a : Answer c} (h : e.apply p = .ok a) :
    e.step p = a.point p := by
  rw [step, h]

theorem step_of_apply_eq_error {e : Edit} {f : Fault} (h : e.apply p = .error f) :
    e.step p = p := by
  rw [step, h]

theorem apply_plus_of_mem {d : Scale × Int} (hd : d ∈ p.digits) (n : Int) :
    (plus n d.1.step.name).apply p = .ok (.moved (p.advance n d.1.step)) := by
  have hs := Point.mem_scales_of_mem hd
  have hu : c.supportsUnit d.1.step = true := List.any_eq_true.2 ⟨d.1, hs, beq_self_eq_true _⟩
  rw [apply_plus, TimeUnit.ofName?_name]
  show (p.plus n d.1.step).map Answer.moved = _
  rw [Point.plus_of_supportsUnit hu]
  rfl

theorem apply_plus_of_forall_ne (h : ∀ d ∈ p.digits, d.1.step.name ≠ name) (n : Int) :
    (plus n name).apply p = .error (.unsupportedUnit name) := by
  rw [apply_plus]
  cases hu : TimeUnit.ofName? name with
  | none => rfl
  | some u =>
    obtain rfl := TimeUnit.ofName?_eq_some_iff.1 hu
    have hno : ¬ c.supportsUnit u = true := by
      intro hc
      obtain ⟨s, hs, hsu⟩ := List.any_eq_true.1 hc
      obtain ⟨d, hd, rfl⟩ := p.exists_mem_of_mem_scales hs
      exact h d hd (congrArg TimeUnit.name (eq_of_beq hsu))
    show (p.plus n u).map Answer.moved = _
    rw [Point.plus, if_neg hno]
    rfl

theorem error_eq_error_iff {α : Type} {f g : Fault} {P : Prop} (h : P) :
    (.error g : Except Fault α) = .error f ↔ f = g ∧ P := by
  rw [Except.error.injEq, eq_comm]
  exact (and_iff_left h).symm

theorem adds (p : Point c) (n : Int) (name : String) :
    Adds p n name ((plus n name).apply p) ((plus n name).step p) := by
  by_cases h : ∃ d ∈ p.digits, d.1.step.name = name
  · obtain ⟨d, hd, rfl⟩ := h
    have ha := apply_plus_of_mem hd n
    rw [step_of_apply_eq_ok ha, ha]
    refine ⟨fun f => iff_of_false nofun fun hf => hf.2 d hd rfl, ?_⟩
    intro d' hd' hname
    rw [TimeUnit.name_inj hname]
    exact ⟨rfl, p.ofDigits?_add n d.1.step⟩
  · have hno : ∀ d ∈ p.digits, d.1.step.name ≠ name := fun d hd hname => h ⟨d, hd, hname⟩
    have ha := apply_plus_of_forall_ne hno n
    rw [ha]
    exact ⟨fun f => error_eq_error_iff hno, fun d hd hname => absurd hname (hno d hd)⟩

/-- A scale of a name that no digit has is not a scale of the point. -/
theorem not_mem_scales_of_forall_ne {s : Scale} (h : ∀ d ∈ p.digits, d.1.name ≠ s.name) :
    s ∉ c.scales := by
  intro hs
  obtain ⟨d, hd, rfl⟩ := p.exists_mem_of_mem_scales hs
  exact h d hd rfl

theorem apply_get_of_forall_ne (h : ∀ d ∈ p.digits, d.1.name ≠ name) :
    (get name).apply p = .error (.unsupportedScale name) := by
  rw [apply_get]
  cases hs : Scale.ofName? name with
  | none => rfl
  | some s =>
    obtain rfl := Scale.ofName?_eq_some_iff.1 hs
    show (p.get s).map Answer.value = _
    rw [Point.get, Point.digit?_eq_none_iff.2 (not_mem_scales_of_forall_ne h)]
    rfl

theorem apply_get_of_mem {d : Scale × Int} (hd : d ∈ p.digits) :
    (get d.1.name).apply p = .ok (.value d.2) := by
  rw [apply_get, Scale.ofName?_name]
  show (p.get d.1).map Answer.value = _
  rw [Point.get, Point.digit?_eq_some_iff.2 hd]
  rfl

theorem step_get (p : Point c) (name : String) : (get name).step p = p := by
  by_cases h : ∃ d ∈ p.digits, d.1.name = name
  · obtain ⟨d, hd, rfl⟩ := h
    exact step_of_apply_eq_ok (apply_get_of_mem hd)
  · exact step_of_apply_eq_error (apply_get_of_forall_ne fun d hd hname => h ⟨d, hd, hname⟩)

theorem apply_set_of_not_contains {d : Scale × Int} {v : Int} (hd : d ∈ p.digits)
    (hv : d.1.contains v = false) : (set (.scale d.1) v).apply p = .error (d.1.outside v) := by
  rw [apply_set_scale, p.set_of_not_contains (Point.mem_scales_of_mem hd) hv]
  rfl

theorem apply_set_of_fails {key : ScaleKey} {v : Int} {f : Fault} (h : SetFails p key v f) :
    (set key v).apply p = .error f := by
  cases h with
  | @lacking key _ hno =>
    cases key with
    | scale s =>
      rw [apply_set_scale, p.set_of_not_mem (not_mem_scales_of_forall_ne hno)]
      rfl
    | name n =>
      have hn : n ∉ c.scales.map Scale.name := by
        rintro hn
        obtain ⟨s, hs, rfl⟩ := List.mem_map.1 hn
        exact not_mem_scales_of_forall_ne hno hs
      exact congrArg Except.error (if_neg hn)
  | named hd =>
    have hn := List.mem_map_of_mem (f := Scale.name) (Point.mem_scales_of_mem hd)
    exact congrArg Except.error (if_pos hn)
  | outside hd hv hshort =>
    rw [apply_set_of_not_contains hd hv, Scale.outside, if_pos (Text.isWritable_iff.2 hshort)]
  | unwritable hd hv hlong =>
    have hno : ¬ Text.isWritable v = true := mt Text.isWritable_iff.1 (Nat.not_lt.2 hlong)
    rw [apply_set_of_not_contains hd hv, Scale.outside, if_neg hno]

/-- There is something wrong, or the key is a scale of the point and the value inside it. -/
theorem exists_setFails_or (p : Point c) (key : ScaleKey) (v : Int) :
    (∃ f, SetFails p key v f) ∨ ∃ d ∈ p.digits, key = .scale d.1 ∧ d.1.contains v = true := by
  by_cases h : ∃ d ∈ p.digits, d.1.name = key.text
  · obtain ⟨d, hd, hname⟩ := h
    cases key with
    | name n =>
      obtain rfl : d.1.name = n := hname
      exact Or.inl ⟨_, .named hd⟩
    | scale s =>
      obtain rfl : d.1 = s := Scale.name_inj hname
      cases hv : d.1.contains v with
      | true => exact Or.inr ⟨d, hd, rfl, hv⟩
      | false =>
        rcases Nat.lt_or_ge v.natAbs (10 ^ Text.maxDigits) with hshort | hlong
        · exact Or.inl ⟨_, .outside hd hv hshort⟩
        · exact Or.inl ⟨_, .unwritable hd hv hlong⟩
  · exact Or.inl ⟨_, .lacking fun d hd hname => h ⟨d, hd, hname⟩⟩

/-- A value inside the scale is put there. -/
theorem sets_of_contains {d : Scale × Int} {v : Int} (hd : d ∈ p.digits)
    (hv : d.1.contains v = true) :
    Sets p (.scale d.1) v ((set (.scale d.1) v).apply p) ((set (.scale d.1) v).step p) := by
  have hs := Point.mem_scales_of_mem hd
  obtain ⟨q, hq, hdigits⟩ := p.exists_set_eq_ok hs hv
  have hvalues := Point.digit?_of_put hs hdigits
  have ha : (set (.scale d.1) v).apply p = .ok (.moved q) := by
    rw [apply_set_scale, hq]
    rfl
  rw [step_of_apply_eq_ok ha, ha]
  refine ⟨fun f => iff_of_false nofun fun hf => ?_, ?_⟩
  · rw [apply_set_of_fails hf] at ha
    cases ha
  · intro d' _ hkey _
    rw [← ScaleKey.scale.inj hkey]
    refine ⟨rfl, ?_, hvalues⟩
    -- read value by value, the new point has the values that are put together
    rw [← funext hvalues]
    exact q.ofValues?_digit?

theorem sets_of_fails {key : ScaleKey} {v : Int} {f : Fault} (h : SetFails p key v f)
    (q : Point c) : Sets p key v ((set key v).apply p) q := by
  refine ⟨fun g => ⟨fun hg => ?_, apply_set_of_fails⟩, ?_⟩
  · rw [apply_set_of_fails h, Except.error.injEq] at hg
    exact hg ▸ h
  · rintro d hd rfl hv
    obtain ⟨q', hq', -⟩ := p.exists_set_eq_ok (Point.mem_scales_of_mem hd) hv
    have ha := apply_set_of_fails h
    rw [apply_set_scale, hq'] at ha
    cases ha

theorem sets (p : Point c) (key : ScaleKey) (v : Int) :
    Sets p key v ((set key v).apply p) ((set key v).step p) := by
  rcases exists_setFails_or p key v with ⟨f, hf⟩ | ⟨d, hd, rfl, hv⟩
  · exact sets_of_fails hf _
  · exact sets_of_contains hd hv

theorem gets (p : Point c) (name : String) : Gets p name ((get name).apply p) := by
  by_cases h : ∃ d ∈ p.digits, d.1.name = name
  · obtain ⟨d, hd, rfl⟩ := h
    rw [apply_get_of_mem hd]
    refine ⟨fun f => iff_of_false nofun fun hf => hf.2 d hd rfl, ?_⟩
    intro d' hd' hname
    have ha := apply_get_of_mem hd'
    rw [hname, apply_get_of_mem hd] at ha
    exact ha
  · have hno : ∀ d ∈ p.digits, d.1.name ≠ name := fun d hd hname => h ⟨d, hd, hname⟩
    rw [apply_get_of_forall_ne hno]
    exact ⟨fun f => error_eq_error_iff hno, fun d hd hname => absurd hname (hno d hd)⟩

/-- What an edit asks for decides whether it fails, and with what. -/
theorem outcome (p : Point c) (e : Edit) : Outcome p (e.apply p) (e.step p) e := by
  cases e with
  | plus n name => exact adds p n name
  | minus n name => exact adds p (-n) name
  | increment => exact ⟨rfl, p.ofDigits?_add 1 c.precision⟩
  | set key v => exact sets p key v
  | get name => exact ⟨gets p name, step_get p name⟩
  | supports | text => exact ⟨⟨_, rfl⟩, rfl⟩
  | assign name => exact ⟨rfl, rfl⟩

/-- A session is the session of its first edits, and from where they lead that of the others. -/
theorem run_append (p : Point c) (es fs : List Edit) :
    run p (es ++ fs) = ((run p es).1 ++ (run (run p es).2 fs).1, (run (run p es).2 fs).2) := by
  induction es generalizing p with
  | nil => rfl
  | cons e es ih =>
    rw [List.cons_append, run, ih]
    rfl

theorem length_run (p : Point c) (es : List Edit) : (run p es).1.length = es.length := by
  induction es generalizing p with
  | nil => rfl
  | cons e es ih => exact congrArg Nat.succ (ih (e.step p))

/-- Each answer of a session is that of the point which the edits before it have left. -/
theorem answer_run (p : Point c) (before : List Edit) (e : Edit) (after : List Edit) :
    (run p (before ++ e :: after)).1[before.length]? = some (e.apply (run p before).2) := by
  rw [run_append, List.getElem?_append_right (Nat.le_of_eq (length_run p before)), length_run,
    Nat.sub_self]
  rfl

theorem run_snoc (p : Point c) (es : List Edit) (e : Edit) :
    (run p (es ++ [e])).2 = e.step (run p es).2 := by
  rw [run_append]
  rfl

/-- After any edits the next one meets a point `q` and leaves a point `r` on the scales of the
start: each value is inside its scale, and put together anew, digit by digit or from its values, `r`
is accepted. The edit fails for what it asks and for nothing else, and then `r` is `q`. -/
theorem run_keeps (p : Point c) (before : List Edit) (e : Edit) (after : List Edit) :
    ∃ a q r, (run p before).2 = q ∧ (run p (before ++ [e])).2 = r ∧
      (run p (before ++ e :: after)).1[before.length]? = some a ∧
      r.digits.map Prod.fst = p.digits.map Prod.fst ∧
      (∀ d ∈ r.digits, d.1.contains d.2 = true) ∧
      Point.ofDigits? r.digits = .ok ⟨c, r⟩ ∧ Point.ofValues? r.digit? = .ok ⟨c, r⟩ ∧
      Outcome q a r e ∧ ∀ f, a = .error f → r = q := by
  refine ⟨e.apply (run p before).2, (run p before).2, (run p (before ++ [e])).2, rfl, rfl,
    answer_run p before e after, ?_, Point.inDomain _, Point.ofDigits?_digits _,
    Point.ofValues?_digit? _, ?_, ?_⟩
  · rw [Point.scales_eq, Point.scales_eq]
  · rw [run_snoc]
    exact outcome _ e
  · intro f hf
    rw [run_snoc]
    exact step_of_apply_eq_error hf

/-- The minute after the last one of the week, which has no hour 24. -/
theorem run_keeps_sunday_night : ∃ p q r : Point .week,
    p.digits = [(.minuteOfHour, 59), (.hourOfDay, 23), (.dayOfWeek, 7)] ∧
    q.digits = [(.minuteOfHour, 0), (.hourOfDay, 0), (.dayOfWeek, 1)] ∧
    (run p [plus 1 "minutes"]).2 = q ∧
    (set (.scale .hourOfDay) 24).apply q = .error (.outOfDomain .hourOfDay 24) ∧
    (run p [plus 1 "minutes", set (.scale .hourOfDay) 24]).2 = r ∧ r = q := by
  let p : Point .week :=
    ⟨[(.minuteOfHour, 59), (.hourOfDay, 23), (.dayOfWeek, 7)], rfl, by decide⟩
  have hq : (run p [plus 1 "minutes"]).2.digits =
      [(.minuteOfHour, 0), (.hourOfDay, 0), (.dayOfWeek, 1)] := by decide
  obtain ⟨a, q, r, rfl, rfl, ha, -, -, -, -, hset, hfail⟩ :=
    run_keeps p [plus 1 "minutes"] (set (.scale .hourOfDay) 24) []
  have hset : Sets _ (.scale .hourOfDay) 24 a _ := hset
  have hd : (.hourOfDay, 0) ∈ (run p [plus 1 "minutes"]).2.digits := by
    rw [hq]
    decide
  have herror : a = .error (.outOfDomain .hourOfDay 24) :=
    (hset.fails_iff _).2 (.outside hd (by decide) (Text.isWritable_iff.1 (by decide)))
  refine ⟨p, _, _, rfl, hq, rfl, ?_, rfl, hfail _ herror⟩
  rw [← herror]
  exact Option.some.inj ha

/-- Ten to the power of `maxDigits` is no minute, but the fault does not say so. -/
theorem huge_minute_unnamed : ∃ (c : Cycle) (p : Point c),
    p.digits = [(.minuteOfHour, 0)] ∧
    Scale.minuteOfHour.contains (10 ^ Text.maxDigits) = false ∧
    (set (.scale .minuteOfHour) (10 ^ Text.maxDigits)).apply p = .error .unwritable := by
  let c : Cycle := ⟨[.minuteOfHour], by decide, by decide⟩
  let p : Point c := ⟨[(.minuteOfHour, 0)], rfl, by decide⟩
  have hlong : 10 ^ Text.maxDigits ≤ ((10 : Int) ^ Text.maxDigits).natAbs := by
    have hten : (10 : Int).natAbs = 10 := rfl
    rw [Int.natAbs_pow, hten]
  have hv : Scale.minuteOfHour.contains (10 ^ Text.maxDigits) = false :=
    Bool.eq_false_iff.2 fun h =>
      Nat.not_lt.2 hlong (Text.isWritable_iff.1 (Scale.isWritable_of_contains h))
  have hd : (.minuteOfHour, 0) ∈ p.digits := List.mem_singleton_self _
  exact ⟨c, p, rfl, hv, apply_set_of_fails (.unwritable hd hv hlong)⟩

end Edit

end OpeningHours
