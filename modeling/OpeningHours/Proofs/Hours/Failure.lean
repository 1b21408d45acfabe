import OpeningHours.Proofs.Hours.Always
import OpeningHours.Proofs.Spec.Readable

/-!
# What can fail

A specification fails with a malformed range, a malformed value or, in strict mode, with text
outside its clauses, and only if one of its pieces cannot be read. Of hours that have been read one
can ask whether they are open at an instant, and how long until they open: both are answered exactly
for the instants that carry minute, hour and weekday, and otherwise the finest missing scale is the
fault (`Instant.NeedsWeek`). This is the fault of the first period that is asked, and there is one;
so it makes no difference that the first period that covers the instant ends the search
(`isOpen_eq_anyM`). Only hours that never close are not asked how long.
-/

namespace OpeningHours

/-- Whether a question has an answer for the instants that carry minute, hour and weekday, and for
another one the fault that names the finest scale that is missing. -/
structure Instant.NeedsWeek {α : Type} (i : Instant) (answer : Except Fault α) : Prop where
  answered_iff : (∃ x, answer = .ok x) ↔ ∀ a : Axis, (i.read? a.scale).isSome = true
  lacking : ∀ s, i.lacking? .week = some s → answer = .error (.lacks s)

namespace Instant

theorem carries_week_iff {i : Instant} :
    (∀ a : Axis, (i.read? a.scale).isSome = true) ↔ i.lacking? .week = none := by
  rw [lacking?_eq_none_iff]
  show _ ↔ ∀ s ∈ Axis.all.map Axis.scale, _
  simp only [List.forall_mem_map]
  exact ⟨fun h a _ => h a, fun h a => h a a.mem_all⟩

/-- It is enough to know the answer with a point and without one. -/
theorem NeedsWeek.of_project {α : Type} {i : Instant} {answer : Except Fault α}
    (hok : ∀ t : Point .week, i.project .week = .ok t → ∃ x, answer = .ok x)
    (herror : ∀ fault, i.project .week = .error fault → answer = .error fault) :
    i.NeedsWeek answer where
  answered_iff := by
    rw [carries_week_iff]
    cases hs : i.lacking? .week with
    | none =>
      obtain ⟨t, ht⟩ := exists_project (lacking?_eq_none_iff.1 hs)
      exact iff_of_true (hok t ht) rfl
    | some s =>
      rw [herror _ (project_of_lacking? hs)]
      exact iff_of_false nofun nofun
  lacking s hs := herror _ (project_of_lacking? hs)

end Instant

theorem anyM_eq_ok_any {ε α : Type} {f : α → Except ε Bool} {g : α → Bool} {xs : List α}
    (h : ∀ x ∈ xs, f x = .ok (g x)) : xs.anyM f = .ok (xs.any g) := by
  induction xs with
  | nil => rfl
  | cons x xs ih =>
    rw [List.anyM, h x (by simp), List.any_cons]
    cases hx : g x with
    | true => rfl
    | false => exact ih fun y hy => h y (by simp [hy])

namespace Hours

variable {config : Config} {spec : String} {h : Hours}

theorem isOpen_of_project_error {i : Instant} {fault : Fault}
    (hi : i.project .week = .error fault) : h.isOpen i = .error fault := by
  rw [isOpen, hi]
  rfl

/-- To ask the periods one by one, until one covers the instant, is to ask all of them. -/
theorem isOpen_eq_anyM (hne : h.periods ≠ []) (i : Instant) :
    h.isOpen i = h.periods.anyM (·.contains i) := by
  cases hi : i.project .week with
  | error fault =>
    obtain ⟨p, ps, hps⟩ := List.exists_cons_of_ne_nil hne
    have hp : p.contains i = .error fault := by
      rw [Period.contains, hi]
      rfl
    rw [isOpen_of_project_error hi, hps, List.anyM, hp]
    rfl
  | ok t =>
    have hall : ∀ p ∈ h.periods, p.contains i = .ok (p.covers t) := by
      intro p _
      rw [Period.contains, hi]
      rfl
    rw [isOpen_of_project hi, anyM_eq_ok_any hall]
    rfl

theorem waitBefore_of_project_error (hh : ofSpec? config spec = .ok h) (ha : h.isAlways = false)
    {i : Instant} {fault : Fault} (hi : i.project .week = .error fault) (u : TimeUnit) :
    h.waitBefore i u = .error fault := by
  obtain ⟨p, ps, hps⟩ := List.exists_cons_of_ne_nil (periods_ne_nil hh)
  have hp : p.waitBefore i u = .error fault := by
    have hnever : ¬ p.isAlways = true := isAlways_of_mem ha (by simp [hps])
    rw [Period.waitBefore, if_neg hnever, Point.since, Point.durationUntil, hi]
    rfl
  rw [waitBefore, hps, List.mapM_cons, hp]
  rfl

/-- A text of hours is read, with at least one period, exactly if each of its pieces can be read;
otherwise it fails with a malformed range or value or, in strict mode, with text outside the
clauses, unless a token holds a number of too many digits. Of what has been read the questions need
minute, hour and weekday and nothing else; and hours that never close have no wait before them,
whatever the instant carries. -/
theorem failures_documented (config : Config) (spec : String) :
    ((∃ ps, readPeriods config spec = .ok ps ∧ ps ≠ []) ↔
      ∀ piece ∈ Text.pieces config.separator.toList config.separator_ne spec.toList,
        Readable config.strict piece) ∧
    ((∃ piece ∈ Text.pieces config.separator.toList config.separator_ne spec.toList,
        ¬ Readable config.strict piece) →
      ∃ fault, readPeriods config spec = .error fault ∧ fault.OfText config.strict fun n =>
        ∃ piece ∈ Text.pieces config.separator.toList config.separator_ne spec.toList,
          HoldsOverlong piece n) ∧
    ∀ h, ofSpec? config spec = .ok h → ∀ i : Instant,
      i.NeedsWeek (h.isOpen i) ∧ h.isOpen i = h.periods.anyM (·.contains i) ∧
      ∀ u, if h.isAlways then h.waitBefore i u = .ok .unbounded
        else i.NeedsWeek (h.waitBefore i u) ∧ h.waitBefore i u ≠ .ok .unbounded := by
  refine ⟨?_, ?_, ?_⟩
  · rw [← exists_readPeriods_iff]
    constructor
    · rintro ⟨ps, hps, -⟩
      exact ⟨ps, hps⟩
    · rintro ⟨ps, hps⟩
      exact ⟨ps, hps, (covered_readPeriods hps).2.1⟩
  · rintro ⟨piece, hpiece, hnot⟩
    have herror : ¬ ∃ ps, readPeriods config spec = .ok ps := fun hps =>
      hnot (exists_readPeriods_iff.1 hps piece hpiece)
    obtain ⟨fault, hfault⟩ := not_exists_ok_iff.1 herror
    exact ⟨fault, hfault, failsWith_readPeriods config spec fault hfault⟩
  · intro h hh i
    refine ⟨.of_project (fun t ht => ⟨_, isOpen_of_project ht⟩) fun _ => isOpen_of_project_error,
      isOpen_eq_anyM (periods_ne_nil hh) i, fun u => ?_⟩
    cases ha : h.isAlways with
    | true => exact waitBefore_of_isAlways hh ha i u
    | false =>
      refine ⟨.of_project (fun t ht => ?_) fun fault hfault =>
        waitBefore_of_project_error hh ha hfault u, fun hw => ?_⟩
      · obtain ⟨n, hn⟩ := exists_waitBefore_eq hh ha ht u
        exact ⟨_, hn⟩
      · cases hi : i.project .week with
        | error fault =>
          rw [waitBefore_of_project_error hh ha hi u] at hw
          cases hw
        | ok t =>
          obtain ⟨n, hn⟩ := exists_waitBefore_eq hh ha hi u
          rw [hn] at hw
          cases hw

set_option maxRecDepth 4000 in
/-- A text with a word beside its clauses, and office hours asked for a time without a day. -/
theorem failures_documented_office :
    (∃ fault, readPeriods ⟨",", true, by decide⟩ "hr {9-18} noon" = .error fault ∧
      fault.OfText true fun _ => False) ∧
    ∃ h, ofSpec? .default "wd {Mon-Fri} hr {9-18}" = .ok h ∧
      (∀ i : Instant, i.NeedsWeek (h.isOpen i) ∧ ∀ u, i.NeedsWeek (h.waitBefore i u)) ∧
      ∀ t : Clock, h.isOpen (.clock t) = .error (.lacks .dayOfWeek) := by
  constructor
  · have hno : (readPeriods ⟨",", true, by decide⟩ "hr {9-18} noon").isOk = false := by cbv
    have hshort : ((Text.pieces [','] (by decide) "hr {9-18} noon".toList).all fun piece =>
        Axis.all.all fun a => (a.clauses piece).all fun clause =>
          (Text.words clause.body).all fun token => (token.splitOn '-').all fun x =>
            decide (x.length ≤ Text.maxDigits)) = true := by cbv
    simp only [List.all_eq_true, decide_eq_true_iff] at hshort
    obtain ⟨hread, hfault, -⟩ := failures_documented ⟨",", true, by decide⟩ "hr {9-18} noon"
    obtain ⟨fault, herror, htext⟩ := hfault <| by_contra fun hall => by
      obtain ⟨ps, hps, -⟩ := hread.2 fun piece hpiece =>
        by_contra fun hnot => hall ⟨piece, hpiece, hnot⟩
      rw [hps] at hno
      cases hno
    refine ⟨fault, herror, htext.mono id ?_⟩
    rintro n ⟨piece, hpiece, a, clause, hc, token, hw, x, hx, hlong⟩
    obtain rfl := hlong.length_eq
    exact Nat.not_lt.2 (hshort piece hpiece a a.mem_all clause hc token hw x hx) hlong.exceeds
  · have hok : (ofSpec? .default "wd {Mon-Fri} hr {9-18}").toOption.any
        (fun h => !h.isAlways) = true := by cbv
    obtain ⟨h, hh, ha⟩ := exists_eq_ok_of_any hok
    have hask := (failures_documented .default "wd {Mon-Fri} hr {9-18}").2.2 h hh
    have hwait : ∀ (i : Instant) u, i.NeedsWeek (h.waitBefore i u) := by
      intro i u
      have hu := (hask i).2.2 u
      rw [if_neg (by simpa using ha)] at hu
      exact hu.1
    exact ⟨h, hh, fun i => ⟨(hask i).1, hwait i⟩, fun t => (hask (.clock t)).1.lacking _ rfl⟩

end Hours

end OpeningHours
