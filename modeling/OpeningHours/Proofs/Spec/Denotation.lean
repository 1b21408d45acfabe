import OpeningHours.Proofs.Spec.Box
import OpeningHours.Spec.Reading

/-!
# What a specification denotes

A token denotes the value that it writes, or the values that are met on the dial from its first
value forward to its second one, round the end of the scale if need be (`Scale.Forward`). A piece
allows a value on an axis if one of the tokens there denotes it, or if no clause of the axis
restricts it. Reading agrees with this: the spans of a token hold the values that it denotes
(`mem_spans_iff`), the spans of a piece the values that it allows (`mem_accepted_iff`), and the
periods of a piece cover the points whose values it allows (`covered_piecePeriods`).
-/

namespace OpeningHours

namespace Scale

/-- The next value on the dial. -/
def next (s : Scale) (v : Int) : Int :=
  if v = s.maximum then s.minimum else v + 1

/-- Whether `u` is met on the way forward from the last argument, before `w` is passed. -/
inductive Forward (s : Scale) (w u : Int) : Int → Prop where
  | here : Forward s w u u
  | step {v : Int} : v ≠ w → Forward s w u (s.next v) → Forward s w u v

/-- The way from `v` up to `x`, on which `w` is not met. -/
theorem Forward.climb {s : Scale} {u v w x : Int} (hx : x ≤ s.maximum)
    (hw : ∀ y, v ≤ y → y < x → y ≠ w) (hle : v ≤ x) (h : Forward s w u x) : Forward s w u v := by
  induction hn : (x - v).toNat generalizing v with
  | zero =>
    have hvx : v = x := by omega
    exact hvx ▸ h
  | succ n ih =>
    refine .step (hw v (Int.le_refl _) (by omega)) ?_
    rw [next, if_neg (by omega)]
    exact ih (fun y h1 h2 => hw y (by omega) h2) (by omega) (by omega)

theorem forward_iff {s : Scale} {u v w : Int} (hv : s.contains v = true)
    (hw : s.contains w = true) :
    Forward s w u v ↔ v ≤ w ∧ v ≤ u ∧ u ≤ w ∨
      w < v ∧ (v ≤ u ∧ u ≤ s.maximum ∨ s.minimum ≤ u ∧ u ≤ w) := by
  constructor
  · intro h
    induction h with
    | here =>
      have := contains_iff.1 hv
      omega
    | @step v hne h ih =>
      have hv := contains_iff.1 hv
      have hw := contains_iff.1 hw
      by_cases hm : v = s.maximum
      · rw [next, if_pos hm] at ih
        have := ih s.contains_minimum
        omega
      · rw [next, if_neg hm] at ih
        have := ih (contains_iff.2 ⟨by omega, by omega⟩)
        omega
  · rw [contains_iff] at hv hw
    intro hx
    rcases hx with ⟨hle, h1, h2⟩ | ⟨hlt, ⟨h1, h2⟩ | ⟨h1, h2⟩⟩
    · exact .climb (by omega) (fun y _ _ => by omega) h1 .here
    · exact .climb h2 (fun y _ _ => by omega) h1 .here
    · -- up to the end of the scale, over it, and up again
      refine .climb (Int.le_refl _) (fun y _ _ => by omega) hv.2 (.step (by omega) ?_)
      rw [next, if_pos rfl]
      exact .climb (by omega) (fun y _ _ => by omega) h1 .here

end Scale

namespace Span

variable {s : Scale}

theorem fits_full (s : Scale) : (full s).Fits s where
  ordered := by cases s <;> decide
  start_mem := s.contains_minimum
  stop_mem := s.contains_maximum

theorem mem_full_iff {v : Int} : v ∈ full s ↔ s.contains v = true :=
  Scale.contains_iff.symm

theorem wraps_between_iff {v w : s.Value} : (between v w).wraps = true ↔ (w : Int) < v :=
  decide_eq_true_iff

theorem split_ne_nil (r : Span) (s : Scale) : r.split s ≠ [] := by
  unfold split
  split <;> simp

theorem fits_of_mem_split {v w : s.Value} {r : Span} (h : r ∈ (between v w).split s) :
    r.Fits s := by
  have hv := Scale.contains_iff.1 v.2
  have hw := Scale.contains_iff.1 w.2
  unfold split at h
  split at h
  · rcases List.mem_cons.1 h with rfl | h
    · exact ⟨hv.2, v.2, s.contains_maximum⟩
    · obtain rfl := List.mem_singleton.1 h
      exact ⟨hw.1, s.contains_minimum, w.2⟩
  · rename_i hwraps
    obtain rfl := List.mem_singleton.1 h
    have hle : (v : Int) ≤ w := Int.not_lt.1 (mt wraps_between_iff.2 hwraps)
    exact ⟨hle, v.2, w.2⟩

/-- The two spans of a range that wraps are the way round the end of the scale. -/
theorem mem_split_iff {v w : s.Value} {u : Int} :
    (∃ r ∈ (between v w).split s, u ∈ r) ↔ s.Forward w u v := by
  rw [Scale.forward_iff v.2 w.2]
  unfold split
  split
  · rename_i hwraps
    have hlt := wraps_between_iff.1 hwraps
    simp only [List.mem_cons, List.not_mem_nil, or_false, exists_eq_or_imp, exists_eq_left,
      mem_def, between]
    omega
  · rename_i hwraps
    have hle := Int.not_lt.1 (mt wraps_between_iff.2 hwraps)
    simp only [List.mem_singleton, exists_eq_left, mem_def, between]
    omega

end Span

/-- What is cut at a separator does not hold it. -/
theorem not_mem_of_mem_splitOn {α : Type} [BEq α] [LawfulBEq α] {a : α} {xs ys : List α}
    (h : ys ∈ xs.splitOn a) : a ∉ ys := by
  induction xs generalizing ys with
  | nil =>
    rw [List.splitOn_nil, List.mem_singleton] at h
    simp [h]
  | cons x xs ih =>
    rw [List.splitOn_cons_eq_if_modifyHead] at h
    split at h
    · rcases List.mem_cons.1 h with rfl | h
      · simp
      · exact ih h
    · rename_i hx
      cases hs : xs.splitOn a with
      | nil => exact absurd hs (List.splitOn_ne_nil a xs)
      | cons z zs =>
        rw [hs, List.modifyHead_cons] at h
        rcases List.mem_cons.1 h with rfl | h
        · have hz : a ∉ z := ih (by simp [hs])
          have hne : a ≠ x := fun he => hx (by simp [he])
          simp [hz, hne]
        · exact ih (by simp [hs, h])

namespace Axis

/-- Whether a token denotes a value: a text without a dash denotes the value it stands for, and
two of them with a dash between denote the way from the first value forward to the second. -/
inductive Denotes (a : Axis) : List Char → Int → Prop where
  | value {x : List Char} {v : Nat} : '-' ∉ x → a.value? x = some v → Denotes a x v
  | range {x y : List Char} {v w : Nat} {u : Int} : '-' ∉ x → '-' ∉ y → a.value? x = some v →
      a.value? y = some w → a.scale.Forward w u v → Denotes a (x ++ '-' :: y) u

/-- Whether a piece allows a value on the axis. -/
def Allows (a : Axis) (piece : List Char) (v : Int) : Prop :=
  a.clauses piece = [] ∨
    ∃ clause ∈ a.clauses piece, ∃ token ∈ Text.words clause.body, a.Denotes token v

variable {a : Axis}

theorem value_eq_ok_iff {x : List Char} {v : Int} :
    a.value x = .ok v ↔ ∃ n : Nat, a.value? x = some n ∧ v = n := by
  unfold value
  cases a.value? x with
  | none => simp
  | some n => simp [eq_comm]

theorem boundary_eq_ok_iff {x : List Char} {v : a.scale.Value} :
    a.boundary x = .ok v ↔ ∃ n : Nat, a.value? x = some n ∧ (v : Int) = n := by
  unfold boundary
  rw [bind_eq_ok_iff]
  constructor
  · intro hx
    obtain ⟨m, hm, h⟩ := hx
    obtain ⟨n, hn, rfl⟩ := value_eq_ok_iff.1 hm
    split at h
    · cases h
      exact ⟨n, hn, rfl⟩
    · cases h
  · intro hx
    obtain ⟨n, hn, hv⟩ := hx
    refine ⟨n, value_eq_ok_iff.2 ⟨n, hn, rfl⟩, ?_⟩
    rw [dif_pos (hv ▸ v.2)]
    exact congrArg Except.ok (Subtype.ext hv.symm)

theorem denotes_iff_of_value {x : List Char} {n : Nat} {u : Int} (hx : '-' ∉ x)
    (hn : a.value? x = some n) : a.Denotes x u ↔ u = n := by
  constructor
  · intro h
    cases h with
    | value _ hv =>
      rw [hn] at hv
      cases hv
      rfl
    | range => simp at hx
  · rintro rfl
    exact .value hx hn

theorem denotes_iff_of_range {x y : List Char} {v w : Nat} {u : Int} (hx : '-' ∉ x)
    (hy : '-' ∉ y) (hv : a.value? x = some v) (hw : a.value? y = some w) :
    a.Denotes (x ++ '-' :: y) u ↔ a.scale.Forward w u v := by
  constructor
  · intro h
    generalize htoken : x ++ '-' :: y = token at h
    cases h with
    | value hd => simp [← htoken] at hd
    | @range x' y' v' w' _ hx' _ hv' hw' h =>
      -- the first dash ends the first value
      have hsplit := congrArg (·.splitOn '-') htoken
      simp only [List.splitOn_append_cons_self_of_not_mem hx,
        List.splitOn_append_cons_self_of_not_mem hx'] at hsplit
      obtain rfl := (List.cons.inj hsplit).1
      obtain rfl := (List.cons.inj (List.append_cancel_left htoken)).2
      rw [hv] at hv'
      rw [hw] at hw'
      cases hv'
      cases hw'
      exact h
  · intro h
    exact .range hx hy hv hw h

/-- The spans of a token are the way between two values of the scale, and the token denotes the
values on that way. -/
theorem exists_of_spans_eq_ok {token : List Char} {rs : List Span} (h : a.spans token = .ok rs) :
    ∃ v w : a.scale.Value, rs = (Span.between v w).split a.scale ∧
      ∀ u, a.Denotes token u ↔ a.scale.Forward w u v := by
  have hjoin : ['-'].intercalate (token.splitOn '-') = token := List.intercalate_splitOn '-'
  have hfree : ∀ x ∈ token.splitOn '-', '-' ∉ x := fun x hx => not_mem_of_mem_splitOn hx
  unfold spans at h
  split at h
  · rename_i x hs
    split at h
    · cases h
    · obtain ⟨v, hv, h⟩ := bind_eq_ok_iff.1 h
      cases h
      obtain ⟨n, hn, hvn⟩ := boundary_eq_ok_iff.1 hv
      rw [hs, List.intercalate_singleton] at hjoin
      subst hjoin
      refine ⟨v, v, rfl, ?_⟩
      intro u
      rw [denotes_iff_of_value (hfree x (by simp [hs])) hn, Scale.forward_iff v.2 v.2]
      omega
  · rename_i x y hs
    split at h
    · cases h
    · obtain ⟨v, hv, h⟩ := bind_eq_ok_iff.1 h
      obtain ⟨w, hw, h⟩ := bind_eq_ok_iff.1 h
      cases h
      obtain ⟨n, hn, hvn⟩ := boundary_eq_ok_iff.1 hv
      obtain ⟨m, hm, hwm⟩ := boundary_eq_ok_iff.1 hw
      have htoken : x ++ '-' :: y = token := by
        rw [← hjoin, hs]
        simp
      refine ⟨v, w, rfl, ?_⟩
      intro u
      rw [← htoken, denotes_iff_of_range (hfree x (by simp [hs])) (hfree y (by simp [hs])) hn hm,
        hvn, hwm]
  · cases h

theorem fits_of_mem_spans {token : List Char} {rs : List Span} (h : a.spans token = .ok rs)
    {r : Span} (hr : r ∈ rs) : r.Fits a.scale := by
  obtain ⟨v, w, rfl, -⟩ := exists_of_spans_eq_ok h
  exact Span.fits_of_mem_split hr

/-- The spans of a token hold the values that it denotes. -/
theorem mem_spans_iff {token : List Char} {rs : List Span} (h : a.spans token = .ok rs) {u : Int} :
    (∃ r ∈ rs, u ∈ r) ↔ a.Denotes token u := by
  obtain ⟨v, w, rfl, hd⟩ := exists_of_spans_eq_ok h
  rw [Span.mem_split_iff, hd]

theorem spans_ne_nil {token : List Char} {rs : List Span} (h : a.spans token = .ok rs) :
    rs ≠ [] := by
  obtain ⟨v, w, rfl, -⟩ := exists_of_spans_eq_ok h
  exact Span.split_ne_nil _ _

theorem clauseTokens_eq_ok_iff {clause : Clause} {tokens : List (List Char)} :
    a.clauseTokens clause = .ok tokens ↔ tokens = Text.words clause.body ∧ tokens ≠ [] := by
  unfold clauseTokens
  split
  · rename_i hw
    simp [hw]
  · rename_i hw
    rw [Except.ok.injEq]
    constructor
    · rintro rfl
      exact ⟨rfl, hw⟩
    · intro hx
      obtain ⟨rfl, -⟩ := hx
      rfl

/-- The tokens of a piece on an axis are the words of its clauses, and no clause is without. -/
theorem mem_tokens_iff {piece : List Char} {tokens : List (List Char)}
    (h : a.tokens piece = .ok tokens) :
    (∀ token, token ∈ tokens ↔ ∃ clause ∈ a.clauses piece, token ∈ Text.words clause.body) ∧
      (tokens = [] ↔ a.clauses piece = []) := by
  obtain ⟨tokenss, hm, h⟩ := bind_eq_ok_iff.1 h
  cases h
  have hmem := mem_of_mapM_eq_ok hm
  have hall := exists_eq_ok_of_mapM hm
  have hiff : ∀ token, token ∈ tokenss.flatten ↔
      ∃ clause ∈ a.clauses piece, token ∈ Text.words clause.body := by
    intro token
    rw [List.mem_flatten]
    constructor
    · intro hx
      obtain ⟨ts, hts, ht⟩ := hx
      obtain ⟨clause, hc, hok⟩ := (hmem ts).1 hts
      obtain ⟨rfl, -⟩ := clauseTokens_eq_ok_iff.1 hok
      exact ⟨clause, hc, ht⟩
    · intro hx
      obtain ⟨clause, hc, ht⟩ := hx
      obtain ⟨ts, hts, hok⟩ := hall clause hc
      obtain ⟨rfl, -⟩ := clauseTokens_eq_ok_iff.1 hok
      exact ⟨_, hts, ht⟩
  refine ⟨hiff, ?_⟩
  constructor
  · intro hnil
    apply List.eq_nil_iff_forall_not_mem.2
    intro clause hc
    obtain ⟨ts, -, hok⟩ := hall clause hc
    obtain ⟨rfl, hne⟩ := clauseTokens_eq_ok_iff.1 hok
    obtain ⟨token, ht⟩ := List.exists_mem_of_ne_nil _ hne
    exact List.not_mem_nil (hnil ▸ (hiff token).2 ⟨clause, hc, ht⟩)
  · intro hnil
    apply List.eq_nil_iff_forall_not_mem.2
    intro token ht
    obtain ⟨clause, hc, -⟩ := (hiff token).1 ht
    exact List.not_mem_nil (hnil ▸ hc)

/-- The spans of a piece on an axis fit its scale and hold the values that the piece allows. -/
theorem mem_accepted_iff {piece : List Char} {rs : List Span} (h : a.accepted piece = .ok rs) :
    (∀ r ∈ rs, r.Fits a.scale) ∧
      ∀ u, a.scale.contains u = true → ((∃ r ∈ rs, u ∈ r) ↔ a.Allows piece u) := by
  unfold accepted at h
  obtain ⟨tokens, ht, h⟩ := bind_eq_ok_iff.1 h
  obtain ⟨rss, hrss, h⟩ := bind_eq_ok_iff.1 h
  obtain ⟨htokens, hclauses⟩ := mem_tokens_iff ht
  have hmem := mem_of_mapM_eq_ok hrss
  have hall := exists_eq_ok_of_mapM hrss
  split at h
  · -- no span is there, so there is no token and hence no clause
    rename_i hnil
    cases h
    have hnone : tokens = [] := by
      apply List.eq_nil_iff_forall_not_mem.2
      intro token htoken
      obtain ⟨rs, hrs, hok⟩ := hall token htoken
      obtain ⟨r, hr⟩ := List.exists_mem_of_ne_nil _ (spans_ne_nil hok)
      exact List.not_mem_nil (hnil ▸ List.mem_flatten.2 ⟨rs, hrs, hr⟩)
    refine ⟨?_, ?_⟩
    · intro r hr
      obtain rfl := List.mem_singleton.1 hr
      exact Span.fits_full _
    · intro u hu
      constructor
      · intro _
        exact Or.inl (hclauses.1 hnone)
      · intro _
        exact ⟨_, by simp, Span.mem_full_iff.2 hu⟩
  · rename_i hsome
    cases h
    have hne : a.clauses piece ≠ [] := by
      intro hnil
      rw [hclauses.2 hnil] at hrss
      cases hrss
      exact hsome rfl
    refine ⟨?_, ?_⟩
    · intro r hr
      obtain ⟨rs, hrs, hr⟩ := List.mem_flatten.1 hr
      obtain ⟨token, -, hok⟩ := (hmem rs).1 hrs
      exact fits_of_mem_spans hok hr
    · intro u _
      constructor
      · intro hx
        obtain ⟨r, hr, hu⟩ := hx
        obtain ⟨rs, hrs, hr⟩ := List.mem_flatten.1 hr
        obtain ⟨token, htoken, hok⟩ := (hmem rs).1 hrs
        obtain ⟨clause, hc, hw⟩ := (htokens token).1 htoken
        exact Or.inr ⟨clause, hc, token, hw, (mem_spans_iff hok).1 ⟨r, hr, hu⟩⟩
      · rintro (hnil | ⟨clause, hc, token, hw, hd⟩)
        · exact absurd hnil hne
        · obtain ⟨rs, hrs, hok⟩ := hall token ((htokens token).2 ⟨clause, hc, hw⟩)
          obtain ⟨r, hr, hu⟩ := (mem_spans_iff hok).2 hd
          exact ⟨r, List.mem_flatten.2 ⟨rs, hrs, hr⟩, hu⟩

theorem accepted_ne_nil {piece : List Char} {rs : List Span} (h : a.accepted piece = .ok rs) :
    rs ≠ [] := by
  unfold accepted at h
  obtain ⟨tokens, -, h⟩ := bind_eq_ok_iff.1 h
  obtain ⟨rss, -, h⟩ := bind_eq_ok_iff.1 h
  split at h
  · cases h
    simp
  · rename_i hsome
    cases h
    exact hsome

end Axis

/-- One thing for each axis. -/
def Axis.pick {α : Type} (minute hour weekday : α) : Axis → α
  | .minute => minute
  | .hour => hour
  | .weekday => weekday

/-- The value of a minute of the week on an axis. -/
def Point.value (t : Point .week) (a : Axis) : Int :=
  (t.digit? a.scale).getD 0

theorem Point.digits_eq_map_value (t : Point .week) :
    t.digits = Axis.all.map fun a => (a.scale, t.value a) := by
  have hs : t.digits.map Prod.fst = [.minuteOfHour, .hourOfDay, .dayOfWeek] := t.scales_eq
  match hd : t.digits, hs with
  | [(_, m), (_, h), (_, w)], hs =>
    simp only [List.map_cons, List.map_nil, List.cons.injEq, and_true] at hs
    obtain ⟨rfl, rfl, rfl⟩ := hs
    simp [Axis.all, Axis.scale, Point.value, Point.digit?, hd]

theorem Point.digit?_axis (t : Point .week) (a : Axis) : t.digit? a.scale = some (t.value a) := by
  rw [Point.digit?_eq_some_iff, t.digits_eq_map_value]
  exact List.mem_map_of_mem (by cases a <;> decide)

theorem Point.contains_value (t : Point .week) (a : Axis) : a.scale.contains (t.value a) = true :=
  Point.contains_of_digit? (t.digit?_axis a)

/-- A minute of the week with the given values. -/
theorem Point.exists_value_eq {v : Axis → Int} (h : ∀ a : Axis, a.scale.contains (v a) = true) :
    ∃ t : Point .week, ∀ a, t.value a = v a := by
  refine ⟨⟨Axis.all.map fun a => (a.scale, v a), rfl, ?_⟩, ?_⟩
  · intro d hd
    obtain ⟨a, -, rfl⟩ := List.mem_map.1 hd
    exact h a
  · intro a
    cases a <;> rfl

theorem exists_of_acceptedSpans_eq_ok {piece : List Char} {ranges : List (Scale × List Span)}
    (h : acceptedSpans piece = .ok ranges) :
    ∃ rs : Axis → List Span, ranges = Axis.all.map (fun a => (a.scale, rs a)) ∧
      ∀ a : Axis, a.accepted piece = .ok (rs a) := by
  obtain ⟨_, _, hm, h1, rfl⟩ := mapM_cons_eq_ok_iff.1 h
  obtain ⟨_, _, hh, h2, rfl⟩ := mapM_cons_eq_ok_iff.1 h1
  obtain ⟨_, _, hw, h3, rfl⟩ := mapM_cons_eq_ok_iff.1 h2
  cases h3
  obtain ⟨ms, hms, hm⟩ := bind_eq_ok_iff.1 hm
  cases hm
  obtain ⟨hs, hhs, hh⟩ := bind_eq_ok_iff.1 hh
  cases hh
  obtain ⟨ws, hws, hw⟩ := bind_eq_ok_iff.1 hw
  cases hw
  refine ⟨Axis.pick ms hs ws, rfl, ?_⟩
  intro a
  cases a
  · exact hms
  · exact hhs
  · exact hws

/-- A piece that can be read is read axis by axis and expanded, in strict mode as well. -/
theorem exists_of_piecePeriods_eq_ok {strict : Bool} {piece : List Char}
    {ps : List (Period .week)} (h : piecePeriods strict piece = .ok ps) :
    ∃ ranges apss, acceptedSpans piece = .ok ranges ∧
      (combinations ranges).mapM Combination.periods = .ok apss ∧
        apss.flatten.mapM (·.on .week) = .ok ps := by
  have h : (do
      let periods ← (combinations (← acceptedSpans piece)).mapM Combination.periods
      periods.flatten.mapM (·.on .week)) = Except.ok ps := by
    unfold piecePeriods at h
    cases strict with
    | false => exact h
    | true =>
      simp only [if_true] at h
      obtain ⟨-, -, h⟩ := bind_eq_ok_iff.1 h
      exact h
  obtain ⟨ranges, hranges, h⟩ := bind_eq_ok_iff.1 h
  obtain ⟨apss, hapss, h⟩ := bind_eq_ok_iff.1 h
  exact ⟨ranges, apss, hranges, hapss, h⟩

/-- The periods of a piece do not wrap, there are some, and they cover the minutes of the week
whose values the piece allows. -/
theorem covered_piecePeriods {strict : Bool} {piece : List Char} {ps : List (Period .week)}
    (h : piecePeriods strict piece = .ok ps) :
    (∀ p ∈ ps, p.start ≤ p.last) ∧ ps ≠ [] ∧
      ∀ t, Period.Covered ps t ↔ ∀ a : Axis, a.Allows piece (t.value a) := by
  obtain ⟨ranges, apss, hranges, hapss, h⟩ := exists_of_piecePeriods_eq_ok h
  obtain ⟨rs, rfl, hrs⟩ := exists_of_acceptedSpans_eq_ok hranges
  have hfits : ∀ d ∈ Axis.all.map (fun a => (a.scale, rs a)), ∀ r ∈ d.2, r.Fits d.1 := by
    intro d hd
    obtain ⟨a, -, rfl⟩ := List.mem_map.1 hd
    exact (Axis.mem_accepted_iff (hrs a)).1
  obtain ⟨apss', hapss', hcover⟩ := exists_expansion_eq_ok (c := .week) rfl hfits
  rw [hapss] at hapss'
  cases hapss'
  obtain ⟨ps', hps', hforward, hiff⟩ := hcover.exists_on_eq_ok
  rw [h] at hps'
  cases hps'
  have hcovered : ∀ t : Point .week,
      Period.Covered ps t ↔ ∀ a : Axis, ∃ r ∈ rs a, t.value a ∈ r := by
    intro t
    rw [hiff, t.digits_eq_map_value, offered_map_iff]
    exact ⟨fun h a => h a (by cases a <;> decide), fun h a _ => h a⟩
  refine ⟨hforward, ?_, ?_⟩
  · -- the starts of one span on each axis make a point that is covered
    have hsome : ∀ a : Axis, ∃ r, r ∈ rs a :=
      fun a => List.exists_mem_of_ne_nil _ (Axis.accepted_ne_nil (hrs a))
    have hfit : ∀ a r, r ∈ rs a → r.Fits a.scale :=
      fun a r hr => (Axis.mem_accepted_iff (hrs a)).1 r hr
    obtain ⟨r, hr⟩ := Classical.axiomOfChoice hsome
    obtain ⟨t, ht⟩ := Point.exists_value_eq fun a => (hfit a (r a) (hr a)).start_mem
    have hc : Period.Covered ps t := by
      rw [hcovered]
      intro a
      rw [ht a]
      exact ⟨r a, hr a, Int.le_refl _, (hfit a (r a) (hr a)).ordered⟩
    rintro rfl
    exact Period.not_covered_nil hc
  · intro t
    rw [hcovered]
    constructor
    · intro h a
      exact ((Axis.mem_accepted_iff (hrs a)).2 _ (t.contains_value a)).1 (h a)
    · intro h a
      exact ((Axis.mem_accepted_iff (hrs a)).2 _ (t.contains_value a)).2 (h a)

end OpeningHours
