import OpeningHours.Proofs.Spec.Strict
import OpeningHours.Proofs.Spec.Token

/-!
# Which specifications can be read

A piece can be read if none of its clauses is without tokens and all tokens are valid, and in strict
mode if besides nothing but blanks is left without the clauses (`exists_piecePeriods_iff`). What
comes after the tokens does not fail: their spans fit the scales, so each choice of them makes
periods of the week (`exists_weekPeriods`). What can go wrong in reading is a range or a value that
is malformed, or in strict mode text outside the clauses; or else a token holds a number of too many
digits (`failsWith_piecePeriods`).
-/

namespace OpeningHours

/-- What a text can fail with: a malformed range, a malformed value or one outside its domain, in
strict mode what no clause holds, or a number that has too many digits to be read. -/
inductive Fault.OfText (strict : Bool) (overlong : Nat → Prop) : Fault → Prop where
  | range (a : Axis) (token : String) : OfText strict overlong (.malformedRange token a.scale)
  | value (a : Axis) (value : String) :
      OfText strict overlong (.malformedValue value a.scale a.reason)
  | domain (a : Axis) (value : String) :
      OfText strict overlong (.malformedValue value a.scale .outOfDomain)
  | unrecognized (piece leftover : String) : strict = true →
      OfText strict overlong (.unrecognized piece leftover)
  | digits {n : Nat} : overlong n → OfText strict overlong (.overlong n)

theorem Fault.OfText.mono {strict strict' : Bool} {P Q : Nat → Prop} {fault : Fault}
    (h : fault.OfText strict P) (hstrict : strict = true → strict' = true)
    (hPQ : ∀ n, P n → Q n) : fault.OfText strict' Q := by
  cases h with
  | range a token => exact .range a token
  | value a value => exact .value a value
  | domain a value => exact .domain a value
  | unrecognized piece leftover h => exact .unrecognized piece leftover (hstrict h)
  | digits h => exact .digits (hPQ _ h)

/-- Whether a boundary of a token is a number of `n` digits, too many to be read. -/
def TokenOverlong (token : List Char) (n : Nat) : Prop :=
  ∃ x ∈ token.splitOn '-', Text.Overlong x n

/-- Whether some token of a piece has such a boundary. -/
def HoldsOverlong (piece : List Char) (n : Nat) : Prop :=
  ∃ a : Axis, ∃ clause ∈ a.clauses piece, ∃ token ∈ Text.words clause.body, TokenOverlong token n

namespace Axis

variable {a : Axis} {piece : List Char}

/-! The stages of reading, and what each can fail with. -/

theorem failsWith_boundary (x : List Char) :
    FailsWith (Fault.OfText false (Text.Overlong x)) (a.boundary x) := by
  unfold boundary value
  cases a.value? x with
  | none =>
    refine FailsWith.bind (.error ?_) fun _ h => nomatch h
    unfold refusal
    split
    · rename_i hlong
      exact .digits (Text.overlong_length_iff.2 hlong)
    · exact .value a _
  | some n =>
    refine FailsWith.bind (.ok _) fun v _ => ?_
    split
    · exact .ok _
    · exact .error (.domain a _)

theorem failsWith_spans (token : List Char) :
    FailsWith (Fault.OfText false (TokenOverlong token)) (a.spans token) := by
  have hmalformed : FailsWith (Fault.OfText false (TokenOverlong token))
      (spans.malformed a token) := .error (.range a _)
  have hboundary : ∀ x ∈ token.splitOn '-',
      FailsWith (Fault.OfText false (TokenOverlong token)) (a.boundary x) :=
    fun x hx => (failsWith_boundary x).mono fun _ h => h.mono id fun _ hn => ⟨x, hx, hn⟩
  unfold spans
  split
  · rename_i x hs
    split
    · exact hmalformed
    · exact (hboundary x (by simp [hs])).bind fun v _ => .ok _
  · rename_i x y hs
    split
    · exact hmalformed
    · exact (hboundary x (by simp [hs])).bind fun v _ =>
        (hboundary y (by simp [hs])).bind fun w _ => .ok _
  · exact hmalformed

theorem failsWith_clauseTokens {P : Nat → Prop} (clause : Clause) :
    FailsWith (Fault.OfText false P) (a.clauseTokens clause) := by
  unfold clauseTokens
  split
  · exact .error (.range a _)
  · exact .ok _

theorem failsWith_tokens {P : Nat → Prop} (piece : List Char) :
    FailsWith (Fault.OfText false P) (a.tokens piece) :=
  (FailsWith.mapM fun clause _ => failsWith_clauseTokens clause).bind fun _ _ => .ok _

theorem failsWith_accepted (piece : List Char) :
    FailsWith (Fault.OfText false (HoldsOverlong piece)) (a.accepted piece) := by
  refine (failsWith_tokens piece).bind fun tokens htokens => ?_
  refine (FailsWith.mapM fun token htoken => ?_).bind fun rss _ => ?_
  · obtain ⟨clause, hc, hw⟩ := ((mem_tokens_iff htokens).1 token).1 htoken
    exact (failsWith_spans token).mono fun _ h => h.mono id fun _ hn =>
      ⟨a, clause, hc, token, hw, hn⟩
  · split
    · exact .ok _
    · exact .ok _

/-- Whether every clause of the axis has tokens, and only valid ones. -/
structure Readable (a : Axis) (piece : List Char) : Prop where
  filled : ∀ clause ∈ a.clauses piece, Text.words clause.body ≠ []
  valid : ∀ clause ∈ a.clauses piece, ∀ token ∈ Text.words clause.body, a.Valid token

theorem exists_clauseTokens_iff {clause : Clause} :
    (∃ ts, a.clauseTokens clause = .ok ts) ↔ Text.words clause.body ≠ [] := by
  constructor
  · rintro ⟨ts, hts⟩
    obtain ⟨rfl, hne⟩ := clauseTokens_eq_ok_iff.1 hts
    exact hne
  · exact fun hne => ⟨_, clauseTokens_eq_ok_iff.2 ⟨rfl, hne⟩⟩

theorem exists_tokens_iff :
    (∃ ts, a.tokens piece = .ok ts) ↔ ∀ clause ∈ a.clauses piece, Text.words clause.body ≠ [] := by
  simp only [← exists_clauseTokens_iff (a := a), ← exists_mapM_eq_ok_iff]
  constructor
  · rintro ⟨ts, hts⟩
    obtain ⟨tss, htss, -⟩ := bind_eq_ok_iff.1 hts
    exact ⟨tss, htss⟩
  · rintro ⟨tss, htss⟩
    exact ⟨tss.flatten, bind_eq_ok_iff.2 ⟨tss, htss, rfl⟩⟩

theorem exists_accepted_iff : (∃ rs, a.accepted piece = .ok rs) ↔ a.Readable piece := by
  constructor
  · rintro ⟨rs, hrs⟩
    obtain ⟨tokens, ht, h⟩ := bind_eq_ok_iff.1 hrs
    obtain ⟨rss, hrss, -⟩ := bind_eq_ok_iff.1 h
    refine ⟨exists_tokens_iff.1 ⟨tokens, ht⟩, fun clause hc token hw => ?_⟩
    exact exists_spans_iff.1 (exists_mapM_eq_ok_iff.1 ⟨rss, hrss⟩ token
      (((mem_tokens_iff ht).1 token).2 ⟨clause, hc, hw⟩))
  · intro h
    obtain ⟨tokens, ht⟩ := exists_tokens_iff.2 h.filled
    obtain ⟨rss, hrss⟩ : ∃ rss, tokens.mapM a.spans = .ok rss := by
      refine exists_mapM_eq_ok_iff.2 fun token htoken => exists_spans_iff.2 ?_
      obtain ⟨clause, hc, hw⟩ := ((mem_tokens_iff ht).1 token).1 htoken
      exact h.valid clause hc token hw
    simp only [accepted, ht, hrss, bind, Except.bind]
    split <;> exact ⟨_, rfl⟩

end Axis

variable {piece : List Char}

theorem exists_acceptedSpans_iff :
    (∃ ranges, acceptedSpans piece = .ok ranges) ↔ ∀ a : Axis, a.Readable piece := by
  unfold acceptedSpans
  rw [exists_mapM_eq_ok_iff]
  constructor
  · intro h a
    obtain ⟨d, hd⟩ := h a a.mem_all
    obtain ⟨rs, hrs, -⟩ := bind_eq_ok_iff.1 hd
    exact Axis.exists_accepted_iff.1 ⟨rs, hrs⟩
  · intro h a _
    obtain ⟨rs, hrs⟩ := Axis.exists_accepted_iff.2 (h a)
    exact ⟨(a.scale, rs), bind_eq_ok_iff.2 ⟨rs, hrs, rfl⟩⟩

/-- The periods of the week that the choices of one span on each axis make. -/
def weekPeriods (ranges : List (Scale × List Span)) : Except Fault (List (Period .week)) := do
  let periods ← (combinations ranges).mapM Combination.periods
  periods.flatten.mapM (·.on .week)

theorem piecePeriods_false_eq (piece : List Char) :
    piecePeriods false piece = acceptedSpans piece >>= weekPeriods :=
  rfl

theorem piecePeriods_true_eq (piece : List Char) :
    piecePeriods true piece = checkLeftover piece >>= fun _ => piecePeriods false piece :=
  rfl

/-- The spans that a piece allows always make periods. -/
theorem exists_weekPeriods {ranges : List (Scale × List Span)}
    (h : acceptedSpans piece = .ok ranges) : ∃ ps, weekPeriods ranges = .ok ps := by
  obtain ⟨rs, rfl, hrs⟩ := exists_of_acceptedSpans_eq_ok h
  have hfits : ∀ d ∈ Axis.all.map (fun a => (a.scale, rs a)), ∀ r ∈ d.2, r.Fits d.1 := by
    intro d hd
    obtain ⟨a, -, rfl⟩ := List.mem_map.1 hd
    exact (Axis.mem_accepted_iff (hrs a)).1
  obtain ⟨apss, hapss, hcover⟩ := exists_expansion_eq_ok (c := .week) rfl hfits
  obtain ⟨ps, hps, -⟩ := hcover.exists_on_eq_ok
  exact ⟨ps, bind_eq_ok_iff.2 ⟨apss, hapss, hps⟩⟩

/-- Whether a piece can be read: no clause is empty and every token valid, and in strict mode only
blanks are left without the clauses. -/
structure Readable (strict : Bool) (piece : List Char) : Prop where
  clean : strict = true →
    ∀ c ∈ Axis.all.foldl (fun cs a => a.blank cs) piece, Text.isBlank c = true
  axes : ∀ a : Axis, a.Readable piece

theorem exists_piecePeriods_iff {strict : Bool} :
    (∃ ps, piecePeriods strict piece = .ok ps) ↔ Readable strict piece := by
  have hloose : (∃ ps, piecePeriods false piece = .ok ps) ↔ ∀ a : Axis, a.Readable piece := by
    rw [← exists_acceptedSpans_iff, piecePeriods_false_eq]
    constructor
    · rintro ⟨ps, hps⟩
      obtain ⟨ranges, hranges, -⟩ := bind_eq_ok_iff.1 hps
      exact ⟨ranges, hranges⟩
    · rintro ⟨ranges, hranges⟩
      obtain ⟨ps, hps⟩ := exists_weekPeriods hranges
      exact ⟨ps, bind_eq_ok_iff.2 ⟨ranges, hranges, hps⟩⟩
  cases strict with
  | false =>
    rw [hloose]
    exact ⟨fun h => ⟨nofun, h⟩, fun h => h.axes⟩
  | true =>
    simp only [piecePeriods_true_eq_ok_iff, exists_and_left, hloose, leftover,
      Text.strip_eq_nil_iff]
    exact ⟨fun h => ⟨fun _ => h.1, h.2⟩, fun h => ⟨h.clean rfl, h.axes⟩⟩

theorem failsWith_piecePeriods (strict : Bool) (piece : List Char) :
    FailsWith (Fault.OfText strict (HoldsOverlong piece)) (piecePeriods strict piece) := by
  have hloose : FailsWith (Fault.OfText false (HoldsOverlong piece))
      (piecePeriods false piece) := by
    rw [piecePeriods_false_eq]
    refine FailsWith.bind ?_ fun ranges hranges => ?_
    · exact FailsWith.mapM fun a _ => (Axis.failsWith_accepted piece).bind fun _ _ => .ok _
    · obtain ⟨ps, hps⟩ := exists_weekPeriods hranges
      rw [hps]
      exact .ok ps
  cases strict with
  | false => exact hloose
  | true =>
    rw [piecePeriods_true_eq]
    refine FailsWith.bind ?_ fun _ _ => hloose.mono fun _ h => h.mono nofun fun _ => id
    unfold checkLeftover
    split
    · exact .ok _
    · exact .error (.unrecognized _ _ rfl)

variable {config : Config} {spec : String}

/-- A specification can be read exactly if each of its pieces can, and then it has periods. -/
theorem exists_readPeriods_iff :
    (∃ ps, readPeriods config spec = .ok ps) ↔
      ∀ piece ∈ Text.pieces config.separator.toList config.separator_ne spec.toList,
        Readable config.strict piece := by
  simp only [← exists_piecePeriods_iff, ← exists_mapM_eq_ok_iff]
  constructor
  · rintro ⟨ps, hps⟩
    obtain ⟨pss, hpss, -⟩ := bind_eq_ok_iff.1 hps
    exact ⟨pss, hpss⟩
  · rintro ⟨pss, hpss⟩
    exact ⟨_, bind_eq_ok_iff.2 ⟨pss, hpss, rfl⟩⟩

theorem failsWith_readPeriods (config : Config) (spec : String) :
    FailsWith (Fault.OfText config.strict fun n =>
      ∃ piece ∈ Text.pieces config.separator.toList config.separator_ne spec.toList,
        HoldsOverlong piece n) (readPeriods config spec) := by
  refine FailsWith.bind (FailsWith.mapM fun piece hpiece => ?_) fun _ _ => .ok _
  exact (failsWith_piecePeriods config.strict piece).mono fun _ h => h.mono id fun _ hn =>
    ⟨piece, hpiece, hn⟩

end OpeningHours
