import OpeningHours.Proofs.Spec.Token

/-!
# The boundaries of a token

A token that is valid leads from a first value to a last one (`Axis.Leads`), and it is read as one
or two spans that share no value and hold the values met on the way (`Span.Cuts`). Any other token
is refused, and why is known from its boundaries, the texts between the dashes (`Axis.Fails`): there
are too many of them or one is empty, or else they are read from the left and the first one that
cannot stand there decides (`Axis.spans_eq_error_iff_mapM`). Zeros in front of a number count among
its digits, so a number may be too long to be read though its value is small. Main statement:
`Axis.spans_exact`.
-/

namespace OpeningHours

namespace Span

/-- The spans are one or two that fit the scale and have no value in common, and they hold the
values on the way from `v` forward to `w`. -/
structure Cuts (s : Scale) (v w : Int) (rs : List Span) : Prop where
  length_eq : rs.length = 1 ∨ rs.length = 2
  fits : ∀ r ∈ rs, r.Fits s
  apart : rs.Pairwise fun r q => ∀ u, ¬ (u ∈ r ∧ u ∈ q)
  mem_iff : ∀ u, (∃ r ∈ rs, u ∈ r) ↔ s.Forward w u v

theorem cuts_split {s : Scale} (v w : s.Value) : Cuts s v w ((between v w).split s) where
  length_eq := by
    unfold split
    split
    · exact Or.inr rfl
    · exact Or.inl rfl
  fits _ hr := fits_of_mem_split hr
  apart := by
    unfold split
    split
    · rename_i hwraps
      have hlt := wraps_between_iff.1 hwraps
      refine List.pairwise_pair.2 fun u hu => ?_
      simp only [mem_def, between] at hu
      omega
    · exact List.pairwise_singleton _ _
  mem_iff _ := mem_split_iff

end Span

namespace Axis

variable {a : Axis}

/-- Whether a token leads from a first value to a last one, both inside the domain: it is a single
value, the first and the last, or two of them with a dash between. -/
inductive Leads (a : Axis) : List Char → Nat → Nat → Prop where
  | value {x : List Char} {v : Nat} : '-' ∉ x → a.Writes x v → a.scale.contains v = true →
      Leads a x v v
  | range {x y : List Char} {v w : Nat} : '-' ∉ x → '-' ∉ y →
      a.Writes x v → a.scale.contains v = true → a.Writes y w → a.scale.contains w = true →
      Leads a (x ++ '-' :: y) v w

theorem valid_iff_exists_leads {token : List Char} :
    a.Valid token ↔ ∃ v w, a.Leads token v w := by
  constructor
  · intro h
    cases h with
    | value hx hv hc => exact ⟨_, _, .value hx hv hc⟩
    | range hx hy hv hc hw hd => exact ⟨_, _, .range hx hy hv hc hw hd⟩
  · rintro ⟨v, w, h⟩
    cases h with
    | value hx hv hc => exact .value hx hv hc
    | range hx hy hv hc hw hd => exact .range hx hy hv hc hw hd

theorem boundary_eq_ok_of_writes {x : List Char} {n : Nat} (h : a.Writes x n)
    (hc : a.scale.contains n = true) : a.boundary x = .ok ⟨n, hc⟩ :=
  boundary_eq_ok_iff.2 ⟨n, value?_eq_some_iff.2 h, rfl⟩

/-- A token that leads from one value to another is read as the way between them. -/
theorem exists_cuts_of_leads {token : List Char} {v w : Nat} (h : a.Leads token v w) :
    ∃ rs, a.spans token = .ok rs ∧ Span.Cuts a.scale v w rs := by
  cases h with
  | value hx hv hc =>
    rw [spans_of_not_mem hx hv.ne_nil, boundary_eq_ok_of_writes hv hc]
    exact ⟨_, rfl, Span.cuts_split ⟨_, hc⟩ ⟨_, hc⟩⟩
  | range hx hy hv hc hw hd =>
    rw [spans_append hx hy hv.ne_nil hw.ne_nil, boundary_eq_ok_of_writes hv hc,
      boundary_eq_ok_of_writes hw hd]
    exact ⟨_, rfl, Span.cuts_split ⟨_, hc⟩ ⟨_, hd⟩⟩

/-- Why a text cannot stand as a boundary: it is a number of too many digits, it writes no value, or
it writes one outside the domain. -/
inductive Refuses (a : Axis) (x : List Char) : Fault → Prop where
  | overlong {n : Nat} : Text.Overlong x n → Refuses a x (.overlong n)
  | unwritten : (∀ n, ¬ Text.Overlong x n) → (∀ n, ¬ a.Writes x n) →
      Refuses a x (.malformedValue (String.ofList x) a.scale a.reason)
  | outside {n : Nat} : a.Writes x n → a.scale.contains n = false →
      Refuses a x (.malformedValue (String.ofList x) a.scale .outOfDomain)

theorem boundary_eq_refusal {x : List Char} (h : ∀ n, ¬ a.Writes x n) :
    a.boundary x = .error (a.refusal x) := by
  have hnone : a.value? x = none :=
    Option.eq_none_iff_forall_ne_some.2 fun n hn => h n (value?_eq_some_iff.1 hn)
  rw [boundary, value, hnone]
  rfl

theorem Refuses.boundary_eq {x : List Char} {fault : Fault} (h : a.Refuses x fault) :
    a.boundary x = .error fault := by
  cases h with
  | overlong hlong =>
    obtain rfl := hlong.length_eq
    rw [boundary_eq_refusal fun n => not_writes_of_overlong hlong, refusal,
      if_pos (Text.overlong_length_iff.1 hlong)]
  | unwritten hshort hno =>
    rw [boundary_eq_refusal hno, refusal,
      if_neg fun hlong => hshort _ (Text.overlong_length_iff.2 hlong)]
  | outside hn hc =>
    unfold boundary value
    rw [value?_eq_some_iff.2 hn]
    exact dif_neg (by simp [hc])

theorem exists_refuses {x : List Char}
    (h : ∀ n : Nat, a.Writes x n → a.scale.contains n = false) : ∃ fault, a.Refuses x fault := by
  by_cases hx : ∃ n, a.Writes x n
  · obtain ⟨n, hn⟩ := hx
    exact ⟨_, .outside hn (h n hn)⟩
  · by_cases hlong : ∃ n, Text.Overlong x n
    · obtain ⟨n, hn⟩ := hlong
      exact ⟨_, .overlong hn⟩
    · exact ⟨_, .unwritten (fun n hn => hlong ⟨n, hn⟩) fun n hn => hx ⟨n, hn⟩⟩

theorem boundary_eq_error_iff {x : List Char} {fault : Fault} :
    a.boundary x = .error fault ↔ a.Refuses x fault := by
  refine ⟨fun h => ?_, Refuses.boundary_eq⟩
  have hout : ∀ n : Nat, a.Writes x n → a.scale.contains n = false := by
    intro n hn
    refine Bool.eq_false_iff.2 fun hc => ?_
    rw [boundary_eq_ok_of_writes hn hc] at h
    cases h
  obtain ⟨fault', hrefuses⟩ := exists_refuses hout
  obtain rfl : fault' = fault := Except.error.inj (hrefuses.boundary_eq.symm.trans h)
  exact hrefuses

/-- What is wrong with a token: it has more than two boundaries or an empty one, or it is the fault
of the first of its boundaries that cannot stand there. -/
inductive Fails (a : Axis) (token : List Char) : Fault → Prop where
  | form : 2 ≤ token.count '-' ∨ [] ∈ token.splitOn '-' →
      Fails a token (.malformedRange (String.ofList token) a.scale)
  | boundary {before after : List (List Char)} {x : List Char} {fault : Fault} :
      token.count '-' ≤ 1 → [] ∉ token.splitOn '-' → token.splitOn '-' = before ++ x :: after →
      (∀ y ∈ before, ∃ n, a.Writes y n ∧ a.scale.contains n = true) → a.Refuses x fault →
      Fails a token fault

theorem length_splitOn (token : List Char) :
    (token.splitOn '-').length = token.count '-' + 1 := by
  induction token with
  | nil => rfl
  | cons c token ih =>
    rw [List.splitOn_cons_eq_if_modifyHead, List.count_cons]
    split <;> simp [ih]

/-- A token with too many boundaries or an empty one is malformed. -/
theorem spans_of_form {token : List Char} (h : 2 ≤ token.count '-' ∨ [] ∈ token.splitOn '-') :
    a.spans token = .error (.malformedRange (String.ofList token) a.scale) := by
  have hlength := length_splitOn token
  unfold spans
  split
  · rename_i x hs
    rw [hs] at h hlength
    have hx : x = [] := by
      simp only [List.length_singleton, List.mem_singleton] at h hlength
      rcases h with h | h
      · omega
      · exact h.symm
    exact if_pos hx
  · rename_i x y hs
    rw [hs] at h hlength
    have hxy : x = [] ∨ y = [] := by
      simp only [List.length_cons, List.length_nil, List.mem_cons, List.not_mem_nil,
        or_false] at h hlength
      rcases h with h | h | h
      · omega
      · exact Or.inl h.symm
      · exact Or.inr h.symm
    exact if_pos hxy
  · rfl

/-- Otherwise the boundaries are read from the left, and there is nothing else that can fail. -/
theorem spans_eq_error_iff_mapM {token : List Char} {fault : Fault}
    (hcount : token.count '-' ≤ 1) (hempty : [] ∉ token.splitOn '-') :
    a.spans token = .error fault ↔ (token.splitOn '-').mapM a.boundary = .error fault := by
  have hlength := length_splitOn token
  unfold spans
  split
  · rename_i x hs
    rw [hs, if_neg (by simpa [hs, eq_comm] using hempty)]
    cases hx : a.boundary x <;> simp [hx, bind, Except.bind, pure, Except.pure]
  · rename_i x y hs
    rw [hs, if_neg (by simpa [hs, eq_comm] using hempty)]
    cases hx : a.boundary x <;> cases hy : a.boundary y <;>
      simp [hx, hy, bind, Except.bind, pure, Except.pure]
  · rename_i h1 h2
    exfalso
    match hs : token.splitOn '-' with
    | [] => exact List.splitOn_ne_nil _ _ hs
    | [x] => exact h1 x hs
    | [x, y] => exact h2 x y hs
    | x :: y :: z :: rest =>
      rw [hs] at hlength
      simp only [List.length_cons] at hlength
      omega

theorem spans_eq_error_iff {token : List Char} {fault : Fault} :
    a.spans token = .error fault ↔ a.Fails token fault := by
  by_cases hform : 2 ≤ token.count '-' ∨ [] ∈ token.splitOn '-'
  · rw [spans_of_form hform]
    constructor
    · intro h
      cases h
      exact .form hform
    · intro h
      cases h with
      | form => rfl
      | boundary hcount hempty =>
        rcases hform with h | h
        · omega
        · exact absurd h hempty
  · obtain ⟨hcount, hempty⟩ := not_or.1 hform
    rw [spans_eq_error_iff_mapM (by omega) hempty, mapM_eq_error_iff]
    simp only [exists_boundary_iff, boundary_eq_error_iff]
    constructor
    · rintro ⟨before, x, after, hs, hbefore, hrefuses⟩
      exact .boundary (by omega) hempty hs hbefore hrefuses
    · intro h
      cases h with
      | form h => exact absurd h hform
      | boundary _ _ hs hbefore hrefuses => exact ⟨_, _, _, hs, hbefore, hrefuses⟩

/-- A token is read exactly if it leads from one value of the domain to another, as one or two spans
without a common value that hold what is met on the way forward. Every other token fails, with more
than two boundaries or an empty one as a malformed range that names the token, and otherwise as the
first of its boundaries that writes no value of the domain, which is named unless it is a number of
too many digits. -/
theorem spans_exact (a : Axis) (token : List Char) :
    ((∃ rs, a.spans token = .ok rs) ↔ ∃ v w, a.Leads token v w) ∧
    (∀ v w, a.Leads token v w → ∃ rs, a.spans token = .ok rs ∧ Span.Cuts a.scale v w rs) ∧
    ∀ fault, a.spans token = .error fault ↔ a.Fails token fault := by
  refine ⟨?_, fun v w => exists_cuts_of_leads, fun fault => spans_eq_error_iff⟩
  rw [exists_spans_iff, valid_iff_exists_leads]

/-- From ten in the evening to one at night, round the end of the day; and a range of weekdays whose
second boundary is none. -/
theorem spans_exact_late_evening :
    hour.Leads "10pm-01".toList 22 1 ∧
    (∃ rs, hour.spans "10pm-01".toList = .ok rs ∧ Span.Cuts .hourOfDay 22 1 rs) ∧
    weekday.Fails "sunday-8".toList (.malformedValue "8" .dayOfWeek .outOfDomain) ∧
    weekday.spans "sunday-8".toList = .error (.malformedValue "8" .dayOfWeek .outOfDomain) := by
  have hwrites {a : Axis} {x : List Char} {n : Nat} : a.value? x = some n → a.Writes x n :=
    value?_eq_some_iff.1
  have hleads : hour.Leads ("10pm".toList ++ '-' :: "01".toList) 22 1 :=
    .range (by decide) (by decide) (hwrites (by decide)) (by decide) (hwrites (by decide))
      (by decide)
  have hsunday : ∃ n : Nat, weekday.Writes "sunday".toList n ∧ weekday.scale.contains n = true :=
    ⟨7, hwrites (by decide), by decide⟩
  have hrefuses : weekday.Refuses "8".toList (.malformedValue "8" .dayOfWeek .outOfDomain) :=
    .outside (n := 8) (hwrites (by decide)) (by decide)
  have hfails : weekday.Fails "sunday-8".toList (.malformedValue "8" .dayOfWeek .outOfDomain) :=
    @Fails.boundary weekday "sunday-8".toList ["sunday".toList] [] "8".toList _
      (by decide) (by decide) (by decide) (by simpa using hsunday) hrefuses
  exact ⟨hleads, (spans_exact hour _).2.1 22 1 hleads, hfails,
    ((spans_exact weekday _).2.2 _).2 hfails⟩

/-- Zeros, one more than a number may have digits, spell the minute 0 and are not read. -/
theorem minute_spans_zeros :
    ∃ token : List Char, (∀ c ∈ token, c.isDigit = true) ∧ '-' ∉ token ∧ Text.Spells token 0 ∧
      minute.scale.contains 0 = true ∧ minute.spans token = .error (.overlong token.length) := by
  let token := List.replicate (Text.maxDigits + 1) '0'
  have hzero : ∀ c ∈ token, c = '0' := fun c => List.eq_of_mem_replicate
  have hdigits : ∀ c ∈ token, c.isDigit = true := by
    intro c hc
    rw [hzero c hc]
    decide
  have hdash : '-' ∉ token := fun h => absurd (hzero _ h) (by decide)
  have hspells : Text.Spells token 0 := Text.spells_zeros _
  have hrefuses : minute.Refuses token (.overlong token.length) :=
    .overlong ⟨hdigits, rfl, by simp [token]⟩
  refine ⟨token, hdigits, hdash, hspells, by decide, ?_⟩
  rw [spans_of_not_mem hdash hspells.ne_nil, hrefuses.boundary_eq]
  rfl

end Axis

end OpeningHours
