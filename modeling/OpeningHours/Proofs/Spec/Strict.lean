import Mathlib
import OpeningHours.Proofs.Outcome
import OpeningHours.Proofs.Spec.Scan
import OpeningHours.Spec.Reading

/-!
# What the strict mode refuses

The strict mode blanks the clauses axis by axis, each axis in the text that the one before has
left. Where braces do not nest and stand apart, every stage is known from one scan of the piece
itself (`foldl_blank`): what is left are the characters that stand alone in that scan, and they
stand alone exactly when no axis has a clause around them (`exists_encloses_iff`). So the strict
mode accepts such a piece if and only if it would be read anyhow and each of its characters that
is no blank lies in a clause (`piecePeriods_strict_iff`). Elsewhere a clause can arise from the
blanking of another one, and a text outside of all clauses is then passed over
(`strict_passes_over_weekday`).
-/

namespace OpeningHours

/-- A clause that the scan for the axis finds in the text `x ++ c :: y` lies around this `c`. -/
def Axis.Encloses (a : Axis) (x : List Char) (c : Char) (y : List Char) : Prop :=
  ∃ before k after u v, segments a.names (x ++ c :: y) = before ++ .clause k :: after ∧
    x = before.flatMap Segment.text ++ u ∧ k.text = u ++ c :: v

/-! The stages of the blanking. -/

theorem Axis.blank_eq_left (a : Axis) (cs : List Char) :
    a.blank cs = (segments a.names cs).flatMap (Segment.left a.names) := by
  refine List.flatMap_congr fun s hs => ?_
  cases s with
  | plain c => rfl
  | clause k => exact (Segment.left_of_mem (fits_of_mem_segments hs).name_mem).symm

theorem Segment.flatMap_left_map_plain {done : List (List Char)} (cs : List Char) :
    (cs.map plain).flatMap (left done) = cs := by
  rw [List.flatMap_map]
  exact List.flatMap_singleton' cs

theorem Segment.flatMap_left_seen {done names : List (List Char)} (s : Segment) :
    (s.seen done names).flatMap (left names) = s.left (done ++ names) := by
  cases s with
  | plain c => rfl
  | clause k =>
    rw [seen]
    split
    · rename_i hdone
      exact (left_of_mem (List.mem_append_left _ hdone)).symm
    · rename_i hdone
      split
      · rename_i hname
        rw [List.flatMap_singleton, left_of_mem hname, left_of_mem (List.mem_append_right _ hname)]
      · rename_i hname
        rw [flatMap_left_map_plain, left_of_not_mem (by simp [hdone, hname])]

theorem blank_left (a : Axis) (done : List (List Char)) {cs : List Char} (h : Text.Braced cs) :
    a.blank ((segments Axis.allNames cs).flatMap (Segment.left done)) =
      (segments Axis.allNames cs).flatMap (Segment.left (done ++ a.names)) := by
  rw [a.blank_eq_left, segments_of_left done a.names_subset_allNames h, List.flatMap_assoc]
  exact List.flatMap_congr fun s _ => s.flatMap_left_seen

theorem foldl_blank (as : List Axis) (done : List (List Char)) {cs : List Char}
    (h : Text.Braced cs) :
    as.foldl (fun cs a => a.blank cs) ((segments Axis.allNames cs).flatMap (Segment.left done)) =
      (segments Axis.allNames cs).flatMap (Segment.left (done ++ as.flatMap Axis.names)) := by
  induction as generalizing done with
  | nil => simp
  | cons a as ih =>
    rw [List.foldl_cons, blank_left a done h, ih, List.flatMap_cons, List.append_assoc]

theorem Segment.flatMap_left_nil (segs : List Segment) :
    segs.flatMap (left []) = segs.flatMap text := by
  refine List.flatMap_congr fun s _ => ?_
  cases s <;> rfl

theorem leftover_eq {piece : List Char} (h : Text.Braced piece) :
    leftover piece =
      Text.strip ((segments Axis.allNames piece).flatMap (Segment.left Axis.allNames)) := by
  have hstages := foldl_blank Axis.all [] h
  rw [Segment.flatMap_left_nil, flatMap_text_segments] at hstages
  rw [leftover, hstages]
  rfl

/-- Nothing is left of a piece exactly when what stands alone in it are blanks. -/
theorem leftover_eq_nil_iff {piece : List Char} (h : Text.Braced piece) :
    leftover piece = [] ↔
      ∀ c, .plain c ∈ segments Axis.allNames piece → Text.isBlank c = true := by
  rw [leftover_eq h, Text.strip_eq_nil_iff]
  constructor
  · exact fun hall c hc => hall c (List.mem_flatMap.2 ⟨_, hc, List.mem_singleton_self c⟩)
  · intro hall d hd
    obtain ⟨s, hs, hd⟩ := List.mem_flatMap.1 hd
    cases s with
    | plain c => exact List.mem_singleton.1 hd ▸ hall c hs
    | clause k =>
      rw [Segment.left_of_mem (fits_of_mem_segments hs).name_mem] at hd
      exact List.mem_singleton.1 hd ▸ by decide

/-! The place of a character in a scan. -/

theorem exists_segment_at {segs : List Segment} {x y : List Char} {c : Char}
    (h : segs.flatMap Segment.text = x ++ c :: y) :
    ∃ before s after u v, segs = before ++ s :: after ∧
      x = before.flatMap Segment.text ++ u ∧ s.text = u ++ c :: v := by
  induction segs generalizing x with
  | nil => simp at h
  | cons s segs ih =>
    rw [List.flatMap_cons] at h
    rcases List.append_eq_append_iff.1 h with ⟨t, rfl, ht⟩ | ⟨t, hs, ht⟩
    · obtain ⟨before, r, after, u, v, rfl, rfl, hr⟩ := ih ht
      exact ⟨s :: before, r, after, u, v, rfl, by simp, hr⟩
    · cases t with
      | nil =>
        obtain ⟨before, r, after, u, v, rfl, hx, hr⟩ := ih (x := []) ht.symm
        exact ⟨s :: before, r, after, u, v, rfl, by simp [← hx, hs], hr⟩
      | cons d t =>
        obtain ⟨rfl, -⟩ := List.cons.inj ht
        exact ⟨[], s, segs, x, t, rfl, rfl, hs⟩

/-- A character that stands alone in a scan lies in no clause of it. -/
theorem text_ne_of_plain {segs before after before' after' : List Segment} {c : Char} {k : Clause}
    {u v : List Char} (hplain : segs = before ++ .plain c :: after)
    (hclause : segs = before' ++ .clause k :: after')
    (hx : before.flatMap Segment.text = before'.flatMap Segment.text ++ u) :
    k.text ≠ u ++ c :: v := by
  intro hk
  rw [hplain] at hclause
  rcases List.append_eq_append_iff.1 hclause with ⟨t, rfl, ht⟩ | ⟨t, rfl, ht⟩
  · cases t with
    | nil => simp at ht
    | cons s t =>
      obtain ⟨rfl, -⟩ := List.cons.inj ht
      have hlength := congrArg List.length hx
      simp [Segment.text] at hlength
  · cases t with
    | nil => simp at ht
    | cons s t =>
      obtain ⟨rfl, -⟩ := List.cons.inj ht
      have hlength := congrArg List.length hx
      simp [Segment.text, hk] at hlength

/-- What a scan for one axis sees in the segments of the scan for all of them. -/
theorem segments_names_eq (a : Axis) {cs : List Char} (h : Text.Braced cs) :
    segments a.names cs =
      (segments Axis.allNames cs).flatMap (Segment.seen [] a.names) := by
  have hscan := segments_of_left [] a.names_subset_allNames h
  rwa [Segment.flatMap_left_nil, flatMap_text_segments] at hscan

theorem flatMap_text_flatMap_seen {names : List (List Char)} (segs : List Segment) :
    (segs.flatMap (Segment.seen [] names)).flatMap Segment.text = segs.flatMap Segment.text := by
  rw [List.flatMap_assoc, ← Segment.flatMap_left_nil]
  exact List.flatMap_congr fun s _ => s.flatMap_text_seen

/-- A clause that some axis has around a character is a clause of the scan for all of them. -/
theorem exists_encloses_iff {x y : List Char} {c : Char} (h : Text.Braced (x ++ c :: y))
    {before after : List Segment} {s : Segment} {u v : List Char}
    (hscan : segments Axis.allNames (x ++ c :: y) = before ++ s :: after)
    (hx : x = before.flatMap Segment.text ++ u) (hs : s.text = u ++ c :: v) :
    (∃ a : Axis, a.Encloses x c y) ↔ ∃ k, s = .clause k := by
  constructor
  · rintro ⟨a, before', k', after', u', v', hscan', hx', hk'⟩
    cases s with
    | clause k => exact ⟨k, rfl⟩
    | plain d =>
      obtain ⟨rfl, hd⟩ : u = [] ∧ d = c := by
        cases u <;> simp_all [Segment.text]
      subst hd
      have hplain := segments_names_eq a h
      rw [hscan, List.flatMap_append, List.flatMap_cons] at hplain
      refine absurd hk' (text_ne_of_plain hplain hscan' ?_)
      rw [flatMap_text_flatMap_seen, ← hx', hx, List.append_nil]
  · rintro ⟨k, rfl⟩
    have hmem : .clause k ∈ segments Axis.allNames (x ++ c :: y) := by simp [hscan]
    have hk := fits_of_mem_segments hmem
    obtain ⟨a, ha⟩ := Axis.exists_mem_names hk.name_mem
    refine ⟨a, before.flatMap (Segment.seen [] a.names), k,
      after.flatMap (Segment.seen [] a.names), u, v, ?_, ?_, hs⟩
    · rw [segments_names_eq a h, hscan, List.flatMap_append, List.flatMap_cons, Segment.seen,
        if_neg List.not_mem_nil, if_pos ha, List.singleton_append]
    · rw [flatMap_text_flatMap_seen, hx]

theorem leftover_eq_nil_iff_encloses {piece : List Char} (h : Text.Braced piece) :
    leftover piece = [] ↔
      ∀ x c y, piece = x ++ c :: y → Text.isBlank c = false → ∃ a : Axis, a.Encloses x c y := by
  rw [leftover_eq_nil_iff h]
  constructor
  · rintro hplain x c y rfl hc
    obtain ⟨before, s, after, u, v, hscan, hx, hs⟩ :=
      exists_segment_at (flatMap_text_segments Axis.allNames (x ++ c :: y))
    refine (exists_encloses_iff h hscan hx hs).2 ?_
    cases s with
    | clause k => exact ⟨k, rfl⟩
    | plain d =>
      have hd := hplain d (hscan ▸ List.mem_append_right _ (by simp))
      obtain rfl : d = c := by cases u <;> simp_all [Segment.text]
      exact absurd hd (by simp [hc])
  · intro hall c hc
    obtain ⟨before, after, hscan⟩ := List.append_of_mem hc
    have hpiece : piece = before.flatMap Segment.text ++ c :: after.flatMap Segment.text := by
      rw [← flatMap_text_segments Axis.allNames piece, hscan, List.flatMap_append,
        List.flatMap_cons]
      rfl
    by_contra hblank
    obtain ⟨k, hk⟩ := (exists_encloses_iff (hpiece ▸ h) (hpiece ▸ hscan) (List.append_nil _).symm
      rfl).1 (hall _ c _ hpiece (by simpa using hblank))
    exact Segment.noConfusion hk

theorem piecePeriods_true_eq_ok_iff {piece : List Char} {ps : List (Period .week)} :
    piecePeriods true piece = .ok ps ↔ leftover piece = [] ∧ piecePeriods false piece = .ok ps := by
  have hstages : piecePeriods true piece = checkLeftover piece >>= fun _ =>
      piecePeriods false piece := rfl
  have hcheck : checkLeftover piece = .ok () ↔ leftover piece = [] := by
    unfold checkLeftover
    split <;> simp_all
  rw [hstages, bind_eq_ok_iff, ← hcheck]
  exact ⟨fun ⟨_, hc, h⟩ => ⟨hc, h⟩, fun ⟨hc, h⟩ => ⟨(), hc, h⟩⟩

/-- In strict mode a piece is read exactly when it is read without it and no character but
blanks stands outside its clauses. -/
theorem piecePeriods_strict_iff {piece : List Char} (h : Text.Braced piece)
    {ps : List (Period .week)} :
    piecePeriods true piece = .ok ps ↔ piecePeriods false piece = .ok ps ∧
      ∀ x c y, piece = x ++ c :: y → Text.isBlank c = false → ∃ a : Axis, a.Encloses x c y := by
  rw [piecePeriods_true_eq_ok_iff, leftover_eq_nil_iff_encloses h, and_comm]

set_option maxRecDepth 4000 in
/-- Office hours are read in strict mode, and everything in their text but blanks is in a clause. -/
theorem piecePeriods_strict_iff_office : ∃ ps : List (Period .week),
    Text.Braced "wd {mo-fr} hr {9-17}".toList ∧
      piecePeriods false "wd {mo-fr} hr {9-17}".toList = .ok ps ∧
      ∀ x c y, "wd {mo-fr} hr {9-17}".toList = x ++ c :: y → Text.isBlank c = false →
        ∃ a : Axis, a.Encloses x c y := by
  have hbraced : Text.Braced "wd {mo-fr} hr {9-17}".toList := by decide
  obtain ⟨ps, hps⟩ : ∃ ps, piecePeriods true "wd {mo-fr} hr {9-17}".toList = .ok ps :=
    exists_eq_ok_of_isOk (by cbv)
  exact ⟨ps, hbraced, (piecePeriods_strict_iff hbraced).1 hps⟩

set_option maxRecDepth 4000 in
/-- The weekday lies in no clause, but is not refused: once the hour is blanked, `wd` stands
before the braces of `mo`. -/
theorem strict_passes_over_weekday :
    (∃ ps, piecePeriods true "wd hr {9} {mo}".toList = .ok ps ∧
      piecePeriods true "hr {9}".toList = .ok ps) ∧
      ∀ a : Axis, ¬ a.Encloses [] 'w' "d hr {9} {mo}".toList := by
  constructor
  · have hsame : piecePeriods true "wd hr {9} {mo}".toList =
        piecePeriods true "hr {9}".toList := by cbv
    obtain ⟨ps, hps⟩ := exists_eq_ok_of_isOk
      (show (piecePeriods true "hr {9}".toList).isOk = true by cbv)
    exact ⟨ps, hsame.trans hps, hps⟩
  · rintro a ⟨before, k, after, u, v, hscan, hx, hk⟩
    have hplain : ∃ rest, segments a.names ([] ++ 'w' :: "d hr {9} {mo}".toList) =
        [] ++ .plain 'w' :: rest := by
      cases a <;> exact ⟨_, segments_cons_of_none (by decide)⟩
    obtain ⟨rest, hplain⟩ := hplain
    exact text_ne_of_plain hplain hscan hx hk

end OpeningHours
