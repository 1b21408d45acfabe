import OpeningHours.Proofs.Spec.Clause

/-!
# One scan for the clauses of every axis

The clauses of an axis are found by a scan for the names of that axis alone. Where braces do not
nest and stand apart (`Text.Braced`), one scan for the names of all axes finds them as well, and
it still does when clauses have been blanked: `segments_of_left` reads what a scan for some of
the names sees off the segments of that one scan. No clause arises from the blanking of others
(`Regular.exists_text_eq_of_left`), because blanks end a name, and between a closing brace and
the next opening one there is more than blanks.
-/

namespace OpeningHours

namespace Text

/-- A character of some kind stands before the first opening brace. -/
def OpensAfter (p : Char → Bool) (cs : List Char) : Prop :=
  ∀ y, y ++ ['{'] <+: cs → ∃ c ∈ y, p c = true

theorem opensAfter_nil {p : Char → Bool} : OpensAfter p [] := fun y hy => by simp at hy

theorem opensAfter_cons_iff {p : Char → Bool} {c : Char} {cs : List Char} :
    OpensAfter p (c :: cs) ↔ c ≠ '{' ∧ (p c = true ∨ OpensAfter p cs) := by
  constructor
  · intro h
    refine ⟨fun hc => ?_, or_iff_not_imp_left.2 fun hp y hy => ?_⟩
    · simpa using h [] (by simp [hc])
    · obtain ⟨d, hd, hpd⟩ := h (c :: y) (List.cons_prefix_cons.2 ⟨rfl, hy⟩)
      rcases List.mem_cons.1 hd with rfl | hd
      · exact absurd hpd hp
      · exact ⟨d, hd, hpd⟩
  · rintro ⟨hc, h⟩ y hy
    cases y with
    | nil => exact absurd (List.cons_prefix_cons.1 hy).1.symm hc
    | cons d y =>
      obtain ⟨rfl, hrest⟩ := List.cons_prefix_cons.1 hy
      rcases h with hp | h
      · exact ⟨d, by simp, hp⟩
      · obtain ⟨e, he, hp⟩ := h y hrest
        exact ⟨e, List.mem_cons_of_mem d he, hp⟩

instance decidableOpensAfter (p : Char → Bool) : (cs : List Char) → Decidable (OpensAfter p cs)
  | [] => isTrue opensAfter_nil
  | _ :: cs =>
    have := decidableOpensAfter p cs
    decidable_of_iff' _ opensAfter_cons_iff

/-- Between two opening braces stands a closing one, and between a closing brace and an opening
one there are not only blanks. -/
structure Braced (cs : List Char) : Prop where
  closed : ∀ z, '{' :: z <:+ cs → OpensAfter (· == '}') z
  apart : ∀ z, '}' :: z <:+ cs → OpensAfter (!isBlank ·) z

theorem Braced.of_suffix {cs ds : List Char} (h : Braced cs) (hd : ds <:+ cs) : Braced ds where
  closed z hz := h.closed z (hz.trans hd)
  apart z hz := h.apart z (hz.trans hd)

theorem braced_nil : Braced [] where
  closed z hz := by simp at hz
  apart z hz := by simp at hz

theorem braced_cons_iff {c : Char} {cs : List Char} :
    Braced (c :: cs) ↔ (c = '{' → OpensAfter (· == '}') cs) ∧
      (c = '}' → OpensAfter (!isBlank ·) cs) ∧ Braced cs := by
  constructor
  · intro h
    exact ⟨fun hc => h.closed cs (hc ▸ List.suffix_refl _),
      fun hc => h.apart cs (hc ▸ List.suffix_refl _), h.of_suffix (List.suffix_cons c cs)⟩
  · rintro ⟨hopen, hclose, h⟩
    constructor <;> intro z hz <;> rcases List.suffix_cons_iff.1 hz with he | hz
    · obtain ⟨rfl, rfl⟩ := List.cons.inj he
      exact hopen rfl
    · exact h.closed z hz
    · obtain ⟨rfl, rfl⟩ := List.cons.inj he
      exact hclose rfl
    · exact h.apart z hz

instance decidableBraced : (cs : List Char) → Decidable (Braced cs)
  | [] => isTrue braced_nil
  | _ :: cs =>
    have := decidableBraced cs
    decidable_of_iff' _ braced_cons_iff

end Text

section Scan

variable {names done : List (List Char)}

namespace Segment

/-- What is left of a segment when the clauses with the names `done` are blanked. -/
def left (done : List (List Char)) : Segment → List Char
  | plain c => [c]
  | clause k => if k.name ∈ done then [' '] else k.text

/-- What a scan for `names` sees in a segment of which this is left. -/
def seen (done names : List (List Char)) : Segment → List Segment
  | plain c => [plain c]
  | clause k =>
    if k.name ∈ done then [plain ' ']
    else if k.name ∈ names then [clause k]
    else k.text.map plain

theorem left_of_mem {k : Clause} (h : k.name ∈ done) : (clause k).left done = [' '] :=
  if_pos h

theorem left_of_not_mem {k : Clause} (h : k.name ∉ done) : (clause k).left done = k.text :=
  if_neg h

theorem flatMap_text_seen (s : Segment) : (s.seen done names).flatMap text = s.left done := by
  cases s with
  | plain c => rfl
  | clause k =>
    simp only [seen, left]
    split
    · rfl
    · split
      · simp [text]
      · exact flatMap_text_map_plain _

end Segment

/-- Clauses with known names, in a text where braces stand apart. -/
structure Regular (segs : List Segment) : Prop where
  fits : ∀ k, .clause k ∈ segs → k.Fits Axis.allNames
  braced : Text.Braced (segs.flatMap Segment.text)

theorem regular_segments {cs : List Char} (h : Text.Braced cs) :
    Regular (segments Axis.allNames cs) where
  fits _ := fits_of_mem_segments
  braced := by rwa [flatMap_text_segments]

theorem Regular.right {before after : List Segment} (h : Regular (before ++ after)) :
    Regular after where
  fits k hk := h.fits k (List.mem_append_right _ hk)
  braced := by
    have hb := h.braced
    rw [List.flatMap_append] at hb
    exact hb.of_suffix (List.suffix_append _ _)

theorem Regular.tail {s : Segment} {segs : List Segment} (h : Regular (s :: segs)) :
    Regular segs :=
  have h : Regular ([s] ++ segs) := h
  h.right

theorem Clause.opensAfter_text {k : Clause} {ds : List Char} (h : Text.Braced (k.text ++ ds)) :
    Text.OpensAfter (!Text.isBlank ·) ds :=
  h.apart ds ⟨k.name ++ k.blanks ++ '{' :: k.body, by simp [Clause.text]⟩

theorem Clause.Fits.brace_not_mem_body {k : Clause} (hk : k.Fits names) {ds : List Char}
    (h : Text.Braced (k.text ++ ds)) : '{' ∉ k.body := by
  intro hc
  obtain ⟨y, z, hy⟩ := List.append_of_mem hc
  have hclosed : Text.OpensAfter (· == '}') (k.body ++ '}' :: ds) :=
    h.closed _ ⟨k.name ++ k.blanks, by simp [Clause.text]⟩
  obtain ⟨c, hmem, he⟩ := hclosed y ⟨z ++ '}' :: ds, by simp [hy]⟩
  exact (hk.body c (by simp [hy, hmem])).1 (by simpa using he)

/-- Where only blanks stand before an opening brace, no clause has been blanked. -/
theorem Regular.ne_blanks_brace {segs : List Segment} (h : Regular segs)
    (hopen : Text.OpensAfter (!Text.isBlank ·) (segs.flatMap Segment.text))
    {b : List Char} (hb : ∀ c ∈ b, Text.isBlank c = true) (w : List Char) :
    segs.flatMap (Segment.left done) ≠ b ++ '{' :: w := by
  intro he
  induction segs generalizing b with
  | nil => simp at he
  | cons s segs ih =>
    cases s with
    | plain c =>
      cases b with
      | nil =>
        exact absurd (List.cons.inj he).1 (Text.opensAfter_cons_iff.1 hopen).1
      | cons d b =>
        obtain ⟨rfl, hrest⟩ := List.cons.inj he
        obtain ⟨hc, hb⟩ := List.forall_mem_cons.1 hb
        exact ih h.tail ((Text.opensAfter_cons_iff.1 hopen).2.resolve_left (by simp [hc])) hb hrest
    | clause k =>
      by_cases hk : k.name ∈ done
      · rw [List.flatMap_cons, Segment.left_of_mem hk, List.singleton_append] at he
        cases b with
        | nil => exact absurd (List.cons.inj he).1 (by decide)
        | cons d b =>
          -- the blanked clause ended in a brace, so `apart` starts anew behind it
          exact ih h.tail (Clause.opensAfter_text h.braced) (List.forall_mem_cons.1 hb).2
            (List.cons.inj he).2
      · obtain ⟨c, cs, hname⟩ := Axis.exists_cons_of_mem_allNames (h.fits k (by simp)).name_mem
        obtain ⟨hblank, hbrace, -⟩ := (h.fits k (by simp)).solid c (by simp [hname])
        rw [List.flatMap_cons, Segment.left_of_not_mem hk, Clause.text_append, hname] at he
        cases b with
        | nil => exact hbrace (List.cons.inj he).1
        | cons d b =>
          have hd := hb d (by simp)
          rw [← (List.cons.inj he).1, hblank] at hd
          exact Bool.noConfusion hd

/-- A name that ends in no other name, the blanks after it and an opening brace stand in what
is left only where they stood before. -/
theorem Regular.eq_front_of_left {segs : List Segment} (h : Regular segs) {n b w : List Char}
    (hn : Text.Solid n) (hsuffix : ∀ m, m <:+ n → m ∉ Axis.allNames)
    (hb : ∀ c ∈ b, Text.isBlank c = true)
    (he : segs.flatMap (Segment.left done) = n ++ (b ++ '{' :: w)) :
    ∃ rest, segs = (n ++ b ++ ['{']).map .plain ++ rest ∧
      rest.flatMap (Segment.left done) = w := by
  induction segs generalizing n b with
  | nil => simp at he
  | cons s segs ih =>
    cases s with
    | plain c =>
      cases n with
      | nil =>
        cases b with
        | nil =>
          obtain ⟨rfl, hrest⟩ := List.cons.inj he
          exact ⟨segs, rfl, hrest⟩
        | cons d b =>
          obtain ⟨rfl, hrest⟩ := List.cons.inj he
          obtain ⟨rest, rfl, hw⟩ := ih h.tail hn hsuffix (List.forall_mem_cons.1 hb).2 hrest
          exact ⟨rest, rfl, hw⟩
      | cons d n =>
        obtain ⟨rfl, hrest⟩ := List.cons.inj he
        obtain ⟨rest, rfl, hw⟩ := ih h.tail hn.tail
          (fun m hm => hsuffix m (hm.trans (List.suffix_cons c n))) hb hrest
        exact ⟨rest, rfl, hw⟩
    | clause k =>
      have hk := h.fits k (by simp)
      by_cases hdone : k.name ∈ done
      · rw [List.flatMap_cons, Segment.left_of_mem hdone, List.singleton_append] at he
        cases n with
        | nil =>
          cases b with
          | nil => exact absurd (List.cons.inj he).1 (by decide)
          | cons d b =>
            exact absurd (List.cons.inj he).2 (h.tail.ne_blanks_brace
              (Clause.opensAfter_text h.braced) (List.forall_mem_cons.1 hb).2 w)
        | cons d n =>
          have hd := (hn d (by simp)).1
          rw [← (List.cons.inj he).1] at hd
          exact absurd hd (by decide)
      · rw [List.flatMap_cons, Segment.left_of_not_mem hdone, Clause.text_append] at he
        -- the brace belongs to this clause, and then its name is the rest of `n`
        obtain ⟨rfl, -, -⟩ := Clause.front_inj hk.solid hn hk.blank hb he
        exact absurd hk.name_mem (hsuffix _ (List.suffix_refl _))

/-- After an opening brace, what stands before the next closing one is not touched. -/
theorem Regular.exists_body_eq_of_left {segs : List Segment} (h : Regular segs)
    (hclosed : Text.OpensAfter (· == '}') (segs.flatMap Segment.text)) {body z : List Char}
    (hbody : ∀ c ∈ body, c ≠ '}')
    (he : segs.flatMap (Segment.left done) = body ++ '}' :: z) :
    ∃ rest, segs.flatMap Segment.text = body ++ '}' :: rest := by
  induction segs generalizing body with
  | nil => simp at he
  | cons s segs ih =>
    cases s with
    | plain c =>
      cases body with
      | nil =>
        obtain ⟨rfl, -⟩ := List.cons.inj he
        exact ⟨segs.flatMap Segment.text, rfl⟩
      | cons d body =>
        obtain ⟨rfl, hrest⟩ := List.cons.inj he
        obtain ⟨hc, hbody⟩ := List.forall_mem_cons.1 hbody
        have hclosed := (Text.opensAfter_cons_iff.1 hclosed).2.resolve_left (by simpa using hc)
        obtain ⟨rest, hr⟩ := ih h.tail hclosed hbody hrest
        exact ⟨rest, congrArg (c :: ·) hr⟩
    | clause k =>
      have hk := h.fits k (by simp)
      obtain ⟨c, hmem, hc⟩ := hclosed (k.name ++ k.blanks)
        ⟨k.body ++ '}' :: segs.flatMap Segment.text, by simp [Segment.text, Clause.text]⟩
      obtain rfl : c = '}' := by simpa using hc
      exact absurd hmem (hk.solid.brace_not_mem hk.blank (.inr rfl))

/-- A clause that is read where a single character stood was there before the blanking. -/
theorem Regular.exists_text_eq_of_left {c : Char} {segs : List Segment}
    (h : Regular (.plain c :: segs)) {k : Clause} (hk : k.Fits Axis.allNames) {z : List Char}
    (he : c :: segs.flatMap (Segment.left done) = k.text ++ z) :
    ∃ rest, c :: segs.flatMap Segment.text = k.text ++ rest := by
  -- `c` is the first letter of the name, and what follows it is no name any more
  obtain ⟨d, n, hname⟩ := Axis.exists_cons_of_mem_allNames hk.name_mem
  have hsolid := hk.solid
  have hmem := hk.name_mem
  rw [hname] at hsolid hmem
  rw [Clause.text_append, hname] at he
  obtain ⟨rfl, hrest⟩ := List.cons.inj he
  obtain ⟨inner, rfl, hinner⟩ := h.tail.eq_front_of_left hsolid.tail
    (fun m hm => Axis.not_mem_allNames_of_suffix hmem hm) hk.blank hrest
  have hclosed : Text.OpensAfter (· == '}') (inner.flatMap Segment.text) := by
    refine h.braced.closed _ ⟨c :: n ++ k.blanks, ?_⟩
    rw [List.flatMap_cons, List.flatMap_append, Segment.flatMap_text_map_plain]
    simp [Segment.text]
  obtain ⟨rest, hr⟩ :=
    h.tail.right.exists_body_eq_of_left hclosed (fun e he => (hk.body e he).1) hinner
  refine ⟨rest, ?_⟩
  rw [Clause.text_append, hname, List.flatMap_append, Segment.flatMap_text_map_plain, hr]
  simp

/-- What a scan for some of the names sees when the clauses with other names are blanked. -/
theorem segments_of_left (done : List (List Char)) (hn : names ⊆ Axis.allNames) {cs : List Char}
    (h : Text.Braced cs) :
    segments names ((segments Axis.allNames cs).flatMap (Segment.left done)) =
      (segments Axis.allNames cs).flatMap (Segment.seen done names) := by
  have hregular := regular_segments h
  fun_induction segments Axis.allNames cs with
  | case1 => rw [List.flatMap_nil, List.flatMap_nil, segments]
  | case2 c cs k after hhead ih =>
    have hk := Clause.fits_of_head? hhead
    have hcs := (Clause.eq_append_of_head? hhead).2
    have ih := ih (h.of_suffix (hcs ▸ List.suffix_append _ _)) hregular.tail
    rw [List.flatMap_cons, List.flatMap_cons]
    by_cases hdone : k.name ∈ done
    · have hspace : ∀ c ∈ [' '], Text.isBlank c = true ∨ c = '{' := fun c hc =>
        .inl (List.mem_singleton.1 hc ▸ by decide)
      rw [Segment.left_of_mem hdone, segments_blanks_append hn hspace, ih, Segment.seen,
        if_pos hdone]
      rfl
    · rw [Segment.left_of_not_mem hdone, Segment.seen, if_neg hdone]
      split
      · rename_i hname
        rw [segments_of_head? (Clause.head?_text_append hn { hk with name_mem := hname } _), ih]
        rfl
      · rename_i hname
        rw [segments_text_append hn hk hname (hk.brace_not_mem_body (hcs ▸ h)), ih]
  | case3 c cs hhead ih =>
    have ih := ih (h.of_suffix (List.suffix_cons c cs)) hregular.tail
    have hnone : Clause.head? names
        (c :: (segments Axis.allNames cs).flatMap (Segment.left done)) = none := by
      rw [Option.eq_none_iff_forall_ne_some]
      rintro ⟨l, y⟩ hl
      -- a clause that is found here now would have been found before
      have hfits := (Clause.fits_of_head? hl).mono hn
      obtain ⟨rest, hr⟩ :=
        hregular.exists_text_eq_of_left hfits (Clause.eq_append_of_head? hl).2
      rw [flatMap_text_segments] at hr
      rw [hr, Clause.head?_text_append (List.Subset.refl _) hfits] at hhead
      exact Option.some_ne_none _ hhead
    rw [List.flatMap_cons, List.flatMap_cons]
    exact (segments_cons_of_none hnone).trans (congrArg (Segment.plain c :: ·) ih)

end Scan

end OpeningHours
