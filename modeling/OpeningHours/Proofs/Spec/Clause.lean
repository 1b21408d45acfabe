import Mathlib.Data.List.Infix
import Mathlib.Data.List.TakeWhile
import OpeningHours.Spec.Axis
import OpeningHours.Spec.Clause

/-!
# Clauses in a text

What stands at the head of a text is a clause with some of the names exactly if it looks like one
(`Clause.fits_of_head?`, `Clause.head?_text_append`). A clause is known by its name, its blanks
and its opening brace (`Clause.front_inj`), and none of the names ends in another one
(`Axis.not_mem_allNames_of_suffix`). So no clause starts inside one whose braces hold no further
brace: a scan for other names passes it over character by character (`segments_text_append`). Nor
does one start in the text before a clause if that has no opening brace (`segments_before_name`).
-/

namespace OpeningHours

namespace Text

theorem append_cons_inj {x y w v : List Char} {c : Char} (hx : c ∉ x) (hy : c ∉ y)
    (h : x ++ c :: w = y ++ c :: v) : x = y ∧ w = v := by
  induction x generalizing y with
  | nil =>
    cases y with
    | nil => exact ⟨rfl, (List.cons.inj h).2⟩
    | cons e y => exact absurd (List.cons.inj h).1 fun he => hy (by simp [he])
  | cons d x ih =>
    cases y with
    | nil => exact absurd (List.cons.inj h).1 fun he => hx (by simp [he])
    | cons e y =>
      simp only [List.mem_cons, not_or] at hx hy
      obtain ⟨rfl, hrest⟩ := List.cons.inj h
      obtain ⟨rfl, rfl⟩ := ih hx.2 hy.2 hrest
      exact ⟨rfl, rfl⟩

theorem append_cons_ne {x y w v : List Char} {c d : Char} (hcd : c ≠ d) (hx : d ∉ x)
    (hy : c ∉ y) : x ++ c :: w ≠ y ++ d :: v := by
  intro h
  rcases List.append_eq_append_iff.1 h with ⟨t, rfl, ht⟩ | ⟨t, rfl, ht⟩
  · cases t with
    | nil => exact hcd (List.cons.inj ht).1
    | cons e t => exact hy (by simp [(List.cons.inj ht).1])
  · cases t with
    | nil => exact hcd (List.cons.inj ht).1.symm
    | cons e t => exact hx (by simp [(List.cons.inj ht).1])

/-- Neither blanks nor braces. -/
def Solid (cs : List Char) : Prop :=
  ∀ c ∈ cs, isBlank c = false ∧ c ≠ '{' ∧ c ≠ '}'

instance (cs : List Char) : Decidable (Solid cs) :=
  List.decidableBAll _ cs

theorem Solid.tail {c : Char} {cs : List Char} (h : Solid (c :: cs)) : Solid cs := fun d hd =>
  h d (List.mem_cons_of_mem c hd)

theorem Solid.brace_not_mem {n b : List Char} (hn : Solid n) (hb : ∀ c ∈ b, isBlank c = true)
    {c : Char} (hc : c = '{' ∨ c = '}') : c ∉ n ++ b := by
  have hblank : isBlank c = false := by rcases hc with rfl | rfl <;> decide
  intro hmem
  rcases List.mem_append.1 hmem with hmem | hmem
  · obtain ⟨-, hopen, hclose⟩ := hn c hmem
    exact hc.elim hopen hclose
  · simp [hb c hmem] at hblank

theorem Solid.takeWhile_append {n b : List Char} (hn : Solid n) (hb : ∀ c ∈ b, isBlank c = true) :
    (n ++ b).takeWhile (!isBlank ·) = n := by
  rw [List.takeWhile_append_of_pos fun c hc => by simp [(hn c hc).1]]
  cases b with
  | nil => simp
  | cons c b => simp [hb c (by simp)]

/-- What stands before a word and some blanks is the rest of the word that ends there. -/
theorem Solid.eq_append_of_append_blanks {v n b m d : List Char} (hn : Solid n) (hne : n ≠ [])
    (hm : Solid m) (hb : ∀ c ∈ b, isBlank c = true) (hd : ∀ c ∈ d, isBlank c = true)
    (h : v ++ (n ++ b) = m ++ d) : m = v ++ n := by
  rcases List.append_eq_append_iff.1 h with ⟨t, rfl, ht⟩ | ⟨t, rfl, rfl⟩
  · have hsolid : Solid t := fun c hc => hm c (List.mem_append_right v hc)
    rw [← hn.takeWhile_append hb, ht, hsolid.takeWhile_append hd]
  · obtain ⟨c, hc⟩ := List.exists_mem_of_ne_nil n hne
    have hblank := hd c (by simp [hc])
    rw [(hn c hc).1] at hblank
    cases hblank

end Text

namespace Axis

/-- The names of the clauses on any axis. -/
def allNames : List (List Char) :=
  all.flatMap names

theorem mem_all (a : Axis) : a ∈ all := by
  cases a <;> decide

theorem names_subset_allNames (a : Axis) : a.names ⊆ allNames := fun _ hn =>
  List.mem_flatMap.2 ⟨a, a.mem_all, hn⟩

theorem exists_mem_names {name : List Char} (h : name ∈ allNames) : ∃ a : Axis, name ∈ a.names :=
  let ⟨a, _, ha⟩ := List.mem_flatMap.1 h
  ⟨a, ha⟩

theorem solid_of_mem_allNames {name : List Char} (h : name ∈ allNames) : Text.Solid name := by
  have hall : allNames.all (·.all fun c => !Text.isBlank c && c != '{' && c != '}') = true := by
    decide
  intro c hc
  simpa [and_assoc] using List.all_eq_true.1 (List.all_eq_true.1 hall name h) c hc

theorem ne_nil_of_mem_allNames {name : List Char} (h : name ∈ allNames) : name ≠ [] := fun he =>
  absurd (he ▸ h) (by decide)

theorem exists_cons_of_mem_allNames {name : List Char} (h : name ∈ allNames) :
    ∃ c cs, name = c :: cs :=
  List.exists_cons_of_ne_nil (ne_nil_of_mem_allNames h)

/-- No name ends in another name. -/
theorem not_mem_allNames_of_suffix {c : Char} {cs tail : List Char} (h : c :: cs ∈ allNames)
    (ht : tail <:+ cs) : tail ∉ allNames := by
  have hall : ∀ name ∈ allNames, ∀ tail ∈ name.tail.tails, tail ∉ allNames := by decide
  exact hall _ h tail ((List.mem_tails _ _).2 ht)

end Axis

namespace Clause

/-- A clause that a scan can find. -/
structure Fits (names : List (List Char)) (k : Clause) : Prop where
  name_mem : k.name ∈ names
  blank : ∀ c ∈ k.blanks, Text.isBlank c = true
  body : ∀ c ∈ k.body, c ≠ '}' ∧ c ≠ '\n'

theorem Fits.mono {names names' : List (List Char)} {k : Clause} (h : k.Fits names)
    (hn : names ⊆ names') : k.Fits names' :=
  { h with name_mem := hn h.name_mem }

theorem Fits.solid {k : Clause} (h : k.Fits Axis.allNames) : Text.Solid k.name :=
  Axis.solid_of_mem_allNames h.name_mem

theorem text_append (k : Clause) (z : List Char) :
    k.text ++ z = k.name ++ (k.blanks ++ '{' :: (k.body ++ '}' :: z)) := by
  simp [text]

/-- A name, the blanks after it and an opening brace are known from the text. -/
theorem front_inj {n m b d w v : List Char} (hn : Text.Solid n) (hm : Text.Solid m)
    (hb : ∀ c ∈ b, Text.isBlank c = true) (hd : ∀ c ∈ d, Text.isBlank c = true)
    (h : n ++ (b ++ '{' :: w) = m ++ (d ++ '{' :: v)) : n = m ∧ b = d ∧ w = v := by
  rw [← List.append_assoc, ← List.append_assoc] at h
  obtain ⟨hfront, hrest⟩ :=
    Text.append_cons_inj (hn.brace_not_mem hb (.inl rfl)) (hm.brace_not_mem hd (.inl rfl)) h
  have hnm : n = m := by rw [← hn.takeWhile_append hb, hfront, hm.takeWhile_append hd]
  subst hnm
  exact ⟨rfl, List.append_cancel_left hfront, hrest⟩

theorem not_mem_of_splitClose? {cs body after : List Char}
    (h : splitClose? cs = some (body, after)) : ∀ c ∈ body, c ≠ '}' ∧ c ≠ '\n' := by
  induction cs generalizing body after with
  | nil => simp [splitClose?] at h
  | cons c cs ih =>
    simp only [splitClose?] at h
    split at h
    · simp_all
    · rename_i hclose
      split at h
      · simp at h
      · rename_i hline
        obtain ⟨⟨b, a⟩, hr, he⟩ := Option.map_eq_some_iff.1 h
        simp only [Prod.mk.injEq] at he
        obtain ⟨rfl, rfl⟩ := he
        exact List.forall_mem_cons.2 ⟨⟨hclose, hline⟩, ih hr⟩

theorem splitClose?_append {body : List Char} (h : ∀ c ∈ body, c ≠ '}' ∧ c ≠ '\n')
    (after : List Char) : splitClose? (body ++ '}' :: after) = some (body, after) := by
  induction body with
  | nil => simp [splitClose?]
  | cons c body ih =>
    obtain ⟨hc, hbody⟩ := List.forall_mem_cons.1 h
    simp [splitClose?, hc, ih hbody]

theorem fits_of_head? {names : List (List Char)} {cs after : List Char} {k : Clause}
    (h : head? names cs = some (k, after)) : k.Fits names := by
  have hname := (eq_append_of_head? h).1
  obtain ⟨name, -, h⟩ := List.exists_of_findSome?_eq_some h
  unfold ofName? afterName? at h
  split at h
  · split at h
    · obtain ⟨⟨b, a⟩, hr, he⟩ := Option.map_eq_some_iff.1 h
      simp only [Prod.mk.injEq] at he
      obtain ⟨rfl, rfl⟩ := he
      exact ⟨hname, fun c hc => List.mem_takeWhile_imp hc, not_mem_of_splitClose? hr⟩
    · simp at h
  · simp at h

theorem ofName?_text_append {names : List (List Char)} {k : Clause} (h : k.Fits names)
    (z : List Char) : ofName? k.name (k.text ++ z) = some (k, z) := by
  rw [text_append, ofName?, if_pos (by simp), List.drop_left, afterName?]
  have hbrace : Text.isBlank '{' = false := by decide
  have hdrop (w : List Char) : (k.blanks ++ '{' :: w).dropWhile Text.isBlank = '{' :: w := by
    rw [List.dropWhile_append_of_pos h.blank]
    simp [hbrace]
  have htake (w : List Char) : (k.blanks ++ '{' :: w).takeWhile Text.isBlank = k.blanks := by
    rw [List.takeWhile_append_of_pos h.blank]
    simp [hbrace]
  simp [hdrop, htake, splitClose?_append h.body]

theorem text_inj {k l : Clause} {y z : List Char} (hk : k.Fits Axis.allNames)
    (hl : l.Fits Axis.allNames) (h : k.text ++ y = l.text ++ z) : k = l ∧ y = z := by
  rw [text_append, text_append] at h
  obtain ⟨hname, hblanks, hrest⟩ := front_inj hk.solid hl.solid hk.blank hl.blank h
  obtain ⟨hbody, hz⟩ := Text.append_cons_inj (fun hc => (hk.body _ hc).1 rfl)
    (fun hc => (hl.body _ hc).1 rfl) hrest
  obtain ⟨name, blanks, body⟩ := k
  simp_all

/-- A clause at the head of a text is found. -/
theorem head?_text_append {names : List (List Char)} (hn : names ⊆ Axis.allNames) {k : Clause}
    (h : k.Fits names) (z : List Char) : head? names (k.text ++ z) = some (k, z) := by
  have hsome : (head? names (k.text ++ z)).isSome = true :=
    List.findSome?_isSome_iff.2 ⟨k.name, h.name_mem, by rw [ofName?_text_append h z]; rfl⟩
  obtain ⟨⟨l, y⟩, hl⟩ := Option.isSome_iff_exists.1 hsome
  obtain ⟨rfl, rfl⟩ := text_inj (h.mono hn) ((fits_of_head? hl).mono hn) (eq_append_of_head? hl).2
  exact hl

/-- No clause is found at a name that is not asked for, or where the body goes over a line end. -/
theorem head?_text_append_eq_none {names : List (List Char)} (hn : names ⊆ Axis.allNames)
    {k : Clause} (hname : k.name ∈ Axis.allNames) (hblank : ∀ c ∈ k.blanks, Text.isBlank c = true)
    (hclose : '}' ∉ k.body) (h : k.name ∈ names → '\n' ∈ k.body) (z : List Char) :
    head? names (k.text ++ z) = none := by
  rw [Option.eq_none_iff_forall_ne_some]
  rintro ⟨l, y⟩ hl
  have hfits := fits_of_head? hl
  have he := (eq_append_of_head? hl).2
  rw [text_append, text_append] at he
  obtain ⟨heq, -, hrest⟩ := front_inj (Axis.solid_of_mem_allNames hname) (hfits.mono hn).solid
    hblank hfits.blank he
  obtain ⟨hbody, -⟩ := Text.append_cons_inj hclose (fun hc => (hfits.body _ hc).1 rfl) hrest
  have hline := h (heq ▸ hfits.name_mem)
  rw [hbody] at hline
  exact (hfits.body _ hline).2 rfl

end Clause

section Scan

variable {names : List (List Char)}

theorem segments_of_head? {cs after : List Char} {k : Clause}
    (h : Clause.head? names cs = some (k, after)) :
    segments names cs = .clause k :: segments names after := by
  cases cs with
  | nil => simpa [Clause.text] using (Clause.eq_append_of_head? h).2
  | cons c cs =>
    rw [segments]
    split <;> simp_all

theorem segments_cons_of_none {c : Char} {cs : List Char}
    (h : Clause.head? names (c :: cs) = none) :
    segments names (c :: cs) = .plain c :: segments names cs := by
  rw [segments]
  split <;> simp_all

theorem fits_of_mem_segments {cs : List Char} {k : Clause} (h : .clause k ∈ segments names cs) :
    k.Fits names := by
  fun_induction segments names cs with
  | case1 => simp at h
  | case2 c cs clause after hhead ih =>
    rcases List.mem_cons.1 h with he | h
    · obtain rfl := Segment.clause.inj he
      exact Clause.fits_of_head? hhead
    · exact ih h
  | case3 c cs hhead ih => exact ih (by simpa using h)

theorem Segment.flatMap_text_map_plain (cs : List Char) : (cs.map plain).flatMap text = cs := by
  induction cs with
  | nil => rfl
  | cons c cs ih => simp [text, ih]

/-! A clause with another name is read as single characters. -/

section Other

variable (hn : names ⊆ Axis.allNames)

include hn

theorem segments_blanks_append {b : List Char}
    (hb : ∀ c ∈ b, Text.isBlank c = true ∨ c = '{') (w : List Char) :
    segments names (b ++ w) = b.map .plain ++ segments names w := by
  induction b with
  | nil => rfl
  | cons c b ih =>
    obtain ⟨hc, hb⟩ := List.forall_mem_cons.1 hb
    have hnone : Clause.head? names (c :: (b ++ w)) = none := by
      rw [Option.eq_none_iff_forall_ne_some]
      rintro ⟨l, y⟩ hl
      have hmem := hn (Clause.fits_of_head? hl).name_mem
      obtain ⟨d, n, hname⟩ := Axis.exists_cons_of_mem_allNames hmem
      have he := (Clause.eq_append_of_head? hl).2
      rw [Clause.text_append, hname] at he
      obtain ⟨rfl, -⟩ := List.cons.inj he
      obtain ⟨hblank, hbrace, -⟩ := Axis.solid_of_mem_allNames hmem c (by simp [hname])
      simp_all
    rw [List.cons_append, segments_cons_of_none hnone, ih hb, List.map_cons, List.cons_append]

theorem segments_name_append {n b w : List Char}
    (hs : Text.Solid n) (hsuffix : ∀ m, m <:+ n → m ∉ names) (hb : ∀ c ∈ b, Text.isBlank c = true) :
    segments names (n ++ (b ++ '{' :: w)) = n.map .plain ++ segments names (b ++ '{' :: w) := by
  induction n with
  | nil => rfl
  | cons c n ih =>
    have hnone : Clause.head? names (c :: (n ++ (b ++ '{' :: w))) = none := by
      rw [Option.eq_none_iff_forall_ne_some]
      rintro ⟨l, y⟩ hl
      have hfits := Clause.fits_of_head? hl
      have he := (Clause.eq_append_of_head? hl).2
      rw [Clause.text_append, ← List.cons_append] at he
      obtain ⟨hname, -, -⟩ := Clause.front_inj hs
        (hfits.mono hn).solid hb hfits.blank he
      exact hsuffix _ (List.suffix_refl _) (hname ▸ hfits.name_mem)
    rw [List.cons_append, segments_cons_of_none hnone, ih hs.tail
      (fun m hm => hsuffix m (hm.trans (List.suffix_cons c n))), List.map_cons, List.cons_append]

theorem segments_body_append {body : List Char} (hbody : '{' ∉ body) (z : List Char) :
    segments names (body ++ '}' :: z) = (body ++ ['}']).map .plain ++ segments names z := by
  have hnone {u : List Char} (hu : '{' ∉ u) : Clause.head? names (u ++ '}' :: z) = none := by
    rw [Option.eq_none_iff_forall_ne_some]
    rintro ⟨l, y⟩ hl
    have hfits := Clause.fits_of_head? hl
    have he := (Clause.eq_append_of_head? hl).2
    rw [Clause.text_append, ← List.append_assoc] at he
    exact Text.append_cons_ne (by decide) hu
      ((hfits.mono hn).solid.brace_not_mem hfits.blank (.inr rfl)) he
  induction body with
  | nil => exact segments_cons_of_none (hnone hbody)
  | cons c body ih =>
    have ih := ih fun h => hbody (List.mem_cons_of_mem c h)
    exact (segments_cons_of_none (hnone hbody)).trans (congrArg (Segment.plain c :: ·) ih)

/-- A clause that is not found is read as single characters: none starts inside it. -/
theorem segments_text_append_of_none {k : Clause} (hname : k.name ∈ Axis.allNames)
    (hblank : ∀ c ∈ k.blanks, Text.isBlank c = true) (hbody : '{' ∉ k.body) {z : List Char}
    (hnone : Clause.head? names (k.text ++ z) = none) :
    segments names (k.text ++ z) = k.text.map .plain ++ segments names z := by
  obtain ⟨c, cs, hcons⟩ := Axis.exists_cons_of_mem_allNames hname
  have hsolid : Text.Solid (c :: cs) := hcons ▸ Axis.solid_of_mem_allNames hname
  have hsuffix : ∀ m, m <:+ cs → m ∉ names := fun m hm hmem =>
    Axis.not_mem_allNames_of_suffix (hcons ▸ hname) hm (hn hmem)
  have hfront : ∀ c ∈ k.blanks ++ ['{'], Text.isBlank c = true ∨ c = '{' := by
    intro c hc
    rcases List.mem_append.1 hc with hc | hc
    · exact .inl (hblank c hc)
    · exact .inr (List.mem_singleton.1 hc)
  rw [Clause.text_append, hcons, List.cons_append] at hnone
  calc segments names (k.text ++ z)
      = .plain c :: segments names (cs ++ (k.blanks ++ '{' :: (k.body ++ '}' :: z))) := by
        rw [Clause.text_append, hcons, List.cons_append, segments_cons_of_none hnone]
    _ = k.name.map .plain ++ segments names (k.blanks ++ '{' :: (k.body ++ '}' :: z)) := by
        rw [segments_name_append hn hsolid.tail hsuffix hblank, hcons, List.map_cons,
          List.cons_append]
    _ = k.name.map .plain ++ ((k.blanks ++ ['{']).map .plain ++
          segments names (k.body ++ '}' :: z)) := by
        rw [← segments_blanks_append hn hfront]
        simp
    _ = k.text.map .plain ++ segments names z := by
        rw [segments_body_append hn hbody]
        simp [Clause.text]

theorem segments_text_append {k : Clause} (hk : k.Fits Axis.allNames) (hname : k.name ∉ names)
    (hbody : '{' ∉ k.body) (z : List Char) :
    segments names (k.text ++ z) = k.text.map .plain ++ segments names z :=
  segments_text_append_of_none hn hk.name_mem hk.blank hbody <|
    Clause.head?_text_append_eq_none hn hk.name_mem hk.blank (fun hc => (hk.body _ hc).1 rfl)
      (fun h => absurd h hname) z

/-- The name of a clause does not start in the text before it. -/
theorem segments_before_name {x n b w : List Char} (hx : '{' ∉ x) (hname : n ∈ Axis.allNames)
    (hb : ∀ c ∈ b, Text.isBlank c = true) :
    segments names (x ++ (n ++ (b ++ '{' :: w))) =
      x.map .plain ++ segments names (n ++ (b ++ '{' :: w)) := by
  have hsolid := Axis.solid_of_mem_allNames hname
  induction x with
  | nil => rfl
  | cons c x ih =>
    have hnone : Clause.head? names (c :: (x ++ (n ++ (b ++ '{' :: w)))) = none := by
      rw [Option.eq_none_iff_forall_ne_some]
      rintro ⟨l, y⟩ hl
      have hfits := (Clause.fits_of_head? hl).mono hn
      have he := (Clause.eq_append_of_head? hl).2
      rw [Clause.text_append, ← List.cons_append, ← List.append_assoc n, ← List.append_assoc,
        ← List.append_assoc l.name] at he
      have hbrace : '{' ∉ (c :: x) ++ (n ++ b) := fun hc =>
        (List.mem_append.1 hc).elim hx (hsolid.brace_not_mem hb (.inl rfl))
      obtain ⟨hfront, -⟩ := Text.append_cons_inj hbrace
        (hfits.solid.brace_not_mem hfits.blank (.inl rfl)) he
      -- the name that is found would have this name as its end
      have hl := hfits.name_mem
      rw [hsolid.eq_append_of_append_blanks (Axis.ne_nil_of_mem_allNames hname)
        hfits.solid hb hfits.blank hfront] at hl
      exact Axis.not_mem_allNames_of_suffix hl (List.suffix_append x n) hname
    rw [List.cons_append, segments_cons_of_none hnone, ih fun h => hx (List.mem_cons_of_mem c h),
      List.map_cons, List.cons_append]

omit hn in
theorem segments_of_brace_not_mem {x : List Char} (hx : '{' ∉ x) :
    segments names x = x.map .plain := by
  induction x with
  | nil => rw [segments, List.map_nil]
  | cons c x ih =>
    have hnone : Clause.head? names (c :: x) = none := by
      rw [Option.eq_none_iff_forall_ne_some]
      rintro ⟨l, y⟩ hl
      rw [(Clause.eq_append_of_head? hl).2] at hx
      simp [Clause.text] at hx
    rw [segments_cons_of_none hnone, ih fun h => hx (List.mem_cons_of_mem c h), List.map_cons]

end Other

end Scan

end OpeningHours
