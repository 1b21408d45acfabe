import OpeningHours.Proofs.Period.NormalForm
import OpeningHours.Spec.Expansion

/-!
# Boxes of points

A combination of spans, one on each scale of a cycle, is a box of points, and its periods cover
exactly the box. One period is a block: the finest digit runs through its span while the coarser
digits stay (`covers_block_iff`), and in the order of a round nothing else lies between two points
with the same coarser digits. Several spans on each scale make several boxes, one for each choice;
a point is in one of them exactly if each of its digits is in one of the spans of its scale
(`exists_choice_iff`). Together: the periods of all choices cover what the spans offer
(`exists_expansion_eq_ok`).
-/

namespace OpeningHours

namespace Span

instance : Membership Int Span := ⟨fun r v => r.start ≤ v ∧ v ≤ r.stop⟩

theorem mem_def {r : Span} {v : Int} : v ∈ r ↔ r.start ≤ v ∧ v ≤ r.stop := Iff.rfl

/-- The span does not wrap and lies in the domain of the scale. -/
structure Fits (r : Span) (s : Scale) : Prop where
  ordered : r.start ≤ r.stop
  start_mem : s.contains r.start = true
  stop_mem : s.contains r.stop = true

theorem Fits.contains {r : Span} {s : Scale} (h : r.Fits s) {v : Int} (hv : v ∈ r) :
    s.contains v = true := by
  have h1 := Scale.contains_iff.1 h.start_mem
  have h2 := Scale.contains_iff.1 h.stop_mem
  have hv := mem_def.1 hv
  exact Scale.contains_iff.2 ⟨by omega, by omega⟩

end Span

namespace Combination

/-- The digits are on the combination's scales, each in its span. -/
def Holds : Combination → Digits → Prop
  | [], [] => True
  | (s, r) :: ch, (t, v) :: ds => t = s ∧ v ∈ r ∧ Holds ch ds
  | _, _ => False

/-- Every span is one of the scale it is on. -/
def Fits (ch : Combination) : Prop :=
  ∀ d ∈ ch, d.2.Fits d.1

theorem mem_choices_values_iff {ch : Combination} {ds : Digits} :
    ds ∈ choices ch.values ↔ ch.Holds ds := by
  induction ch generalizing ds with
  | nil => cases ds <;> simp [values, choices, Holds]
  | cons d ch ih =>
    obtain ⟨s, r⟩ := d
    rw [show values ((s, r) :: ch) = (s, r.values) :: values ch from rfl, mem_choices_cons]
    constructor
    · intro hx
      obtain ⟨v, hv, tail, ht, rfl⟩ := hx
      exact ⟨rfl, Span.mem_values_iff.1 hv, ih.1 ht⟩
    · intro h
      cases ds with
      | nil => exact h.elim
      | cons e ds =>
        obtain ⟨t, v⟩ := e
        obtain ⟨rfl, hv, ht⟩ := h
        exact ⟨v, Span.mem_values_iff.2 hv, ds, ih.2 ht, rfl⟩

theorem Holds.map_fst {ch : Combination} {ds : Digits} (h : ch.Holds ds) :
    ds.map Prod.fst = ch.map Prod.fst := by
  induction ch generalizing ds with
  | nil =>
    cases ds with
    | nil => rfl
    | cons e ds => exact h.elim
  | cons d ch ih =>
    cases ds with
    | nil => exact h.elim
    | cons e ds =>
      obtain ⟨he, -, ht⟩ := h
      rw [List.map_cons, List.map_cons, ih ht, he]

theorem Holds.contains {ch : Combination} {ds : Digits} (h : ch.Holds ds) (hf : ch.Fits) :
    ∀ d ∈ ds, d.1.contains d.2 = true := by
  induction ch generalizing ds with
  | nil =>
    cases ds with
    | nil => simp
    | cons e ds => exact h.elim
  | cons d ch ih =>
    cases ds with
    | nil => exact h.elim
    | cons e ds =>
      obtain ⟨he, hv, ht⟩ := h
      intro x hx
      rcases List.mem_cons.1 hx with rfl | hx
      · rw [he]
        exact (hf d (by simp)).contains hv
      · exact ih ht (fun y hy => hf y (by simp [hy])) x hx

end Combination

/-- Whether each digit is in one of the spans that are listed for its scale. -/
def Offered : List (Scale × List Span) → Digits → Prop
  | [], [] => True
  | (s, rs) :: rest, (t, v) :: ds => t = s ∧ (∃ r ∈ rs, v ∈ r) ∧ Offered rest ds
  | _, _ => False

theorem exists_choice_iff {ranges : List (Scale × List Span)} {ds : Digits} :
    (∃ ch ∈ choices ranges, Combination.Holds ch ds) ↔ Offered ranges ds := by
  induction ranges generalizing ds with
  | nil => cases ds <;> simp [choices, Combination.Holds, Offered]
  | cons d ranges ih =>
    obtain ⟨s, rs⟩ := d
    constructor
    · intro hx
      obtain ⟨ch, hch, h⟩ := hx
      obtain ⟨r, hr, tail, ht, rfl⟩ := mem_choices_cons.1 hch
      cases ds with
      | nil => exact h.elim
      | cons e ds =>
        obtain ⟨he, hv, h⟩ := h
        exact ⟨he, ⟨r, hr, hv⟩, ih.1 ⟨tail, ht, h⟩⟩
    · intro h
      cases ds with
      | nil => exact h.elim
      | cons e ds =>
        obtain ⟨he, ⟨r, hr, hv⟩, h⟩ := h
        obtain ⟨tail, ht, h⟩ := ih.2 h
        exact ⟨(s, r) :: tail, mem_choices_cons.2 ⟨r, hr, tail, ht, rfl⟩, he, hv, h⟩

theorem offered_map_iff {κ : Type} {scale : κ → Scale} {ks : List κ} {rs : κ → List Span}
    {v : κ → Int} :
    Offered (ks.map fun k => (scale k, rs k)) (ks.map fun k => (scale k, v k)) ↔
      ∀ k ∈ ks, ∃ r ∈ rs k, v k ∈ r := by
  induction ks with
  | nil => simp [Offered]
  | cons k ks ih =>
    rw [List.map_cons, List.map_cons, Offered, ih]
    simp

/-- What is given on the scales of a cycle has its order already. -/
theorem Cycle.byRank_eq {α : Type} {c : Cycle} {ds : List (Scale × α)}
    (h : ds.map Prod.fst = c.scales) : byRank ds = ds :=
  byRank_of_pairwise (h ▸ c.pairwise_rank.imp Nat.le_of_lt)

/-- A choice is on the scales of the lists, and takes each element from the list of its scale. -/
theorem map_fst_of_mem_choices {κ α : Type} {ranges : List (κ × List α)} {ch : List (κ × α)}
    (h : ch ∈ choices ranges) : ch.map Prod.fst = ranges.map Prod.fst := by
  induction ranges generalizing ch with
  | nil =>
    obtain rfl := List.mem_singleton.1 h
    rfl
  | cons d ranges ih =>
    obtain ⟨x, -, tail, ht, rfl⟩ := mem_choices_cons.1 h
    rw [List.map_cons, List.map_cons, ih ht]

theorem mem_of_mem_choices {κ α : Type} {ranges : List (κ × List α)} {ch : List (κ × α)}
    (h : ch ∈ choices ranges) : ∀ d ∈ ch, ∃ e ∈ ranges, d.1 = e.1 ∧ d.2 ∈ e.2 := by
  induction ranges generalizing ch with
  | nil =>
    obtain rfl := List.mem_singleton.1 h
    simp
  | cons e ranges ih =>
    obtain ⟨x, hx, tail, ht, rfl⟩ := mem_choices_cons.1 h
    intro d hd
    rcases List.mem_cons.1 hd with rfl | hd
    · exact ⟨e, by simp, rfl, hx⟩
    · obtain ⟨e', he', h'⟩ := ih ht d hd
      exact ⟨e', by simp [he'], h'⟩

/-- A step of the coarser digits is worth a round of the finest one, so nothing with other coarser
digits comes between two points with the same ones. -/
theorem Scale.between_iff {s : Scale} {a b v i j : Int} (ha : s.contains a = true)
    (hb : s.contains b = true) (hv : s.contains v = true) :
    (a - s.minimum + s.size * i ≤ v - s.minimum + s.size * j ∧
      v - s.minimum + s.size * j ≤ b - s.minimum + s.size * i) ↔ j = i ∧ a ≤ v ∧ v ≤ b := by
  have hsize : s.size = s.maximum - s.minimum + 1 := rfl
  have hpos := Int.le_of_lt s.size_pos
  rw [contains_iff] at ha hb hv
  constructor
  · intro hx
    obtain ⟨h1, h2⟩ := hx
    have hle : i ≤ j := by
      by_cases hlt : j + 1 ≤ i
      · have := Int.mul_le_mul_of_nonneg_left hlt hpos
        rw [Int.mul_add, Int.mul_one] at this
        omega
      · omega
    have hge : j ≤ i := by
      by_cases hlt : i + 1 ≤ j
      · have := Int.mul_le_mul_of_nonneg_left hlt hpos
        rw [Int.mul_add, Int.mul_one] at this
        omega
      · omega
    have heq : j = i := Int.le_antisymm hge hle
    subst heq
    exact ⟨rfl, by omega, by omega⟩
  · intro hx
    obtain ⟨rfl, h1, h2⟩ := hx
    exact ⟨by omega, by omega⟩

section Block

variable {c : Cycle} {s : Scale} {r : Span} {fixed : Digits}

theorem Point.exists_digits_eq {ds : Digits} (hs : ds.map Prod.fst = c.scales)
    (hd : ∀ d ∈ ds, d.1.contains d.2 = true) :
    ∃ p : Point c, p.digits = ds ∧ Point.ofDigits? ds = .ok ⟨c, p⟩ :=
  ⟨⟨ds, hs, hd⟩, rfl, Point.ofDigits?_digits ⟨ds, hs, hd⟩⟩

theorem Point.contains_of_digits_eq {t : Point c} {v : Int}
    (h : t.digits = (s, v) :: fixed) : s.contains v = true :=
  t.inDomain (s, v) (by simp [h])

theorem Point.index_of_digits_eq {t : Point c} {v : Int} (h : t.digits = (s, v) :: fixed) :
    t.index = v - s.minimum + s.size * Digits.index fixed := by
  rw [Point.index, h]
  rfl

/-- At fixed coarser digits a span makes one period, from its start to its stop. -/
theorem exists_periodAt_eq_ok (hr : r.Fits s) (hs : s :: fixed.map Prod.fst = c.scales)
    (hd : ∀ d ∈ fixed, d.1.contains d.2 = true) :
    ∃ p : Period c, periodAt s r fixed = .ok ⟨c, p⟩ ∧
      p.start.digits = (s, r.start) :: fixed ∧ p.last.digits = (s, r.stop) :: fixed := by
  have hall : ∀ v, s.contains v = true → ∀ d ∈ (s, v) :: fixed, d.1.contains d.2 = true := by
    intro v hv d h
    rcases List.mem_cons.1 h with rfl | h
    · exact hv
    · exact hd d h
  have hat : ∀ v, s.contains v = true → ∃ p : Point c, p.digits = (s, v) :: fixed ∧
      Point.ofDigits? ((s, v) :: fixed) = .ok ⟨c, p⟩ :=
    fun v hv => Point.exists_digits_eq hs (hall v hv)
  obtain ⟨p, hp, hp'⟩ := hat r.start hr.start_mem
  obtain ⟨q, hq, hq'⟩ := hat r.stop hr.stop_mem
  refine ⟨⟨p, q⟩, ?_, hp, hq⟩
  unfold periodAt
  rw [hp', hq']
  show AnyPeriod.ofBounds? (.point ⟨c, p⟩) (.point ⟨c, q⟩) = .ok ⟨c, p, q⟩
  rw [AnyPeriod.ofBounds?, dif_pos rfl]

/-- A block covers the points with its coarser digits whose finest digit is in its span. -/
theorem covers_block_iff {p : Period c} {a b : Int} {t : Point c}
    (hp : p.start.digits = (s, a) :: fixed) (hq : p.last.digits = (s, b) :: fixed) :
    p.covers t = true ↔ ∃ v, t.digits = (s, v) :: fixed ∧ a ≤ v ∧ v ≤ b := by
  have ha := Point.contains_of_digits_eq hp
  have hb := Point.contains_of_digits_eq hq
  rw [Period.covers_iff_index, Point.index_of_digits_eq hp, Point.index_of_digits_eq hq]
  constructor
  · intro h
    obtain ⟨v, rest, ht, hscales⟩ := t.exists_digits_eq_cons
    have hss := p.start.scales_eq
    rw [hp, hscales, List.map_cons, List.cons.injEq] at hss
    obtain ⟨hsf, hrest⟩ := hss
    rw [← hsf] at ht
    rw [Point.index_of_digits_eq ht,
      Scale.between_iff ha hb (Point.contains_of_digits_eq ht)] at h
    obtain ⟨hi, h1, h2⟩ := h
    have hfixed : rest = fixed := by
      refine Digits.index_inj hrest.symm ?_ ?_ hi
      · exact fun d hd => t.inDomain d (by simp [ht, hd])
      · exact fun d hd => p.start.inDomain d (by simp [hp, hd])
    exact ⟨v, by rw [ht, hfixed], h1, h2⟩
  · intro hx
    obtain ⟨v, ht, h1, h2⟩ := hx
    rw [Point.index_of_digits_eq ht, Scale.between_iff ha hb (Point.contains_of_digits_eq ht)]
    exact ⟨rfl, h1, h2⟩

end Block

theorem AnyPeriod.on_mk {c : Cycle} (p : Period c) : AnyPeriod.on c ⟨c, p⟩ = .ok p := by
  unfold AnyPeriod.on
  rw [dif_pos rfl]

/-- The periods are of the cycle `c`, none of them wraps, and the points that they cover are the
ones whose digits have the property. -/
structure CoversDigits (c : Cycle) (aps : List AnyPeriod) (P : Digits → Prop) : Prop where
  forward : ∀ ap ∈ aps, ∃ p : Period c, ap = ⟨c, p⟩ ∧ p.start ≤ p.last
  covered_iff : ∀ t : Point c,
    (∃ p : Period c, ⟨c, p⟩ ∈ aps ∧ p.covers t = true) ↔ P t.digits

variable {c : Cycle}

/-- Each choice of the coarser digits of a combination makes a block. -/
theorem Combination.exists_periodAt_eq_ok {s : Scale} {r : Span} {coarser : Combination}
    (hs : s :: coarser.map Prod.fst = c.scales) (hf : Fits ((s, r) :: coarser)) {fixed : Digits}
    (h : Holds coarser fixed) : ∃ p : Period c, periodAt s r fixed = .ok ⟨c, p⟩ ∧
      p.start.digits = (s, r.start) :: fixed ∧ p.last.digits = (s, r.stop) :: fixed := by
  refine OpeningHours.exists_periodAt_eq_ok (hf (s, r) (by simp)) ?_
    (h.contains fun d hd => hf d (by simp [hd]))
  rw [h.map_fst, hs]

/-- The periods of a combination cover its box. -/
theorem Combination.exists_periods_eq_ok {ch : Combination} (hs : ch.map Prod.fst = c.scales)
    (hf : Fits ch) : ∃ aps, periods ch = .ok aps ∧ CoversDigits c aps (Holds ch) := by
  rw [periods, Cycle.byRank_eq hs]
  cases ch with
  | nil => exact absurd hs.symm c.nonempty
  | cons d coarser =>
    obtain ⟨s, r⟩ := d
    have hr : r.Fits s := hf (s, r) (by simp)
    have hat : ∀ fixed, Holds coarser fixed → ∃ p : Period c, periodAt s r fixed = .ok ⟨c, p⟩ ∧
        p.start.digits = (s, r.start) :: fixed ∧ p.last.digits = (s, r.stop) :: fixed :=
      fun fixed h => exists_periodAt_eq_ok hs hf h
    have hok : ∀ fixed ∈ choices (values coarser), ∃ ap, periodAt s r fixed = .ok ap := by
      intro fixed h
      obtain ⟨p, hp, -⟩ := hat fixed (mem_choices_values_iff.1 h)
      exact ⟨_, hp⟩
    obtain ⟨aps, haps⟩ := exists_mapM_eq_ok hok
    have hmem := mem_of_mapM_eq_ok haps
    refine ⟨aps, haps, ⟨?_, ?_⟩⟩
    · intro ap hap
      obtain ⟨fixed, hfixed, h⟩ := (hmem ap).1 hap
      obtain ⟨p, hp, hstart, hlast⟩ := hat fixed (mem_choices_values_iff.1 hfixed)
      rw [hp] at h
      cases h
      refine ⟨p, rfl, ?_⟩
      have hv := (covers_block_iff hstart hlast).2 ⟨r.start, hstart, Int.le_refl _, hr.ordered⟩
      exact (Period.covers_iff.1 hv).2
    · intro t
      constructor
      · intro hx
        obtain ⟨p, hp, ht⟩ := hx
        obtain ⟨fixed, hfixed, h⟩ := (hmem _).1 hp
        have hfixed := mem_choices_values_iff.1 hfixed
        obtain ⟨p', hp', hstart, hlast⟩ := hat fixed hfixed
        rw [hp'] at h
        cases h
        obtain ⟨v, hv, h1, h2⟩ := (covers_block_iff hstart hlast).1 ht
        rw [hv]
        exact ⟨rfl, ⟨h1, h2⟩, hfixed⟩
      · intro h
        cases hd : t.digits with
        | nil => exact absurd hd t.digits_ne_nil
        | cons e fixed =>
          obtain ⟨s', v⟩ := e
          rw [hd] at h
          obtain ⟨rfl, hv, hfixed⟩ := h
          obtain ⟨p, hp, hstart, hlast⟩ := hat fixed hfixed
          refine ⟨p, (hmem _).2 ⟨fixed, mem_choices_values_iff.2 hfixed, hp⟩, ?_⟩
          exact (covers_block_iff hstart hlast).2 ⟨v, hd, hv.1, hv.2⟩

/-- The periods of all choices cover what the spans offer. -/
theorem exists_expansion_eq_ok {ranges : List (Scale × List Span)}
    (hs : ranges.map Prod.fst = c.scales) (hf : ∀ d ∈ ranges, ∀ r ∈ d.2, r.Fits d.1) :
    ∃ apss, (combinations ranges).mapM Combination.periods = .ok apss ∧
      CoversDigits c apss.flatten (Offered ranges) := by
  rw [combinations, Cycle.byRank_eq hs]
  have hat : ∀ ch ∈ choices ranges, ∃ aps, Combination.periods ch = .ok aps ∧
      CoversDigits c aps (Combination.Holds ch) := by
    intro ch hch
    apply Combination.exists_periods_eq_ok (by rw [map_fst_of_mem_choices hch, hs])
    intro d hd
    obtain ⟨e, he, h1, h2⟩ := mem_of_mem_choices hch d hd
    rw [h1]
    exact hf e he d.2 h2
  have hok : ∀ ch ∈ choices ranges, ∃ aps, Combination.periods ch = .ok aps := by
    intro ch hch
    obtain ⟨aps, haps, -⟩ := hat ch hch
    exact ⟨aps, haps⟩
  obtain ⟨apss, hapss⟩ := exists_mapM_eq_ok hok
  have hmem : ∀ aps ∈ apss, ∃ ch ∈ choices ranges, Combination.periods ch = .ok aps ∧
      CoversDigits c aps (Combination.Holds ch) := by
    intro aps h
    obtain ⟨ch, hch, hp⟩ := (mem_of_mapM_eq_ok hapss aps).1 h
    obtain ⟨aps', hp', hc⟩ := hat ch hch
    rw [hp] at hp'
    cases hp'
    exact ⟨ch, hch, hp, hc⟩
  refine ⟨apss, hapss, ⟨?_, ?_⟩⟩
  · intro ap hap
    obtain ⟨aps, haps, hap⟩ := List.mem_flatten.1 hap
    obtain ⟨ch, -, -, hc⟩ := hmem aps haps
    exact hc.forward ap hap
  · intro t
    rw [← exists_choice_iff]
    constructor
    · intro hx
      obtain ⟨p, hp, ht⟩ := hx
      obtain ⟨aps, haps, hp⟩ := List.mem_flatten.1 hp
      obtain ⟨ch, hch, -, hc⟩ := hmem aps haps
      exact ⟨ch, hch, (hc.covered_iff t).1 ⟨p, hp, ht⟩⟩
    · intro hx
      obtain ⟨ch, hch, ht⟩ := hx
      obtain ⟨aps, haps, hc⟩ := hat ch hch
      obtain ⟨p, hp, ht⟩ := (hc.covered_iff t).2 ht
      exact ⟨p, List.mem_flatten.2 ⟨aps, (mem_of_mapM_eq_ok hapss aps).2 ⟨ch, hch, haps⟩, hp⟩, ht⟩

/-- Periods that are all of one cycle can be read as such. -/
theorem CoversDigits.exists_on_eq_ok {aps : List AnyPeriod} {P : Digits → Prop}
    (h : CoversDigits c aps P) :
    ∃ ps, aps.mapM (·.on c) = .ok ps ∧ (∀ p ∈ ps, p.start ≤ p.last) ∧
      ∀ t, Period.Covered ps t ↔ P t.digits := by
  have hok : ∀ ap ∈ aps, ∃ p, AnyPeriod.on c ap = .ok p := by
    intro ap hap
    obtain ⟨p, rfl, -⟩ := h.forward ap hap
    exact ⟨p, AnyPeriod.on_mk p⟩
  obtain ⟨ps, hps⟩ := exists_mapM_eq_ok hok
  have hmem : ∀ p, p ∈ ps ↔ (⟨c, p⟩ : AnyPeriod) ∈ aps := by
    intro p
    rw [mem_of_mapM_eq_ok hps]
    constructor
    · intro hx
      obtain ⟨ap, hap, hp⟩ := hx
      obtain ⟨q, rfl, -⟩ := h.forward ap hap
      rw [AnyPeriod.on_mk] at hp
      cases hp
      exact hap
    · intro hp
      exact ⟨_, hp, AnyPeriod.on_mk p⟩
  refine ⟨ps, hps, ?_, ?_⟩
  · intro p hp
    obtain ⟨q, hq, hle⟩ := h.forward _ ((hmem p).1 hp)
    cases hq
    exact hle
  · intro t
    rw [← h.covered_iff]
    simp only [Period.Covered, hmem]

end OpeningHours
