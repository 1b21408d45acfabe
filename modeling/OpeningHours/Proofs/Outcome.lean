/-!
# Outcomes

Steps that can fail, one after the other and over lists. Two steps succeed together if the first
does and then the second (`bind_eq_ok_iff`). A step over the members of a list succeeds if it
does on every member (`exists_mapM_eq_ok_iff`), and the results are then those of the members
(`mem_of_mapM_eq_ok`); otherwise it fails as it does on the first member on which it fails
(`mapM_eq_error_iff`). What a step can fail with is known from what its parts can fail with
(`FailsWith.bind`, `FailsWith.mapM`).
-/

namespace OpeningHours

variable {ε α β : Type}

theorem bind_eq_ok_iff {x : Except ε α} {f : α → Except ε β} {b : β} :
    x >>= f = .ok b ↔ ∃ a, x = .ok a ∧ f a = .ok b := by
  cases x with
  | error e =>
    constructor
    · intro h
      cases h
    · intro hx
      obtain ⟨a, h, -⟩ := hx
      cases h
  | ok a =>
    constructor
    · intro h
      exact ⟨a, rfl, h⟩
    · intro hx
      obtain ⟨a', h, hb⟩ := hx
      cases h
      exact hb

theorem bind_eq_error_iff {x : Except ε α} {f : α → Except ε β} {e : ε} :
    x >>= f = .error e ↔ x = .error e ∨ ∃ a, x = .ok a ∧ f a = .error e := by
  cases x with
  | error e' =>
    show Except.error e' = .error e ↔ _
    simp
  | ok a =>
    show f a = .error e ↔ _
    simp

theorem exists_eq_ok_of_isOk {x : Except ε α} (h : x.isOk = true) : ∃ a, x = .ok a := by
  cases x with
  | error e => cases h
  | ok a => exact ⟨a, rfl⟩

theorem exists_eq_ok_of_any {x : Except ε α} {p : α → Bool} (h : x.toOption.any p = true) :
    ∃ a, x = .ok a ∧ p a = true := by
  cases x with
  | error e => cases h
  | ok a => exact ⟨a, rfl, h⟩

theorem mapM_cons_eq_ok_iff {f : α → Except ε β} {x : α} {xs : List α} {zs : List β} :
    (x :: xs).mapM f = .ok zs ↔ ∃ y ys, f x = .ok y ∧ xs.mapM f = .ok ys ∧ zs = y :: ys := by
  rw [List.mapM_cons, bind_eq_ok_iff]
  constructor
  · intro hx
    obtain ⟨y, hy, h⟩ := hx
    obtain ⟨ys, hys, h⟩ := bind_eq_ok_iff.1 h
    cases h
    exact ⟨y, ys, hy, hys, rfl⟩
  · intro hx
    obtain ⟨y, ys, hy, hys, rfl⟩ := hx
    exact ⟨y, hy, bind_eq_ok_iff.2 ⟨ys, hys, rfl⟩⟩

theorem mem_of_mapM_eq_ok {f : α → Except ε β} {xs : List α} {ys : List β}
    (h : xs.mapM f = .ok ys) (y : β) : y ∈ ys ↔ ∃ x ∈ xs, f x = .ok y := by
  induction xs generalizing ys with
  | nil =>
    cases h
    simp
  | cons x xs ih =>
    obtain ⟨z, zs, hz, hzs, rfl⟩ := mapM_cons_eq_ok_iff.1 h
    rw [List.mem_cons, ih hzs]
    constructor
    · rintro (rfl | ⟨w, hw, hy⟩)
      · exact ⟨x, by simp, hz⟩
      · exact ⟨w, by simp [hw], hy⟩
    · intro hx
      obtain ⟨w, hw, hy⟩ := hx
      rcases List.mem_cons.1 hw with rfl | hw
      · rw [hz] at hy
        cases hy
        exact Or.inl rfl
      · exact Or.inr ⟨w, hw, hy⟩

theorem exists_eq_ok_of_mapM {f : α → Except ε β} {xs : List α} {ys : List β}
    (h : xs.mapM f = .ok ys) : ∀ x ∈ xs, ∃ y ∈ ys, f x = .ok y := by
  induction xs generalizing ys with
  | nil => simp
  | cons x xs ih =>
    obtain ⟨z, zs, hz, hzs, rfl⟩ := mapM_cons_eq_ok_iff.1 h
    intro w hw
    rcases List.mem_cons.1 hw with rfl | hw
    · exact ⟨z, by simp, hz⟩
    · obtain ⟨y, hy, hwy⟩ := ih hzs w hw
      exact ⟨y, by simp [hy], hwy⟩

theorem exists_mapM_eq_ok {f : α → Except ε β} {xs : List α} (h : ∀ x ∈ xs, ∃ y, f x = .ok y) :
    ∃ ys, xs.mapM f = .ok ys := by
  induction xs with
  | nil => exact ⟨[], rfl⟩
  | cons x xs ih =>
    obtain ⟨y, hy⟩ := h x (by simp)
    obtain ⟨ys, hys⟩ := ih fun w hw => h w (by simp [hw])
    exact ⟨y :: ys, mapM_cons_eq_ok_iff.2 ⟨y, ys, hy, hys, rfl⟩⟩

theorem exists_mapM_eq_ok_iff {f : α → Except ε β} {xs : List α} :
    (∃ ys, xs.mapM f = .ok ys) ↔ ∀ x ∈ xs, ∃ y, f x = .ok y := by
  constructor
  · rintro ⟨ys, hys⟩ x hx
    obtain ⟨y, -, hy⟩ := exists_eq_ok_of_mapM hys x hx
    exact ⟨y, hy⟩
  · exact exists_mapM_eq_ok

/-- A step over a list fails as it does on the first member on which it fails. -/
theorem mapM_eq_error_iff {f : α → Except ε β} {xs : List α} {e : ε} :
    xs.mapM f = .error e ↔ ∃ before x after, xs = before ++ x :: after ∧
      (∀ w ∈ before, ∃ y, f w = .ok y) ∧ f x = .error e := by
  induction xs with
  | nil =>
    constructor
    · intro h
      cases h
    · rintro ⟨before, x, after, h, -⟩
      simp at h
  | cons w xs ih =>
    have hrest (y : β) : (xs.mapM f >>= fun ys => .ok (y :: ys)) = .error e ↔
        xs.mapM f = .error e := by
      rw [bind_eq_error_iff]
      simp
    rw [List.mapM_cons, bind_eq_error_iff]
    constructor
    · rintro (hw | ⟨y, hy, h⟩)
      · exact ⟨[], w, xs, rfl, by simp, hw⟩
      · obtain ⟨before, x, after, rfl, hbefore, hx⟩ := ih.1 ((hrest y).1 h)
        refine ⟨w :: before, x, after, rfl, ?_, hx⟩
        rintro v (_ | ⟨_, hv⟩)
        · exact ⟨y, hy⟩
        · exact hbefore v hv
    · rintro ⟨before, x, after, hxs, hbefore, hx⟩
      cases before with
      | nil =>
        cases hxs
        exact Or.inl hx
      | cons v before =>
        cases hxs
        obtain ⟨y, hy⟩ := hbefore w (by simp)
        refine Or.inr ⟨y, hy, (hrest y).2 (ih.2 ⟨before, x, after, rfl, ?_, hx⟩)⟩
        exact fun v hv => hbefore v (by simp [hv])

/-- What is asked of each member after those before it is asked of the first one and of the rest. -/
theorem forall_split_cons_iff {P : List α → α → Prop} {x : α} {xs : List α} :
    (∀ before y after, x :: xs = before ++ y :: after → P before y) ↔
      P [] x ∧ ∀ before y after, xs = before ++ y :: after → P (x :: before) y := by
  constructor
  · intro h
    refine ⟨h [] x xs rfl, ?_⟩
    rintro before y after rfl
    exact h (x :: before) y after rfl
  · rintro ⟨hx, hxs⟩ before y after h
    cases before with
    | nil =>
      obtain ⟨rfl, -⟩ := List.cons.inj h
      exact hx
    | cons z before =>
      obtain ⟨rfl, hrest⟩ := List.cons.inj h
      exact hxs before y after hrest

theorem not_exists_ok_iff {x : Except ε α} : (¬ ∃ a, x = .ok a) ↔ ∃ e, x = .error e := by
  cases x <;> simp

/-- A step that never fails is a plain function. -/
theorem mapM_eq_ok_map {f : α → Except ε β} {g : α → β} {xs : List α}
    (h : ∀ x ∈ xs, f x = .ok (g x)) : xs.mapM f = .ok (xs.map g) := by
  induction xs with
  | nil => rfl
  | cons x xs ih =>
    have ht := ih fun w hw => h w (by simp [hw])
    exact mapM_cons_eq_ok_iff.2 ⟨g x, xs.map g, h x (by simp), ht, rfl⟩

/-- Whatever the step fails with has the property. -/
def FailsWith (P : ε → Prop) (x : Except ε α) : Prop :=
  ∀ e, x = .error e → P e

namespace FailsWith

variable {P Q : ε → Prop}

theorem ok (a : α) : FailsWith P (.ok a) := by
  intro e he
  cases he

theorem error {e : ε} (h : P e) : FailsWith P (.error e : Except ε α) := by
  intro e' he
  cases he
  exact h

theorem mono {x : Except ε α} (h : FailsWith P x) (hPQ : ∀ e, P e → Q e) : FailsWith Q x :=
  fun e he => hPQ e (h e he)

theorem bind {x : Except ε α} {f : α → Except ε β} (hx : FailsWith P x)
    (hf : ∀ a, x = .ok a → FailsWith P (f a)) : FailsWith P (x >>= f) := by
  cases x with
  | error e => exact error (hx e rfl)
  | ok a => exact hf a rfl

theorem mapM {f : α → Except ε β} {xs : List α} (hf : ∀ x ∈ xs, FailsWith P (f x)) :
    FailsWith P (xs.mapM f) := by
  induction xs with
  | nil => exact ok []
  | cons x xs ih =>
    rw [List.mapM_cons]
    refine bind (hf x (by simp)) fun y _ => bind (ih fun z hz => hf z (by simp [hz])) ?_
    exact fun ys _ => ok (y :: ys)

end FailsWith

end OpeningHours
