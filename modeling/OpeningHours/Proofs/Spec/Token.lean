import Mathlib.Data.List.Induction
import Mathlib.Data.List.TakeWhile
import OpeningHours.Proofs.Cron.Rendering
import OpeningHours.Proofs.Spec.Denotation

/-!
# Valid tokens

A value is written in ASCII digits, not more than `Text.maxDigits` of them, an hour also on the
twelve hour dial and a weekday by a word (`Axis.Writes`). Which hours and days the words mean is
written out here (`OnDial`, `NamesDay`); reading finds a value exactly if the text writes it
(`Axis.value?_eq_some_iff`). No text is written in two of these ways, because no digit of any script
is a letter of the words after a number or of a weekday. A token is valid if it is a value inside
its domain, or two of them with a dash between, and it has spans exactly if it is valid
(`Axis.exists_spans_iff`).
-/

namespace OpeningHours

namespace Text

theorem isDecimal_iff {c : Char} :
    isDecimal c = true ↔ ∃ z ∈ zeros, z ≤ c.toNat ∧ c.toNat < z + 10 := by
  simp [isDecimal, decimal?]

theorem isDecimal_of_isDigit {c : Char} (h : c.isDigit = true) : isDecimal c = true := by
  rw [isDecimal, decimal?_of_isDigit h]
  rfl

/-- No decimal digit is a capital letter. -/
theorem toLower_of_isDecimal {c : Char} (h : isDecimal c = true) : c.toLower = c := by
  obtain ⟨z, hz, h1, h2⟩ := isDecimal_iff.1 h
  have hfar : ∀ z ∈ zeros, z + 10 ≤ 'A'.toNat ∨ 'Z'.toNat < z := by decide
  have := hfar z hz
  unfold Char.toLower
  rw [dif_neg]
  rintro ⟨hA, hZ⟩
  have hA := UInt32.le_iff_toNat_le.1 hA
  have hZ := UInt32.le_iff_toNat_le.1 hZ
  simp only [Char.toNat_val] at hA hZ
  omega

/-- A letter that is no decimal digit is none in the other case either. -/
theorem isDecimal_of_toLower {c d : Char} (h : c.toLower = d) (hd : isDecimal d = false) :
    isDecimal c = false := by
  cases hc : isDecimal c with
  | false => rfl
  | true =>
    rw [toLower_of_isDecimal hc] at h
    rw [← hd, ← h, hc]

theorem numeral?_eq_none_of_mem {cs : List Char} {c : Char} (hc : c ∈ cs)
    (h : isDecimal c = false) : numeral? cs = none := by
  rw [Option.eq_none_iff_forall_ne_some]
  intro n hn
  obtain ⟨-, hall, -⟩ := natural?_eq_some_iff.1 (numeral?_eq_some_iff.1 hn).2
  simp [isDecimal_of_isDigit (hall c hc)] at h

/-- Whether a text is a number of `n` ASCII digits, too many to be read. -/
structure Overlong (cs : List Char) (n : Nat) : Prop where
  digits : ∀ c ∈ cs, c.isDigit = true
  length_eq : cs.length = n
  exceeds : maxDigits < n

theorem overlong_length_iff {cs : List Char} :
    Overlong cs cs.length ↔ isOverlong cs = true := by
  rw [isOverlong_iff]
  exact ⟨fun h => ⟨h.digits, h.exceeds⟩, fun h => ⟨h.1, rfl, h.2⟩⟩

/-- Decimal digits, of any script, that write a number. -/
inductive Spells : List Char → Nat → Prop where
  | digit {c : Char} {d : Nat} : decimal? c = some d → Spells [c] d
  | snoc {cs : List Char} {c : Char} {n d : Nat} : Spells cs n → decimal? c = some d →
      Spells (cs ++ [c]) (10 * n + d)

theorem decimalValue_concat (cs : List Char) (c : Char) :
    decimalValue (cs ++ [c]) = 10 * decimalValue cs + (decimal? c).getD 0 :=
  List.foldl_append

theorem Spells.ne_nil {cs : List Char} {n : Nat} (h : Spells cs n) : cs ≠ [] := by
  cases h <;> simp

theorem Spells.isDecimal {cs : List Char} {n : Nat} (h : Spells cs n) :
    ∀ c ∈ cs, isDecimal c = true := by
  induction h with
  | digit hd => simp [Text.isDecimal, hd]
  | snoc _ hd ih =>
    simp only [List.mem_append, List.mem_singleton]
    rintro c (hc | rfl)
    · exact ih c hc
    · rw [Text.isDecimal, hd]
      rfl

theorem Spells.decimalValue_eq {cs : List Char} {n : Nat} (h : Spells cs n) :
    decimalValue cs = n := by
  induction h with
  | digit hd => simp [decimalValue, hd]
  | snoc _ hd ih => rw [decimalValue_concat, ih, hd, Option.getD_some]

/-- Decimal digits, if there are any, write the number that is read from them. -/
theorem spells_decimalValue {cs : List Char} (hne : cs ≠ [])
    (h : ∀ c ∈ cs, isDecimal c = true) : Spells cs (decimalValue cs) := by
  induction cs using List.reverseRecOn with
  | nil => exact absurd rfl hne
  | append_singleton cs c ih =>
    obtain ⟨d, hd⟩ := Option.isSome_iff_exists.1 (h c (by simp))
    by_cases hcs : cs = []
    · subst hcs
      have hval : decimalValue [c] = d := (Spells.digit hd).decimalValue_eq
      exact hval.symm ▸ .digit hd
    · rw [decimalValue_concat, hd, Option.getD_some]
      exact .snoc (ih hcs fun e he => h e (by simp [he])) hd

theorem spells_zeros (n : Nat) : Spells (List.replicate (n + 1) '0') 0 := by
  have hd : decimal? '0' = some 0 := by decide
  induction n with
  | zero => exact .digit hd
  | succ n ih =>
    rw [List.replicate_succ']
    exact .snoc ih hd

end Text

namespace DayHalf

/-- The letters of the word, in lower case. -/
def letters : DayHalf → List Char
  | am => ['a', 'm']
  | noon => ['n', 'o', 'o', 'n']
  | pm => ['p', 'm']

theorem ofText?_eq_some_iff {cs : List Char} {half : DayHalf} :
    ofText? cs = some half ↔ cs.map Char.toLower = half.letters := by
  simp only [ofText?]
  split
  · cases half <;> simp_all [letters]
  · split
    · cases half <;> simp_all [letters]
    · split <;> cases half <;> simp_all [letters]

/-- The word begins with no digit. -/
theorem exists_cons_of_letters {cs : List Char} {half : DayHalf}
    (h : cs.map Char.toLower = half.letters) :
    ∃ c rest, cs = c :: rest ∧ Text.isDecimal c = false := by
  cases cs with
  | nil => cases half <;> cases h
  | cons c rest =>
    refine ⟨c, rest, rfl, ?_⟩
    cases half <;> exact Text.isDecimal_of_toLower (List.cons.inj h).1 (by decide)

end DayHalf

/-- The hour of the day that a number on the twelve hour dial stands for before a word. Twelve is
midnight before `am` and noon before `pm`, which adds twelve hours to the other numbers. -/
inductive OnDial : Nat → List Char → Nat → Prop where
  | midnight : OnDial 12 ['a', 'm'] 0
  | morning {n : Nat} : n ≠ 12 → OnDial n ['a', 'm'] n
  | noon {n : Nat} : OnDial n ['n', 'o', 'o', 'n'] n
  | midday : OnDial 12 ['p', 'm'] 12
  | afternoon {n : Nat} : n ≠ 12 → OnDial n ['p', 'm'] (n + 12)

theorem onDial_iff {n hour : Nat} {word : List Char} :
    OnDial n word hour ↔ ∃ half : DayHalf, word = half.letters ∧ hour = half.hour n := by
  constructor
  · intro h
    cases h with
    | midnight => exact ⟨.am, rfl, rfl⟩
    | morning hn => exact ⟨.am, rfl, (if_neg hn).symm⟩
    | noon => exact ⟨.noon, rfl, rfl⟩
    | midday => exact ⟨.pm, rfl, rfl⟩
    | afternoon hn => exact ⟨.pm, rfl, (if_neg hn).symm⟩
  · rintro ⟨half, rfl, rfl⟩
    by_cases hn : n = 12
    · subst hn
      cases half with
      | am => exact .midnight
      | noon => exact .noon
      | pm => exact .midday
    · cases half with
      | am =>
        rw [DayHalf.hour, if_neg hn]
        exact .morning hn
      | noon => exact .noon
      | pm =>
        rw [DayHalf.hour, if_neg hn]
        exact .afternoon hn

/-- A word on the dial begins with no digit. -/
theorem OnDial.exists_cons {n hour : Nat} {word : List Char}
    (h : OnDial n (word.map Char.toLower) hour) :
    ∃ c rest, word = c :: rest ∧ Text.isDecimal c = false := by
  obtain ⟨half, hword, -⟩ := onDial_iff.1 h
  exact DayHalf.exists_cons_of_letters hword

/-- The number of the weekday that begins with two letters. -/
inductive NamesDay : Char → Char → Nat → Prop where
  | monday : NamesDay 'm' 'o' 1
  | tuesday : NamesDay 't' 'u' 2
  | wednesday : NamesDay 'w' 'e' 3
  | thursday : NamesDay 't' 'h' 4
  | friday : NamesDay 'f' 'r' 5
  | saturday : NamesDay 's' 'a' 6
  | sunday : NamesDay 's' 'u' 7

theorem namesDay_iff {x y : Char} {n : Nat} :
    NamesDay x y n ↔ ∃ k, weekdayLetters[k]? = some (x, y) ∧ n = k + 1 := by
  constructor
  · intro h
    cases h with
    | monday => exact ⟨0, rfl, rfl⟩
    | tuesday => exact ⟨1, rfl, rfl⟩
    | wednesday => exact ⟨2, rfl, rfl⟩
    | thursday => exact ⟨3, rfl, rfl⟩
    | friday => exact ⟨4, rfl, rfl⟩
    | saturday => exact ⟨5, rfl, rfl⟩
    | sunday => exact ⟨6, rfl, rfl⟩
  · rintro ⟨k, hk, rfl⟩
    match k, hk with
    | 0, rfl => exact .monday
    | 1, rfl => exact .tuesday
    | 2, rfl => exact .wednesday
    | 3, rfl => exact .thursday
    | 4, rfl => exact .friday
    | 5, rfl => exact .saturday
    | 6, rfl => exact .sunday

theorem twelveHour?_eq_some_iff {cs : List Char} {hour : Nat} :
    twelveHour? cs = some hour ↔ ∃ (number word : List Char) (n : Nat),
      cs = number ++ word ∧ (number.length = 1 ∨ number.length = 2) ∧
        Text.Spells number n ∧ OnDial n (word.map Char.toLower) hour := by
  simp only [twelveHour?]
  constructor
  · intro h
    split at h
    · rename_i hlength
      obtain ⟨half, hhalf, rfl⟩ := Option.map_eq_some_iff.1 h
      have hne : cs.takeWhile Text.isDecimal ≠ [] := by
        rintro he
        simp [he] at hlength
      exact ⟨_, _, _, List.takeWhile_append_dropWhile.symm, hlength,
        Text.spells_decimalValue hne fun c hc => List.mem_takeWhile_imp hc,
        onDial_iff.2 ⟨half, DayHalf.ofText?_eq_some_iff.1 hhalf, rfl⟩⟩
    · cases h
  · rintro ⟨number, word, n, rfl, hlength, hnumber, hdial⟩
    -- the word begins with a letter, and there the number ends
    obtain ⟨c, rest, rfl, hc⟩ := hdial.exists_cons
    obtain ⟨half, hword, rfl⟩ := onDial_iff.1 hdial
    have htake : (number ++ c :: rest).takeWhile Text.isDecimal = number := by
      rw [List.takeWhile_append_of_pos hnumber.isDecimal,
        List.takeWhile_cons_of_neg (by simp [hc]), List.append_nil]
    have hdrop : (number ++ c :: rest).dropWhile Text.isDecimal = c :: rest := by
      rw [List.dropWhile_append_of_pos hnumber.isDecimal,
        List.dropWhile_cons_of_neg (by simp [hc])]
    simp only [htake, hdrop, if_pos hlength, DayHalf.ofText?_eq_some_iff.2 hword, Option.map_some,
      hnumber.decimalValue_eq]

/-- Each weekday stands once among the letters. -/
theorem idxOf?_weekdayLetters_iff {e : Char × Char} {k : Nat} :
    weekdayLetters.idxOf? e = some k ↔ weekdayLetters[k]? = some e := by
  have hnodup : weekdayLetters.Nodup := by decide
  rw [List.idxOf?_eq_some_iff, List.getElem?_eq_some_iff]
  constructor
  · rintro ⟨hk, he, -⟩
    exact ⟨hk, he⟩
  · rintro ⟨hk, he⟩
    refine ⟨hk, he, fun j hj hje => ?_⟩
    exact List.pairwise_iff_getElem.1 hnodup j k (by omega) hk hj (hje.trans he.symm)

theorem weekdayNamed?_eq_some_iff {cs : List Char} {n : Nat} :
    weekdayNamed? cs = some n ↔ ∃ (x y : Char) (rest : List Char),
      cs = x :: y :: rest ∧ NamesDay x.toLower y.toLower n := by
  match cs with
  | [] => simp [weekdayNamed?]
  | [c] => simp [weekdayNamed?]
  | x :: y :: rest =>
    rw [weekdayNamed?, Option.map_eq_some_iff]
    constructor
    · rintro ⟨k, hk, rfl⟩
      exact ⟨x, y, rest, rfl, namesDay_iff.2 ⟨k, idxOf?_weekdayLetters_iff.1 hk, rfl⟩⟩
    · rintro ⟨x', y', rest', he, hday⟩
      cases he
      obtain ⟨k, hk, rfl⟩ := namesDay_iff.1 hday
      exact ⟨k, idxOf?_weekdayLetters_iff.2 hk, rfl⟩

/-- A weekday begins with no digit. -/
theorem NamesDay.isDecimal_eq_false {x y : Char} {n : Nat} (h : NamesDay x.toLower y n) :
    Text.isDecimal x = false := by
  have hletters : ∀ e ∈ weekdayLetters, Text.isDecimal e.1 = false := by decide
  obtain ⟨k, hk, -⟩ := namesDay_iff.1 h
  exact Text.isDecimal_of_toLower rfl (hletters _ (List.mem_of_getElem? hk))

namespace Axis

/-- Whether a text writes a value of the axis; the value need not be in the domain. -/
inductive Writes : Axis → List Char → Nat → Prop where
  /-- A number in ASCII digits. -/
  | number {a : Axis} {cs : List Char} {n : Nat} : (∀ c ∈ cs, c.isDigit = true) →
      cs.length ≤ Text.maxDigits → Text.Spells cs n → Writes a cs n
  /-- An hour on the twelve hour dial: one or two digits of any script, and then a word. -/
  | dial {number word : List Char} {n hour : Nat} : number.length = 1 ∨ number.length = 2 →
      Text.Spells number n → OnDial n (word.map Char.toLower) hour →
      Writes .hour (number ++ word) hour
  /-- A weekday by a word, of which the first two letters count. -/
  | word {x y : Char} {rest : List Char} {n : Nat} : NamesDay x.toLower y.toLower n →
      Writes .weekday (x :: y :: rest) n

theorem writes_of_numeral? {a : Axis} {cs : List Char} {n : Nat} (h : Text.numeral? cs = some n) :
    a.Writes cs n := by
  obtain ⟨hlength, h⟩ := Text.numeral?_eq_some_iff.1 h
  obtain ⟨hne, hdigits, rfl⟩ := Text.natural?_eq_some_iff.1 h
  exact .number hdigits hlength
    (Text.spells_decimalValue hne fun c hc => Text.isDecimal_of_isDigit (hdigits c hc))

theorem value?_eq_some_iff {a : Axis} {cs : List Char} {n : Nat} :
    a.value? cs = some n ↔ a.Writes cs n := by
  unfold value?
  constructor
  · intro h
    rcases Option.or_eq_some_iff.1 h with h | ⟨-, h⟩
    · exact writes_of_numeral? h
    · cases a with
      | minute => cases h
      | hour =>
        obtain ⟨number, word, m, rfl, hlength, hnumber, hdial⟩ := twelveHour?_eq_some_iff.1 h
        exact .dial hlength hnumber hdial
      | weekday =>
        obtain ⟨x, y, rest, rfl, hday⟩ := weekdayNamed?_eq_some_iff.1 h
        exact .word hday
  · intro h
    rw [Option.or_eq_some_iff]
    cases h with
    | number hdigits hlength hspells =>
      exact .inl (Text.numeral?_eq_some_iff.2 ⟨hlength,
        Text.natural?_eq_some_iff.2 ⟨hspells.ne_nil, hdigits, hspells.decimalValue_eq⟩⟩)
    | @dial number word m _ hlength hnumber hdial =>
      obtain ⟨c, rest, hcons, hc⟩ := hdial.exists_cons
      refine .inr ⟨Text.numeral?_eq_none_of_mem (c := c) (by simp [hcons]) hc, ?_⟩
      exact twelveHour?_eq_some_iff.2 ⟨number, word, m, rfl, hlength, hnumber, hdial⟩
    | @word x y rest _ hday =>
      refine .inr ⟨Text.numeral?_eq_none_of_mem (c := x) (by simp) hday.isDecimal_eq_false, ?_⟩
      exact weekdayNamed?_eq_some_iff.2 ⟨x, y, rest, rfl, hday⟩

/-- A number of too many digits writes nothing, not even an hour or a weekday by a word. -/
theorem not_writes_of_overlong {a : Axis} {cs : List Char} {n : Nat}
    (hlong : Text.Overlong cs cs.length) : ¬ a.Writes cs n := by
  have hdecimal : ∀ c ∈ cs, Text.isDecimal c = true :=
    fun c hc => Text.isDecimal_of_isDigit (hlong.digits c hc)
  intro h
  cases h with
  | number _ hshort _ => exact Nat.not_lt.2 hshort hlong.exceeds
  | dial _ _ hdial =>
    obtain ⟨c, rest, rfl, hc⟩ := hdial.exists_cons
    simp [hdecimal c (by simp)] at hc
  | @word x y rest _ hday =>
    have hx := hday.isDecimal_eq_false
    simp [hdecimal x (by simp)] at hx

theorem Writes.ne_nil {a : Axis} {cs : List Char} {n : Nat} (h : a.Writes cs n) : cs ≠ [] := by
  cases h with
  | number _ _ hspells => exact hspells.ne_nil
  | @dial number word _ _ hlength _ _ =>
    rintro he
    rw [List.append_eq_nil_iff] at he
    simp [he.1] at hlength
  | word _ => exact List.cons_ne_nil _ _

/-- Whether a token is a value of the axis inside its domain, or two of them with a dash between. -/
inductive Valid (a : Axis) : List Char → Prop where
  | value {x : List Char} {v : Nat} : '-' ∉ x → a.Writes x v → a.scale.contains v = true → Valid a x
  | range {x y : List Char} {v w : Nat} : '-' ∉ x → '-' ∉ y →
      a.Writes x v → a.scale.contains v = true → a.Writes y w → a.scale.contains w = true →
      Valid a (x ++ '-' :: y)

variable {a : Axis}

theorem exists_boundary_iff {x : List Char} :
    (∃ v, a.boundary x = .ok v) ↔ ∃ n : Nat, a.Writes x n ∧ a.scale.contains n = true := by
  constructor
  · rintro ⟨v, hv⟩
    obtain ⟨n, hn, hvn⟩ := boundary_eq_ok_iff.1 hv
    exact ⟨n, value?_eq_some_iff.1 hn, hvn ▸ v.2⟩
  · rintro ⟨n, hn, hc⟩
    exact ⟨⟨n, hc⟩, boundary_eq_ok_iff.2 ⟨n, value?_eq_some_iff.2 hn, rfl⟩⟩

theorem spans_of_not_mem {x : List Char} (hx : '-' ∉ x) (hne : x ≠ []) :
    a.spans x = do
      let v ← a.boundary x
      return (Span.between v v).split a.scale := by
  unfold spans
  rw [List.splitOn_eq_singleton hx]
  exact if_neg hne

theorem spans_append {x y : List Char} (hx : '-' ∉ x) (hy : '-' ∉ y) (hxne : x ≠ [])
    (hyne : y ≠ []) :
    a.spans (x ++ '-' :: y) = do
      let v ← a.boundary x
      let w ← a.boundary y
      return (Span.between v w).split a.scale := by
  unfold spans
  rw [List.splitOn_append_cons_self_of_not_mem hx, List.splitOn_eq_singleton hy]
  exact if_neg (by simp [hxne, hyne])

/-- A token has spans exactly if it is valid. -/
theorem exists_spans_iff {token : List Char} : (∃ rs, a.spans token = .ok rs) ↔ a.Valid token := by
  constructor
  · rintro ⟨rs, h⟩
    have hjoin : ['-'].intercalate (token.splitOn '-') = token := List.intercalate_splitOn '-'
    have hfree : ∀ x ∈ token.splitOn '-', '-' ∉ x := fun x hx => not_mem_of_mem_splitOn hx
    unfold spans at h
    split at h
    · rename_i x hs
      split at h
      · cases h
      · obtain ⟨v, hv, -⟩ := bind_eq_ok_iff.1 h
        obtain ⟨n, hn, hc⟩ := exists_boundary_iff.1 ⟨v, hv⟩
        rw [hs, List.intercalate_singleton] at hjoin
        exact .value (hfree token (by simp [hs, hjoin])) (hjoin ▸ hn) hc
    · rename_i x y hs
      split at h
      · cases h
      · obtain ⟨v, hv, h⟩ := bind_eq_ok_iff.1 h
        obtain ⟨w, hw, -⟩ := bind_eq_ok_iff.1 h
        obtain ⟨n, hn, hc⟩ := exists_boundary_iff.1 ⟨v, hv⟩
        obtain ⟨m, hm, hd⟩ := exists_boundary_iff.1 ⟨w, hw⟩
        have htoken : x ++ '-' :: y = token := by
          rw [← hjoin, hs]
          simp
        exact htoken ▸ .range (hfree x (by simp [hs])) (hfree y (by simp [hs])) hn hc hm hd
    · cases h
  · intro h
    cases h with
    | value hx hn hc =>
      obtain ⟨v, hv⟩ := exists_boundary_iff.2 ⟨_, hn, hc⟩
      rw [spans_of_not_mem hx hn.ne_nil, hv]
      exact ⟨_, rfl⟩
    | range hx hy hn hc hm hd =>
      obtain ⟨v, hv⟩ := exists_boundary_iff.2 ⟨_, hn, hc⟩
      obtain ⟨w, hw⟩ := exists_boundary_iff.2 ⟨_, hm, hd⟩
      rw [spans_append hx hy hn.ne_nil hm.ne_nil, hv, hw]
      exact ⟨_, rfl⟩

end Axis

end OpeningHours
