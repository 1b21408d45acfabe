import OpeningHours.Proofs.Hours.Cover

/-!
# Joining specifications

A separator of one character cuts a text wherever it stands, so the pieces of two texts joined by
it are those of the first text and then those of the second (`pieces_append`). What is read from
the joined text is the union of what is read from the two, and the first fault from the left is
the fault (`readPeriods_join`). What is read depends on the pieces only as a set
(`readPeriods_of_mem_pieces_iff`), so their order and their repeats say nothing.
-/

namespace OpeningHours

namespace Text

variable {c : Char} {cs before after : List Char}

theorem not_mem_of_splitAt?_eq_none (h : splitAt? [c] cs = none) : c ∉ cs := by
  induction cs with
  | nil => simp
  | cons d cs ih =>
    rw [splitAt?] at h
    split at h
    · cases h
    · rename_i hd
      have hne : c ≠ d := by simpa using hd
      rw [List.mem_cons, not_or]
      exact ⟨hne, ih (Option.map_eq_none_iff.1 h)⟩

theorem not_mem_of_splitAt?_eq_some (h : splitAt? [c] cs = some (before, after)) : c ∉ before := by
  induction cs generalizing before after with
  | nil => cases h
  | cons d cs ih =>
    rw [splitAt?] at h
    split at h
    · cases h
      exact List.not_mem_nil
    · rename_i hd
      have hne : c ≠ d := by simpa using hd
      obtain ⟨⟨b, a⟩, hr, he⟩ := Option.map_eq_some_iff.1 h
      cases he
      rw [List.mem_cons, not_or]
      exact ⟨hne, ih hr⟩

/-- A separator of one character cuts a text as it cuts a list. -/
theorem pieces_eq_splitOn {sep : List Char} (hs : sep ≠ []) (hc : sep = [c]) (cs : List Char) :
    pieces sep hs cs = cs.splitOn c := by
  subst hc
  fun_induction pieces [c] hs cs with
  | case1 cs h => rw [List.splitOn_eq_singleton (not_mem_of_splitAt?_eq_none h)]
  | case2 cs before after h ih =>
    rw [eq_append_of_splitAt? h, List.append_assoc, List.singleton_append,
      List.splitOn_append_cons_self_of_not_mem (not_mem_of_splitAt?_eq_some h), ih]

end Text

variable {config : Config} {c : Char} {a b : String} {ps qs : List (Period .week)}

/-- The pieces of the text that the separator joins are those of the two parts. -/
theorem pieces_join (hc : config.separator.toList = [c]) (a b : String) :
    Text.pieces config.separator.toList config.separator_ne (a ++ config.separator ++ b).toList =
      Text.pieces config.separator.toList config.separator_ne a.toList ++
        Text.pieces config.separator.toList config.separator_ne b.toList := by
  rw [Text.pieces_eq_splitOn _ hc, Text.pieces_eq_splitOn _ hc, Text.pieces_eq_splitOn _ hc,
    String.toList_append, String.toList_append, hc, List.append_assoc, List.singleton_append,
    List.splitOn_append_cons_self]

/-- Texts without the separator are the pieces of the text that it joins. -/
theorem pieces_intercalate (hc : config.separator.toList = [c]) {bs : List String} (hne : bs ≠ [])
    (hbs : ∀ b ∈ bs, c ∉ b.toList) :
    Text.pieces config.separator.toList config.separator_ne
      (config.separator.intercalate bs).toList = bs.map String.toList := by
  have hfree : ∀ cs ∈ bs.map String.toList, c ∉ cs := by
    intro cs hcs
    obtain ⟨b, hb, rfl⟩ := List.mem_map.1 hcs
    exact hbs b hb
  rw [Text.pieces_eq_splitOn _ hc, String.toList_intercalate, hc]
  exact List.splitOn_intercalate c hfree (by simpa using hne)

/-- The pieces are read one by one, and then all their periods are merged. -/
theorem readPeriods_eq_map (config : Config) (a : String) :
    readPeriods config a =
      ((Text.pieces config.separator.toList config.separator_ne a.toList).mapM
        (piecePeriods config.strict)).map fun pss => Period.merge pss.flatten :=
  rfl

/-- What a text is read as depends on its pieces only as a set. -/
theorem readPeriods_of_mem_pieces_iff
    (h : ∀ piece, piece ∈ Text.pieces config.separator.toList config.separator_ne a.toList ↔
      piece ∈ Text.pieces config.separator.toList config.separator_ne b.toList)
    (ha : readPeriods config a = .ok ps) : readPeriods config b = .ok ps := by
  obtain ⟨pss, hpss, -⟩ := bind_eq_ok_iff.1 ha
  have hok : ∀ piece ∈ Text.pieces config.separator.toList config.separator_ne b.toList,
      ∃ qs, piecePeriods config.strict piece = .ok qs := by
    intro piece hpiece
    obtain ⟨qs, -, hqs⟩ := exists_eq_ok_of_mapM hpss piece ((h piece).2 hpiece)
    exact ⟨qs, hqs⟩
  obtain ⟨qss, hqss⟩ := exists_mapM_eq_ok hok
  have hb : readPeriods config b = .ok (Period.merge qss.flatten) := by
    rw [readPeriods_eq_map, hqss]
    rfl
  obtain ⟨hps, -, hpcover⟩ := covered_readPeriods ha
  obtain ⟨hqs, -, hqcover⟩ := covered_readPeriods hb
  have heq : Period.merge qss.flatten = ps := by
    apply hqs.eq_of_covered_iff hps
    intro t
    rw [hpcover, hqcover]
    simp only [h]
  rw [hb, heq]

/-- A text joined by the separator is read as the union of its parts. -/
theorem readPeriods_join (hc : config.separator.toList = [c]) (a b : String) :
    readPeriods config (a ++ config.separator ++ b) =
      match readPeriods config a, readPeriods config b with
      | .ok ps, .ok qs => .ok (Period.merge (ps ++ qs))
      | .ok _, .error fault => .error fault
      | .error fault, _ => .error fault := by
  rw [readPeriods_eq_map, readPeriods_eq_map, readPeriods_eq_map, pieces_join hc, List.mapM_append]
  cases ha : (Text.pieces config.separator.toList config.separator_ne a.toList).mapM
      (piecePeriods config.strict) with
  | error fault => rfl
  | ok pss =>
    cases hb : (Text.pieces config.separator.toList config.separator_ne b.toList).mapM
        (piecePeriods config.strict) with
    | error fault => rfl
    | ok qss =>
      have hp := forward_of_mapM_piecePeriods ha
      have hq := forward_of_mapM_piecePeriods hb
      show Except.ok (Period.merge (pss ++ qss).flatten) =
        .ok (Period.merge (Period.merge pss.flatten ++ Period.merge qss.flatten))
      rw [List.flatten_append, Period.merge_merge_append_merge hp hq]

/-- The union of two texts: what is read from both together is what is read from each, merged, or
else the fault of the first that has one. So pieces of a text that can be read may be put in
another order and repeated. -/
theorem readPeriods_union {config : Config} {c : Char} (hc : config.separator.toList = [c]) :
    (∀ a b : String, readPeriods config (a ++ config.separator ++ b) =
      match readPeriods config a, readPeriods config b with
      | .ok ps, .ok qs => .ok (Period.merge (ps ++ qs))
      | .ok _, .error fault => .error fault
      | .error fault, _ => .error fault) ∧
    ∀ (a : String) (ps : List (Period .week)) (bs : List String),
      readPeriods config a = .ok ps →
      (∀ piece, piece ∈ bs.map String.toList ↔
        piece ∈ Text.pieces config.separator.toList config.separator_ne a.toList) →
      readPeriods config (config.separator.intercalate bs) = .ok ps := by
  refine ⟨readPeriods_join hc, ?_⟩
  intro a ps bs ha hbs
  have hne : bs ≠ [] := by
    rintro rfl
    obtain ⟨piece, hpiece⟩ := List.exists_mem_of_ne_nil _
      (Text.pieces_ne_nil config.separator.toList config.separator_ne a.toList)
    exact List.not_mem_nil ((hbs piece).2 hpiece)
  have hfree : ∀ b ∈ bs, c ∉ b.toList := by
    intro b hb
    have hpiece := (hbs b.toList).1 (List.mem_map_of_mem hb)
    rw [Text.pieces_eq_splitOn _ hc] at hpiece
    exact not_mem_of_mem_splitOn hpiece
  refine readPeriods_of_mem_pieces_iff ?_ ha
  intro piece
  rw [pieces_intercalate hc hne hfree, hbs]

set_option maxRecDepth 2000 in
/-- Night hours and an hour of Monday, joined, and then with the pieces in another order and one of
them twice. -/
theorem readPeriods_union_nights_and_monday : ∃ ps : List (Period .week),
    Config.default.separator.toList = [','] ∧
    readPeriods .default "hr {22-2},wd {Mon} hr {9}" = .ok ps ∧
    (readPeriods .default ("hr {22-2}" ++ "," ++ "wd {Mon} hr {9}") =
      match readPeriods .default "hr {22-2}", readPeriods .default "wd {Mon} hr {9}" with
      | .ok ps, .ok qs => .ok (Period.merge (ps ++ qs))
      | .ok _, .error fault => .error fault
      | .error fault, _ => .error fault) ∧
    readPeriods .default "wd {Mon} hr {9},hr {22-2},wd {Mon} hr {9}" = .ok ps := by
  have hok : (readPeriods .default "hr {22-2},wd {Mon} hr {9}").isOk = true := by cbv
  obtain ⟨ps, hps⟩ := exists_eq_ok_of_isOk hok
  have hc : Config.default.separator.toList = [','] := by decide
  have hpieces : Text.pieces Config.default.separator.toList Config.default.separator_ne
      "hr {22-2},wd {Mon} hr {9}".toList = ["hr {22-2}".toList, "wd {Mon} hr {9}".toList] := by
    rw [Text.pieces_eq_splitOn _ hc]
    decide
  refine ⟨ps, hc, hps, (readPeriods_union hc).1 _ _, ?_⟩
  apply (readPeriods_union hc).2 _ ps ["wd {Mon} hr {9}", "hr {22-2}", "wd {Mon} hr {9}"] hps
  intro piece
  rw [hpieces]
  simp only [List.map_cons, List.map_nil, List.mem_cons, List.not_mem_nil, or_false]
  constructor
  · rintro (h | h | h)
    · exact Or.inr h
    · exact Or.inl h
    · exact Or.inr h
  · rintro (h | h)
    · exact Or.inr (Or.inl h)
    · exact Or.inl h

end OpeningHours
