import OpeningHours.Proofs.Spec.Passage
import OpeningHours.Proofs.Spec.Union

/-!
# Blanks between tokens

Outside the strict mode a piece is read from the tokens of its axes alone
(`piecePeriods_false_congr`), and which blanks separate the tokens of a clause is not seen in them:
other blanks in the same clause mean the same (`readPeriods_respaced`). The line end is the
exception. A clause that has one in its braces is not found, and its axis is read as if it had not
been written (`line_end_hides_hours`).
-/

namespace OpeningHours

theorem piecePeriods_false_congr {x y : List Char} (h : ∀ a : Axis, a.tokens x = a.tokens y) :
    piecePeriods false x = piecePeriods false y := by
  have haccepted : acceptedSpans x = acceptedSpans y := by
    simp only [acceptedSpans, Axis.accepted, h]
  rw [piecePeriods_false_eq, piecePeriods_false_eq, haccepted]

theorem Axis.writtenTokens_append (a : Axis) (ks ls : List WrittenClause) :
    a.writtenTokens (ks ++ ls) = a.writtenTokens ks ++ a.writtenTokens ls := by
  rw [writtenTokens, List.filter_append, List.flatMap_append]
  rfl

theorem Axis.writtenTokens_cons_congr (a : Axis) {k l : WrittenClause} (hname : k.name = l.name)
    (htokens : k.body.tokens = l.body.tokens) (ks : List WrittenClause) :
    a.writtenTokens (k :: ks) = a.writtenTokens (l :: ks) := by
  simp only [writtenTokens, List.filter_cons, hname]
  split
  · rw [List.flatMap_cons, List.flatMap_cons, htokens]
  · rfl

namespace Passage

/-- The specification with some passages as its pieces. -/
def joined (ps : List Passage) : String :=
  ",".intercalate (ps.map fun p => String.ofList p.text)

theorem readPeriods_joined {ps : List Passage} (hne : ps ≠ []) (hcomma : ∀ p ∈ ps, ',' ∉ p.text) :
    readPeriods .default (joined ps) =
      (ps.mapM fun p => piecePeriods false p.text).map fun pss => Period.merge pss.flatten := by
  have hpieces : Text.pieces Config.default.separator.toList Config.default.separator_ne
      (joined ps).toList = ps.map text := by
    have hfree : ∀ b ∈ ps.map fun p => String.ofList p.text, ',' ∉ b.toList := by
      intro b hb
      obtain ⟨p, hp, rfl⟩ := List.mem_map.1 hb
      rw [String.toList_ofList]
      exact hcomma p hp
    have hc : Config.default.separator.toList = [','] := by decide
    refine (pieces_intercalate hc (by simpa using hne) hfree).trans ?_
    simp [Function.comp_def]
  rw [readPeriods_eq_map, hpieces, List.mapM_map]
  rfl

/-- A piece may be replaced by another one with the same tokens on every axis. -/
theorem readPeriods_joined_congr {before after : List Passage} {p q : Passage}
    (hp : ∀ s ∈ before ++ p :: after, ',' ∉ s.text) (hq : ∀ s ∈ before ++ q :: after, ',' ∉ s.text)
    (h : ∀ a : Axis, a.tokens p.text = a.tokens q.text) :
    readPeriods .default (joined (before ++ p :: after)) =
      readPeriods .default (joined (before ++ q :: after)) := by
  rw [readPeriods_joined (by simp) hp, readPeriods_joined (by simp) hq, List.mapM_append,
    List.mapM_append, List.mapM_cons, List.mapM_cons, piecePeriods_false_congr h]

/-- In the text of a specification a clause is written once more, with the same tokens and other
blanks. Nothing changes if there are line ends in both bodies or in none; and with a line end in
its body a clause might as well not be there. -/
theorem readPeriods_respaced {before after : List Passage} {p q r : Passage}
    {es fs : List (List Char × WrittenClause)} {x : List Char} {k l : WrittenClause}
    (hp : p.entries = es ++ (x, k) :: fs) (hq : q.entries = es ++ (x, l) :: fs)
    (hr : r.entries = es ++ fs) (hname : k.name = l.name) (htokens : k.body.tokens = l.body.tokens)
    (hcomma : ∀ s ∈ p :: q :: r :: (before ++ after), ',' ∉ s.text) :
    (('\n' ∈ k.body.text ↔ '\n' ∈ l.body.text) →
      readPeriods .default (joined (before ++ p :: after)) =
        readPeriods .default (joined (before ++ q :: after))) ∧
    ('\n' ∈ l.body.text →
      readPeriods .default (joined (before ++ q :: after)) =
        readPeriods .default (joined (before ++ r :: after))) := by
  have hfree : ∀ s ∈ [p, q, r], ∀ t ∈ before ++ s :: after, ',' ∉ t.text := by
    intro s hs t ht
    apply hcomma
    grind
  constructor
  · intro hline
    have hsame : k.onLine = l.onLine := by
      rw [Bool.eq_iff_iff, WrittenClause.onLine_iff, WrittenClause.onLine_iff, hline]
    refine readPeriods_joined_congr (hfree p (by simp)) (hfree q (by simp)) fun a => ?_
    rw [tokens_text, tokens_text, clauses, clauses, hp, hq]
    simp only [List.map_append, List.map_cons, List.filter_append, List.filter_cons, hsame]
    split
    · rw [a.writtenTokens_append, a.writtenTokens_cons_congr hname htokens, a.writtenTokens_append]
    · rfl
  · intro hline
    have hoff : l.onLine = false := by simp [WrittenClause.onLine, hline]
    refine readPeriods_joined_congr (hfree q (by simp)) (hfree r (by simp)) fun a => ?_
    rw [tokens_text, tokens_text, clauses, clauses, hq, hr]
    simp [hoff]

/-- The clause `wd {Mon}`. -/
def monday : WrittenClause where
  name := "wd".toList
  blanks := [' ']
  body := ⟨[], "Mon".toList, [], [], by simp, by simp, by simp, by decide⟩
  name_mem := by decide
  blanks_blank := by simp

/-- The clause `hr {9 11}`, with any blank between the hours. -/
def nineAndEleven (c : Char) (hc : Text.isBlank c = true) : WrittenClause where
  name := "hr".toList
  blanks := [' ']
  body := ⟨[], "9".toList, [([c], "11".toList)], [], by simp, by simpa using hc, by simp, by
    simp only [List.map_cons, List.map_nil]
    decide⟩
  name_mem := by decide
  blanks_blank := by simp

/-- The two hours on Mondays. -/
def hoursOnMonday (c : Char) (hc : Text.isBlank c = true) : Passage :=
  ⟨[([], monday), ([' '], nineAndEleven c hc)], [], by simp, by simp⟩

def allMonday : Passage :=
  ⟨[([], monday)], [], by simp, by simp⟩

/-- Two hours of Monday with a space between them, with a tab and with a line end. -/
theorem readPeriods_respaced_two_hours :
    readPeriods .default "wd {Mon} hr {9 11}" =
      readPeriods .default "wd \x7bMon\x7d hr \x7b9\t11\x7d" ∧
    readPeriods .default "wd \x7bMon\x7d hr \x7b9\n11\x7d" = readPeriods .default "wd {Mon}" := by
  have hspaced : joined [hoursOnMonday ' ' (by decide)] = "wd {Mon} hr {9 11}" := by decide
  have htabbed : joined [hoursOnMonday '\t' (by decide)] =
      "wd \x7bMon\x7d hr \x7b9\t11\x7d" := by decide
  have hbroken : joined [hoursOnMonday '\n' (by decide)] =
      "wd \x7bMon\x7d hr \x7b9\n11\x7d" := by decide
  have hmonday : joined [allMonday] = "wd {Mon}" := by decide
  rw [← hspaced, ← htabbed, ← hbroken, ← hmonday]
  constructor
  · exact (@readPeriods_respaced [] [] (hoursOnMonday ' ' (by decide))
      (hoursOnMonday '\t' (by decide)) allMonday [([], monday)] [] [' '] _ _ rfl rfl rfl rfl rfl
      (by decide)).1 (by decide)
  · exact (@readPeriods_respaced [] [] (hoursOnMonday ' ' (by decide))
      (hoursOnMonday '\n' (by decide)) allMonday [([], monday)] [] [' '] _ _ rfl rfl rfl rfl rfl
      (by decide)).2 (by decide)

set_option maxRecDepth 4000 in
/-- With a line end between two hours the hours are lost, and Monday is open all day. -/
theorem line_end_hides_hours :
    (∃ ps qs : List (Period .week), readPeriods .default "wd {Mon} hr {9 11}" = .ok ps ∧
      readPeriods .default "wd \x7bMon\x7d hr \x7b9\n11\x7d" = .ok qs ∧ ps ≠ qs) ∧
    readPeriods .default "wd \x7bMon\x7d hr \x7b9\n11\x7d" = readPeriods .default "wd {Mon}" := by
  have hsame : readPeriods .default "wd \x7bMon\x7d hr \x7b9\n11\x7d" =
      readPeriods .default "wd {Mon}" := by cbv
  obtain ⟨ps, hps, htwo⟩ := exists_eq_ok_of_any
    (show (readPeriods .default "wd {Mon} hr {9 11}").toOption.any
      (fun ps => ps.length == 2) = true by cbv)
  obtain ⟨qs, hqs, hone⟩ := exists_eq_ok_of_any
    (show (readPeriods .default "wd {Mon}").toOption.any (fun ps => ps.length == 1) = true by cbv)
  refine ⟨⟨ps, qs, hps, hsame.trans hqs, ?_⟩, hsame⟩
  rintro rfl
  simp_all

end Passage

end OpeningHours
