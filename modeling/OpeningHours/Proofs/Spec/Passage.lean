import OpeningHours.Proofs.Spec.Readable

/-!
# Clauses written into a text

A body is written from its tokens with blanks between them, and the words of what is written are
the tokens again (`WrittenBody.words_text`). A passage is any text without an opening brace, with
written clauses in it. A scan finds these clauses and nothing else, one by one in their order
(`Passage.segments_text`): neither the text around them nor the letters of another name make it
stop at a wrong brace. Only a clause with a line end among its blanks is not found. So the tokens
of an axis are those that are written for it, and without the clauses what is left of a passage is
the text around them, which decides what the strict mode says (`passage_read`).
-/

namespace OpeningHours

namespace Text

@[simp] theorem isBlank_space : isBlank ' ' = true := by
  decide

/-! The words of a text, from the left. -/

theorem words_append_cons {c : Char} (hc : isBlank c = true) (xs ys : List Char) :
    words (xs ++ c :: ys) = words xs ++ words ys := by
  rw [words, List.splitOnP_append_cons xs ys hc, List.filter_append]
  rfl

theorem words_blanks_append {b : List Char} (hb : ∀ c ∈ b, isBlank c = true) (cs : List Char) :
    words (b ++ cs) = words cs := by
  induction b with
  | nil => rfl
  | cons c b ih =>
    obtain ⟨hc, hb⟩ := List.forall_mem_cons.1 hb
    exact (words_append_cons hc [] (b ++ cs)).trans (ih hb)

theorem words_append_gap {g : List Char} (hne : g ≠ []) (hg : ∀ c ∈ g, isBlank c = true)
    (xs ys : List Char) : words (xs ++ (g ++ ys)) = words xs ++ words ys := by
  cases g with
  | nil => exact absurd rfl hne
  | cons c g =>
    obtain ⟨hc, hg⟩ := List.forall_mem_cons.1 hg
    rw [List.cons_append, words_append_cons hc, words_blanks_append hg]

theorem words_append_blanks {b : List Char} (hb : ∀ c ∈ b, isBlank c = true) (cs : List Char) :
    words (cs ++ b) = words cs := by
  by_cases hne : b = []
  · rw [hne, List.append_nil]
  · have hend := words_append_gap hne hb cs []
    rwa [List.append_nil, show words [] = [] from rfl, List.append_nil] at hend

theorem words_of_solid {cs : List Char} (hne : cs ≠ []) (hs : Solid cs) : words cs = [cs] := by
  rw [words, List.splitOnP_eq_singleton fun c hc => (hs c hc).1]
  simp [hne]

/-- The words of a row of tokens, each but the first after a gap. -/
theorem words_row {t trail : List Char} {more : List (List Char × List Char)}
    (htoken : ∀ u ∈ t :: more.map Prod.snd, u ≠ [] ∧ Solid u)
    (hgap : ∀ d ∈ more, d.1 ≠ [] ∧ ∀ c ∈ d.1, isBlank c = true)
    (htrail : ∀ c ∈ trail, isBlank c = true) :
    words (t ++ (more.flatMap (fun d => d.1 ++ d.2) ++ trail)) = t :: more.map Prod.snd := by
  induction more generalizing t with
  | nil =>
    obtain ⟨hne, hs⟩ := htoken t (by simp)
    rw [List.flatMap_nil, List.nil_append, words_append_blanks htrail, words_of_solid hne hs]
    rfl
  | cons d more ih =>
    obtain ⟨⟨hne, hs⟩, hmore⟩ := List.forall_mem_cons.1 htoken
    obtain ⟨⟨hd, hb⟩, hgap⟩ := List.forall_mem_cons.1 hgap
    rw [List.flatMap_cons, List.append_assoc, List.append_assoc, words_append_gap hd hb,
      words_of_solid hne hs, ih hmore hgap]
    rfl

/-! Braces that stand apart, also from a closing brace just before the text. -/

theorem braced_close_cons_iff {z : List Char} :
    Braced ('}' :: z) ↔ OpensAfter (!isBlank ·) z ∧ Braced z := by
  simp [braced_cons_iff]

theorem Braced.append_left {x w : List Char} (hx : ∀ c ∈ x, c ≠ '{' ∧ c ≠ '}') (h : Braced w) :
    Braced (x ++ w) := by
  induction x with
  | nil => exact h
  | cons c x ih =>
    obtain ⟨⟨hopen, hclose⟩, hx⟩ := List.forall_mem_cons.1 hx
    exact braced_cons_iff.2 ⟨fun hc => absurd hc hopen, fun hc => absurd hc hclose, ih hx⟩

theorem braced_append_of_brace_not_mem {x z : List Char} (hx : '{' ∉ x) (h : Braced ('}' :: z)) :
    Braced ('}' :: (x ++ z)) := by
  induction x with
  | nil => exact h
  | cons c x ih =>
    have hc : c ≠ '{' := fun hc => hx (by simp [hc])
    obtain ⟨hopen, hbraced⟩ := braced_close_cons_iff.1 (ih fun h => hx (List.mem_cons_of_mem c h))
    exact braced_close_cons_iff.2 ⟨opensAfter_cons_iff.2 ⟨hc, .inr hopen⟩,
      braced_cons_iff.2 ⟨fun h => absurd h hc, fun _ => hopen, hbraced⟩⟩

theorem opensAfter_close {body z : List Char} (hbody : '{' ∉ body) :
    OpensAfter (· == '}') (body ++ '}' :: z) := by
  induction body with
  | nil => exact opensAfter_cons_iff.2 ⟨by decide, .inl rfl⟩
  | cons c body ih =>
    exact opensAfter_cons_iff.2 ⟨fun hc => hbody (by simp [hc]),
      .inr (ih fun h => hbody (List.mem_cons_of_mem c h))⟩

end Text

/-- The body of a clause as it is written: tokens with blanks between them, and perhaps around. -/
structure WrittenBody where
  lead : List Char
  first : List Char
  /-- The other tokens, each after the blanks before it. -/
  more : List (List Char × List Char)
  trail : List Char
  lead_blank : ∀ c ∈ lead, Text.isBlank c = true
  gap_blank : ∀ d ∈ more, d.1 ≠ [] ∧ ∀ c ∈ d.1, Text.isBlank c = true
  trail_blank : ∀ c ∈ trail, Text.isBlank c = true
  token_solid : ∀ t ∈ first :: more.map Prod.snd, t ≠ [] ∧ Text.Solid t

namespace WrittenBody

def tokens (b : WrittenBody) : List (List Char) :=
  b.first :: b.more.map Prod.snd

def text (b : WrittenBody) : List Char :=
  b.lead ++ (b.first ++ (b.more.flatMap (fun d => d.1 ++ d.2) ++ b.trail))

/-- The words of a body that is written are its tokens. -/
theorem words_text (b : WrittenBody) : Text.words b.text = b.tokens := by
  rw [text, Text.words_blanks_append b.lead_blank]
  exact Text.words_row b.token_solid b.gap_blank b.trail_blank

theorem ne_brace_of_mem_text {b : WrittenBody} {c : Char} (h : c ∈ b.text) :
    c ≠ '{' ∧ c ≠ '}' := by
  have hblank (hc : Text.isBlank c = true) : c ≠ '{' ∧ c ≠ '}' := by
    constructor <;> rintro rfl <;> exact absurd hc (by decide)
  have htoken {t : List Char} (ht : t ∈ b.tokens) (hc : c ∈ t) : c ≠ '{' ∧ c ≠ '}' :=
    ((b.token_solid t ht).2 c hc).2
  simp only [text, List.mem_append, List.mem_flatMap] at h
  rcases h with h | h | ⟨d, hd, h | h⟩ | h
  · exact hblank (b.lead_blank c h)
  · exact htoken (List.mem_cons_self ..) h
  · exact hblank ((b.gap_blank d hd).2 c h)
  · exact htoken (List.mem_cons_of_mem _ (List.mem_map_of_mem hd)) h
  · exact hblank (b.trail_blank c h)

end WrittenBody

/-- A clause as it is written. -/
structure WrittenClause where
  name : List Char
  blanks : List Char
  body : WrittenBody
  name_mem : name ∈ Axis.allNames
  blanks_blank : ∀ c ∈ blanks, Text.isBlank c = true

namespace WrittenClause

variable {names : List (List Char)}

def clause (k : WrittenClause) : Clause :=
  ⟨k.name, k.blanks, k.body.text⟩

def text (k : WrittenClause) : List Char :=
  k.clause.text

/-- Whether the body stays on one line. -/
def onLine (k : WrittenClause) : Bool :=
  !k.body.text.contains '\n'

theorem onLine_iff {k : WrittenClause} : k.onLine = true ↔ '\n' ∉ k.body.text := by
  simp [onLine]

/-- What a scan for some names sees in a clause: nothing to stop at if the name is another one, or
if the body goes over a line end. -/
def seen (names : List (List Char)) (k : WrittenClause) : List Segment :=
  if names.contains k.name && k.onLine then [.clause k.clause] else k.text.map .plain

theorem seen_of_mem {k : WrittenClause} (hname : k.name ∈ names) (hline : '\n' ∉ k.body.text) :
    k.seen names = [.clause k.clause] :=
  if_pos (by simp [hname, onLine_iff.2 hline])

theorem clauseTokens_clause (a : Axis) (k : WrittenClause) :
    a.clauseTokens k.clause = .ok k.body.tokens := by
  have hwords : Text.words k.clause.body = k.body.tokens := k.body.words_text
  exact Axis.clauseTokens_eq_ok_iff.2 ⟨hwords.symm, List.cons_ne_nil _ _⟩

theorem segments_append (hn : names ⊆ Axis.allNames) (k : WrittenClause) (z : List Char) :
    segments names (k.text ++ z) = k.seen names ++ segments names z := by
  have hopen : '{' ∉ k.body.text := fun h => (WrittenBody.ne_brace_of_mem_text h).1 rfl
  have hclose : '}' ∉ k.body.text := fun h => (WrittenBody.ne_brace_of_mem_text h).2 rfl
  unfold seen
  split
  · rename_i hk
    obtain ⟨hname, hline⟩ : k.name ∈ names ∧ '\n' ∉ k.body.text := by simpa [onLine_iff] using hk
    have hfits : k.clause.Fits names :=
      ⟨hname, k.blanks_blank, fun c hc => ⟨fun h => hclose (h ▸ hc), fun h => hline (h ▸ hc)⟩⟩
    exact segments_of_head? (Clause.head?_text_append hn hfits z)
  · rename_i hk
    have hline : k.name ∈ names → '\n' ∈ k.body.text := by simpa [onLine] using hk
    exact segments_text_append_of_none hn k.name_mem k.blanks_blank hopen
      (Clause.head?_text_append_eq_none hn k.name_mem k.blanks_blank hclose hline z)

theorem braced_append (k : WrittenClause) {z : List Char} (h : Text.Braced ('}' :: z)) :
    Text.Braced ('}' :: (k.text ++ z)) := by
  have hsolid := Axis.solid_of_mem_allNames k.name_mem
  have hfront : ∀ c ∈ k.name ++ k.blanks, c ≠ '{' ∧ c ≠ '}' := fun c hc =>
    ⟨fun he => hsolid.brace_not_mem k.blanks_blank (.inl he) hc,
      fun he => hsolid.brace_not_mem k.blanks_blank (.inr he) hc⟩
  have hinner : Text.Braced (k.body.text ++ '}' :: z) :=
    h.append_left fun c hc => WrittenBody.ne_brace_of_mem_text hc
  have hbraces : Text.Braced ('{' :: (k.body.text ++ '}' :: z)) := by
    refine Text.braced_cons_iff.2 ⟨fun _ => ?_, fun hc => absurd hc (by decide), hinner⟩
    exact Text.opensAfter_close fun h => (WrittenBody.ne_brace_of_mem_text h).1 rfl
  have htext : k.text ++ z = k.name ++ k.blanks ++ '{' :: (k.body.text ++ '}' :: z) := by
    simp [text, clause, Clause.text]
  refine Text.braced_close_cons_iff.2 ⟨?_, htext ▸ hbraces.append_left hfront⟩
  -- the first letter of the name stands before the brace
  obtain ⟨c, cs, hname⟩ := Axis.exists_cons_of_mem_allNames k.name_mem
  obtain ⟨hblank, hopen, -⟩ := hsolid c (by simp [hname])
  rw [htext, hname]
  exact Text.opensAfter_cons_iff.2 ⟨hopen, .inl (by simp [hblank])⟩

end WrittenClause

/-- The tokens that are written for an axis, in order. -/
def Axis.writtenTokens (a : Axis) (ks : List WrittenClause) : List (List Char) :=
  (ks.filter fun k => a.names.contains k.name).flatMap fun k => k.body.tokens

/-- Written clauses with other text before, between and after them. -/
structure Passage where
  /-- The clauses, each after the text before it. -/
  entries : List (List Char × WrittenClause)
  tail : List Char
  entry_free : ∀ e ∈ entries, '{' ∉ e.1
  tail_free : '{' ∉ tail

namespace Passage

variable {names : List (List Char)}

def clauses (p : Passage) : List WrittenClause :=
  p.entries.map Prod.snd

/-- The text around the clauses. -/
def around (p : Passage) : List Char :=
  p.entries.flatMap Prod.fst ++ p.tail

def text (p : Passage) : List Char :=
  p.entries.flatMap (fun e => e.1 ++ e.2.text) ++ p.tail

theorem segments_entries (hn : names ⊆ Axis.allNames) {es : List (List Char × WrittenClause)}
    (hes : ∀ e ∈ es, '{' ∉ e.1) (z : List Char) :
    segments names (es.flatMap (fun e => e.1 ++ e.2.text) ++ z) =
      es.flatMap (fun e => e.1.map .plain ++ e.2.seen names) ++ segments names z := by
  induction es with
  | nil => rfl
  | cons e es ih =>
    obtain ⟨he, hes⟩ := List.forall_mem_cons.1 hes
    have hfront (w : List Char) : segments names (e.1 ++ (e.2.text ++ w)) =
        e.1.map .plain ++ segments names (e.2.text ++ w) := by
      rw [WrittenClause.text, Clause.text_append]
      exact segments_before_name hn he e.2.name_mem e.2.blanks_blank
    rw [List.flatMap_cons, List.flatMap_cons, List.append_assoc, List.append_assoc, hfront,
      WrittenClause.segments_append hn, ih hes]
    simp only [List.append_assoc]

/-- A scan sees the clauses that are written, and else single characters. -/
theorem segments_text (hn : names ⊆ Axis.allNames) (p : Passage) :
    segments names p.text =
      p.entries.flatMap (fun e => e.1.map .plain ++ e.2.seen names) ++ p.tail.map .plain := by
  rw [text, segments_entries hn p.entry_free, segments_of_brace_not_mem p.tail_free]

theorem braced_entries {es : List (List Char × WrittenClause)} (hes : ∀ e ∈ es, '{' ∉ e.1)
    {z : List Char} (h : Text.Braced ('}' :: z)) :
    Text.Braced ('}' :: (es.flatMap (fun e => e.1 ++ e.2.text) ++ z)) := by
  -- the brace in front stands for the one that ends the clause before
  induction es with
  | nil => exact h
  | cons e es ih =>
    obtain ⟨he, hes⟩ := List.forall_mem_cons.1 hes
    rw [List.flatMap_cons, List.append_assoc, List.append_assoc]
    exact Text.braced_append_of_brace_not_mem he (e.2.braced_append (ih hes))

theorem braced_text (p : Passage) : Text.Braced p.text := by
  have htail := Text.braced_append_of_brace_not_mem (z := []) p.tail_free (by decide)
  rw [List.append_nil] at htail
  exact (Text.braced_close_cons_iff.1 (braced_entries p.entry_free htail)).2

/-! What is read of a passage. -/

theorem filterMap_clause?_map_plain (cs : List Char) :
    (cs.map Segment.plain).filterMap Segment.clause? = [] := by
  simp [List.filterMap_map, Function.comp_def, Segment.clause?]

theorem clauses_text (a : Axis) (p : Passage) :
    a.clauses p.text = (p.clauses.filter fun k =>
      a.names.contains k.name && k.onLine).map WrittenClause.clause := by
  rw [Axis.clauses, segments_text a.names_subset_allNames, List.filterMap_append,
    filterMap_clause?_map_plain, List.append_nil, clauses]
  induction p.entries with
  | nil => rfl
  | cons e es ih =>
    rw [List.flatMap_cons, List.filterMap_append, List.filterMap_append,
      filterMap_clause?_map_plain, List.nil_append, ih, List.map_cons, List.filter_cons,
      WrittenClause.seen]
    split
    · rfl
    · rw [filterMap_clause?_map_plain, List.nil_append]

/-- The tokens of an axis are those written for it where no line end is in the way. -/
theorem tokens_text (a : Axis) (p : Passage) :
    a.tokens p.text = .ok (a.writtenTokens (p.clauses.filter WrittenClause.onLine)) := by
  have hok (ks : List WrittenClause) :
      (ks.map WrittenClause.clause).mapM a.clauseTokens = .ok (ks.map (·.body.tokens)) := by
    rw [List.mapM_map]
    exact mapM_eq_ok_map fun k _ => k.clauseTokens_clause a
  rw [Axis.tokens, clauses_text, hok]
  show Except.ok _ = Except.ok _
  rw [Axis.writtenTokens, List.filter_filter, List.flatMap_def]

/-- Without its clauses, what is left of a passage is the text around them. -/
theorem leftover_text {p : Passage} (hline : ∀ k ∈ p.clauses, '\n' ∉ k.body.text) :
    leftover p.text = Text.strip (p.entries.flatMap (fun e => e.1 ++ [' ']) ++ p.tail) := by
  rw [leftover_eq p.braced_text, segments_text (List.Subset.refl _), List.flatMap_append,
    List.flatMap_assoc, Segment.flatMap_left_map_plain]
  congr 2
  refine List.flatMap_congr fun e he => ?_
  have hseen := e.2.seen_of_mem e.2.name_mem (hline e.2 (List.mem_map_of_mem he))
  rw [List.flatMap_append, Segment.flatMap_left_map_plain, hseen, List.flatMap_singleton,
    Segment.left_of_mem e.2.name_mem]

theorem leftover_text_eq_nil_iff {p : Passage} (hline : ∀ k ∈ p.clauses, '\n' ∉ k.body.text) :
    leftover p.text = [] ↔ ∀ c ∈ p.around, Text.isBlank c = true := by
  rw [leftover_text hline, Text.strip_eq_nil_iff]
  simp only [around, List.mem_append, List.mem_flatMap, List.mem_singleton]
  constructor
  · rintro h c (⟨e, he, hc⟩ | hc)
    · exact h c (.inl ⟨e, he, .inl hc⟩)
    · exact h c (.inr hc)
  · rintro h c (⟨e, he, hc | rfl⟩ | hc)
    · exact h c (.inl ⟨e, he, hc⟩)
    · exact Text.isBlank_space
    · exact h c (.inr hc)

/-- Reading takes back what has been written: the tokens of each axis are those written for it, in
order and whatever the text around the clauses is. In strict mode this text is the fault if there
is more to it than blanks; else both modes read the same, or fail with the same. -/
theorem passage_read (p : Passage) (hline : ∀ k ∈ p.clauses, '\n' ∉ k.body.text) :
    (∀ a : Axis, a.tokens p.text = .ok (a.writtenTokens p.clauses)) ∧
    ((∃ piece rest, piecePeriods true p.text = .error (.unrecognized piece rest)) ↔
      ∃ c ∈ p.around, Text.isBlank c = false) ∧
    ((∀ c ∈ p.around, Text.isBlank c = true) →
      piecePeriods true p.text = piecePeriods false p.text) := by
  have hstrict : (∀ c ∈ p.around, Text.isBlank c = true) →
      piecePeriods true p.text = piecePeriods false p.text := by
    intro hblank
    have hcheck : checkLeftover p.text = .ok () := by
      rw [checkLeftover, (leftover_text_eq_nil_iff hline).2 hblank]
    rw [piecePeriods_true_eq, hcheck]
    rfl
  refine ⟨fun a => ?_, ⟨?_, ?_⟩, hstrict⟩
  · rw [tokens_text, List.filter_eq_self.2 fun k hk => WrittenClause.onLine_iff.2 (hline k hk)]
  · rintro ⟨piece, rest, hfault⟩
    by_contra hnone
    have hblank : ∀ c ∈ p.around, Text.isBlank c = true := by simpa using hnone
    rw [hstrict hblank] at hfault
    -- outside the strict mode there is no such fault
    cases failsWith_piecePeriods false p.text _ hfault with
    | unrecognized _ _ h => cases h
  · rintro ⟨c, hc, hsolid⟩
    have hne : leftover p.text ≠ [] := by
      rw [ne_eq, leftover_text_eq_nil_iff hline]
      intro h
      rw [h c hc] at hsolid
      cases hsolid
    have hcheck : checkLeftover p.text =
        .error (.unrecognized (String.ofList p.text) (String.ofList (leftover p.text))) := by
      unfold checkLeftover
      split
      · contradiction
      · rfl
    exact ⟨_, _, by rw [piecePeriods_true_eq, hcheck]; rfl⟩

/-- Letters of names stand before the names, after them and in a token. -/
theorem passage_read_amid_letters : ∃ p : Passage,
    p.text = "wdmi min {5 10} hou hr{ 9-12}wd {thmin} mihour".toList ∧
    (∀ k ∈ p.clauses, '\n' ∉ k.body.text) ∧
    Axis.minute.tokens p.text = .ok ["5".toList, "10".toList] ∧
    Axis.hour.tokens p.text = .ok ["9-12".toList] ∧
    Axis.weekday.tokens p.text = .ok ["thmin".toList] ∧
    ∃ piece rest, piecePeriods true p.text = .error (.unrecognized piece rest) := by
  let minutes : WrittenClause := ⟨"min".toList, [' '],
    ⟨[], "5".toList, [([' '], "10".toList)], [], by simp, by simp, by simp, by decide⟩,
    by decide, by simp⟩
  let hours : WrittenClause := ⟨"hr".toList, [],
    ⟨[' '], "9-12".toList, [], [], by simp, by simp, by simp, by decide⟩, by decide, by simp⟩
  let days : WrittenClause := ⟨"wd".toList, [' '],
    ⟨[], "thmin".toList, [], [], by simp, by simp, by simp, by decide⟩, by decide, by simp⟩
  let p : Passage := ⟨[("wdmi ".toList, minutes), (" hou ".toList, hours), ([], days)],
    " mihour".toList, by decide, by decide⟩
  have hline : ∀ k ∈ p.clauses, '\n' ∉ k.body.text := by decide
  obtain ⟨htokens, hstrict, -⟩ := passage_read p hline
  exact ⟨p, by decide, hline, (htokens .minute).trans (by decide), (htokens .hour).trans (by decide),
    (htokens .weekday).trans (by decide),
    hstrict.2 ⟨'w', by decide, by decide⟩⟩

end Passage

end OpeningHours
