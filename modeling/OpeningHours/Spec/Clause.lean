import OpeningHours.Text.Blank

/-!
# Clauses

A clause is one of an axis's names, perhaps blanks, and a body in braces that ends at the first
closing brace and does not reach over a line end. A text is read from the left: where a clause
starts it is taken whole, and every other character stands alone. Nothing is lost on the way:
the segments of a text make up the text (`flatMap_text_segments`).
-/

namespace OpeningHours

structure Clause where
  name : List Char
  blanks : List Char
  body : List Char
  deriving DecidableEq, Repr

namespace Clause

def text (c : Clause) : List Char :=
  c.name ++ c.blanks ++ '{' :: c.body ++ ['}']

/-- The text before the first closing brace of the line, and the text after it. -/
def splitClose? : List Char → Option (List Char × List Char)
  | [] => none
  | c :: cs =>
    if c = '}' then some ([], cs)
    else if c = '\n' then none
    else (splitClose? cs).map fun r => (c :: r.1, r.2)

/-- The clause whose name has been read, and the text after it. -/
def afterName? (name cs : List Char) : Option (Clause × List Char) :=
  match cs.dropWhile Text.isBlank with
  | '{' :: inner =>
    (splitClose? inner).map fun r => (⟨name, cs.takeWhile Text.isBlank, r.1⟩, r.2)
  | _ => none

/-- The clause with the given name at the head of a text, and the text after it. -/
def ofName? (name cs : List Char) : Option (Clause × List Char) :=
  if name.isPrefixOf cs then afterName? name (cs.drop name.length) else none

/-- The clause at the head of a text, under the first of the names that fits. -/
def head? (names : List (List Char)) (cs : List Char) : Option (Clause × List Char) :=
  names.findSome? fun name => ofName? name cs

theorem eq_append_of_splitClose? {cs body after : List Char}
    (h : splitClose? cs = some (body, after)) : cs = body ++ '}' :: after := by
  induction cs generalizing body after with
  | nil => simp [splitClose?] at h
  | cons c cs ih =>
    simp only [splitClose?] at h
    split at h
    · simp_all
    · split at h
      · simp at h
      · obtain ⟨⟨b, a⟩, hr, he⟩ := Option.map_eq_some_iff.1 h
        simp only [Prod.mk.injEq] at he
        obtain ⟨rfl, rfl⟩ := he
        simp [ih hr]

theorem eq_append_of_afterName? {name cs after : List Char} {c : Clause}
    (h : afterName? name cs = some (c, after)) :
    c.name = name ∧ name ++ cs = c.text ++ after := by
  unfold afterName? at h
  split at h
  · rename_i inner hd
    obtain ⟨⟨b, a⟩, hr, he⟩ := Option.map_eq_some_iff.1 h
    simp only [Prod.mk.injEq] at he
    obtain ⟨rfl, rfl⟩ := he
    have hcs : cs.takeWhile Text.isBlank ++ '{' :: (b ++ '}' :: a) = cs := by
      rw [← eq_append_of_splitClose? hr, ← hd, List.takeWhile_append_dropWhile]
    refine ⟨rfl, ?_⟩
    calc name ++ cs = name ++ (cs.takeWhile Text.isBlank ++ '{' :: (b ++ '}' :: a)) := by
          rw [hcs]
      _ = _ := by simp [text]
  · simp at h

theorem eq_append_of_ofName? {name cs after : List Char} {c : Clause}
    (h : ofName? name cs = some (c, after)) : c.name = name ∧ cs = c.text ++ after := by
  unfold ofName? at h
  split at h
  · rename_i hp
    obtain ⟨rest, rfl⟩ := List.isPrefixOf_iff_prefix.1 hp
    rw [List.drop_left] at h
    exact eq_append_of_afterName? h
  · simp at h

theorem eq_append_of_head? {names : List (List Char)} {cs after : List Char} {c : Clause}
    (h : head? names cs = some (c, after)) : c.name ∈ names ∧ cs = c.text ++ after := by
  obtain ⟨name, hn, h⟩ := List.exists_of_findSome?_eq_some h
  obtain ⟨rfl, he⟩ := eq_append_of_ofName? h
  exact ⟨hn, he⟩

theorem length_lt_of_head? {names : List (List Char)} {cs after : List Char} {c : Clause}
    (h : head? names cs = some (c, after)) : after.length < cs.length := by
  rw [(eq_append_of_head? h).2]
  simp [text]
  omega

end Clause

/-- A character of its own, or a clause. -/
inductive Segment where
  | plain (c : Char)
  | clause (c : Clause)
  deriving DecidableEq, Repr

namespace Segment

def text : Segment → List Char
  | plain c => [c]
  | clause c => c.text

def clause? : Segment → Option Clause
  | plain _ => none
  | clause c => some c

end Segment

/-- A text cut into clauses with the given names and single characters. -/
def segments (names : List (List Char)) : List Char → List Segment
  | [] => []
  | c :: cs =>
    match _h : Clause.head? names (c :: cs) with
    | some (clause, after) => .clause clause :: segments names after
    | none => .plain c :: segments names cs
termination_by cs => cs.length
decreasing_by
  · exact Clause.length_lt_of_head? (by assumption)
  · simp

theorem flatMap_text_segments (names : List (List Char)) (cs : List Char) :
    (segments names cs).flatMap Segment.text = cs := by
  fun_induction segments names cs with
  | case1 => rfl
  | case2 c cs clause after h ih =>
    rw [List.flatMap_cons, ih, (Clause.eq_append_of_head? h).2]
    rfl
  | case3 c cs h ih => simp [Segment.text, ih]

end OpeningHours
