import OpeningHours.Span
import OpeningHours.Spec.Axis
import OpeningHours.Spec.Clause

/-!
# The ranges of a piece

A clause holds tokens, the words of its body, and must not be empty. A token is a value or two
values with a dash between them; the second may come before the first, and then the range goes
round the end of the scale and is split there. An axis that has no clause in a piece is not
restricted: it has its whole domain.
-/

namespace OpeningHours

namespace Axis

/-- The clauses of the axis in a text. -/
def clauses (a : Axis) (cs : List Char) : List Clause :=
  (segments a.names cs).filterMap Segment.clause?

/-- The tokens of a clause on the axis. -/
def clauseTokens (a : Axis) (c : Clause) : Except Fault (List (List Char)) :=
  match Text.words c.body with
  | [] => .error (.malformedRange (String.ofList c.text) a.scale)
  | tokens => .ok tokens

/-- The tokens of all clauses of the axis, in order. -/
def tokens (a : Axis) (cs : List Char) : Except Fault (List (List Char)) := do
  return (← (a.clauses cs).mapM a.clauseTokens).flatten

/-- A value of the axis, inside its domain. -/
def boundary (a : Axis) (cs : List Char) : Except Fault a.scale.Value := do
  let v ← a.value cs
  if h : a.scale.contains v = true then return ⟨v, h⟩
  else throw (.malformedValue (String.ofList cs) a.scale .outOfDomain)

/-- The one or two spans that a token means. -/
def spans (a : Axis) (token : List Char) : Except Fault (List Span) :=
  match token.splitOn '-' with
  | [x] => if x = [] then malformed else do
    let v ← a.boundary x
    return (Span.between v v).split a.scale
  | [x, y] => if x = [] ∨ y = [] then malformed else do
    let v ← a.boundary x
    let w ← a.boundary y
    return (Span.between v w).split a.scale
  | _ => malformed
where
  malformed : Except Fault (List Span) :=
    .error (.malformedRange (String.ofList token) a.scale)

/-- The spans that a piece allows on the axis. -/
def accepted (a : Axis) (cs : List Char) : Except Fault (List Span) := do
  match (← (← a.tokens cs).mapM a.spans).flatten with
  | [] => return [Span.full a.scale]
  | spans => return spans

end Axis

/-- The spans that a piece allows on each axis. -/
def acceptedSpans (cs : List Char) : Except Fault (List (Scale × List Span)) :=
  Axis.all.mapM fun a => do return (a.scale, ← a.accepted cs)

end OpeningHours
