import OpeningHours.Period.Merge
import OpeningHours.Spec.Expansion
import OpeningHours.Spec.Range
import OpeningHours.Text.Split

/-!
# Reading a specification

A specification is cut into pieces at its separator. A piece allows the minutes of the week that
each of its axes allows, the specification those of any piece. In strict mode a piece must hold
nothing but clauses and blanks: the clauses are blanked axis by axis, each axis in the text that
the one before has left, and what remains is the fault. The first piece that fails decides.
-/

namespace OpeningHours

structure Config where
  separator : String
  strict : Bool
  separator_ne : separator.toList ≠ []

namespace Config

def ofParts? (separator : String) (strict : Bool) : Except Fault Config :=
  if h : separator.toList = [] then .error .emptySeparator else .ok ⟨separator, strict, h⟩

/-- A comma separates the pieces, and text outside the clauses is passed over. -/
def default : Config :=
  ⟨",", false, by decide⟩

end Config

/-- A text with a space in the place of each clause of the axis. -/
def Axis.blank (a : Axis) (cs : List Char) : List Char :=
  (segments a.names cs).flatMap fun
    | .plain c => [c]
    | .clause _ => [' ']

/-- What is left of a piece without its clauses. -/
def leftover (piece : List Char) : List Char :=
  Text.strip (Axis.all.foldl (fun cs a => a.blank cs) piece)

/-- Refuses a piece with text outside its clauses. -/
def checkLeftover (piece : List Char) : Except Fault Unit :=
  match leftover piece with
  | [] => .ok ()
  | rest => .error (.unrecognized (String.ofList piece) (String.ofList rest))

/-- The periods of one piece, not merged. -/
def piecePeriods (strict : Bool) (piece : List Char) :
    Except Fault (List (Period .week)) := do
  if strict then checkLeftover piece
  let periods ← (combinations (← acceptedSpans piece)).mapM Combination.periods
  periods.flatten.mapM (·.on .week)

/-- The periods of a text of hours: disjoint, not adjacent and in order. -/
def readPeriods (config : Config) (text : String) : Except Fault (List (Period .week)) := do
  let pieces := Text.pieces config.separator.toList config.separator_ne text.toList
  return Period.merge (← pieces.mapM (piecePeriods config.strict)).flatten

end OpeningHours
