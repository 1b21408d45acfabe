import OpeningHours.Cron.Basic
import OpeningHours.Text.Digit

/-!
# Reading cron lines

A line is five fields separated by single spaces. A star is the whole domain; otherwise a field
is a list of values `v` and of ranges `v-w`, both ends included, separated by commas. Values
outside the domain are refused.
-/

namespace OpeningHours

namespace ValueSet

/-- The values that one item of a field lists. -/
def itemValues? (item : List Char) : Option (List Int) :=
  match (item.splitOn '-').map Text.natural? with
  | [some v] => some [(v : Int)]
  | [some v, some w] => some ((List.range (w + 1 - v)).map fun (i : Nat) => (v : Int) + i)
  | _ => none

def ofText? (s : Scale) (cs : List Char) : Option (ValueSet s) :=
  if cs = ['*'] then some (full s)
  else do
    let items ← (cs.splitOn ',').mapM itemValues?
    (ofList? s items.flatten).toOption

end ValueSet

namespace Cron

def ofText? (line : String) : Option Cron :=
  match line.toList.splitOn ' ' with
  | [minute, hour, dayOfMonth, month, dayOfWeek] => do
    return ⟨← ValueSet.ofText? _ minute, ← ValueSet.ofText? _ hour,
      ← ValueSet.ofText? _ dayOfMonth, ← ValueSet.ofText? _ month, ← ValueSet.ofText? _ dayOfWeek⟩
  | _ => none

end Cron

end OpeningHours
