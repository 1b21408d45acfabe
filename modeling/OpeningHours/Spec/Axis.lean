import OpeningHours.Fault
import OpeningHours.Text.Digit

/-!
# The axes of a specification

The three scales that a text of hours can restrict. Every value can be written in ASCII digits, with
zeros in front, but in no more of them than a number may have; a longer one is a fault of its own.
An hour can also be written on the twelve hour dial, one or two decimal digits of any script and
then `am`, `noon` or `pm`; a weekday by a word, of which the first two letters count. Letters
are taken in either case; no character outside ASCII has one of them as its other case.
-/

namespace OpeningHours

inductive Axis where
  | minute | hour | weekday
  deriving DecidableEq, Repr

namespace Axis

/-- The axes in the order in which they are read. -/
def all : List Axis :=
  [minute, hour, weekday]

def scale : Axis → Scale
  | minute => .minuteOfHour
  | hour => .hourOfDay
  | weekday => .dayOfWeek

def ofScale? (s : Scale) : Option Axis :=
  all.find? fun a => a.scale == s

/-- The names of a clause on the axis. -/
def names : Axis → List (List Char)
  | minute => ["minute".toList, "min".toList]
  | hour => ["hour".toList, "hr".toList]
  | weekday => ["wday".toList, "wd".toList]

/-- Why a text is no value of the axis. -/
def reason : Axis → Reason
  | minute => .notAnInteger
  | hour => .notAnHour
  | weekday => .notAWeekday

end Axis

/-- The words after a number on the twelve hour dial. -/
inductive DayHalf where
  | am | noon | pm
  deriving DecidableEq, Repr

namespace DayHalf

def ofText? (cs : List Char) : Option DayHalf :=
  let lower := cs.map Char.toLower
  if lower = ['a', 'm'] then some am
  else if lower = ['n', 'o', 'o', 'n'] then some noon
  else if lower = ['p', 'm'] then some pm
  else none

/-- The hour of the day that a number on the dial means. -/
def hour : DayHalf → Nat → Nat
  | am, n => if n = 12 then 0 else n
  | noon, n => n
  | pm, n => if n = 12 then n else n + 12

end DayHalf

/-- An hour on the twelve hour dial. -/
def twelveHour? (cs : List Char) : Option Nat :=
  let number := cs.takeWhile Text.isDecimal
  if number.length = 1 ∨ number.length = 2 then
    (DayHalf.ofText? (cs.dropWhile Text.isDecimal)).map (·.hour (Text.decimalValue number))
  else none

/-- The first two letters of the weekdays, from Monday on. -/
def weekdayLetters : List (Char × Char) :=
  [('m', 'o'), ('t', 'u'), ('w', 'e'), ('t', 'h'), ('f', 'r'), ('s', 'a'), ('s', 'u')]

/-- A weekday by its first two letters, 1 for Monday to 7 for Sunday. -/
def weekdayNamed? : List Char → Option Nat
  | a :: b :: _ => (weekdayLetters.idxOf? (a.toLower, b.toLower)).map (· + 1)
  | _ => none

namespace Axis

/-- The value that a text stands for; it need not be in the domain. -/
def value? (a : Axis) (cs : List Char) : Option Nat :=
  (Text.numeral? cs).or <| match a with
    | minute => none
    | hour => twelveHour? cs
    | weekday => weekdayNamed? cs

/-- The fault of a text that stands for no value. -/
def refusal (a : Axis) (cs : List Char) : Fault :=
  if Text.isOverlong cs then .overlong cs.length
  else .malformedValue (String.ofList cs) a.scale a.reason

/-- The value that a text must stand for. -/
def value (a : Axis) (cs : List Char) : Except Fault Int :=
  match a.value? cs with
  | some n => .ok n
  | none => .error (a.refusal cs)

end Axis

end OpeningHours
