import OpeningHours.Calendar.Scale
import OpeningHours.Text.Digit
import OpeningHours.Text.Quoted

/-!
# Faults

Everything that can be wrong with a text of hours, with the digits of a point, with a pair of
bounds or with a question put to a point. A fault carries the part of the input it speaks of;
`Fault.message` words it. A number with too many digits gives a fault of its own, where it is to be
read and also where a message is to name it.
-/

namespace OpeningHours

/-- Why a text stands for no value of its scale. -/
inductive Reason where
  | notAnInteger | notAnHour | notAWeekday | outOfDomain
  deriving DecidableEq, Repr

/-- The two bounds of a period or of a span of values. -/
inductive Side where
  | start | stop
  deriving DecidableEq, Repr

/-- What is wrong with a bound. -/
inductive Defect where
  | missing
  | notAPoint
  | negative
  | scalesDiffer (start stop : List Scale)
  deriving DecidableEq, Repr

structure Issue where
  side : Side
  defect : Defect
  deriving DecidableEq, Repr

inductive Fault where
  /-- A token that is neither a value nor two values, or a clause without tokens. -/
  | malformedRange (token : String) (scale : Scale)
  | malformedValue (value : String) (scale : Scale) (reason : Reason)
  /-- Text outside every clause of a piece, where none is allowed. -/
  | unrecognized (piece leftover : String)
  /-- Something that is not a text, given for a text of hours. -/
  | notText (received : String)
  | emptySeparator
  /-- A point needs a digit. -/
  | noScale
  /-- `after` is not next to `before`, the scale in front of it among `scales`. -/
  | gap (before after : Scale) (scales : List Scale)
  | irregular (scale : Scale)
  | outOfDomain (scale : Scale) (value : Int)
  /-- A number to be read has so many digits, more than it may have. -/
  | overlong (digits : Nat)
  /-- A message cannot name a number, which has too many digits to be written. -/
  | unwritable
  | unsupportedScale (name : String)
  | unsupportedUnit (name : String)
  /-- A name, though of the right scale, where the scale itself is wanted. -/
  | nameForScale
  /-- An attempt to change a point in place. -/
  | immutable (name : String)
  | badBounds (issues : List Issue)
  | emptyCronField (scale : Scale)
  /-- A combination needs a span. -/
  | emptyCombination
  deriving DecidableEq, Repr

/-- The fault of reading a scale that is not there. -/
def Fault.lacks (s : Scale) : Fault :=
  .unsupportedScale s.name

/-- The fault of a value outside the scale's domain. It names the value, if that can be written. -/
def Scale.outside (s : Scale) (v : Int) : Fault :=
  if Text.isWritable v then .outOfDomain s v else .unwritable

/-- A value that must be in the scale's domain. -/
def Scale.check (s : Scale) (v : Int) : Except Fault Int :=
  if s.contains v then .ok v else .error (s.outside v)

/-- The words for a reason, with the limits of the scale where they matter. -/
def Reason.message (s : Scale) : Reason → String
  | notAnInteger => "not an integer"
  | notAnHour => "invalid hour format"
  | notAWeekday => "invalid weekday value"
  | outOfDomain => s!"out of range {s.minimum}-{s.maximum}"

/-- A list of scales in brackets, each name quoted. -/
def Scale.listText (ss : List Scale) : String :=
  "[" ++ ", ".intercalate (ss.map fun s => Text.quoted s.name) ++ "]"

def Defect.message : Defect → String
  | missing => "Field required"
  | notAPoint => "Input should be an instance of PeriodicTemporal"
  | negative => "Input should be greater than or equal to 0"
  | scalesDiffer start stop =>
    "Value error, start and end must share the same fields: " ++ Scale.listText start ++
      " != " ++ Scale.listText stop

def Fault.message : Fault → String
  | malformedRange token _ => "Invalid range: " ++ Text.quoted token
  | malformedValue value s reason =>
    "Invalid " ++ s.name ++ " value " ++ Text.quoted value ++ ": " ++ reason.message s
  | unrecognized piece leftover =>
    "Unrecognized text " ++ Text.quoted leftover ++ " in " ++ Text.quoted piece
  | notText received => "Business hours specification must be a string, got " ++ received
  | emptySeparator => "sub_period_separator must not be empty"
  | noScale => "At least one field is required"
  | gap before after _ => "The fields must be contiguous: " ++ before.name ++ " -> " ++ after.name
  | irregular s => "The fields must have a fixed range: " ++ s.name
  | outOfDomain s v =>
    "Invalid value for " ++ s.name ++ s!" (valid values {s.minimum} - {s.maximum}): {v}"
  | overlong digits =>
    s!"Exceeds the limit ({Text.maxDigits} digits) for integer string conversion: " ++
      s!"value has {digits} digits; use sys.set_int_max_str_digits() to increase the limit"
  | unwritable =>
    s!"Exceeds the limit ({Text.maxDigits} digits) for integer string conversion; " ++
      "use sys.set_int_max_str_digits() to increase the limit"
  | unsupportedScale name => "Unsupported field: " ++ name
  | unsupportedUnit name => "Unsupported unit: " ++ name
  | nameForScale => "'str' object has no attribute 'spec'"
  | immutable name => "PeriodicTemporal is immutable, cannot set " ++ Text.quoted name
  | badBounds issues => "\n".intercalate (issues.map fun i => i.defect.message)
  | emptyCronField s => "Cron field " ++ s.name ++ " must have at least one value"
  | emptyCombination => "list index out of range"

end OpeningHours
