import OpeningHours.Point.Carry

/-!
# Sessions on a point

A session is a point and a list of edits, each naming scales and units by text. Only to put a value
on a scale a name is not enough: the scale itself is wanted there, and a name fails even if it is
right. An edit yields a new point or an answer about the present one. An edit that fails changes
nothing, and the session goes on.
-/

namespace OpeningHours

/-- The scale itself, or a name. -/
inductive ScaleKey where
  | scale (s : Scale)
  | name (n : String)
  deriving DecidableEq, Repr

/-- The name that the key gives. -/
def ScaleKey.text : ScaleKey → String
  | scale s => s.name
  | name n => n

inductive Edit where
  | plus (amount : Int) (unit : String)
  | minus (amount : Int) (unit : String)
  | increment
  | set (key : ScaleKey) (value : Int)
  | get (scale : String)
  | supports (scale unit : String)
  | text
  /-- An attempt to change the point in place. -/
  | assign (name : String)
  deriving DecidableEq, Repr

namespace Edit

/-- What an edit comes to. -/
inductive Answer (c : Cycle) where
  | moved (p : Point c)
  | value (v : Int)
  | supported (scale unit : Bool)
  | text (s : String)
  deriving DecidableEq

/-- The point after the answer, which is `p` unless the answer is another one. -/
def Answer.point {c : Cycle} (p : Point c) : Answer c → Point c
  | moved q => q
  | _ => p

variable {c : Cycle}

private def unit? (name : String) : Except Fault TimeUnit :=
  match TimeUnit.ofName? name with
  | some u => .ok u
  | none => .error (.unsupportedUnit name)

private def scale? (name : String) : Except Fault Scale :=
  match Scale.ofName? name with
  | some s => .ok s
  | none => .error (.unsupportedScale name)

/-- The answer of a point to one edit. -/
def apply (p : Point c) : Edit → Except Fault (Answer c)
  | plus amount unit => do return .moved (← p.plus amount (← unit? unit))
  | minus amount unit => do return .moved (← p.plus (-amount) (← unit? unit))
  | increment => .ok (.moved p.increment)
  | set (.scale s) value => do return .moved (← p.set s value)
  | set (.name n) _ =>
    .error (if n ∈ c.scales.map Scale.name then .nameForScale else .unsupportedScale n)
  | get scale => do return .value (← p.get (← scale? scale))
  | supports scale unit =>
    .ok (.supported ((Scale.ofName? scale).any (· ∈ c.scales))
      ((TimeUnit.ofName? unit).any c.supportsUnit))
  | text => .ok (.text p.text)
  | assign name => .error (.immutable name)

theorem apply_plus (p : Point c) (n : Int) (name : String) :
    (plus n name).apply p = match TimeUnit.ofName? name with
      | some u => (p.plus n u).map .moved
      | none => .error (.unsupportedUnit name) := by
  rw [apply, unit?]
  cases TimeUnit.ofName? name with
  | none => rfl
  | some u =>
    show (p.plus n u >>= fun x => .ok (Answer.moved x)) = (p.plus n u).map Answer.moved
    cases p.plus n u <;> rfl

theorem apply_set_scale (p : Point c) (s : Scale) (v : Int) :
    (set (.scale s) v).apply p = (p.set s v).map .moved := by
  show (p.set s v >>= fun x => .ok (Answer.moved x)) = (p.set s v).map Answer.moved
  cases p.set s v <;> rfl

theorem apply_get (p : Point c) (name : String) :
    (get name).apply p = match Scale.ofName? name with
      | some s => (p.get s).map .value
      | none => .error (.unsupportedScale name) := by
  rw [apply, scale?]
  cases Scale.ofName? name with
  | none => rfl
  | some s =>
    show (p.get s >>= fun x => .ok (Answer.value x)) = (p.get s).map Answer.value
    cases p.get s <;> rfl

/-- The point after one edit. -/
def step (p : Point c) (e : Edit) : Point c :=
  match e.apply p with
  | .ok a => a.point p
  | .error _ => p

/-- The answers to the edits, one after the other, and the point that they leave. -/
def run (p : Point c) : List Edit → List (Except Fault (Answer c)) × Point c
  | [] => ([], p)
  | e :: rest =>
    let r := run (e.step p) rest
    (e.apply p :: r.1, r.2)

end Edit

end OpeningHours
