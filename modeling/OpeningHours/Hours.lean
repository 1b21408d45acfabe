import OpeningHours.Spec.Reading

/-!
# Opening hours

Hours are a text and the periods of the week that it means. Two hours are the same if their
periods are, whatever their texts.
-/

namespace OpeningHours

structure Hours where
  spec : String
  periods : List (Period .week)

namespace Hours

def ofSpec? (config : Config) (spec : String) : Except Fault Hours := do
  return ⟨spec, ← readPeriods config spec⟩

/-- Hours are the same if each period of one is a period of the other. -/
instance : BEq Hours :=
  ⟨fun a b => a.periods.all (fun p => decide (p ∈ b.periods)) &&
    b.periods.all fun p => decide (p ∈ a.periods)⟩

/-- Whether the hours never close. -/
def isAlways (h : Hours) : Bool :=
  h.periods.any (·.isAlways)

/-- Whether the hours are open at a minute of the week. -/
def openAt (h : Hours) (t : Point .week) : Bool :=
  h.periods.any (·.covers t)

/-- Whether the hours are open at an instant. -/
def isOpen (h : Hours) (i : Instant) : Except Fault Bool := do
  return h.openAt (← i.project .week)

/-- The whole units from an instant to the next opening. -/
def waitBefore (h : Hours) (i : Instant) (u : TimeUnit) : Except Fault Wait := do
  return (← h.periods.mapM (·.waitBefore i u)).foldl Wait.min .unbounded

/-- The lines that fire when the hours open. -/
def openings (h : Hours) : List Cron :=
  Cron.mergeAll (h.periods.filterMap Period.openingCron?)

/-- The lines that fire when the hours close. -/
def closings (h : Hours) : List Cron :=
  Cron.mergeAll (h.periods.filterMap Period.closingCron?)

/-- The different texts of some lines, in order. -/
def cronTexts (cs : List Cron) : List String :=
  ((cs.map Cron.text).mergeSort fun a b => decide (a ≤ b)).eraseReps

def openingTexts (h : Hours) : List String :=
  cronTexts h.openings

def closingTexts (h : Hours) : List String :=
  cronTexts h.closings

/-- The name of hours in messages: their specification, quoted. -/
def quotedText (h : Hours) : String :=
  "BusinessHours(" ++ Text.quoted h.spec ++ ")"

end Hours

end OpeningHours
