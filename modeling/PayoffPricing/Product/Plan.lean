import PayoffPricing.Product.Macros
import PayoffPricing.Script.Error
import PayoffPricing.Script.Parser
import PayoffPricing.Text.Uppercase
/-!
Plans of products: texts of events, given by time, date or schedule, with the names that they use.
The timeline of a plan has one text per time, in increasing order of times.
-/

namespace PayoffPricing

open Script

/-- When the text of an event applies; a schedule repeats it. -/
inductive EventTime (R : Type) where
  | years (time : R)
  | date (date : Date)
  | schedule (schedule : Schedule)

/-- The pieces of a product. The latest constant and the first macro of a name count. -/
structure Plan (R : Type) where
  events : List (EventTime R × String)
  today : Option Date
  constants : Constants R
  macros : List Macro
  payoff : Option String
  fuzzy : Bool

namespace Plan

variable {R : Type}

def empty : Plan R := ⟨[], none, [], [], none, false⟩

def addEvent (plan : Plan R) (time : EventTime R) (text : String) : Plan R :=
  { plan with events := plan.events ++ [(time, text)] }

def addConstant (plan : Plan R) (name : String) (value : R) : Plan R :=
  { plan with constants := (Text.uppercase name, value) :: plan.constants }

def addMacro (plan : Plan R) (name text : String) : Plan R :=
  { plan with macros := plan.macros ++ [⟨Text.uppercase name, Text.uppercase text⟩] }

def setPayoff (plan : Plan R) (name : String) : Plan R :=
  { plan with payoff := some (Text.uppercase name) }

variable [Scalar R]

/-- Days in a year, for times of dates. -/
def daysPerYear : R := 365

/-- The time of a date in years from today, which it must not precede. -/
def timeOfDate (plan : Plan R) (date : Date) : Except (ScriptError R) R :=
  match plan.today with
  | none => .error (.product (.noEvaluationDate date))
  | some today =>
    match date.dayNumber - today.dayNumber with
    | .ofNat days => .ok (Scalar.ofNat days / daysPerYear)
    | .negSucc _ => .error (.product (.pastEvent date today))

/-- All times of an event. -/
def times (plan : Plan R) : EventTime R → Except (ScriptError R) (List R)
  | .years t => if Scalar.isFinite t && decide (t ≥ 0) then .ok [t] else .error (.product (.invalidTime t))
  | .date date => return [← plan.timeOfDate date]
  | .schedule schedule =>
    match schedule.periods with
    | .ok periods => periods.mapM fun period => plan.timeOfDate period.fixing
    | .error e => .error (.product (.calendar e))

/-- The text of an event in upper case, without macros. -/
def expanded (plan : Plan R) (text : String) : Except (ScriptError R) String :=
  match Macro.expand? plan.macros (Text.uppercase text) with
  | some text => .ok text
  | none => .error (.product .endlessExpansion)

/-- The times of all events, each with its text, in the order of the plan. -/
def occurrences (plan : Plan R) : Except (ScriptError R) (List (R × String)) := do
  let parts ← plan.events.mapM fun (time, text) => do
    let text ← plan.expanded text
    return (← plan.times time).map fun t => (t, text)
  return parts.flatten

/-- Joins the texts of neighbours that have one time, line by line. -/
def joinTexts (occurrences : List (R × String)) : List (R × String) :=
  match occurrences with
  | [] => []
  | [last] => [last]
  | (t, text) :: (u, more) :: rest =>
    if t == u then joinTexts ((t, text ++ "\n" ++ more) :: rest)
    else (t, text) :: joinTexts ((u, more) :: rest)
termination_by occurrences.length

/-- One text per time, in increasing order of times; texts of one time keep their order. -/
def timeline (plan : Plan R) : Except (ScriptError R) (List (R × String)) := do
  let occurrences ← plan.occurrences
  return joinTexts (occurrences.mergeSort fun a b => Scalar.precedes a.1 b.1)

end Plan

end PayoffPricing
