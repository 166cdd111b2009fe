import PayoffPricing.Product.Plan
/-!
Product definitions, as they are read from files. Constants and macros are tables sorted by name in
which the last entry of a name counts; an event must give exactly one of time, date and schedule.
-/

namespace PayoffPricing

open Script

structure EventDefinition (R : Type) where
  time : Option R
  date : Option Date
  schedule : Option Schedule
  script : String

structure ProductDefinition (R : Type) where
  payoff : String
  today : Option Date
  events : List (EventDefinition R)
  constants : List (String × R)
  macros : List (String × String)

/-- A table sorted by name with one more entry, which replaces the entry of its name. -/
def insertEntry {α : Type} (name : String) (value : α) : List (String × α) → List (String × α)
  | [] => [(name, value)]
  | (other, v) :: rest =>
    if name == other then (name, value) :: rest
    else if name < other then (name, value) :: (other, v) :: rest
    else (other, v) :: insertEntry name value rest

/-- Entries in increasing order of names; the last one of a name counts. -/
def sortedTable {α : Type} (entries : List (String × α)) : List (String × α) :=
  entries.foldl (fun table (name, value) => insertEntry name value table) []

namespace EventDefinition

/-- When the event takes place, if the definition is unambiguous. -/
def eventTime? {R : Type} (e : EventDefinition R) : Option (EventTime R) :=
  match e.time, e.date, e.schedule with
  | some t, none, none => some (.years t)
  | none, some d, none => some (.date d)
  | none, none, some s => some (.schedule s)
  | _, _, _ => none

end EventDefinition

namespace ProductDefinition

variable {R : Type}

/-- The plan that a definition describes. -/
def toPlan (d : ProductDefinition R) (fuzzy : Bool) : Except (ScriptError R) (Plan R) := do
  let events ← d.events.zipIdx.mapM fun (e, i) =>
    match e.eventTime? with
    | some time => .ok (time, e.script)
    | none => .error (.product (.ambiguousTime i))
  let plan : Plan R := { Plan.empty.setPayoff d.payoff with today := d.today, events, fuzzy }
  let plan := (sortedTable d.constants).foldl (fun plan (name, v) => plan.addConstant name v) plan
  return (sortedTable d.macros).foldl (fun plan (name, text) => plan.addMacro name text) plan

end ProductDefinition

end PayoffPricing
