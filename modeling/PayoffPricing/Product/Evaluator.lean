import PayoffPricing.Product.Build
import PayoffPricing.Script.Fuzzy
import PayoffPricing.Script.Machine
/-!
Evaluators of products. An evaluator is made once and serves one scenario after another; every
scenario starts with all variables at zero.
-/

namespace PayoffPricing

open Script

/-- How a product is evaluated; smoothing has a width for conditions that give none. -/
inductive Method (R : Type) where
  | exact
  | fuzzy (width : R)
  | compiled

/-- A method with what it keeps from one scenario to the next. -/
inductive Evaluator (R T : Type) where
  | exact (values : Variables T)
  | fuzzy (width : R) (state : Fuzzy.State T)
  | compiled (machine : Machine T)

namespace Evaluator

variable {R S T : Type}

/-- The variables after the latest scenario. -/
def values : Evaluator R T → Variables T
  | exact values => values
  | fuzzy _ state => state.values
  | compiled machine => machine.values

/-- The payoff of the latest scenario. -/
def payoff? (e : Evaluator R T) (p : Product R) : Option T := e.values[p.payoff]?

variable [Scalar R]

/-- A new evaluator; the width of smoothing must be positive. -/
def ofMethod [Valued R T] (p : Product R) : Method R → Except (ScriptError R) (Evaluator R T)
  | .exact => .ok (exact (Array.replicate p.names.size Quantity.zero))
  | .fuzzy width =>
    if width > 0 then
      .ok (fuzzy width ⟨Array.replicate p.names.size Quantity.zero,
        Array.replicate p.nesting ⟨[], []⟩, 0⟩)
    else .error (.product (.smoothingWidth width))
  | .compiled => .ok (compiled ⟨Array.replicate p.names.size Quantity.zero, [], []⟩)

/-- All variables back at zero. -/
def reset [Valued R T] : Evaluator R T → Evaluator R T
  | exact values => exact (values.map fun _ => Quantity.zero)
  | fuzzy width state =>
    fuzzy width { state with values := state.values.map fun _ => Quantity.zero, depth := 0 }
  | compiled machine => compiled { machine with values := machine.values.map fun _ => Quantity.zero }

variable [Quantity R S T]

/-- Runs a step for each event and the sample of its time. -/
def runEvents {V α : Type} (step : α → Sample T → Process R S V Unit) (events : List α)
    (scenario : Scenario T) : Process R S V Unit :=
  (events.zip scenario.toList).forM fun (event, sample) => step event sample

/-- Runs all events of a product. -/
def run (p : Product R) (scenario : Scenario T) : Process R S (Evaluator R T) Unit :=
  ExceptT.mk fun
    | exact values => do
      let (result, values) ←
        (runEvents (fun event sample => Statement.runBlock sample event) p.events scenario).run values
      return (result, exact values)
    | fuzzy width state => do
      let (result, state) ←
        (runEvents (fun event sample => Fuzzy.runBlock width sample event) p.events scenario).run state
      return (result, fuzzy width state)
    | compiled machine => do
      let (result, machine) ← (runEvents Machine.run p.programs scenario).run machine
      return (result, compiled machine)

/-- Evaluates a product on a scenario, which must have one sample per event. -/
def evaluate (p : Product R) (scenario : Scenario T) : Process R S (Evaluator R T) Unit := do
  match Scenario.check p.requests scenario with
  | .error e => throw (.error (.product (.scenario e)))
  | .ok _ =>
    modify reset
    run p scenario

end Evaluator

end PayoffPricing
