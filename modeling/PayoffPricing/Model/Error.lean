import PayoffPricing.Fault
import PayoffPricing.Market
/-!
What can be wrong with a model, with its timeline, or with the draws of a path.
-/

namespace PayoffPricing

/-- What is asked of a parameter. -/
inductive ParameterRule where
  | positive
  | nonNegative
  | finite
  | positiveIncreasing
  | nonNegativeIncreasing
  | gridSize
deriving DecidableEq, Repr

inductive ModelError (R : Type) where
  | parameter (name : String) (value : R) (rule : ParameterRule)
  | requestCount (times requests : Nat)
  | timeOrder (time previous : R)
  | drawCount (expected actual : Nat)
  | notInitialised
  | scenario (cause : ScenarioError R)

namespace ParameterRule

def message : ParameterRule → String
  | positive => "must be positive"
  | nonNegative => "must be non-negative"
  | finite => "must be finite"
  | positiveIncreasing => "must be positive and strictly increasing"
  | nonNegativeIncreasing => "must be non-negative and strictly increasing"
  | gridSize => "must have spots x times values"

end ParameterRule

namespace ModelError

def message : ModelError Float → String
  | parameter name value rule =>
    s!"Invalid model parameter '{name}' = {numberText value}: {rule.message}"
  | requestCount times requests =>
    s!"Invalid timeline: {times} event times for {requests} sample definitions"
  | timeOrder time previous =>
    s!"Invalid timeline: event time {numberText time} after {numberText previous}"
  | drawCount expected actual => s!"Gaussian buffer has {actual} values, model needs {expected}"
  | notInitialised => "Model is not initialised for a timeline"
  | scenario cause => cause.message

end ModelError

/-- A step of a model, which may record operations and may stop. -/
abbrev Modelling (R S : Type) := ExceptT (Fault (ModelError R)) (StateM S)

/-- A step that also changes a model. What it has changed stays changed when it stops. -/
abbrev Preparing (R S M : Type) := ExceptT (Fault (ModelError R)) (StateT M (StateM S))

namespace Modelling

variable {R S M α : Type}

def fail (e : ModelError R) : Modelling R S α := throw (.error e)

/-- A recorded operation. -/
def record (action : StateM S α) : Modelling R S α := ExceptT.lift action

/-- A step, as part of a preparation. -/
def prepare (action : Modelling R S α) : Preparing R S M α :=
  ExceptT.mk fun m => do
    let result ← action.run
    return (result, m)

/-- An indexed read, a misuse when there is nothing at the index. -/
def read (x : Option α) : Modelling R S α := ExceptT.mk (pure (Fault.ofOption x))

end Modelling

/-- An event time must be finite and must not precede the one before; maturities may not precede it. -/
def checkEvent {R : Type} [Scalar R] (previous time : R) (request : Request R) :
    Except (ModelError R) Unit :=
  if !Scalar.isFinite time || decide (time < previous) then .error (.timeOrder time previous)
  else match request.validate time with
    | .ok _ => .ok ()
    | .error e => .error (.scenario e)

end PayoffPricing
