import PayoffPricing.Model.Observables
/-!
A spot with constant volatility, simulated exactly from one event to the next.
-/

namespace PayoffPricing

/-- What happens up to an event, apart from the draw. -/
structure BlackScholes.Step (T : Type) where
  isNoisy : Bool
  drift : T
  deviation : T
  observables : Observables T

/-- The parameters, and the steps of the timeline that they were prepared for. -/
structure BlackScholes (T : Type) where
  spot : T
  vol : T
  rate : T
  div : T
  steps : List (BlackScholes.Step T)
  isReady : Bool

namespace BlackScholes

variable {R S T : Type} [Scalar R]

/-- A parameter must satisfy its rule and be finite. -/
def checkParameter (name : String) (value : R) (holds : Bool) (rule : ParameterRule) :
    Except (ModelError R) Unit :=
  if holds && Scalar.isFinite value then .ok () else .error (.parameter name value rule)

/-- A model with checked parameters. -/
def ofParameters (spot vol rate div : R) : Except (ModelError R) (BlackScholes R) := do
  checkParameter "spot" spot (decide (spot > 0)) .positive
  checkParameter "vol" vol (decide (vol ≥ 0)) .nonNegative
  checkParameter "rate" rate true .finite
  checkParameter "div" div true .finite
  return ⟨spot, vol, rate, div, [], false⟩

/-- The model with other values for its parameters, taken in order. -/
def lift (f : R → StateM S T) (m : BlackScholes R) : StateM S (BlackScholes T) := do
  let spot ← f m.spot
  let vol ← f m.vol
  let rate ← f m.rate
  return ⟨spot, vol, rate, ← f m.div, [], false⟩

def parameters (m : BlackScholes T) : List T := [m.spot, m.vol, m.rate, m.div]

def labels : List String := ["spot", "vol", "rate", "div"]

/-- One draw per event. -/
def dimension (m : BlackScholes T) : Nat := m.steps.length

def initialStep [Valued R T] (request : Request R) : Step T where
  isNoisy := false
  drift := Quantity.zero
  deviation := Quantity.zero
  observables := .initial request

/-- Makes room for a timeline, which is to be prepared afresh. -/
def allocate [Valued R T] (m : BlackScholes T) (times : List R) (requests : List (Request R)) :
    BlackScholes T :=
  { m with steps := (requests.take times.length).map initialStep, isReady := false }

variable [Quantity R S T]

/-- The step over a gap to an event. -/
def step (m : BlackScholes T) (carry driftRate : T) (gap time : R) (request : Request R) :
    StateM S (Step T) := do
  let drift ← Quantity.mulScalar driftRate gap
  let deviation ← Quantity.mulScalar m.vol (Scalar.sqrt gap)
  return ⟨decide (gap > 0), drift, deviation, ← Observables.ofRates m.rate carry time request⟩

/-- Prepares the steps from the first to the last; those after a refused event are left alone. -/
def prepare (m : BlackScholes T) (carry driftRate : T) (previous : R) :
    List (R × Request R) → List (Step T) → StateM S (List (Step T) × Option (ModelError R))
  | (time, request) :: events, old :: steps =>
    match checkEvent previous time request with
    | .error e => return (old :: steps, some e)
    | .ok _ => do
      let new ← m.step carry driftRate (time - previous) time request
      let (steps, stop) ← prepare m carry driftRate time events steps
      return (new :: steps, stop)
  | _, steps => return (steps, none)

/-- The carry of the spot and the drift of its logarithm. -/
def driftRates (m : BlackScholes T) : StateM S (T × T) := do
  let carry ← Quantity.sub m.rate m.div
  let variance ← Quantity.mul m.vol m.vol
  return (carry, ← Quantity.sub carry (← Quantity.mulScalar variance 0.5))

/-- Prepares for a timeline. What was prepared before an event is refused stays. -/
def init (times : List R) (requests : List (Request R)) : Preparing R S (BlackScholes T) Unit := do
  if times.length ≠ requests.length then
    throw (.error (.requestCount times.length requests.length))
  if (← get).steps.length ≠ times.length then modify fun m => m.allocate times requests
  let m ← get
  let (carry, driftRate) ← Modelling.prepare (.record m.driftRates)
  let (steps, stop) ←
    Modelling.prepare (.record (m.prepare carry driftRate 0 (times.zip requests) m.steps))
  set { m with steps := steps }
  match stop with
  | some e => throw (.error e)
  | none => modify fun m => { m with isReady := true }

/-- Follows the spot along the steps. -/
def follow (spot : T) : List (Step T × R) → List (Sample T) → StateM S (List (Sample T))
  | (step, z) :: steps, sample :: samples => do
    let spot ← if step.isNoisy then Quantity.lognormalStep spot step.drift step.deviation z else pure spot
    let sample ← step.observables.writeSample spot sample
    return sample :: (← follow spot steps samples)
  | _, samples => return samples

/-- Fills a scenario from the draws of a path. -/
def generate (m : BlackScholes T) (draws : Array R) (scenario : Scenario T) :
    Modelling R S (Scenario T) := do
  if !m.isReady then Modelling.fail .notInitialised
  else if draws.size < m.dimension then Modelling.fail (.drawCount m.dimension draws.size)
  else if scenario.size ≠ m.dimension then
    Modelling.fail (.scenario (.lengthMismatch m.dimension scenario.size))
  else
    let samples ← Modelling.record (follow m.spot (m.steps.zip draws.toList) scenario.toList)
    return samples.toArray

end BlackScholes

end PayoffPricing
