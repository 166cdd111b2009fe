import PayoffPricing.Model.Observables
/-!
A spot whose volatility depends on its level and on time. The volatility is given on a grid of spots
and times, interpolated in the logarithm of the spot and in time, and flat outside the grid. The
logarithm of the spot moves in steps that are no longer than a given length.
-/

namespace PayoffPricing

/-- What is fixed about an event before a path is drawn; `step` counts the steps up to it. -/
structure LocalVol.Fixture (T : Type) where
  step : Nat
  observables : Observables T

/-- The parameters, and what was prepared for a timeline: step lengths, and per step the deviations
over the grid of spots and the drift. The volatilities of one spot stand side by side. -/
structure LocalVol (R T : Type) where
  spot : T
  rate : T
  div : T
  spots : Array R
  logSpots : Array R
  times : Array R
  vols : Array T
  maxStep : R
  lengths : Array R
  deviations : Array (Array T)
  drifts : Array T
  fixtures : List (LocalVol.Fixture T)
  isReady : Bool

namespace LocalVol

variable {R S T : Type} [Scalar R]

def defaultMaxStep : R := 0.25

def isIncreasing : List R → Bool
  | a :: b :: rest => decide (a < b) && isIncreasing (b :: rest)
  | _ => true

/-- A grid is not empty, finite, strictly increasing, and starts where `starts` allows it. -/
def checkGrid (name : String) (grid : List R) (starts : R → Bool) (rule : ParameterRule) :
    Except (ModelError R) Unit :=
  match grid with
  | [] => .error (.parameter name Scalar.undefined rule)
  | first :: _ =>
    if isIncreasing grid && grid.all Scalar.isFinite && starts first then .ok ()
    else .error (.parameter name first rule)

/-- A model with checked parameters; the volatilities of the first spot come first. -/
def ofGrid (spot rate div : R) (spots times vols : Array R) : Except (ModelError R) (LocalVol R R) := do
  if !(decide (spot > 0) && Scalar.isFinite spot) then throw (.parameter "spot" spot .positive)
  if !Scalar.isFinite rate then throw (.parameter "rate" rate .finite)
  if !Scalar.isFinite div then throw (.parameter "div" div .finite)
  checkGrid "spots" spots.toList (fun s => !decide (s ≤ 0)) .positiveIncreasing
  checkGrid "times" times.toList (fun t => !decide (t < 0)) .nonNegativeIncreasing
  if vols.size ≠ spots.size * times.size then
    throw (.parameter "vols" (Scalar.ofNat vols.size) .gridSize)
  match vols.find? fun v => !(decide (v ≥ 0) && Scalar.isFinite v) with
  | some v => throw (.parameter "vols" v .nonNegative)
  | none =>
    return {
      spot, rate, div, spots, times, vols
      logSpots := spots.map Scalar.log
      maxStep := defaultMaxStep
      lengths := #[]
      deviations := #[]
      drifts := #[]
      fixtures := []
      isReady := false
    }

/-- Bounds the length of steps. -/
def withMaxStep (m : LocalVol R R) (maxStep : R) : Except (ModelError R) (LocalVol R R) :=
  if maxStep > 0 && Scalar.isFinite maxStep then .ok { m with maxStep := maxStep, isReady := false }
  else .error (.parameter "max_dt" maxStep .positive)

/-- The model with other values for its parameters, taken in order. -/
def lift (f : R → StateM S T) (m : LocalVol R R) : StateM S (LocalVol R T) := do
  let spot ← f m.spot
  let rate ← f m.rate
  let div ← f m.div
  return {
    spot, rate, div
    spots := m.spots
    logSpots := m.logSpots
    times := m.times
    vols := ← m.vols.mapM f
    maxStep := m.maxStep
    lengths := #[]
    deviations := #[]
    drifts := #[]
    fixtures := []
    isReady := false
  }

def parameters (m : LocalVol R T) : List T := [m.spot, m.rate, m.div] ++ m.vols.toList

def labels (m : LocalVol Float T) : List String :=
  ["spot", "rate", "div"] ++ m.spots.toList.flatMap fun s => m.times.toList.map fun t =>
    "lvol " ++ NumberStyle.fixed 2 s ++ " " ++ NumberStyle.fixed 2 t

/-- One draw per step. -/
def dimension (m : LocalVol R T) : Nat := m.lengths.size

/-- The volatilities over the times of the grid, for the spot at place `i`. -/
def row (m : LocalVol R T) (i : Nat) : Array T := m.vols.extract (i * m.times.size) ((i + 1) * m.times.size)

/-- Makes room for a timeline, which is to be prepared afresh. -/
def allocate [Valued R T] (m : LocalVol R T) (times : List R) (requests : List (Request R)) :
    LocalVol R T :=
  { m with
    fixtures := (requests.take times.length).map fun request => ⟨0, .initial request⟩
    isReady := false }

/-- How many steps a gap is cut into. -/
def stepCount (m : LocalVol R T) (gap : R) : Nat := max 1 (Scalar.ceilNat (gap / m.maxStep))

/-- The starts and the common length of the steps over a gap. -/
def cut (m : LocalVol R T) (previous gap : R) : List (R × R) :=
  if gap > 0 then
    let n := m.stepCount gap
    let length := gap / Scalar.ofNat n
    (List.range n).map fun k => (previous + Scalar.ofNat k * length, length)
  else []

variable [Quantity R S T]

/-- Linear interpolation over an increasing grid, flat outside it. An undefined argument has no
place in the grid. -/
def interpolate (grid : Array R) (values : Array T) (x : T) : Modelling R S T := do
  let v : R := Valued.value x
  let first ← Modelling.read grid[0]?
  let last ← Modelling.read grid.back?
  if v ≤ first then Modelling.read values[0]?
  else if v ≥ last then Modelling.read values[grid.size - 1]?
  else
    match grid.findIdx fun g => !decide (g ≤ v) with
    | 0 => throw (.misuse .outOfRange)
    | i + 1 =>
      let left ← Modelling.read grid[i]?
      let right ← Modelling.read grid[i + 1]?
      let a ← Modelling.read values[i]?
      let b ← Modelling.read values[i + 1]?
      Modelling.record do
        let rise ← Quantity.sub b a
        let offset ← Quantity.subScalar x left
        let share ← Quantity.divScalar offset (right - left)
        Quantity.add a (← Quantity.mul rise share)

/-- The volatility at a time for every spot of the grid. -/
def column (m : LocalVol R T) (time : R) : Modelling R S (List T) :=
  (List.range m.spots.size).mapM fun i => interpolate m.times (m.row i) (Valued.constant time)

/-- The volatility at a spot and a time. -/
def volAt (m : LocalVol R T) (spot time : R) : Modelling R S T := do
  let column ← m.column time
  interpolate m.logSpots column.toArray (Valued.constant (Scalar.log spot))

/-- Cuts the timeline into steps and prepares the events; stops at the first refused event. -/
def prepare (m : LocalVol R T) (previous : R) (steps : List (R × R)) :
    List (R × Request R) → List (Fixture T) →
      StateM S (List (R × R) × List (Fixture T) × Option (ModelError R))
  | (time, request) :: events, old :: fixtures =>
    match checkEvent previous time request with
    | .error e => return (steps, old :: fixtures, some e)
    | .ok _ => do
      let steps := steps ++ m.cut previous (time - previous)
      let carry ← Quantity.sub m.rate m.div
      let observables ← Observables.ofRates m.rate carry time request
      let (steps', fixtures, stop) ← prepare m time steps events fixtures
      return (steps', ⟨steps.length, observables⟩ :: fixtures, stop)
  | _, fixtures => return (steps, fixtures, none)

/-- The deviations over the grid of spots for a step. -/
def stepDeviations (m : LocalVol R T) (start length : R) : Modelling R S (Array T) := do
  let column ← (List.range m.spots.size).mapM fun i => do
    let vol ← interpolate m.times (m.row i) (Valued.constant start)
    Modelling.record (Quantity.mulScalar vol (Scalar.sqrt length))
  return column.toArray

/-- The drift over a step. -/
def stepDrift (m : LocalVol R T) (length : R) : Modelling R S T := Modelling.record do
  Quantity.mulScalar (← Quantity.sub m.rate m.div) length

/-- The deviations and the drifts of all steps. -/
def perStep (m : LocalVol R T) (steps : List (R × R)) : Modelling R S (List (Array T × T)) :=
  steps.mapM fun (start, length) => do
    let deviations ← m.stepDeviations start length
    return (deviations, ← m.stepDrift length)

/-- Prepares for a timeline. What was prepared before an event is refused stays. -/
def init (times : List R) (requests : List (Request R)) : Preparing R S (LocalVol R T) Unit := do
  if times.length ≠ requests.length then
    throw (.error (.requestCount times.length requests.length))
  if (← get).fixtures.length ≠ times.length then modify fun m => m.allocate times requests
  let m ← get
  let (steps, fixtures, stop) ←
    Modelling.prepare (.record (m.prepare 0 [] (times.zip requests) m.fixtures))
  set { m with lengths := (steps.map Prod.snd).toArray, fixtures := fixtures }
  match stop with
  | some e => throw (.error e)
  | none =>
    let prepared ← Modelling.prepare (m.perStep steps)
    modify fun m => { m with
      deviations := (prepared.map Prod.fst).toArray
      drifts := (prepared.map Prod.snd).toArray
      isReady := true }

/-- Moves the logarithm of the spot over a step. -/
def move (m : LocalVol R T) (draws : Array R) (logSpot : T) (step : Nat) : Modelling R S T := do
  let row ← Modelling.read m.deviations[step]?
  let vol ← interpolate m.logSpots row logSpot
  let drift ← Modelling.read m.drifts[step]?
  let z ← Modelling.read draws[step]?
  Modelling.record do
    let half ← Quantity.mulScalar vol (-0.5)
    let noise ← Quantity.mul vol (← Quantity.addScalar half z)
    Quantity.add logSpot (← Quantity.add drift noise)

/-- Follows the logarithm of the spot from one event to the next. -/
def follow (m : LocalVol R T) (draws : Array R) (logSpot : T) (step : Nat) :
    List (Fixture T) → List (Sample T) → Modelling R S (List (Sample T))
  | fixture :: fixtures, sample :: samples => do
    let logSpot ← (List.range' step (fixture.step - step)).foldlM (m.move draws) logSpot
    let spot ← Modelling.record (Quantity.exp logSpot)
    let sample ← Modelling.record (fixture.observables.writeSample spot sample)
    return sample :: (← follow m draws logSpot (max step fixture.step) fixtures samples)
  | _, samples => return samples

/-- Fills a scenario from the draws of a path. -/
def generate (m : LocalVol R T) (draws : Array R) (scenario : Scenario T) :
    Modelling R S (Scenario T) := do
  if !m.isReady then Modelling.fail .notInitialised
  else if draws.size < m.dimension then Modelling.fail (.drawCount m.dimension draws.size)
  else if scenario.size ≠ m.fixtures.length then
    Modelling.fail (.scenario (.lengthMismatch m.fixtures.length scenario.size))
  else
    let logSpot ← Modelling.record (Quantity.log m.spot)
    let samples ← follow m draws logSpot 0 m.fixtures scenario.toList
    return samples.toArray

end LocalVol

end PayoffPricing
