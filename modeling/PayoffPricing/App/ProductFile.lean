import PayoffPricing.App.Error
import PayoffPricing.Product.Definition
import PayoffPricing.Toml.Reading
/-!
Product files: a product and the model to price it under. The model has either one volatility or a
surface of them, with a row for each spot.
-/

namespace PayoffPricing.App

open Script Simulation

structure SurfaceDefinition where
  spots : List Float
  times : List Float
  vols : List (List Float)
  maxStep : Float

structure ModelDefinition where
  spot : Float
  vol : Option Float
  rate : Float
  div : Float
  surface : Option SurfaceDefinition

structure ProductFile where
  product : ProductDefinition Float
  model : ModelDefinition

open Toml (Value)

def readDate? (v : Value) : Option Date := v.text?.bind Date.ofText?

def readTenor? (v : Value) : Option Tenor := v.text?.bind fun s => (Tenor.ofText s).toOption

def readFixing? (v : Value) : Option Fixing := do
  match ← v.choice? with
  | "begin" => some .begin
  | "end" => some .stop
  | _ => none

def readSchedule? (v : Value) : Option Schedule := do
  let start ← v.required "start" 0 readDate?
  let stop ← v.required "end" 1 readDate?
  let tenor ← v.required "tenor" 2 readTenor?
  let fixing ← v.optional "fixing" 3 readFixing?
  return ⟨start, stop, tenor, fixing.getD .stop⟩

def readEvent? (v : Value) : Option (EventDefinition Float) := do
  let time ← v.optional "time" 0 (·.real?)
  let date ← v.optional "date" 1 readDate?
  let schedule ← v.optional "schedule" 2 readSchedule?
  let script ← v.required "script" 3 (·.text?)
  return ⟨time, date, schedule, script⟩

def readProduct? (v : Value) : Option (ProductDefinition Float) := do
  let payoff ← v.required "payoff" 0 (·.text?)
  let today ← v.optional "evaluation_date" 1 readDate?
  let events ← v.required "events" 2 (·.list? readEvent?)
  let constants ← v.optional "constants" 3 (·.entries? (·.real?))
  let macros ← v.optional "macros" 4 (·.entries? (·.text?))
  return ⟨payoff, today, events, constants.getD [], macros.getD []⟩

def readSurface? (v : Value) : Option SurfaceDefinition := do
  let spots ← v.required "spots" 0 (·.list? (·.real?))
  let times ← v.required "times" 1 (·.list? (·.real?))
  let vols ← v.required "vols" 2 (·.list? (·.list? (·.real?)))
  let maxStep ← v.optional "max_dt" 3 (·.real?)
  return ⟨spots, times, vols, maxStep.getD LocalVol.defaultMaxStep⟩

def readModel? (v : Value) : Option ModelDefinition := do
  let spot ← v.required "spot" 0 (·.real?)
  let vol ← v.optional "vol" 1 (·.real?)
  let rate ← v.optional "rate" 2 (·.real?)
  let div ← v.optional "div" 3 (·.real?)
  let surface ← v.optional "local_vol" 4 readSurface?
  return ⟨spot, vol, rate.getD 0, div.getD 0, surface⟩

namespace SurfaceDefinition

/-- The volatilities row by row; every row has one for each time. -/
def values (s : SurfaceDefinition) : Except AppError (Array Float) :=
  match s.vols.find? fun row => row.length != s.times.length with
  | some row => .error (.argument (.raggedSurface row.length s.times.length))
  | none => .ok s.vols.flatten.toArray

end SurfaceDefinition

namespace ModelDefinition

/-- The model that a definition describes. -/
def build (m : ModelDefinition) : Except AppError (Model Float Float) :=
  let checked {α : Type} (x : Except (ModelError Float) α) : Except AppError α :=
    x.mapError fun e => .simulation (.model e)
  match m.vol, m.surface with
  | some vol, none => .blackScholes <$> checked (BlackScholes.ofParameters m.spot vol m.rate m.div)
  | none, some s => do
    let vols ← s.values
    let model ← checked (LocalVol.ofGrid m.spot m.rate m.div s.spots.toArray s.times.toArray vols)
    .localVol <$> checked (model.withMaxStep s.maxStep)
  | _, _ => .error (.argument .ambiguousModel)

end ModelDefinition

namespace ProductFile

def ofText (s : String) : Except AppError ProductFile :=
  let file : Option ProductFile := do
    let v ← Value.ofText? s
    return ⟨← v.required "product" 0 readProduct?, ← v.required "model" 1 readModel?⟩
  match file with
  | some file => .ok file
  | none => .error (.argument .malformedProduct)

def ofFile (file : File) : Except AppError ProductFile :=
  match file.contents with
  | some s => ofText s
  | none => .error (.missingFile file.path)

/-- The product, analysed for fuzzy evaluation or not. -/
def build (f : ProductFile) (fuzzy : Bool) : Except (Fault AppError) (Product Float) :=
  let product : Except (Fault (ScriptError Float)) (Product Float) := do
    let plan ← (f.product.toPlan fuzzy).mapError .error
    plan.build
  product.mapError (·.map .script)

end ProductFile

end PayoffPricing.App
