import PayoffPricing.Model.BlackScholes
import PayoffPricing.Model.LocalVol
/-!
Models of the spot. A model is prepared once for the timeline of a product and then turns the draws
of each path into a scenario.
-/

namespace PayoffPricing

inductive Model (R T : Type) where
  | blackScholes (m : BlackScholes T)
  | localVol (m : LocalVol R T)

namespace Model

variable {R S T : Type}

def name : Model R T → String
  | blackScholes _ => "black-scholes"
  | localVol _ => "dupire"

/-- The model with other values for its parameters, taken in order. -/
def lift (f : R → StateM S T) : Model R R → StateM S (Model R T)
  | blackScholes m => return blackScholes (← m.lift f)
  | localVol m => return localVol (← m.lift f)

/-- The parameters that sensitivities are taken to. -/
def parameters : Model R T → List T
  | blackScholes m => m.parameters
  | localVol m => m.parameters

/-- The names of the parameters, in order. -/
def labels : Model Float T → List String
  | blackScholes _ => BlackScholes.labels
  | localVol m => m.labels

/-- How many draws a path takes. -/
def dimension : Model R T → Nat
  | blackScholes m => m.dimension
  | localVol m => m.dimension

variable [Scalar R]

/-- Makes room for a timeline. -/
def allocate [Valued R T] (times : List R) (requests : List (Request R)) : Model R T → Model R T
  | blackScholes m => blackScholes (m.allocate times requests)
  | localVol m => localVol (m.allocate times requests)

variable [Quantity R S T]

/-- Prepares for a timeline. -/
def init (times : List R) (requests : List (Request R)) : Preparing R S (Model R T) Unit :=
  ExceptT.mk fun
    | blackScholes m => do
      let (result, m) ← (BlackScholes.init times requests).run m
      return (result, blackScholes m)
    | localVol m => do
      let (result, m) ← (LocalVol.init times requests).run m
      return (result, localVol m)

/-- Fills a scenario from the draws of a path. -/
def generate (m : Model R T) (draws : Array R) (scenario : Scenario T) : Modelling R S (Scenario T) :=
  match m with
  | blackScholes m => m.generate draws scenario
  | localVol m => m.generate draws scenario

/-- The volatility at a spot and a time, for a model that has one there. -/
def volAt (m : Model R T) (spot time : R) : Modelling R S (Option T) :=
  match m with
  | blackScholes _ => return none
  | localVol m => return some (← m.volAt spot time)

end Model

end PayoffPricing
