import PayoffPricing.Model.Error
/-!
Observables that follow from the spot and from flat rates: the numeraire, and factors that lead
from the spot to forwards and to discounts. They are fixed before any path is drawn.
-/

namespace PayoffPricing

/-- The numeraire, a factor per forward and the discounts of one event. -/
structure Observables (T : Type) where
  numeraire : T
  forwardFactors : List T
  discounts : List T

namespace Observables

variable {R S T : Type} [Scalar R]

/-- Before the rates are known, everything is one. -/
def initial [Valued R T] (request : Request R) : Observables T where
  numeraire := Quantity.one
  forwardFactors := List.replicate request.forwards.size Quantity.one
  discounts := List.replicate request.discounts.size Quantity.one

variable [Quantity R S T]

/-- The observables of an event at `time`, under a flat rate and a flat carry of the spot. -/
def ofRates (rate carry : T) (time : R) (request : Request R) : StateM S (Observables T) := do
  let numeraire ←
    if request.numeraire then do Quantity.exp (← Quantity.mulScalar rate time)
    else pure Quantity.one
  let forwardFactors ← request.forwards.toList.mapM fun maturity => do
    Quantity.exp (← Quantity.mulScalar carry (maturity - time))
  let discounts ← request.discounts.toList.mapM fun maturity => do
    Quantity.exp (← Quantity.neg (← Quantity.mulScalar rate (maturity - time)))
  return ⟨numeraire, forwardFactors, discounts⟩

/-- Forwards from the spot; entries without a factor keep their value. -/
def writeForwards (spot : T) : List T → List T → StateM S (List T)
  | _ :: forwards, factor :: factors => do
    let forward ← Quantity.mul spot factor
    return forward :: (← writeForwards spot forwards factors)
  | forwards, _ => return forwards

/-- New values for the first entries of a list. -/
def overwrite {α : Type} : List α → List α → List α
  | _ :: old, x :: new => x :: overwrite old new
  | old, _ => old

/-- A sample with the spot and all that follows from it. -/
def writeSample (o : Observables T) (spot : T) (sample : Sample T) : StateM S (Sample T) := do
  let forwards ← writeForwards spot sample.forwards.toList o.forwardFactors
  return {
    spot := spot
    numeraire := o.numeraire
    forwards := forwards.toArray
    discounts := (overwrite sample.discounts.toList o.discounts).toArray
  }

end Observables

end PayoffPricing
