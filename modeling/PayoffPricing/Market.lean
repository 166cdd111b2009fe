import PayoffPricing.Decimal.Format
import PayoffPricing.Quantity
/-!
Market observations. A product requests observables at each of its dates, a model fills in one
sample per date, and the sequence of samples along one path is a scenario.
-/

namespace PayoffPricing

/-- What is observed at one date: maturities of forwards and of discount factors. -/
structure Request (R : Type) where
  numeraire : Bool
  forwards : Array R
  discounts : Array R

/-- The observations of one date on one path. -/
structure Sample (T : Type) where
  spot : T
  numeraire : T
  forwards : Array T
  discounts : Array T

abbrev Scenario (T : Type) := Array (Sample T)

inductive ScenarioError (R : Type) where
  | lengthMismatch (expected actual : Nat)
  | maturityBeforeEvent (time maturity : R)

namespace ScenarioError

def message : ScenarioError Float → String
  | lengthMismatch expected actual =>
    s!"Scenario length mismatch: expected {expected} samples, got {actual}"
  | maturityBeforeEvent time maturity =>
    s!"Maturity {numberText maturity} precedes event time {numberText time}"

end ScenarioError

namespace Request

variable {R : Type} [Scalar R]

/-- What a script needs at an event: the numeraire, and forward and discount to the event itself. -/
def atTime (time : R) : Request R := ⟨true, #[time], #[time]⟩

/-- No maturity may precede the event; the first one that does is reported. -/
def validate (r : Request R) (time : R) : Except (ScenarioError R) Unit :=
  match (r.forwards ++ r.discounts).find? fun m => decide (m < time) with
  | some m => .error (.maturityBeforeEvent time m)
  | none => .ok ()

end Request

namespace Sample

variable {R T : Type} [Scalar R] [Valued R T]

/-- The observations before a model has written any: spot and forwards at 100, the rest at one. -/
def allocate (r : Request R) : Sample T where
  spot := Valued.constant (R := R) 100
  numeraire := Quantity.one
  forwards := Array.replicate r.forwards.size (Valued.constant (R := R) 100)
  discounts := Array.replicate r.discounts.size Quantity.one

/-- Back to the observations of a new sample. -/
def reset (s : Sample T) : Sample T where
  spot := Valued.constant (R := R) 100
  numeraire := Quantity.one
  forwards := s.forwards.map fun _ => Valued.constant (R := R) 100
  discounts := s.discounts.map fun _ => Quantity.one

end Sample

namespace Scenario

variable {R T : Type} [Scalar R] [Valued R T]

def allocate (requests : Array (Request R)) : Scenario T := requests.map Sample.allocate

def reset (s : Scenario T) : Scenario T := s.map Sample.reset

/-- A scenario has one sample per request. -/
def check (requests : Array (Request R)) (s : Scenario T) : Except (ScenarioError R) Unit :=
  if requests.size = s.size then .ok () else .error (.lengthMismatch requests.size s.size)

end Scenario

end PayoffPricing
