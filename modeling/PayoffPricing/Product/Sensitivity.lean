import PayoffPricing.Product.Evaluator
/-!
Sensitivities of a payoff to the market: the payoff of one scenario is recorded and propagated back
to the spots and numeraires that it was observed at.
-/

namespace PayoffPricing

open Script

/-- A recorded payoff, with its derivatives by the spot and the numeraire of each sample. -/
structure RecordedPayoff (R : Type) where
  payoff : Number R
  nodes : Nat
  derivatives : List (R × R)

variable {R : Type} [Scalar R]

/-- A sample whose spot and numeraire are recorded inputs. -/
def Sample.input (s : Sample R) : StateM (Tape R) (Sample (Number R)) := do
  let spot ← Number.input s.spot
  let numeraire ← Number.input s.numeraire
  return ⟨spot, numeraire, #[], #[]⟩

/-- Evaluates a product on recorded samples and differentiates its payoff. -/
def Product.differentiate (p : Product R) (m : Method R) (samples : List (Sample R)) :
    Except (Fault (ScriptError R)) (RecordedPayoff R) := do
  let evaluator : Evaluator R (Number R) ← (Evaluator.ofMethod p m).mapError .error
  let (samples, tape) := (samples.mapM Sample.input).run .empty
  let ((result, evaluator), tape) := ((Evaluator.evaluate p samples.toArray).run evaluator).run tape
  result
  let payoff := (evaluator.payoff? p).getD Quantity.zero
  let derivatives : Except Misuse (List (R × R)) := do
    let swept ← payoff.propagateToStart tape
    samples.mapM fun s => return (← s.spot.adjoint swept, ← s.numeraire.adjoint swept)
  return ⟨payoff, tape.length, ← derivatives.mapError .misuse⟩

end PayoffPricing
