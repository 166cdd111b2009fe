import PayoffPricing.Product.Build
/-!
The stages of building a product: the timeline of the plan, its parsed events, their analysis, and the product that is
put together from them.
-/

namespace PayoffPricing.Plan

open Script

variable {R : Type} [Scalar R]

/-- What is left to do once the events are analysed. -/
def assembled (fuzzy : Bool) (payoff : String) (times : List R) (a : Analysis R) :
    Except (Fault (ScriptError R)) (Product R) :=
  match a.names.idxOf? payoff with
  | none => throw (.error (.unknownVariable payoff))
  | some slot => return {
      times
      events := a.events
      programs := a.events.map .ofEvent
      names := a.names
      payoff := slot
      nesting := a.nesting
      fuzzy
    }

theorem build_eq (plan : Plan R) (fuzzy : Bool) :
    { plan with fuzzy }.build = match plan.payoff with
      | none => .error (.error (.product .noPayoff))
      | some payoff =>
        liftError plan.timeline >>= fun timeline =>
        liftError (plan.parseAll (timeline.map (·.2))) >>= fun events =>
        analyse fuzzy events >>= assembled fuzzy payoff (timeline.map (·.1)) := by
  simp only [build]
  cases plan.payoff <;> rfl

end PayoffPricing.Plan
