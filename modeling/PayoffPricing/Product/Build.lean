import PayoffPricing.Product.Plan
import PayoffPricing.Script.Bytecode
import PayoffPricing.Script.Collapse
import PayoffPricing.Script.Effects
import PayoffPricing.Script.Folding
import PayoffPricing.Script.Inference
import PayoffPricing.Script.Listing
/-!
Products: analysed events at increasing times. Building a product parses the texts of a plan,
assigns slots, notes what conditional statements may write, infers domains, drops decided
conditions, folds constants and compiles.
-/

namespace PayoffPricing

open Script

structure Product (R : Type) where
  times : List R
  events : List (Event R)
  programs : List (Program R)
  names : Array String
  /-- The slot of the payoff variable. -/
  payoff : Nat
  /-- The greatest nesting of conditional statements. -/
  nesting : Nat
  fuzzy : Bool

namespace Product

variable {R : Type}

/-- Which observations are needed at each time. -/
def requests [Scalar R] (p : Product R) : Array (Request R) := (p.times.map Request.atTime).toArray

/-- All events with their statements. -/
def lines (p : Product Float) : List String :=
  (p.times.zip p.events).zipIdx.flatMap fun ((t, event), i) =>
    ("EVENT " ++ toString i ++ " (t = " ++ numberText t ++ ")") :: Statement.blockLines 2 event

end Product

/-- Events after analysis. -/
structure Analysis (R : Type) where
  events : List (Event R)
  names : Array String
  nesting : Nat

namespace Script

variable {R : Type} [Scalar R]

/-- Events with slots and notes, ready for evaluation. -/
def analyse (fuzzy : Bool) (events : List (Event R)) : Except (Fault (ScriptError R)) (Analysis R) := do
  let (events, names) := assignSlots events
  let (events, nesting) := markAffected events
  let events ← ((inferEvents fuzzy events).run (Domains.initial names.size)).1.result
  let (events, _) := collapse events
  let events ← ((foldEvents events).run (Knowledge.initial names.size)).1.result
  return ⟨events, names, nesting⟩

end Script

namespace Plan

variable {R : Type} [Scalar R]

/-- Parses one text per event. -/
def parseAll (plan : Plan R) (texts : List String) : Except (ScriptError R) (List (Event R)) :=
  texts.zipIdx.mapM fun (text, i) => parseEvent text i plan.constants

/-- The product of a plan. -/
def build (plan : Plan R) : Except (Fault (ScriptError R)) (Product R) := do
  let some payoff := plan.payoff | throw (.error (.product .noPayoff))
  let timeline ← liftError plan.timeline
  let events ← liftError (plan.parseAll (timeline.map (·.2)))
  let analysis ← analyse plan.fuzzy events
  match analysis.names.idxOf? payoff with
  | none => throw (.error (.unknownVariable payoff))
  | some slot =>
    return {
      times := timeline.map (·.1)
      events := analysis.events
      programs := analysis.events.map .ofEvent
      names := analysis.names
      payoff := slot
      nesting := analysis.nesting
      fuzzy := plan.fuzzy
    }

end Plan

end PayoffPricing
