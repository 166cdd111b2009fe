import PayoffPricing.Model.Basic
import PayoffPricing.Product.Evaluator
import PayoffPricing.Random.Stream
import PayoffPricing.Simulation.BatchQueue
/-!
Workers. A worker has a model prepared for the product, a stream of draws, a scenario and an
evaluator of its own. It takes batches from the queue and simulates their paths one by one. To
compute sensitivities it records every path on its tape behind a checkpoint, propagates the payoff
back to the checkpoint, and propagates on to the parameters when no batch is left.
-/

namespace PayoffPricing.Simulation

open PayoffPricing.Random

inductive SimulationError (R : Type) where
  | config (cause : ConfigError R)
  | model (cause : ModelError R)
  | script (cause : Script.ScriptError R)

namespace SimulationError

def message : SimulationError Float → String
  | config cause => cause.message
  | model cause => cause.message
  | script cause => cause.message

end SimulationError

/-- What a worker uses again for every path. -/
structure Workspace (R G T : Type) where
  stream : G
  scenario : Scenario T
  evaluator : Evaluator R T

/-- A computation of a simulation, which may record operations and may stop. -/
abbrev Simulated (R S : Type) := ExceptT (Fault (SimulationError R)) (StateM S)

/-- A step of a worker. -/
abbrev Working (R G S T : Type) :=
  ExceptT (Fault (SimulationError R)) (StateT (Workspace R G T) (StateM S))

/-- Raises an error of a part to one of the simulation. -/
def raise {ε R α : Type} (f : ε → SimulationError R) :
    Except (Fault ε) α → Except (Fault (SimulationError R)) α
  | .ok a => .ok a
  | .error e => .error (e.map f)

/-- The payoffs of batches, by the index of the batch. -/
abbrev Output (R : Type) := Array (Nat × Array R)

variable {R S G T : Type} [Scalar R]

/-- The method of evaluation that a configuration asks for. -/
def Config.method (c : Config R) : Method R :=
  match c.evaluator with
  | .exact => .exact
  | .fuzzy => .fuzzy c.width
  | .compiled => .compiled

namespace Workspace

/-- The workspace of a new worker. -/
def create [DrawStream R G] [Valued R T] (p : Product R) (c : Config R) (stream : G) (dimension : Nat) :
    Except (Fault (SimulationError R)) (Workspace R G T) :=
  match Evaluator.ofMethod p c.method with
  | .ok evaluator =>
    .ok ⟨DrawStream.prepare dimension stream, Scenario.reset (Scenario.allocate p.requests), evaluator⟩
  | .error e => .error (.error (.script e))

end Workspace

/-- The model, prepared for the timeline of a product. -/
def prepareModel [Quantity R S T] (p : Product R) (m : Model R T) : Simulated R S (Model R T) :=
  ExceptT.mk do
    let m := m.allocate p.times p.requests.toList
    let (result, m) ← (Model.init p.times p.requests.toList).run m
    return raise .model (result.map fun _ => m)

namespace Working

variable [Quantity R S T]

/-- Draws the next path of the stream. -/
def draw [DrawStream R G] (dimension : Nat) : Working R G S T (Array R) :=
  ExceptT.mk fun w =>
    let (draws, stream) := (DrawStream.normals dimension).run w.stream
    pure (.ok draws, { w with stream := stream })

/-- Has the model fill the scenario. -/
def fill (m : Model R T) (draws : Array R) : Working R G S T Unit :=
  ExceptT.mk fun w => do
    match ← (m.generate draws w.scenario).run with
    | .ok scenario => return (.ok (), { w with scenario := scenario })
    | .error e => return (.error (e.map .model), w)

/-- Evaluates the product on the scenario. -/
def evaluate (p : Product R) : Working R G S T T :=
  ExceptT.mk fun w => do
    let (result, evaluator) ← (Evaluator.evaluate p w.scenario).run w.evaluator
    let payoff := do
      raise .script result
      Fault.ofOption (evaluator.payoff? p)
    return (payoff, { w with evaluator := evaluator })

/-- Simulates the next path of the stream. -/
def nextPayoff [DrawStream R G] (p : Product R) (m : Model R T) (dimension : Nat) : Working R G S T T := do
  let draws ← draw dimension
  fill m draws
  evaluate p

/-- Simulates a number of paths by `path`, which leaves one payoff each. -/
def runPaths (path : Working R G S T R) (payoffs : Array R) : Nat → Working R G S T (Array R)
  | 0 => return payoffs
  | n + 1 => do
    let payoff ← path
    runPaths path (payoffs.push payoff) n

/-- Simulates a batch. -/
def runBatch [DrawStream R G] (path : Working R G S T R) (b : Batch) : Working R G S T (Nat × Array R) := do
  modify fun w => { w with stream := DrawStream.skipTo b.first w.stream }
  return (b.index, ← runPaths path #[] (b.stop - b.first))

/-- Takes batches from the queue until none is left. -/
def drain [DrawStream R G] (path : Working R G S T R) (output : Output R) (queue : BatchQueue) :
    Working R G S T (Output R × BatchQueue) :=
  match _h : queue.pop.1 with
  | none => return (output, queue.pop.2)
  | some b => do
    let batch ← runBatch path b
    drain path (output.push batch) queue.pop.2
termination_by queue.remaining
decreasing_by exact BatchQueue.remaining_pop _h

end Working

/-- What is common to all workers. -/
structure Job (R G : Type) [Scalar R] where
  product : Product R
  model : Model R R
  stream : G
  config : Config R
  dimension : Nat

/-- What a worker hands back: payoffs, and the summed adjoints of the parameters. -/
structure WorkerResult (R : Type) where
  output : Output R
  gradient : List R

namespace Job

variable [DrawStream R G]

/-- A worker without sensitivities. -/
def runPlain (job : Job R G) (queue : BatchQueue) :
    Except (Fault (SimulationError R)) (WorkerResult R × BatchQueue) := do
  let (m, _) := (prepareModel job.product job.model).run ()
  let m ← m
  let w ← Workspace.create job.product job.config job.stream job.dimension
  let path : Working R G Unit R R := Working.nextPayoff job.product m job.dimension
  let (output, queue) ← (((Working.drain path #[] queue).run w).run ()).1.1
  return (⟨output, []⟩, queue)

/-- Propagates the payoff of a path to the checkpoint, or, when the payoff was recorded before the
checkpoint, adds to its adjoint there. -/
def propagatePayoff (payoff : Number R) (t : Tape R) : Except Misuse (Tape R) :=
  match payoff.node with
  | none => .ok t
  | some id =>
    if t.nodes.mark ≤ id then payoff.propagateToMark t
    else t.modifyAdjoint id 0 (· + 1)

/-- Records a path behind the checkpoint and propagates its payoff. -/
def recordPath (p : Product R) (m : Model R (Number R)) (dimension : Nat) :
    Working R G (Tape R) (Number R) R := do
  modifyThe (Tape R) Tape.rewindToMark
  let payoff ← Working.nextPayoff p m dimension
  match propagatePayoff payoff (← getThe (Tape R)) with
  | .ok t =>
    set t
    return payoff.value
  | .error cause => throw (.misuse cause)

/-- A worker with sensitivities. -/
def runReverse (job : Job R G) (queue : BatchQueue) :
    Except (Fault (SimulationError R)) (WorkerResult R × BatchQueue) := do
  let (m, tape) := (job.model.lift Number.input).run .empty
  let parameters := m.parameters
  let (m, tape) := (prepareModel job.product m).run tape
  let m ← m
  let w ← Workspace.create job.product job.config job.stream job.dimension
  let path := recordPath job.product m job.dimension
  let ((result, _), tape) := ((Working.drain path #[] queue).run w).run tape.setMark
  let (output, queue) ← result
  let gradient : Except Misuse (List R) := do
    let tape ← tape.propagateMarkToStart
    parameters.mapM (·.adjoint tape)
  return (⟨output, ← gradient.mapError .misuse⟩, queue)

/-- A worker, from the queue as it finds it. -/
def runWorker (job : Job R G) (queue : BatchQueue) :
    Except (Fault (SimulationError R)) (WorkerResult R × BatchQueue) :=
  match job.config.mode with
  | .off => job.runPlain queue
  | .reverse => job.runReverse queue

end Job

end PayoffPricing.Simulation
