import PayoffPricing.Simulation.Worker
/-!
A simulation: the product and the model are shared by workers that empty one queue of batches. The
payoff of a path lands in the place of the path, whoever simulated it.
-/

namespace PayoffPricing.Simulation

open PayoffPricing.Random

structure Result (R : Type) where
  payoffs : Array R
  price : R
  stdError : R
  /-- The derivative of the price by each parameter; empty without sensitivities. -/
  gradient : List R
  paths : Nat
  batches : Nat
  workers : Nat

variable {R G : Type} [Scalar R]

/-- A sum from left to right; of nothing, negative zero. -/
def total (xs : Array R) : R := xs.foldl (· + ·) (-0)

/-- The mean, and the standard error of the mean. -/
def meanAndError (payoffs : Array R) : R × R :=
  let n : R := Scalar.ofNat payoffs.size
  let mean := total payoffs / n
  if payoffs.size < 2 then (mean, 0)
  else
    let variance := total (payoffs.map fun x => (x - mean) * (x - mean)) / (n - 1)
    (mean, Scalar.sqrt (variance / n))

/-- Half the width of the interval that covers the price with 95% confidence. -/
def Result.confidence (r : Result R) : R := 1.96 * r.stdError

/-- Writes values at consecutive places. -/
def writeAt (payoffs : Array R) (first : Nat) (values : Array R) : Array R :=
  (values.foldl (fun (payoffs, place) x => (payoffs.setIfInBounds place x, place + 1)) (payoffs, first)).1

/-- Writes batches to the places of their paths. -/
def writeBatches (batchSize : Nat) (payoffs : Array R) (output : Output R) : Array R :=
  output.foldl (fun payoffs (index, values) => writeAt payoffs (index * batchSize) values) payoffs

/-- A number of workers, one after the other. -/
def runWorkers [DrawStream R G] (job : Job R G) :
    Nat → BatchQueue → Except (Fault (SimulationError R)) (List (WorkerResult R))
  | 0, _ => .ok []
  | n + 1, queue => do
    let (result, queue) ← job.runWorker queue
    return result :: (← runWorkers job n queue)

/-- Adds lists place by place; the first one gives the length. -/
def addLists : List R → List R → List R
  | x :: xs, y :: ys => (x + y) :: addLists xs ys
  | xs, _ => xs

/-- Prices a product under a model. -/
def simulate [DrawStream R G] (p : Product R) (model : Model R R) (stream : G) (config : Config R) :
    Except (Fault (SimulationError R)) (Result R) := do
  let (prepared, _) := (prepareModel (S := Unit) p model).run ()
  let prepared ← prepared
  let threads := config.effectiveThreads
  let batchSize := config.effectiveBatchSize threads
  let queue := BatchQueue.ofPaths config.paths batchSize
  let workers := min threads queue.count
  let results ← runWorkers ⟨p, model, stream, config, prepared.dimension⟩ workers queue
  let payoffs := results.foldl (fun payoffs r => writeBatches batchSize payoffs r.output)
    (Array.replicate config.paths 0)
  let zeros : List R := match config.mode with
    | .off => []
    | .reverse => prepared.parameters.map fun _ => 0
  let gradient := results.foldl (fun sum r => addLists sum r.gradient) zeros
  let (price, stdError) := meanAndError payoffs
  return {
    payoffs, price, stdError
    gradient := gradient.map (· / Scalar.ofNat config.paths)
    paths := config.paths
    batches := queue.count
    workers
  }

/-- The sensitivities of a price under the names of the parameters. -/
def Result.sensitivities (r : Result Float) (model : Model Float Float) : List (String × Float) :=
  model.labels.zip r.gradient

end PayoffPricing.Simulation
