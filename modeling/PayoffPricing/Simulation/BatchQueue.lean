import PayoffPricing.Simulation.Config
/-!
The queue from which workers take batches of consecutive paths.
-/

namespace PayoffPricing.Simulation

/-- The paths `[first, stop)`, as the batch at place `index`. -/
structure Batch where
  index : Nat
  first : Nat
  stop : Nat
deriving DecidableEq, Repr

/-- Paths cut into batches of one size, of which the last may be shorter. -/
structure BatchQueue where
  next : Nat
  count : Nat
  size : Nat
  paths : Nat
deriving DecidableEq, Repr

namespace BatchQueue

def ofPaths (paths size : Nat) : BatchQueue := ⟨0, Config.ceilDiv paths size, size, paths⟩

def batchAt (q : BatchQueue) (index : Nat) : Batch :=
  ⟨index, index * q.size, min (index * q.size + q.size) q.paths⟩

/-- Takes the next batch, if one is left. The counter moves on in either case. -/
def pop (q : BatchQueue) : Option Batch × BatchQueue :=
  (if q.next < q.count then some (q.batchAt q.next) else none, { q with next := q.next + 1 })

/-- How many batches have not been taken. -/
def remaining (q : BatchQueue) : Nat := q.count - q.next

theorem remaining_pop {q : BatchQueue} {b : Batch} (h : q.pop.1 = some b) :
    q.pop.2.remaining < q.remaining := by
  simp only [pop, remaining] at h ⊢
  split at h
  · omega
  · contradiction

end BatchQueue

end PayoffPricing.Simulation
