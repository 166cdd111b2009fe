import PayoffPricing.Decimal.Format
import PayoffPricing.Scalar
import PayoffPricing.Text.Lowercase
/-!
Settings of a simulation. A configuration is made of checked settings, so its bounds hold by
construction.
-/

namespace PayoffPricing.Simulation

/-- The evaluator that runs on every path. -/
inductive EvaluatorKind where
  | exact
  | fuzzy
  | compiled
deriving DecidableEq, Repr

/-- Whether sensitivities are computed, by adjoints. -/
inductive AdjointMode where
  | off
  | reverse
deriving DecidableEq, Repr

inductive ConfigError (R : Type) where
  | pathCount (count : Nat)
  | batchSize (size : Nat)
  | noPathCount
  | width (value : R)
  | noThreads
  | unknownEvaluator (text : String)
  | unknownMode (text : String)

namespace ConfigError

def message : ConfigError Float → String
  | pathCount count => s!"Invalid path count {count}: must be in range [1, 10_000_000]"
  | batchSize size => s!"Invalid batch size {size}: must be in range [1, 1_000_000]"
  | noPathCount => "Invalid parameter 'n_paths': must be specified"
  | width value => s!"Invalid parameter 'fuzzy_epsilon': {numberText value} is not positive"
  | noThreads => "Invalid parameter 'threads': must be at least 1"
  | unknownEvaluator text => s!"Invalid parameter 'evaluator': unknown evaluator '{text}'"
  | unknownMode text => s!"Invalid parameter 'ad_mode': unknown mode '{text}'"

end ConfigError

namespace EvaluatorKind

def text : EvaluatorKind → String
  | exact => "exact"
  | fuzzy => "fuzzy"
  | compiled => "compiled"

/-- Reads a kind in any case of its letters. -/
def ofText {R : Type} (s : String) : Except (ConfigError R) EvaluatorKind :=
  match Text.lowercaseBasic s with
  | "exact" => .ok exact
  | "fuzzy" => .ok fuzzy
  | "compiled" => .ok compiled
  | other => .error (.unknownEvaluator other)

end EvaluatorKind

namespace AdjointMode

def text : AdjointMode → String
  | off => "noad"
  | reverse => "reverse"

/-- Reads a mode in any case of its letters. -/
def ofText {R : Type} (s : String) : Except (ConfigError R) AdjointMode :=
  match Text.lowercaseBasic s with
  | "noad" => .ok off
  | "none" => .ok off
  | "off" => .ok off
  | "reverse" => .ok reverse
  | "aad" => .ok reverse
  | "on" => .ok reverse
  | other => .error (.unknownMode other)

end AdjointMode

def maxPaths : Nat := 10000000

def maxBatchSize : Nat := 1000000

def defaultBatchSize : Nat := 8192

def defaultWidth {R : Type} [Scalar R] : R := 0.01

/-- What a caller asks for. -/
structure Settings (R : Type) where
  paths : Option Nat
  seed : UInt64
  batchSize : Nat
  evaluator : EvaluatorKind
  width : R
  mode : AdjointMode
  threads : Option Nat

/-- Settings within their bounds. -/
structure Config (R : Type) [Scalar R] where
  paths : Nat
  seed : UInt64
  batchSize : Nat
  evaluator : EvaluatorKind
  width : R
  mode : AdjointMode
  threads : Option Nat
  paths_pos : 0 < paths
  paths_le : paths ≤ maxPaths
  batchSize_pos : 0 < batchSize
  batchSize_le : batchSize ≤ maxBatchSize
  width_pos : width > 0
  width_finite : Scalar.isFinite width = true
  threads_ne : threads ≠ some 0

variable {R : Type} [Scalar R]

namespace Settings

def default : Settings R where
  paths := none
  seed := 0
  batchSize := defaultBatchSize
  evaluator := .exact
  width := defaultWidth
  mode := .off
  threads := none

/-- Checks settings, in the order path count, batch size, width, threads. -/
def check (s : Settings R) : Except (ConfigError R) (Config R) :=
  match s.paths with
  | none => .error .noPathCount
  | some paths =>
    if hp : 0 < paths ∧ paths ≤ maxPaths then
      if hb : 0 < s.batchSize ∧ s.batchSize ≤ maxBatchSize then
        if hw : s.width > 0 ∧ Scalar.isFinite s.width = true then
          if ht : s.threads ≠ some 0 then
            .ok ⟨paths, s.seed, s.batchSize, s.evaluator, s.width, s.mode, s.threads,
              hp.1, hp.2, hb.1, hb.2, hw.1, hw.2, ht⟩
          else .error .noThreads
        else .error (.width s.width)
      else .error (.batchSize s.batchSize)
    else .error (.pathCount paths)

end Settings

namespace Config

/-- The least natural number that is not below `a / b`. -/
def ceilDiv (a b : Nat) : Nat := (a + b - 1) / b

/-- The number of workers; one where none is asked for. -/
def effectiveThreads (c : Config R) : Nat := max 1 (c.threads.getD 1)

/-- The size of batches for a number of workers: no larger than an even share of the paths. -/
def effectiveBatchSize (c : Config R) (threads : Nat) : Nat :=
  max 1 (min c.batchSize (ceilDiv c.paths (max 1 threads)))

end Config

end PayoffPricing.Simulation
