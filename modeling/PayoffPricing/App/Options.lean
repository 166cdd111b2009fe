import PayoffPricing.App.Error
import PayoffPricing.Decimal.Numeral
import PayoffPricing.Text.Blank
import PayoffPricing.Toml.Reading
/-!
Options of the application. They are layered: arguments of the command line override the
environment, which overrides a configuration file, which overrides the defaults.
-/

namespace PayoffPricing.App

open Simulation

inductive LogLevel where
  | trace
  | debug
  | info
  | warn
  | error
deriving DecidableEq, Repr

namespace LogLevel

def all : List LogLevel := [trace, debug, info, warn, error]

def text : LogLevel → String
  | trace => "trace"
  | debug => "debug"
  | info => "info"
  | warn => "warn"
  | error => "error"

/-- Reads a level in any case of its letters. -/
def ofText (s : String) : Except OptionsError LogLevel :=
  match all.find? fun level => level.text == Text.lowercase s with
  | some level => .ok level
  | none => .error (.logLevel s)

end LogLevel

structure Options where
  logLevel : LogLevel
  threads : Option Nat
  paths : Nat
  seed : UInt64
  batchSize : Nat
  evaluator : EvaluatorKind
  width : Float
  mode : AdjointMode

/-- The options that one source gives. -/
structure Overrides where
  logLevel : Option LogLevel
  threads : Option Nat
  paths : Option Nat
  seed : Option UInt64
  batchSize : Option Nat
  evaluator : Option EvaluatorKind
  width : Option Float
  mode : Option AdjointMode

/-- Options as the command line gives them. -/
structure Arguments where
  logLevel : Option String
  threads : Option Nat
  paths : Option Nat
  seed : Option UInt64
  evaluator : Option String
  mode : Option String

namespace Options

def default : Options where
  logLevel := .warn
  threads := none
  paths := 10000
  seed := 42
  batchSize := defaultBatchSize
  evaluator := .exact
  width := defaultWidth
  mode := .off

/-- Options with those of another source put over them. -/
def override (o : Options) (x : Overrides) : Options where
  logLevel := x.logLevel.getD o.logLevel
  threads := x.threads.or o.threads
  paths := x.paths.getD o.paths
  seed := x.seed.getD o.seed
  batchSize := x.batchSize.getD o.batchSize
  evaluator := x.evaluator.getD o.evaluator
  width := x.width.getD o.width
  mode := x.mode.getD o.mode

/-- The configuration of simulations under these options. -/
def config (o : Options) : Except OptionsError (Config Float) :=
  (Settings.mk (some o.paths) o.seed o.batchSize o.evaluator o.width o.mode o.threads).check.mapError
    .simulation

end Options

namespace Overrides

def none : Overrides := ⟨.none, .none, .none, .none, .none, .none, .none, .none⟩

def readChoice? {α : Type} (all : List α) (text : α → String) (v : Toml.Value) : Option α := do
  let name ← v.choice?
  all.find? fun a => text a == name

/-- The part of a configuration file on simulations. -/
def ofSimulationTable? (v : Toml.Value) : Option Overrides := do
  return {
    none with
    paths := ← v.optional "paths" 0 (·.nat?)
    seed := (← v.optional "seed" 1 (·.nat?)).map Nat.toUInt64
    batchSize := ← v.optional "batch_size" 2 (·.nat?)
    evaluator := ← v.optional "evaluator" 3 (readChoice? [.exact, .fuzzy, .compiled] EvaluatorKind.text)
    width := ← v.optional "fuzzy_epsilon" 4 (·.real?)
    mode := ← v.optional "aad" 5 (readChoice? [.off, .reverse] AdjointMode.text)
  }

/-- A whole configuration file. -/
def ofTable? (v : Toml.Value) : Option Overrides := do
  let logLevel ← v.optional "log_level" 0 (readChoice? LogLevel.all LogLevel.text)
  let threads ← v.optional "threads" 1 (·.nat?)
  let simulation ← v.optional "simulation" 2 ofSimulationTable?
  return { simulation.getD none with logLevel, threads }

def ofFile (file : File) : Except OptionsError Overrides :=
  match file.contents with
  | .none => .error (.missingFile file.path)
  | some s => match (Toml.Value.ofText? s).bind ofTable? with
    | .none => .error .malformedFile
    | some x => .ok x

/-- The variables of the environment that are looked up. -/
def settingNames : List String :=
  ["SCRIPTMC_LOG_LEVEL", "SCRIPTMC_THREADS", "SCRIPTMC_PATHS", "SCRIPTMC_SEED",
    "SCRIPTMC_BATCH_SIZE", "SCRIPTMC_FUZZY_EPSILON", "SCRIPTMC_EVALUATOR", "SCRIPTMC_AAD"]

/-- The variables that are set, each read by the rule of its option. -/
def ofEnvironment (lookup : String → Option String) : Except OptionsError Overrides := do
  let number {α : Type} (read : List Char → Option α) (name : String) : Except OptionsError (Option α) :=
    (lookup name).mapM fun text => match read (Text.trimList text.toList) with
      | some a => .ok a
      | .none => .error (.environment name text)
  let logLevel ← (lookup "SCRIPTMC_LOG_LEVEL").mapM LogLevel.ofText
  let threads ← number (Numeral.natural? Word.limit) "SCRIPTMC_THREADS"
  let paths ← number (Numeral.natural? Word.limit) "SCRIPTMC_PATHS"
  let seed ← number (Numeral.natural? Word.limit) "SCRIPTMC_SEED"
  let batchSize ← number (Numeral.natural? Word.limit) "SCRIPTMC_BATCH_SIZE"
  let width ← number Numeral.real? "SCRIPTMC_FUZZY_EPSILON"
  let evaluator ← ((lookup "SCRIPTMC_EVALUATOR").mapM EvaluatorKind.ofText).mapError .simulation
  let mode ← ((lookup "SCRIPTMC_AAD").mapM AdjointMode.ofText).mapError .simulation
  return ⟨logLevel, threads, paths, seed.map Nat.toUInt64, batchSize, evaluator, width, mode⟩

def ofArguments (a : Arguments) : Except OptionsError Overrides := do
  let logLevel ← a.logLevel.mapM LogLevel.ofText
  let evaluator ← (a.evaluator.mapM EvaluatorKind.ofText).mapError .simulation
  let mode ← (a.mode.mapM AdjointMode.ofText).mapError .simulation
  return ⟨logLevel, a.threads, a.paths, a.seed, .none, evaluator, .none, mode⟩

end Overrides

namespace Options

/-- Options that simulations can be configured with. -/
def checked (o : Options) : Except OptionsError Options := o.config.map fun _ => o

/-- The options of the environment over the defaults. -/
def ofEnvironment (lookup : String → Option String) : Except OptionsError Options := do
  (default.override (← Overrides.ofEnvironment lookup)).checked

/-- The options of all sources. Those of a file must hold by themselves. -/
def resolve (file : Option File) (lookup : String → Option String) (arguments : Arguments) :
    Except OptionsError Options := do
  let base ← match file with
    | none => pure default
    | some file => (default.override (← Overrides.ofFile file)).checked
  let environment ← Overrides.ofEnvironment lookup
  ((base.override environment).override (← Overrides.ofArguments arguments)).checked

end Options

end PayoffPricing.App
