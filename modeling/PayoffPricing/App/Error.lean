import PayoffPricing.Simulation.Worker
/-!
What the application tells its user when it cannot do what it was asked for.
-/

namespace PayoffPricing.App

open Script Simulation

/-- What can be wrong with options, wherever they were given. -/
inductive OptionsError where
  | logLevel (text : String)
  | environment (name text : String)
  | missingFile (path : String)
  | malformedFile
  | simulation (cause : ConfigError Float)

/-- What can be wrong with an argument or with a product file. -/
inductive ArgumentCause where
  | unknownFormat (text : String)
  | malformedProduct
  | raggedSurface (values times : Nat)
  | ambiguousModel

inductive AppError where
  | missingFile (path : String)
  | argument (cause : ArgumentCause)
  | options (cause : OptionsError)
  | script (cause : ScriptError Float)
  | simulation (cause : SimulationError Float)
  /-- A number that the listing of options has no form for. -/
  | unlistable

namespace OptionsError

def message : OptionsError → String
  | logLevel text => s!"Invalid log level: {text}. Must be one of: trace, debug, info, warn, error"
  | environment name text => s!"Invalid value for {name}: {text}"
  | missingFile path =>
    s!"Configuration file error: Failed to read {path}: No such file or directory (os error 2)"
  | malformedFile => "Configuration file error: Failed to parse TOML: "
  | simulation cause => cause.message

end OptionsError

namespace ArgumentCause

def message : ArgumentCause → String
  | unknownFormat text => s!"Unknown format: {text}. Supported: table, json"
  | malformedProduct => "invalid product file: "
  | raggedSurface values times => s!"local_vol row has {values} values for {times} times"
  | ambiguousModel => "model needs exactly one of vol and local_vol"

end ArgumentCause

namespace AppError

def message : AppError → String
  | missingFile path => "File not found: " ++ path
  | argument cause => "Invalid argument: " ++ cause.message
  | options cause => "Configuration error: " ++ cause.message
  | script cause => "Script error: " ++ cause.message
  | simulation cause => "Simulation error: " ++ cause.message
  | unlistable => "I/O error: out-of-range value for u64 type"

end AppError

/-- A file that was asked for; without contents when there is none. -/
structure File where
  path : String
  contents : Option String

end PayoffPricing.App
