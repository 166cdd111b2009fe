import PayoffPricing.App.Options
import PayoffPricing.App.ProductFile
import PayoffPricing.App.Report
/-!
The commands of the application. Each of them answers with the lines to print.
-/

namespace PayoffPricing.App

open PayoffPricing.Random Simulation

/-- How prices are reported. -/
inductive Format where
  | table
  | json
deriving DecidableEq, Repr

namespace Format

/-- Reads a format in any case of its letters. -/
def ofText (s : String) : Except AppError Format :=
  match Text.lowercase s with
  | "table" => .ok table
  | "json" => .ok json
  | other => .error (.argument (.unknownFormat other))

end Format

/-- A computation of the application. -/
abbrev Command := Except (Fault AppError)

namespace Command

/-- A step that fails with an error only. -/
def lift {α : Type} (x : Except AppError α) : Command α := x.mapError .error

/-- Variables, statements and the sizes of the compiled events of a product file. -/
def parse (file : File) : Command (List String) := do
  let p ← (← lift (ProductFile.ofFile file)).build true
  let named := p.names.toList.zipIdx.map fun (name, i) =>
    s!"  [{i}] {name}" ++ (if i = p.payoff then " (payoff)" else "")
  let programs := p.programs.zipIdx.map fun (c, i) =>
    s!"  event {i}: {c.code.size} words, {c.constants.size} constants, " ++
      s!"stack {c.height}/{c.outcomeHeight}"
  return "VARIABLES" :: named ++ [s!"MAX NESTED IFS {p.nesting}", ""] ++ p.lines ++
    "" :: "COMPILED" :: programs

/-- The price of a product file, in a format; a table when none is named. -/
def price (file : File) (options : Options) (format : Option String) : Command (List String) := do
  let format ← lift (format.elim (.ok .table) Format.ofText)
  let file ← lift (ProductFile.ofFile file)
  let product ← file.build (options.evaluator == .fuzzy)
  let model ← lift file.model.build
  let config ← lift (options.config.mapError .options)
  let result ← (simulate product model (SeededStream.ofSeed config.seed) config).mapError
    (·.map .simulation)
  let report := Report.ofResult result model config
  return match format with
    | .table => report.table
    | .json => report.json

/-- Numbers in listings of options are below this. -/
def listedLimit : Nat := 1 <<< 63

/-- Resolved options, as a configuration file would give them. -/
def listing (o : Options) : Except AppError (List String) :=
  let field (name value : String) : String := name ++ " = " ++ value
  let quoted (s : String) : String := "\"" ++ s ++ "\""
  if o.seed.toNat < listedLimit ∧ o.threads.all (· < listedLimit) then
    .ok ([field "log_level" (quoted o.logLevel.text)] ++
      o.threads.toList.map (fun n => field "threads" (toString n)) ++
      ["", "[simulation]", field "paths" (toString o.paths), field "seed" (toString o.seed),
        field "batch_size" (toString o.batchSize), field "evaluator" (quoted o.evaluator.text),
        field "fuzzy_epsilon" (NumberStyle.setting.write o.width), field "aad" (quoted o.mode.text)])
  else .error .unlistable

/-- The version, the size of simulations where the options decide it, and the resolved options. -/
def check (o : Options) : Command (List String) := do
  let listed ← lift (listing o)
  let config ← lift (o.config.mapError .options)
  let workers := config.effectiveThreads
  let sizes := if o.threads.isNone then [] else
    [s!"workers:        {workers}", s!"batch size:     {config.effectiveBatchSize workers}"]
  return "scriptmc 0.1.0" :: sizes ++ ["", "# resolved configuration"] ++ listed

end Command

end PayoffPricing.App
