import PayoffPricing.App.Command
import PayoffPricing.App.Invocation
/-!
The command line program: it reads files and the environment, runs a command and prints its lines.
-/

open PayoffPricing App

def usage : String :=
  "usage: payoff-pricing [-c FILE] [--log-level LEVEL] [--threads N] COMMAND\n" ++
  "  price -p FILE [--paths N] [--seed N] [--evaluator NAME] [--aad MODE] [-f FORMAT]\n" ++
  "  parse -p FILE\n" ++
  "  check"

/-- A file with its contents, if it can be read. -/
def readFile (path : String) : IO File := do
  let contents ← try some <$> IO.FS.readFile path catch _ => pure none
  return ⟨path, contents⟩

/-- The variables of the environment that options can be given by. -/
def readEnvironment : IO (String → Option String) := do
  let values ← Overrides.settingNames.mapM fun name => return (name, ← IO.getEnv name)
  return fun name => (values.lookup name).join

/-- Runs the command that a command line asks for. -/
def runInvocation (invocation : Invocation) : IO (Command (List String)) := do
  let configPath := invocation.configFile.or (← IO.getEnv "SCRIPTMC_CONFIG")
  let configFile ← configPath.mapM readFile
  let options := Options.resolve configFile (← readEnvironment) invocation.arguments
  match options with
  | .error e => return .error (.error (.options e))
  | .ok options => match invocation.action with
    | .parse product => return Command.parse (← readFile product)
    | .price product format => return Command.price (← readFile product) options format
    | .check => return Command.check options

def main (words : List String) : IO UInt32 := do
  match Invocation.ofWords? words with
  | none =>
    IO.eprintln usage
    return 2
  | some invocation => match ← runInvocation invocation with
    | .ok lines =>
      lines.forM fun line => IO.println line
      return 0
    | .error (.error e) =>
      IO.eprintln ("error: " ++ e.message)
      return 1
    | .error (.misuse cause) =>
      IO.eprintln ("error: " ++ cause.message.getD "an operation was misused")
      return 1
