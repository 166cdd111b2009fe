import PayoffPricing.App.Options
/-!
Command lines. A command stands among options, each of which has a value.
-/

namespace PayoffPricing.App

/-- What is asked for. -/
inductive Action where
  | parse (product : String)
  | price (product : String) (format : Option String)
  | check

structure Invocation where
  configFile : Option String
  arguments : Arguments
  action : Action

namespace Invocation

/-- The long name of an option. -/
def longName (option : String) : String :=
  match option with
  | "-c" => "--config"
  | "-p" => "--product"
  | "-f" => "--format"
  | _ => option

/-- Options with their values, and the words between them. -/
def split : List String → Option (List (String × String) × List String)
  | [] => some ([], [])
  | word :: rest =>
    if word.startsWith "-" then
      match rest with
      | [] => none
      | value :: rest => (split rest).map fun (options, words) => ((longName word, value) :: options, words)
    else (split rest).map fun (options, words) => (options, word :: words)

/-- The options of every command, and the further ones of the command that prices. -/
def knownOptions (command : String) : List String :=
  ["--config", "--log-level", "--threads"] ++ (match command with
    | "price" => ["--product", "--paths", "--seed", "--evaluator", "--aad", "--format"]
    | "parse" => ["--product"]
    | _ => [])

/-- Reads a command line; nothing when it does not make sense. -/
def ofWords? (words : List String) : Option Invocation := do
  let (options, commands) ← split words
  let [command] := commands | none
  guard (options.all fun (name, _) => (knownOptions command).contains name)
  let number (name : String) : Option (Option Nat) :=
    (options.lookup name).mapM fun text => Numeral.natural? Word.limit text.toList
  let threads ← number "--threads"
  let paths ← number "--paths"
  let seed ← number "--seed"
  let arguments : Arguments := {
    logLevel := options.lookup "--log-level"
    threads, paths
    seed := seed.map Nat.toUInt64
    evaluator := options.lookup "--evaluator"
    mode := options.lookup "--aad"
  }
  let action ← match command, options.lookup "--product" with
    | "price", some product => some (Action.price product (options.lookup "--format"))
    | "parse", some product => some (Action.parse product)
    | "check", _ => some Action.check
    | _, _ => none
  return ⟨options.lookup "--config", arguments, action⟩

end Invocation

end PayoffPricing.App
