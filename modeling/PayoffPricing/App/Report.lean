import PayoffPricing.Simulation.Run
/-!
Reports of prices, as a table and as a JSON document.
-/

namespace PayoffPricing.App

open Simulation

structure Report where
  price : Float
  stdError : Float
  confidence : Float
  paths : Nat
  batches : Nat
  workers : Nat
  evaluator : String
  mode : String
  /-- Sensitivities under the names of parameters. -/
  risks : List (String × Float)

/-- A text with blanks behind it, at least `width` characters long. -/
def padRight (width : Nat) (s : String) : String :=
  s ++ String.ofList (List.replicate (width - s.length) ' ')

/-- A text with blanks in front of it, at least `width` characters long. -/
def padLeft (width : Nat) (s : String) : String :=
  String.ofList (List.replicate (width - s.length) ' ') ++ s

namespace Report

def ofResult (r : Result Float) (model : Model Float Float) (config : Config Float) : Report where
  price := r.price
  stdError := r.stdError
  confidence := r.confidence
  paths := r.paths
  batches := r.batches
  workers := r.workers
  evaluator := config.evaluator.text
  mode := config.mode.text
  risks := r.sensitivities model

/-- A line across the table, with its corners and its crossing. -/
def rule (left middle right : Char) : String :=
  let line (n : Nat) := List.replicate n '─'
  String.ofList (left :: line 16 ++ middle :: line 18 ++ [right])

def row (label value : String) : String :=
  "│ " ++ padRight 14 label ++ " │ " ++ padLeft 16 value ++ " │"

/-- Numbers of the table have six places. -/
def numberRow (label : String) (x : Float) : String := row label (NumberStyle.fixed 6 x)

def table (r : Report) : List String :=
  let risks := r.risks.map fun (label, x) => numberRow ("d/d " ++ label) x
  [rule '┌' '┬' '┐', numberRow "Price" r.price, numberRow "Std error" r.stdError,
    numberRow "95% half-width" r.confidence, row "Paths" (toString r.paths),
    row "Workers" (toString r.workers), row "Evaluator" r.evaluator] ++
  (if risks.isEmpty then [] else rule '├' '┼' '┤' :: risks) ++ [rule '└' '┴' '┘']

/-- The lines of a JSON list or table, with a comma between its parts. -/
def nested (depth : Nat) (opening closing : String) (parts : List (List String)) : List String :=
  let separated := parts.zipIdx.map fun (lines, i) =>
    if i + 1 < parts.length then lines.dropLast ++ lines.getLast?.toList.map (· ++ ",") else lines
  let indent := String.ofList (List.replicate (2 * depth) ' ')
  opening :: separated.flatten ++ [indent ++ closing]

def risksJson (risks : List (String × Float)) : List String :=
  if risks.isEmpty then ["  \"risks\": []"]
  else nested 1 "  \"risks\": [" "]" (risks.map fun (label, x) =>
    nested 2 "    \x7b" "\x7d" [["      \"label\": \"" ++ label ++ "\""],
      ["      \"value\": " ++ NumberStyle.report.write x]])

def json (r : Report) : List String :=
  let field (name value : String) : List String := ["  \"" ++ name ++ "\": " ++ value]
  let quoted (s : String) : String := "\"" ++ s ++ "\""
  nested 0 "\x7b" "\x7d" [field "price" (NumberStyle.report.write r.price),
    field "std_error" (NumberStyle.report.write r.stdError),
    field "confidence_95" (NumberStyle.report.write r.confidence),
    field "paths" (toString r.paths), field "batches" (toString r.batches),
    field "workers" (toString r.workers), field "evaluator" (quoted r.evaluator),
    field "aad" (quoted r.mode), risksJson r.risks]

end Report

end PayoffPricing.App
