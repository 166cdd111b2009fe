import PayoffPricing.Scalar
/-!
Values of configuration documents, and how they are read as the values of a program. A record is
written as a table of its parts, or as a list of them in order. A date or a time of day counts as a
table too, with its text as the only entry.
-/

namespace PayoffPricing.Toml

inductive Value where
  | text (s : String)
  | whole (n : Int)
  | real (x : Float)
  | truth (b : Bool)
  /-- A date or a time of day, as it is written. -/
  | moment (s : String)
  | list (items : List Value)
  | table (entries : List (String × Value))

namespace Value

def text? : Value → Option String
  | text s => some s
  | _ => none

def nat? : Value → Option Nat
  | whole n => if 0 ≤ n then some n.toNat else none
  | _ => none

/-- Whole numbers are read as reals too. -/
def real? : Value → Option Float
  | real x => some x
  | whole n =>
    let size := Double.ofDecimal n.natAbs 0
    some (if n < 0 then -size else size)
  | _ => none

/-- The items of a list, each of which must be readable. -/
def list? {α : Type} (read : Value → Option α) : Value → Option (List α)
  | list items => items.mapM read
  | _ => none

/-- The name of the only entry of a moment. -/
def momentName : String := "$moment"

/-- The entries of what counts as a table. -/
def fields? : Value → Option (List (String × Value))
  | table entries => some entries
  | moment s => some [(momentName, text s)]
  | _ => none

/-- The entries of a table, each of which must be readable. -/
def entries? {α : Type} (read : Value → Option α) (v : Value) : Option (List (String × α)) := do
  (← v.fields?).mapM fun (name, v) => (read v).map (name, ·)

def isEmpty : Value → Bool
  | list items => items.isEmpty
  | table entries => entries.isEmpty
  | _ => false

/-- A choice is its name, or the only name in a table, with nothing under it. -/
def choice? : Value → Option String
  | text s => some s
  | table [(name, v)] => if v.isEmpty then some name else none
  | _ => none

/-- A part of a record, under its name or at its place. -/
def part? (v : Value) (name : String) (place : Nat) : Option Value :=
  match v with
  | list items => items[place]?
  | _ => do (← v.fields?).lookup name

def isRecord : Value → Bool
  | list _ => true
  | v => v.fields?.isSome

/-- A part that a record must have. -/
def required {α : Type} (v : Value) (name : String) (place : Nat) (read : Value → Option α) : Option α :=
  (v.part? name place).bind read

/-- A part that a record may leave out. -/
def optional {α : Type} (v : Value) (name : String) (place : Nat) (read : Value → Option α) :
    Option (Option α) :=
  match v.part? name place with
  | some part => (read part).map some
  | none => if v.isRecord then some none else none

end Value

end PayoffPricing.Toml
