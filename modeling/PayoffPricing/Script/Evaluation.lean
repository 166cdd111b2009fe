import PayoffPricing.Quantity
import PayoffPricing.Script.Error
/-!
Evaluations of expressions, which may record operations and may stop, and processes, which also
change a state. What a process has changed stays changed when it stops.
-/

namespace PayoffPricing.Script

abbrev Evaluation (R S : Type) := ExceptT (Fault (ScriptError R)) (StateM S)

abbrev Process (R S V : Type) := ExceptT (Fault (ScriptError R)) (StateT V (StateM S))

namespace Evaluation

variable {R S α : Type}

def fail (e : ScriptError R) : Evaluation R S α := throw (.error e)

/-- A recorded operation. -/
def record (action : StateM S α) : Evaluation R S α := ExceptT.lift action

/-- The result of an evaluation that records nothing. -/
def plain (action : Evaluation R Unit α) : Except (Fault (ScriptError R)) α := (action.run ()).1

end Evaluation

namespace Process

variable {R S V α : Type}

/-- An evaluation, as a step of a process that keeps its state. -/
def ofEvaluation (action : Evaluation R S α) : Process R S V α :=
  ExceptT.mk fun v => do
    let result ← action.run
    return (result, v)

/-- A process on the part of a state that `get` reads and `set` writes. -/
def focus {W : Type} (get : W → V) (set : V → W → W) (action : Process R S V α) :
    Process R S W α :=
  ExceptT.mk fun w => do
    let (result, v) ← action.run (get w)
    return (result, set v w)

end Process

/-- The values of the variables by slot. -/
abbrev Variables (T : Type) := Array T

namespace Variables

variable {R S T : Type}

/-- The value of a slot, which must be in the table. -/
def fetch (values : Variables T) (slot : Nat) : Evaluation R S T :=
  match values[slot]? with
  | some x => pure x
  | none => throw (.misuse .outOfRange)

/-- The table with a new value in a slot. -/
def store (values : Variables T) (slot : Nat) (x : T) : Evaluation R S (Variables T) :=
  if slot < values.size then pure (values.setIfInBounds slot x)
  else throw (.misuse .outOfRange)

/-- The table with `paid`, in units of the numeraire, added to a slot. -/
def pay [Scalar R] [Quantity R S T] (values : Variables T) (slot : Nat) (paid numeraire : T) :
    Evaluation R S (Variables T) := do
  let old ← values.fetch slot
  let payment ← Evaluation.record (Quantity.div paid numeraire)
  values.store slot (← Evaluation.record (Quantity.add old payment))

/-- The values of several slots. -/
def fetchAll (values : Variables T) (slots : List Nat) : Evaluation R S (List T) :=
  slots.mapM values.fetch

/-- The table with new values in several slots. -/
def storeAll (values : Variables T) (entries : List (Nat × T)) : Evaluation R S (Variables T) :=
  entries.foldlM (fun values (slot, x) => values.store slot x) values

end Variables

end PayoffPricing.Script
