import PayoffPricing.Script.Statement
/-!
Slots of variables. Names are numbered in the order in which they are first met, across all events
of a product.
-/

namespace PayoffPricing.Script

abbrev Event (R : Type) := List (Statement R)

/-- The slot of a name in a table that grows when the name is new. -/
def slotOf (name : String) : StateM (Array String) Nat := fun names =>
  match names.idxOf? name with
  | some slot => (slot, names)
  | none => (names.size, names.push name)

variable {R : Type}

def Variable.assignSlot (v : Variable) : StateM (Array String) Variable := do
  return { v with slot := ← slotOf v.name }

namespace Expr

mutual

def assignSlots : Expr R → StateM (Array String) (Expr R)
  | literal v => return literal v
  | spot => return spot
  | read known v => return read known (← v.assignSlot)
  | neg known arg => return neg known (← arg.assignSlots)
  | plus known arg => return plus known (← arg.assignSlots)
  | binary known op lhs rhs => do
    let lhs ← lhs.assignSlots
    return binary known op lhs (← rhs.assignSlots)
  | call known f args => return call known f (← assignSlotsList args)

def assignSlotsList : List (Expr R) → StateM (Array String) (List (Expr R))
  | [] => return []
  | e :: es => do
    let e ← e.assignSlots
    return e :: (← assignSlotsList es)

end

end Expr

namespace Cond

def assignSlots : Cond R → StateM (Array String) (Cond R)
  | literal b => return literal b
  | compare decided c => return compare decided { c with arg := ← c.arg.assignSlots }
  | not decided arg => return not decided (← arg.assignSlots)
  | and decided lhs rhs => do
    let lhs ← lhs.assignSlots
    return and decided lhs (← rhs.assignSlots)
  | or decided lhs rhs => do
    let lhs ← lhs.assignSlots
    return or decided lhs (← rhs.assignSlots)

end Cond

namespace Statement

mutual

def assignSlots : Statement R → StateM (Array String) (Statement R)
  | assign v e => do
    let v ← v.assignSlot
    return assign v (← e.assignSlots)
  | pays v e => do
    let v ← v.assignSlot
    return pays v (← e.assignSlots)
  | branch c body otherwise affected => do
    let c ← c.assignSlots
    let body ← assignSlotsBlock body
    return branch c body (← assignSlotsBlock otherwise) affected
  | sequence body => return sequence (← assignSlotsBlock body)

def assignSlotsBlock : List (Statement R) → StateM (Array String) (List (Statement R))
  | [] => return []
  | s :: rest => do
    let s ← s.assignSlots
    return s :: (← assignSlotsBlock rest)

end

end Statement

/-- Events with slots for all variables, and the names of the variables by slot. -/
def assignSlots (events : List (Event R)) : List (Event R) × Array String :=
  (events.mapM Statement.assignSlotsBlock).run #[]

end PayoffPricing.Script
