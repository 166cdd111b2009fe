import PayoffPricing.Script.Slots
/-!
What conditional statements may write, and how deeply they are nested.
-/

namespace PayoffPricing.Script

/-- Inserts a slot into a strictly increasing list of slots. -/
def insertSlot (n : Nat) : List Nat → List Nat
  | [] => [n]
  | m :: ms => if n < m then n :: m :: ms else if n = m then m :: ms else m :: insertSlot n ms

/-- The slots in increasing order, each once. -/
def slotSet (slots : List Nat) : List Nat := slots.foldr insertSlot []

namespace Statement

variable {R : Type}

mutual

/-- The slots that a statement writes on some path. -/
def writes : Statement R → List Nat
  | assign v _ => [v.slot]
  | pays v _ => [v.slot]
  | branch _ body otherwise _ => blockWrites body ++ blockWrites otherwise
  | sequence body => blockWrites body

def blockWrites : List (Statement R) → List Nat
  | [] => []
  | s :: rest => s.writes ++ blockWrites rest

end

mutual

/-- The greatest number of conditional statements around a statement. -/
def nesting : Statement R → Nat
  | assign _ _ => 0
  | pays _ _ => 0
  | branch _ body otherwise _ => max (blockNesting body) (blockNesting otherwise) + 1
  | sequence body => blockNesting body

def blockNesting : List (Statement R) → Nat
  | [] => 0
  | s :: rest => max s.nesting (blockNesting rest)

end

mutual

/-- Notes at every conditional statement which slots it may write. -/
def markAffected : Statement R → Statement R
  | assign v e => assign v e
  | pays v e => pays v e
  | branch c body otherwise _ =>
    branch c (markAffectedBlock body) (markAffectedBlock otherwise)
      (slotSet (blockWrites body ++ blockWrites otherwise))
  | sequence body => sequence (markAffectedBlock body)

def markAffectedBlock : List (Statement R) → List (Statement R)
  | [] => []
  | s :: rest => s.markAffected :: markAffectedBlock rest

end

end Statement

/-- Events with the effects of conditional statements, and the greatest nesting of those. -/
def markAffected {R : Type} (events : List (Event R)) : List (Event R) × Nat :=
  (events.map Statement.markAffectedBlock,
    (events.map Statement.blockNesting).foldl max 0)

end PayoffPricing.Script
