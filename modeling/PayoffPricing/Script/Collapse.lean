import PayoffPricing.Script.Slots
/-!
Removal of decided conditions. A conditional statement whose condition is decided becomes the
sequence of the statements of the branch that is always taken.
-/

namespace PayoffPricing.Script

variable {R : Type}

namespace Cond

/-- Puts the outcome in place of every decided part. -/
def collapse : Cond R → Cond R
  | literal b => literal b
  | compare (some b) _ => literal b
  | compare none c => compare none c
  | not (some b) _ => literal b
  | not none arg => not none arg.collapse
  | and (some b) _ _ => literal b
  | and none lhs rhs => and none lhs.collapse rhs.collapse
  | or (some b) _ _ => literal b
  | or none lhs rhs => or none lhs.collapse rhs.collapse

end Cond

namespace Statement

mutual

/-- The statement without decided conditions, and how many conditional statements went. -/
def collapse : Statement R → Statement R × Nat
  | assign v e => (assign v e, 0)
  | pays v e => (pays v e, 0)
  | branch c body otherwise affected =>
    match c.decided? with
    | some true =>
      let (body, removed) := collapseBlock body
      (sequence body, removed + 1)
    | some false =>
      let (otherwise, removed) := collapseBlock otherwise
      (sequence otherwise, removed + 1)
    | none =>
      let (body, m) := collapseBlock body
      let (otherwise, n) := collapseBlock otherwise
      (branch c.collapse body otherwise affected, m + n)
  | sequence body =>
    let (body, removed) := collapseBlock body
    (sequence body, removed)

def collapseBlock : List (Statement R) → List (Statement R) × Nat
  | [] => ([], 0)
  | s :: rest =>
    let (s, m) := s.collapse
    let (rest, n) := collapseBlock rest
    (s :: rest, m + n)

end

end Statement

/-- Events without decided conditions, and how many conditional statements went. -/
def collapse (events : List (Event R)) : List (Event R) × Nat :=
  let results := events.map Statement.collapseBlock
  (results.map (·.1), results.foldl (fun n r => n + r.2) 0)

end PayoffPricing.Script
