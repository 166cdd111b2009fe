import PayoffPricing.Script.Exact
/-!
Smoothed evaluation: conditions hold to a degree between zero and one. A conditional statement that
holds to a degree strictly between runs both branches from the same values and blends what they
wrote. The values before and after the first branch are kept apart for every level of nesting.
-/

namespace PayoffPricing.Script

namespace Fuzzy

variable {R S T : Type} [Scalar R] [Quantity R S T]

/-- The values that a conditional statement has set aside. -/
structure Scratch (T : Type) where
  before : List T
  after : List T

/-- The variables, the values set aside at each level of nesting, and the current level. -/
structure State (T : Type) where
  values : Variables T
  levels : Array (Scratch T)
  depth : Nat

/-- Degrees closer than this to zero or one count as crisp. -/
def cutoff : R := 2e-14

/-- The degree to which a comparison holds; `width` is used where no other window is known. -/
def degreeOfComparison (width : R) (values : Variables T) (sample : Sample T)
    (c : Comparison R) : Evaluation R S T := do
  let x ← c.arg.eval values sample
  let isWindow := c.discrete && decide (c.left < c.right)
  let width := match c.tolerance with
    | some t => if t > 0 then t else width
    | none => width
  match c.relation with
  | .equal =>
    if isWindow && decide (c.left ≤ 0) && decide (c.right ≥ 0) then
      Evaluation.record (Smoothing.butterflyOn x c.left c.right)
    else Smoothing.butterfly x width
  | _ => if isWindow then Smoothing.callSpreadOn x c.left c.right else Smoothing.callSpread x width

/-- The degree of a known outcome. -/
def crisp {R T : Type} [Scalar R] [Valued R T] (b : Bool) : T :=
  if b then Quantity.one else Quantity.zero

/-- The degree to which a condition holds. -/
def degree (width : R) (values : Variables T) (sample : Sample T) :
    Cond R → Evaluation R S T
  | .literal b => pure (crisp b)
  | .compare (some b) _ => pure (crisp b)
  | .compare none c => degreeOfComparison width values sample c
  | .not (some b) _ => pure (crisp b)
  | .not none arg => do
    let d ← degree width values sample arg
    Evaluation.record (Quantity.sub Quantity.one d)
  | .and (some b) _ _ => pure (crisp b)
  | .and none lhs rhs => do
    let a ← degree width values sample lhs
    let b ← degree width values sample rhs
    Evaluation.record (Quantity.mul a b)
  | .or (some b) _ _ => pure (crisp b)
  | .or none lhs rhs => do
    let a ← degree width values sample lhs
    let b ← degree width values sample rhs
    Evaluation.record do
      let sum ← Quantity.add a b
      Quantity.sub sum (← Quantity.mul a b)

/-- Enters the next level of nesting, with nothing set aside there. -/
def enter : Process R S (State T) Nat := do
  let s ← get
  let levels := s.levels ++ Array.replicate (s.depth + 1 - s.levels.size) ⟨[], []⟩
  set { s with levels := levels.setIfInBounds s.depth ⟨[], []⟩, depth := s.depth + 1 }
  return s.depth

/-- Leaves a level of nesting, where two lists of values have been set aside. -/
def leave (level : Nat) (before after : List T) : Process R S (State T) Unit :=
  modify fun s =>
    { s with levels := s.levels.setIfInBounds level ⟨before, after⟩, depth := s.depth - 1 }

/-- A step on the variables alone. -/
def onVariables (step : Variables T → Evaluation R S (Variables T)) :
    Process R S (State T) Unit := do
  let s ← get
  let values ← Process.ofEvaluation (step s.values)
  set { s with values := values }

/-- Mixes the values `after` of the first branch, to the degree `d`, with those of the second. -/
def blend (d : T) (affected : List Nat) (after : List T) (values : Variables T) :
    Evaluation R S (Variables T) := do
  let rest ← Evaluation.record (Quantity.sub Quantity.one d)
  (affected.zip after).foldlM (fun values (slot, x) => do
    let first ← Evaluation.record (Quantity.mul d x)
    let second ← Evaluation.record (Quantity.mul rest (← values.fetch slot))
    values.store slot (← Evaluation.record (Quantity.add first second))) values

mutual

/-- Runs a statement; comparisons are smoothed over windows of the given width. -/
def run (width : R) (sample : Sample T) : Statement R → Process R S (State T) Unit
  | .assign v e => onVariables fun values => do
    let x ← e.eval values sample
    values.store v.slot x
  | .pays v e => onVariables fun values => do
    let paid ← e.eval values sample
    values.pay v.slot paid sample.numeraire
  | .branch c body otherwise affected => do
    let d ← Process.ofEvaluation (degree width (← get).values sample c)
    let v : R := Valued.value d
    if v > 1 - cutoff then runBlock width sample body
    else if v < cutoff then runBlock width sample otherwise
    else do
      let level ← enter
      let before ← Process.ofEvaluation ((← get).values.fetchAll (R := R) (S := S) affected)
      runBlock width sample body
      let after ← Process.ofEvaluation ((← get).values.fetchAll (R := R) (S := S) affected)
      onVariables fun values => values.storeAll (affected.zip before)
      runBlock width sample otherwise
      onVariables (blend d affected after)
      leave level before after
  | .sequence body => runBlock width sample body

def runBlock (width : R) (sample : Sample T) : List (Statement R) → Process R S (State T) Unit
  | [] => pure ()
  | s :: rest => do
    run width sample s
    runBlock width sample rest

end

end Fuzzy

end PayoffPricing.Script
