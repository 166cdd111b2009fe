import PayoffPricing.Script.Intrinsic
import PayoffPricing.Script.Slots
/-!
Exact evaluation of statements against the observations of one date. Values and outcomes that
analysis has noted are used instead of being computed again. Both sides of a conjunction or a
disjunction are evaluated.
-/

namespace PayoffPricing.Script

variable {R S T : Type} [Scalar R] [Quantity R S T]

namespace Expr

mutual

/-- The value of an expression. -/
def eval (values : Variables T) (sample : Sample T) : Expr R → Evaluation R S T
  | literal v => pure (Valued.constant v)
  | spot => pure sample.spot
  | read (some v) _ => pure (Valued.constant v)
  | read none x => values.fetch x.slot
  | neg (some v) _ => pure (Valued.constant v)
  | neg none arg => do
    let x ← arg.eval values sample
    Evaluation.record (Quantity.neg x)
  | plus (some v) _ => pure (Valued.constant v)
  | plus none arg => arg.eval values sample
  | binary (some v) _ _ _ => pure (Valued.constant v)
  | binary none op lhs rhs => do
    let x ← lhs.eval values sample
    let y ← rhs.eval values sample
    Intrinsic.binary op x y
  | call (some v) _ _ => pure (Valued.constant v)
  | call none f args =>
    match f, args with
    | .log, [x] => do Intrinsic.unary .log (← x.eval values sample)
    | .sqrt, [x] => do Intrinsic.unary .sqrt (← x.eval values sample)
    | .exp, [x] => do Intrinsic.unary .exp (← x.eval values sample)
    | .min, x :: rest => do
      let first ← x.eval values sample
      return (← evalList values sample rest).foldl (Intrinsic.pick .min) first
    | .max, x :: rest => do
      let first ← x.eval values sample
      return (← evalList values sample rest).foldl (Intrinsic.pick .max) first
    | .smooth, [x, above, below, width] => do
      let x ← x.eval values sample
      let above ← above.eval values sample
      let below ← below.eval values sample
      Intrinsic.smooth x above below (← width.eval values sample)
    | f, args => Evaluation.fail (.arity f.name args.length)

def evalList (values : Variables T) (sample : Sample T) :
    List (Expr R) → Evaluation R S (List T)
  | [] => pure []
  | e :: es => do
    let x ← e.eval values sample
    return x :: (← evalList values sample es)

end

end Expr

namespace Cond

/-- The outcome of a condition. -/
def eval (values : Variables T) (sample : Sample T) : Cond R → Evaluation R S Bool
  | literal b => pure b
  | compare (some b) _ => pure b
  | compare none c => do
    let x ← c.arg.eval values sample
    return Intrinsic.holds c.relation (Valued.value x) c.toleranceOrDefault
  | not (some b) _ => pure b
  | not none arg => return !(← arg.eval values sample)
  | and (some b) _ _ => pure b
  | and none lhs rhs => do
    let a ← lhs.eval values sample
    let b ← rhs.eval values sample
    return a && b
  | or (some b) _ _ => pure b
  | or none lhs rhs => do
    let a ← lhs.eval values sample
    let b ← rhs.eval values sample
    return a || b

end Cond

namespace Statement

mutual

/-- Runs a statement on the table of variables. -/
def run (sample : Sample T) : Statement R → Process R S (Variables T) Unit
  | assign v e => do
    let values ← get
    let x ← Process.ofEvaluation (e.eval values sample)
    set (← Process.ofEvaluation (values.store (R := R) (S := S) v.slot x))
  | pays v e => do
    let values ← get
    let paid ← Process.ofEvaluation (e.eval values sample)
    set (← Process.ofEvaluation (values.pay v.slot paid sample.numeraire))
  | branch c body otherwise _ => do
    if ← Process.ofEvaluation (c.eval (← get) sample) then runBlock sample body
    else runBlock sample otherwise
  | sequence body => runBlock sample body

def runBlock (sample : Sample T) : List (Statement R) → Process R S (Variables T) Unit
  | [] => pure ()
  | s :: rest => do
    s.run sample
    runBlock sample rest

end

end Statement

end PayoffPricing.Script
