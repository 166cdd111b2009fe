import PayoffPricing.Smoothing
import PayoffPricing.Script.Evaluation
import PayoffPricing.Script.Statement
/-!
What operators, functions and comparisons of the language compute. Folding, both tree evaluators
and the stack machine use these rules and no others.
-/

namespace PayoffPricing.Script

namespace Intrinsic

variable {R S T : Type} [Scalar R] [Quantity R S T]

open Evaluation (fail record)

/-- The result of an operation, which must be finite; otherwise `argument` is reported. -/
def finiteOr (function : String) (argument : T) (result : T) : Evaluation R S T :=
  if Scalar.isFinite (Valued.value (R := R) result) then pure result
  else fail (.domain function (Valued.value argument))

/-- Quotients and powers must be finite. -/
def binary (op : Operator) (lhs rhs : T) : Evaluation R S T := do
  match op with
  | .add => record (Quantity.add lhs rhs)
  | .sub => record (Quantity.sub lhs rhs)
  | .mul => record (Quantity.mul lhs rhs)
  | .div => finiteOr "/" rhs (← record (Quantity.div lhs rhs))
  | .pow => finiteOr "^" lhs (← record (Quantity.pow lhs rhs))

/-- Logarithms are of positive numbers, square roots of non-negative ones. -/
def unary (function : Function) (x : T) : Evaluation R S T :=
  let v : R := Valued.value x
  match function with
  | .log => if v ≤ 0 then fail (.domain "LOG" v) else record (Quantity.log x)
  | .sqrt => if v < 0 then fail (.domain "SQRT" v) else record (Quantity.sqrt x)
  | .exp => record (Quantity.exp x)
  | f => fail (.arity f.name 1)

/-- A step from `below` to `above` at zero, smoothed over a window of positive width. -/
def smooth (x above below width : T) : Evaluation R S T :=
  let w : R := Valued.value width
  if w > 0 then Smoothing.smoothStep x above below w else fail (.domain "SMOOTH" w)

/-- The tolerance of comparisons that state none. -/
def defaultTolerance : R := 1e-12

/-- Whether `x` is in the relation to zero, up to a tolerance. -/
def holds (relation : Relation) (x tolerance : R) : Bool :=
  match relation with
  | .equal => decide (Scalar.abs x < tolerance)
  | .above => decide (x > tolerance)
  | .aboveOrEqual => decide (x > -tolerance)

/-- The function of two numbers that a minimum or a maximum of several repeats. -/
def pick {R T : Type} [Scalar R] [Valued R T] (function : Function) (x y : T) : T :=
  match function with
  | .max => Quantity.max x y
  | _ => Quantity.min x y

end Intrinsic

def Comparison.toleranceOrDefault {R : Type} [Scalar R] (c : Comparison R) : R :=
  c.tolerance.getD Intrinsic.defaultTolerance

end PayoffPricing.Script
