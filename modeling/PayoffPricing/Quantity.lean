import PayoffPricing.Adjoint.Folded
/-!
What a payoff is computed with. Evaluators and models are written once over quantities: plain
scalars, whose arithmetic leaves no trace, or numbers, whose arithmetic is recorded on a tape.
-/

namespace PayoffPricing

/-- Values that stand for a scalar. -/
class Valued (R : outParam Type) (T : Type) where
  constant : R → T
  value : T → R

/-- Arithmetic on `T` that may write to a record of type `S`. -/
class Quantity (R : outParam Type) (S T : Type) extends Valued R T where
  add : T → T → StateM S T
  sub : T → T → StateM S T
  mul : T → T → StateM S T
  div : T → T → StateM S T
  neg : T → StateM S T
  addScalar : T → R → StateM S T
  subScalar : T → R → StateM S T
  mulScalar : T → R → StateM S T
  divScalar : T → R → StateM S T
  exp : T → StateM S T
  log : T → StateM S T
  sqrt : T → StateM S T
  abs : T → StateM S T
  pow : T → T → StateM S T
  /-- `x * exp (drift + deviation * z)`. -/
  lognormalStep : T → T → T → R → StateM S T

namespace Quantity

variable {R T : Type} [Scalar R] [Valued R T]

def zero : T := Valued.constant (R := R) 0

def one : T := Valued.constant (R := R) 1

/-- The larger of two quantities; the second one unless the first is above it. -/
def max (x y : T) : T := if Valued.value x > Valued.value (R := R) y then x else y

/-- The smaller of two quantities; the second one unless the first is below it. -/
def min (x y : T) : T := if Valued.value x < Valued.value (R := R) y then x else y

end Quantity

/-- Plain scalars: nothing is recorded. -/
instance {R : Type} [Scalar R] : Quantity R Unit R where
  constant x := x
  value x := x
  add x y := pure (x + y)
  sub x y := pure (x - y)
  mul x y := pure (x * y)
  div x y := pure (x / y)
  neg x := pure (-x)
  addScalar x c := pure (x + c)
  subScalar x c := pure (x - c)
  mulScalar x c := pure (x * c)
  divScalar x c := pure (x / c)
  exp x := pure (Scalar.exp x)
  log x := pure (Scalar.log x)
  sqrt x := pure (Scalar.sqrt x)
  abs x := pure (Scalar.abs x)
  pow x y := pure (Scalar.pow x y)
  lognormalStep x drift deviation z := pure (x * Scalar.exp (drift + deviation * z))

/-- Numbers: every operation on a recorded one is recorded. -/
instance {R : Type} [Scalar R] : Quantity R (Tape R) (Number R) where
  constant := Number.constant
  value := Number.value
  add := Number.add
  sub := Number.sub
  mul := Number.mul
  div := Number.div
  neg := Number.neg
  addScalar := Number.addScalar
  subScalar := Number.subScalar
  mulScalar := Number.mulScalar
  divScalar := Number.divScalar
  exp := Number.exp
  log := Number.log
  sqrt := Number.sqrt
  abs := Number.abs
  pow := Number.pow
  lognormalStep x drift deviation z := (Folded.lognormalStep x drift deviation z).record

end PayoffPricing
