import PayoffPricing.Normal
import PayoffPricing.Adjoint.Tape
/-!
Differentiable numbers. A number knows its value and, when it depends on a recorded input, the node
that produced it. Each operation on such a number records one node; an operation on constants
records nothing.
-/

namespace PayoffPricing

/-- A value, and the node it comes from unless it is a constant. -/
structure Number (R : Type) where
  value : R
  node : Option Position

namespace Number

variable {R : Type} [Scalar R]

open Scalar

def constant (value : R) : Number R := ⟨value, none⟩

def isActive (x : Number R) : Bool := x.node.isSome

/-- A new recorded input. -/
def input (value : R) : StateM (Tape R) (Number R) := fun t =>
  let (id, t) := t.recordLeaf
  (⟨value, some id⟩, t)

/-- The result of an operation with weighted inputs: recorded unless all of them are constants. -/
def result (value : R) (inputs : List (Edge R)) : StateM (Tape R) (Number R) := fun t =>
  if inputs.any Edge.isActive then
    let (id, t) := t.record inputs
    (⟨value, some id⟩, t)
  else (constant value, t)

def unary (x : Number R) (value weight : R) : StateM (Tape R) (Number R) :=
  result value [⟨weight, x.node⟩]

def binary (x y : Number R) (value xWeight yWeight : R) : StateM (Tape R) (Number R) :=
  result value [⟨xWeight, x.node⟩, ⟨yWeight, y.node⟩]

def add (x y : Number R) : StateM (Tape R) (Number R) := binary x y (x.value + y.value) 1 1

def sub (x y : Number R) : StateM (Tape R) (Number R) := binary x y (x.value - y.value) 1 (-1)

def mul (x y : Number R) : StateM (Tape R) (Number R) :=
  binary x y (x.value * y.value) y.value x.value

def div (x y : Number R) : StateM (Tape R) (Number R) :=
  let inverse := 1 / y.value
  let v := x.value / y.value
  binary x y v inverse (-v * inverse)

def neg (x : Number R) : StateM (Tape R) (Number R) := unary x (-x.value) (-1)

def addScalar (x : Number R) (c : R) : StateM (Tape R) (Number R) := unary x (x.value + c) 1

def subScalar (x : Number R) (c : R) : StateM (Tape R) (Number R) := unary x (x.value - c) 1

def mulScalar (x : Number R) (c : R) : StateM (Tape R) (Number R) := unary x (x.value * c) c

def divScalar (x : Number R) (c : R) : StateM (Tape R) (Number R) := unary x (x.value / c) (1 / c)

/-- `c - x`. -/
def scalarSub (c : R) (x : Number R) : StateM (Tape R) (Number R) := unary x (c - x.value) (-1)

/-- `c / x`. -/
def scalarDiv (c : R) (x : Number R) : StateM (Tape R) (Number R) :=
  let v := c / x.value
  unary x v (-v / x.value)

def exp (x : Number R) : StateM (Tape R) (Number R) :=
  let v := Scalar.exp x.value
  unary x v v

def log (x : Number R) : StateM (Tape R) (Number R) := unary x (Scalar.log x.value) (1 / x.value)

def sqrt (x : Number R) : StateM (Tape R) (Number R) :=
  let v := Scalar.sqrt x.value
  unary x v (0.5 / v)

def abs (x : Number R) : StateM (Tape R) (Number R) :=
  unary x (Scalar.abs x.value) (Normal.absDerivative x.value)

def normalDensity (x : Number R) : StateM (Tape R) (Number R) :=
  let v := Normal.density x.value
  unary x v (-x.value * v)

def normalDistribution (x : Number R) : StateM (Tape R) (Number R) :=
  unary x (Normal.distribution x.value) (Normal.density x.value)

def erfc (x : Number R) : StateM (Tape R) (Number R) :=
  unary x (Normal.erfc x.value) (Normal.erfcDerivative x.value)

def pow (x y : Number R) : StateM (Tape R) (Number R) :=
  let v := Scalar.pow x.value y.value
  let (dx, dy) := Normal.powPartials x.value y.value v
  binary x y v dx dy

/-- A power with a constant exponent. -/
def powScalar (x : Number R) (c : R) : StateM (Tape R) (Number R) :=
  let v := Scalar.pow x.value c
  unary x v (Normal.powPartials x.value c v).1

/-- The first adjoint; constants have adjoint zero. -/
def adjoint (x : Number R) (t : Tape R) : Except Misuse R :=
  match x.node with
  | none => .ok 0
  | some id => match t.adjoint? id 0 with
    | some a => .ok a
    | none => .error .outOfRange

def setAdjoint (x : Number R) (value : R) (t : Tape R) : Except Misuse (Tape R) :=
  match x.node with
  | none => .ok t
  | some id => t.setAdjoint id value

/-- Seeds the number with one and propagates back to the first node. -/
def propagateToStart (x : Number R) (t : Tape R) : Except Misuse (Tape R) :=
  match x.node with
  | none => .ok t
  | some id => do (← t.setAdjoint id 1).propagateToStart id

/-- Seeds the number with one and propagates back to the checkpoint. -/
def propagateToMark (x : Number R) (t : Tape R) : Except Misuse (Tape R) :=
  match x.node with
  | none => .ok t
  | some id => do (← t.setAdjoint id 1).propagateToMark id

end Number

end PayoffPricing
