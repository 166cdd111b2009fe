import PayoffPricing.Adjoint.Number
/-!
Formulas that are recorded as one node. A folded formula carries its derivatives down to its leaves
before anything is recorded, so the node has one edge per distinct recorded leaf.
-/

namespace PayoffPricing

/-- A function of one number, possibly with a scalar operand `c`. -/
inductive UnaryRule (R : Type) where
  | addScalar (c : R)
  | subScalar (c : R)
  | scalarSub (c : R)
  | mulScalar (c : R)
  | divScalar (c : R)
  | scalarDiv (c : R)
  | powScalar (c : R)
  | scalarPow (c : R)
  | neg
  | exp
  | log
  | sqrt
  | abs
  | normalDensity
  | normalDistribution
  | erfc

inductive BinaryRule where
  | add
  | sub
  | mul
  | div
  | pow
  | max
  | min
deriving DecidableEq

namespace UnaryRule

variable {R : Type} [Scalar R]

def apply : UnaryRule R → R → R
  | addScalar c, x => x + c
  | subScalar c, x => x - c
  | scalarSub c, x => c - x
  | mulScalar c, x => x * c
  | divScalar c, x => x / c
  | scalarDiv c, x => c / x
  | powScalar c, x => Scalar.pow x c
  | scalarPow c, x => Scalar.pow c x
  | neg, x => -x
  | exp, x => Scalar.exp x
  | log, x => Scalar.log x
  | sqrt, x => Scalar.sqrt x
  | abs, x => Scalar.abs x
  | normalDensity, x => Normal.density x
  | normalDistribution, x => Normal.distribution x
  | erfc, x => Normal.erfc x

/-- The derivative at `x`, given the value `v` there. -/
def derivative : UnaryRule R → (x v : R) → R
  | addScalar _, _, _ => 1
  | subScalar _, _, _ => 1
  | scalarSub _, _, _ => -1
  | mulScalar c, _, _ => c
  | divScalar c, _, _ => 1 / c
  | scalarDiv _, x, v => -v / x
  | powScalar c, x, _ => c * Scalar.pow x (c - 1)
  | scalarPow c, _, v => v * Scalar.log c
  | neg, _, _ => -1
  | exp, _, v => v
  | log, x, _ => 1 / x
  | sqrt, _, v => 0.5 / v
  | abs, x, _ => Normal.absDerivative x
  | normalDensity, x, v => -x * v
  | normalDistribution, x, _ => Normal.density x
  | erfc, x, _ => Normal.erfcDerivative x

end UnaryRule

namespace BinaryRule

variable {R : Type} [Scalar R]

def apply : BinaryRule → R → R → R
  | add, x, y => x + y
  | sub, x, y => x - y
  | mul, x, y => x * y
  | div, x, y => x / y
  | pow, x, y => Scalar.pow x y
  | max, x, y => Scalar.max x y
  | min, x, y => Scalar.min x y

/-- The partial derivatives at `x` and `y`, given the value `v` there. -/
def partials : BinaryRule → (x y v : R) → R × R
  | add, _, _, _ => (1, 1)
  | sub, _, _, _ => (1, -1)
  | mul, x, y, _ => (y, x)
  | div, _, y, v => (1 / y, -v / y)
  | pow, x, y, v => Normal.powPartials x y v
  | max, x, y, _ => if x > y then (1, 0) else (0, 1)
  | min, x, y, _ => if x < y then (1, 0) else (0, 1)

end BinaryRule

/-- A formula over numbers. -/
inductive Folded (R : Type) where
  | leaf (x : Number R)
  | unary (rule : UnaryRule R) (arg : Folded R)
  | binary (rule : BinaryRule) (lhs rhs : Folded R)

namespace Folded

variable {R : Type}

instance : Add (Folded R) := ⟨binary .add⟩

instance : Sub (Folded R) := ⟨binary .sub⟩

instance : Mul (Folded R) := ⟨binary .mul⟩

instance : Div (Folded R) := ⟨binary .div⟩

instance : Neg (Folded R) := ⟨unary .neg⟩

instance : HAdd (Folded R) R (Folded R) := ⟨fun x c => unary (.addScalar c) x⟩

instance : HSub (Folded R) R (Folded R) := ⟨fun x c => unary (.subScalar c) x⟩

instance : HSub R (Folded R) (Folded R) := ⟨fun c x => unary (.scalarSub c) x⟩

instance : HMul (Folded R) R (Folded R) := ⟨fun x c => unary (.mulScalar c) x⟩

instance : HDiv (Folded R) R (Folded R) := ⟨fun x c => unary (.divScalar c) x⟩

instance : HDiv R (Folded R) (Folded R) := ⟨fun c x => unary (.scalarDiv c) x⟩

def exp : Folded R → Folded R := unary .exp

def log : Folded R → Folded R := unary .log

def sqrt : Folded R → Folded R := unary .sqrt

def abs : Folded R → Folded R := unary .abs

def normalDensity : Folded R → Folded R := unary .normalDensity

def normalDistribution : Folded R → Folded R := unary .normalDistribution

def erfc : Folded R → Folded R := unary .erfc

def pow : Folded R → Folded R → Folded R := binary .pow

def max : Folded R → Folded R → Folded R := binary .max

def min : Folded R → Folded R → Folded R := binary .min

variable [Scalar R]

def value : Folded R → R
  | leaf x => x.value
  | unary rule arg => rule.apply arg.value
  | binary rule lhs rhs => rule.apply lhs.value rhs.value

/-- Some leaf is recorded. -/
def isActive : Folded R → Bool
  | leaf x => x.isActive
  | unary _ arg => arg.isActive
  | binary _ lhs rhs => lhs.isActive || rhs.isActive

/-- One edge per leaf, weighted by `adjoint` times the derivative of the formula by that leaf. -/
def edges (adjoint : R) : Folded R → List (Edge R)
  | leaf x => [⟨adjoint, x.node⟩]
  | unary rule arg => arg.edges (adjoint * rule.derivative arg.value (rule.apply arg.value))
  | binary rule lhs rhs =>
    let (dl, dr) := rule.partials lhs.value rhs.value (rule.apply lhs.value rhs.value)
    lhs.edges (adjoint * dl) ++ rhs.edges (adjoint * dr)

/-- Records the formula as one node, unless all its leaves are constants. -/
def record (e : Folded R) : StateM (Tape R) (Number R) := fun t =>
  if e.isActive then
    let (id, t) := t.recordFolded (e.edges 1)
    (⟨e.value, some id⟩, t)
  else (.constant e.value, t)

/-- `x * exp (drift + deviation * z)`. -/
def lognormalStep (x drift deviation : Number R) (z : R) : Folded R :=
  leaf x * (leaf drift + leaf deviation * z).exp

end Folded

end PayoffPricing
