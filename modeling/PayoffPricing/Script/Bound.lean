import PayoffPricing.Scalar
import PayoffPricing.Decimal.Format
/-!
Ends of intervals on the extended line. Comparisons of ends allow for a tolerance, and infinite
ends stand for a large number where a number is needed.
-/

namespace PayoffPricing.Script

inductive Bound (R : Type) where
  | minusInfinity
  | finite (value : R)
  | plusInfinity

namespace Bound

def text : Bound Float → String
  | minusInfinity => "-inf"
  | finite v => numberText v
  | plusInfinity => "+inf"

section

variable {R : Type} [Scalar R]

/-- The number that stands for an infinite end. -/
def large : R := 1e12

/-- Ends closer than this are not told apart. -/
def tolerance : R := 1e-12

def value : Bound R → R
  | minusInfinity => -large
  | finite v => v
  | plusInfinity => large

def isInfinite : Bound R → Bool
  | finite _ => false
  | _ => true

/-- Above zero: by more than the tolerance when strict, not below by it otherwise. -/
def isPositive (strict : Bool) : Bound R → Bool
  | plusInfinity => true
  | minusInfinity => false
  | finite v => decide (v > if strict then tolerance else -tolerance)

/-- Below zero: by more than the tolerance when strict, not above by it otherwise. -/
def isNegative (strict : Bool) : Bound R → Bool
  | minusInfinity => true
  | plusInfinity => false
  | finite v => decide (v < if strict then -tolerance else tolerance)

def isZero : Bound R → Bool
  | finite v => decide (Scalar.abs v < tolerance)
  | _ => false

/-- Smaller by more than the tolerance. -/
def isBelow : Bound R → Bound R → Bool
  | minusInfinity, minusInfinity => false
  | minusInfinity, _ => true
  | _, minusInfinity => false
  | plusInfinity, _ => false
  | _, plusInfinity => true
  | finite a, finite b => decide (a < b - tolerance)

/-- Equal up to the tolerance. -/
def isNear : Bound R → Bound R → Bool
  | plusInfinity, plusInfinity => true
  | minusInfinity, minusInfinity => true
  | finite a, finite b => decide (Scalar.abs (a - b) < tolerance)
  | _, _ => false

/-- The smaller end; the first one when they cannot be told apart. -/
def min (a b : Bound R) : Bound R := if b.isBelow a then b else a

/-- The larger end; the first one when they cannot be told apart. -/
def max (a b : Bound R) : Bound R := if a.isBelow b then b else a

def reciprocal (a : Bound R) : Bound R := finite (1 / a.value)

def neg : Bound R → Bound R
  | minusInfinity => plusInfinity
  | finite v => finite (-v)
  | plusInfinity => minusInfinity

/-- Signs decide a product with an infinite factor; a zero factor gives the other one. -/
def mul (a b : Bound R) : Bound R :=
  match a, b with
  | finite x, finite y => finite (x * y)
  | _, _ =>
    if (a.isPositive true && b.isPositive true) || (a.isNegative true && b.isNegative true) then
      plusInfinity
    else if a.isZero then b
    else if b.isZero then a
    else minusInfinity

end

end Bound

end PayoffPricing.Script
