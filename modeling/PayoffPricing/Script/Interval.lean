import PayoffPricing.Script.Error
/-!
Closed intervals of the extended line, as far as ends can be told apart.
-/

namespace PayoffPricing.Script

structure Interval (R : Type) where
  left : Bound R
  right : Bound R

namespace Interval

variable {R : Type} [Scalar R]

/-- The interval between two ends, which must not cross. -/
def ofBounds (left right : Bound R) : Except (ScriptError R) (Interval R) :=
  let crossed := match left, right with
    | .plusInfinity, _ => true
    | _, .minusInfinity => true
    | _, _ => right.isBelow left
  if crossed then .error (.analysis (.crossedBounds left right)) else .ok ⟨left, right⟩

def singleton (v : R) : Interval R := ⟨.finite v, .finite v⟩

def realLine : Interval R := ⟨.minusInfinity, .plusInfinity⟩

def nonNegative : Interval R := ⟨.finite 0, .plusInfinity⟩

/-- One of the ends is infinite. -/
def isUnbounded (a : Interval R) : Bool := a.left.isInfinite || a.right.isInfinite

/-- All elements are positive. -/
def isPositive (strict : Bool) (a : Interval R) : Bool := a.left.isPositive strict

/-- All elements are negative. -/
def isNegative (strict : Bool) (a : Interval R) : Bool := a.right.isNegative strict

def isSingleton (a : Interval R) : Bool := !a.isUnbounded && a.left.isNear a.right

def isZero (a : Interval R) : Bool := a.isSingleton && a.left.isZero

/-- Contains a number, up to the tolerance of ends. -/
def includes (a : Interval R) (x : R) : Bool :=
  !(Bound.finite x).isBelow a.left && !a.right.isBelow (.finite x)

/-- Overlaps or touches another interval. -/
def intersects (a b : Interval R) : Bool := !(a.right.min b.right).isBelow (a.left.max b.left)

/-- The least interval around both. -/
def merge (a b : Interval R) : Interval R := ⟨a.left.min b.left, a.right.max b.right⟩

def min (a b : Interval R) : Interval R := ⟨a.left.min b.left, a.right.min b.right⟩

def max (a b : Interval R) : Interval R := ⟨a.left.max b.left, a.right.max b.right⟩

def neg (a : Interval R) : Interval R := ⟨a.right.neg, a.left.neg⟩

def add (a b : Interval R) : Interval R :=
  let left := match a.left, b.left with
    | .minusInfinity, _ => .minusInfinity
    | _, .minusInfinity => .minusInfinity
    | x, y => .finite (x.value + y.value)
  let right := match a.right, b.right with
    | .plusInfinity, _ => .plusInfinity
    | _, .plusInfinity => .plusInfinity
    | x, y => .finite (x.value + y.value)
  ⟨left, right⟩

def sub (a b : Interval R) : Interval R := a.add b.neg

/-- Spanned by the products of the ends. -/
def mul (a b : Interval R) : Interval R :=
  if a.isZero || b.isZero then singleton 0
  else
    let first := a.left.mul b.left
    let others := [a.left.mul b.right, a.right.mul b.left, a.right.mul b.right]
    ⟨others.foldl Bound.min first, others.foldl Bound.max first⟩

/-- The reciprocals of the elements; an interval around zero has no finite ones. -/
def inverse (a : Interval R) : Except (ScriptError R) (Interval R) :=
  if a.isZero then .error (.domain "/" 0)
  else if a.isSingleton then .ok (singleton (1 / a.left.value))
  else
    let positive := a.isPositive false
    if a.isPositive true || a.isNegative true then
      .ok (match a.isUnbounded, positive with
        | true, true => ⟨.finite 0, a.left.reciprocal⟩
        | true, false => ⟨a.right.reciprocal, .finite 0⟩
        | false, _ => ⟨a.right.reciprocal, a.left.reciprocal⟩)
    else if a.left.isZero || a.right.isZero then
      .ok (match a.isUnbounded, positive with
        | true, true => nonNegative
        | true, false => ⟨.minusInfinity, .finite 0⟩
        | false, true => ⟨a.right.reciprocal, .plusInfinity⟩
        | false, false => ⟨.minusInfinity, a.left.reciprocal⟩)
    else .ok realLine

def text (a : Interval Float) : String :=
  if a.isSingleton then "\x7b" ++ a.left.text ++ "\x7d"
  else "[" ++ a.left.text ++ ", " ++ a.right.text ++ "]"

end Interval

end PayoffPricing.Script
