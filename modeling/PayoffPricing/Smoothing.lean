import PayoffPricing.Fault
import PayoffPricing.Quantity
/-!
Ramps in place of jumps. Each function replaces an indicator by a piecewise linear one, so that a
condition has a derivative. The piece is chosen by the value of the argument, and only its formula
is recorded.
-/

namespace PayoffPricing.Smoothing

variable {R S T ε : Type} [Scalar R] [Quantity R S T]

open Quantity (zero one)

/-- A recorded operation, as a step of a computation that may stop. -/
def record {α : Type} (action : StateM S α) : ExceptT (Fault ε) (StateM S) α := ExceptT.lift action

def require (holds : Bool) (cause : Misuse) : ExceptT (Fault ε) (StateM S) Unit :=
  if holds then pure () else throw (.misuse cause)

/-- From zero to one while `x` crosses a window of the given width around zero. -/
def callSpread (x : T) (width : R) : ExceptT (Fault ε) (StateM S) T := do
  require (width > 0) .nonPositiveEpsilon
  let half := 0.5 * width
  let v := Valued.value x
  if v < -half then return zero
  else if v > half then return one
  else record do Quantity.divScalar (← Quantity.addScalar x half) width

/-- From zero to one while `x` crosses `[left, right]`. -/
def callSpreadOn (x : T) (left right : R) : ExceptT (Fault ε) (StateM S) T := do
  require (right > left) .emptyWindow
  let v := Valued.value x
  if v < left then return zero
  else if v > right then return one
  else record do Quantity.divScalar (← Quantity.subScalar x left) (right - left)

/-- One at zero, down to zero at the ends of a window of the given width around it. -/
def butterfly (x : T) (width : R) : ExceptT (Fault ε) (StateM S) T := do
  require (width > 0) .nonPositiveEpsilon
  let half := 0.5 * width
  if Scalar.abs (Valued.value (R := R) x) > half then return zero
  else record do
    let distance ← Quantity.abs x
    Quantity.divScalar (← Quantity.addScalar (← Quantity.neg distance) half) half

/-- One at zero, down to zero at `left ≤ 0` and at `right ≥ 0`. -/
def butterflyOn (x : T) (left right : R) : StateM S T := do
  let v := Valued.value x
  if v < left || v > right then return zero
  else if v < 0 then Quantity.addScalar (← Quantity.neg (← Quantity.divScalar x left)) 1
  else if v > 0 then Quantity.addScalar (← Quantity.neg (← Quantity.divScalar x right)) 1
  else return one

/-- From `below` to `above` while `x` crosses a window of the given width around zero. -/
def smoothStep (x above below : T) (width : R) : ExceptT (Fault ε) (StateM S) T := do
  require (width > 0) .nonPositiveEpsilon
  let half := 0.5 * width
  let v := Valued.value x
  if v < -half then return below
  else if v > half then return above
  else record do
    let rise ← Quantity.mulScalar (← Quantity.sub above below) (0.5 / half)
    Quantity.add below (← Quantity.mul rise (← Quantity.addScalar x half))

end PayoffPricing.Smoothing
