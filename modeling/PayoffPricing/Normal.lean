import PayoffPricing.Scalar
/-!
The normal curve and its area, the complementary error function, and the derivatives that
recording needs.
-/

namespace PayoffPricing.Normal

open Scalar

variable {R : Type} [Scalar R]

/-- Standard normal density. -/
def density (x : R) : R := 0.3989422804014327 * exp (-0.5 * x * x)

/-- The value of a polynomial, highest coefficient first. -/
def horner (z : R) : List R → R
  | [] => 0
  | c :: cs => cs.foldl (fun acc c => acc * z + c) c

def numerator : List R :=
  [3.52624965998911e-2, 0.700383064443688, 6.37396220353165, 33.912866078383, 112.079291497871,
    221.213596169931, 220.206867912376]

def denominator : List R :=
  [8.83883476483184e-2, 1.75566716318264, 16.064177579207, 86.7807322029461, 296.564248779674,
    637.333633378831, 793.826512519948, 440.413735824752]

/--
Area of the standard normal curve beyond `z ≥ 0`: a quotient of polynomials near the middle, a
continued fraction further out, and nothing beyond 37.
-/
def tail (z : R) : R :=
  if z > 37 then 0
  else
    let e := exp (-z * z / 2)
    if z < 7.07106781186547 then e * horner z numerator / horner z denominator
    else
      let b := z + 0.65
      let b := z + 4 / b
      let b := z + 3 / b
      let b := z + 2 / b
      let b := z + 1 / b
      e / b / 2.506628274631

/-- Standard normal distribution function. -/
def distribution (x : R) : R :=
  if x ≤ 0 then tail (abs x) else 1 - tail (abs x)

/-- Complementary error function, `2 N(-x √2)`. -/
def erfc (x : R) : R := 2 * distribution (-x * 1.4142135623730951)

def erfcDerivative (x : R) : R := -2 / sqrt 3.141592653589793 * exp (-x * x)

/-- Derivative of `|x|`; zero counts as negative. -/
def absDerivative (x : R) : R := if x > 0 then 1 else -1

/-- Partial derivatives of `v = x ^ y`. -/
def powPartials (x y v : R) : R × R :=
  (y * pow x (y - 1), if x > 0 then v * log x else 0)

end PayoffPricing.Normal
