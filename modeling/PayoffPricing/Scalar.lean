import PayoffPricing.Binary64
/-!
The numbers that prices are made of. All numerical code of this library is written once over
`Scalar`: it runs on doubles, and it can be read over an exact field.
-/

namespace PayoffPricing

/-- Arithmetic, order and the elementary functions that pricing needs. -/
class Scalar (R : Type) extends Add R, Sub R, Mul R, Div R, Neg R, LT R, LE R, BEq R where
  /-- The decimal `m * 10 ^ e`, rounded once. -/
  ofDecimal : Nat → Int → R
  ofNat : Nat → R
  exp : R → R
  log : R → R
  sqrt : R → R
  pow : R → R → R
  abs : R → R
  isFinite : R → Bool
  /-- The least natural number that is not below the argument. -/
  ceilNat : R → Nat
  /-- Sameness of representation: finer than `==`, which identifies the two zeros. -/
  identical : R → R → Bool
  /-- A total order that agrees with `≤` wherever that decides. -/
  precedes : R → R → Bool
  decLt : ∀ a b : R, Decidable (a < b)
  decLe : ∀ a b : R, Decidable (a ≤ b)

namespace Scalar

variable {R : Type} [Scalar R]

instance : DecidableLT R := decLt

instance : DecidableLE R := decLe

instance (priority := 10) (n : Nat) : OfNat R n := ⟨ofNat n⟩

instance (priority := 10) : OfScientific R :=
  ⟨fun mantissa negative exponent =>
    ofDecimal mantissa (if negative then -Int.ofNat exponent else Int.ofNat exponent)⟩

/-- The larger of two numbers; the second one unless the first is above it. -/
def max (a b : R) : R := if a > b then a else b

/-- The smaller of two numbers; the second one unless the first is below it. -/
def min (a b : R) : R := if a < b then a else b

/-- Only an undefined number differs from itself. -/
def isUndefined (a : R) : Bool := !(a == a)

/-- The larger of two numbers, passing over undefined ones; the second one on a tie. -/
def maxDefined (a b : R) : R := if isUndefined a || b ≥ a then b else a

/-- The smaller of two numbers, passing over undefined ones; the second one on a tie. -/
def minDefined (a b : R) : R := if isUndefined a || b ≤ a then b else a

/-- The number that no comparison accepts. -/
def undefined : R := 0 / 0

end Scalar

/--
The double nearest to `m * 10 ^ e`. Decimals beyond the range of doubles are decided without
computing their powers of ten: `m ≥ 1` makes `e > 400` overflow, and `m < 2 ^ (k + 1)` makes
`e < -(400 + k)` vanish.
-/
def Double.ofDecimal (m : Nat) (e : Int) : Float :=
  if m = 0 then 0
  else if e > 400 then 1.0 / 0.0
  else if e < -(400 + Int.ofNat m.log2) then 0
  else Float.ofScientific m (e < 0) e.natAbs

/-- Signed position of a double's representation: negative numbers descend from `-1`. -/
def Double.rank (x : Float) : Int :=
  let bits := x.toBits.toNat
  if bits < Binary64.sign then Int.ofNat bits else Int.ofNat Binary64.sign - 1 - Int.ofNat bits

instance : Scalar Float where
  ofDecimal := Double.ofDecimal
  ofNat := Float.ofNat
  exp := Float.exp
  log := Float.log
  sqrt := Float.sqrt
  pow := Float.pow
  abs := Float.abs
  isFinite := Float.isFinite
  ceilNat x := x.ceil.toUInt64.toNat
  identical a b := a.toBits == b.toBits
  precedes a b := decide (Double.rank a ≤ Double.rank b)
  decLt := Float.decLt
  decLe := Float.decLe

end PayoffPricing
