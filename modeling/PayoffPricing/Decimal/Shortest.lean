import PayoffPricing.Binary64
/-!
The shortest decimal that reads back as a given double. A positive double stands for the interval
of numbers that round to it; the answer is the point of the coarsest decimal grid that meets this
interval, and of two such points the nearer one.
-/

namespace PayoffPricing

/-- `digits * 10 ^ exponent`. -/
structure Decimal where
  digits : Nat
  exponent : Int
deriving DecidableEq, Repr

/-- A positive rational number. -/
structure Ratio where
  num : Nat
  den : Nat

namespace Ratio

/-- `n * base ^ e`. -/
def scaled (n base : Nat) (e : Int) : Ratio :=
  if e < 0 then ⟨n, Nat.pow base e.natAbs⟩ else ⟨n * Nat.pow base e.natAbs, 1⟩

def le (a b : Ratio) : Bool := a.num * b.den ≤ b.num * a.den

def lt (a b : Ratio) : Bool := a.num * b.den < b.num * a.den

/-- The quotient `a / b`, rounded down. -/
def floorDiv (a b : Ratio) : Nat := a.num * b.den / (a.den * b.num)

/-- The distance of two ratios, as a numerator over `a.den * b.den`. -/
def gap (a b : Ratio) : Nat :=
  let x := a.num * b.den
  let y := b.num * a.den
  if x ≤ y then y - x else x - y

/-- The least `k` with `a < 10 ^ k`: the estimate from binary lengths is off by at most two. -/
def decimalExponent (a : Ratio) : Int :=
  let estimate := (Int.ofNat a.num.log2 - Int.ofNat a.den.log2) * 30103 / 100000
  let candidates := [-1, 0, 1, 2].map (estimate + ·)
  (candidates.find? fun k => a.lt (scaled 1 10 k)).getD (estimate + 3)

end Ratio

/-- Which of two decimals is taken when both are equally near. -/
inductive Tie where
  /-- The one whose last digit is even. -/
  | even
  /-- The larger one. -/
  | up
deriving DecidableEq, Repr

/-- The numbers that round to one double; the ends belong to it when `closed`. -/
structure RoundingRange where
  low : Ratio
  mid : Ratio
  high : Ratio
  closed : Bool

namespace RoundingRange

def contains (r : RoundingRange) (a : Ratio) : Bool :=
  if r.closed then r.low.le a && a.le r.high else r.low.lt a && a.lt r.high

/-- The range of the finite positive double with the given representation. -/
def ofBits (bits : Nat) : RoundingRange :=
  let field := bits / Binary64.fractions % Binary64.exponents
  let fraction := bits % Binary64.fractions
  let m := if field = 0 then fraction else Binary64.fractions + fraction
  let q : Int := (if field = 0 then 1 else Int.ofNat field) - 1075 - 2
  let below := if fraction = 0 && field > 1 then 1 else 2
  ⟨.scaled (4 * m - below) 2 q, .scaled (4 * m) 2 q, .scaled (4 * m + 2) 2 q, m % 2 == 0⟩

/-- The point of the grid `10 ^ e` that belongs to the range and is nearest to its middle. -/
def onGrid (r : RoundingRange) (tie : Tie) (e : Int) : Option Nat :=
  let d := r.mid.floorDiv (.scaled 1 10 e)
  let lower := Ratio.scaled d 10 e
  let upper := Ratio.scaled (d + 1) 10 e
  match r.contains lower, r.contains upper with
  | false, false => none
  | true, false => some d
  | false, true => some (d + 1)
  | true, true =>
    let below := lower.gap r.mid
    let above := upper.gap r.mid
    some (if below < above || (below == above && tie == .even && d % 2 == 0) then d else d + 1)

end RoundingRange

namespace Decimal

/-- Drops the trailing zeros of the digits. -/
def trim (digits : Nat) (exponent : Int) : Decimal :=
  if h : 0 < digits ∧ digits % 10 = 0 then trim (digits / 10) (exponent + 1)
  else ⟨digits, exponent⟩
termination_by digits
decreasing_by omega

/-- The shortest decimal of a range of doubles; seventeen digits always suffice. -/
def ofRange (tie : Tie) (r : RoundingRange) : Decimal :=
  let k := r.mid.decimalExponent
  let found := (List.range 18).findSome? fun n =>
    let e := k - Int.ofNat n
    (r.onGrid tie e).map fun d => trim d e
  found.getD ⟨0, 0⟩

def text (d : Decimal) : String := toString d.digits

/-- The number of digits. -/
def size (d : Decimal) : Nat := d.text.length

end Decimal

end PayoffPricing
