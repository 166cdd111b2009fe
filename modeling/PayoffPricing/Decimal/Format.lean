import PayoffPricing.Decimal.Shortest
/-!
How numbers are written. Messages and listings write every double positionally; reports switch to
an exponent for very large and very small numbers; tables have a fixed number of places.
-/

namespace PayoffPricing.Decimal

def zeros (n : Nat) : String := String.ofList (List.replicate n '0')

/-- Digits with a point before the last `places` of them. -/
def pointed (digits : String) (places : Nat) : String :=
  let cs := digits.toList
  let cs := List.replicate (places + 1 - cs.length) '0' ++ cs
  let whole := String.ofList (cs.take (cs.length - places))
  if places = 0 then whole else whole ++ "." ++ String.ofList (cs.drop (cs.length - places))

/-- All digits, without an exponent and without a point after whole numbers. -/
def positional (d : Decimal) : String :=
  if d.exponent < 0 then pointed d.text d.exponent.natAbs else d.text ++ zeros d.exponent.natAbs

/--
One digit before the point and the power of ten after the letter `e`; `plus` stands in front of
powers that are not negative.
-/
def scientific (plus : String) (d : Decimal) : String :=
  let e := d.exponent + Int.ofNat (d.size - 1)
  pointed d.text (d.size - 1) ++ "e" ++ (if e < 0 then "" else plus) ++ toString e

/-- Positional with a fraction from `1e-5` up to below `1e16`, scientific elsewhere. -/
def balanced (d : Decimal) : String :=
  let k := d.exponent + Int.ofNat d.size
  if 0 ≤ d.exponent && k ≤ 16 then d.positional ++ ".0"
  else if -5 < k && k ≤ 16 then d.positional
  else d.scientific "+"

/-- `num / den` with a fixed number of places; a half goes to the even neighbour. -/
def fixedRatio (a : Ratio) (places : Nat) : String :=
  let num := a.num * Nat.pow 10 places
  let q := num / a.den
  let twice := 2 * (num % a.den)
  let up := twice > a.den || (twice == a.den && q % 2 == 1)
  pointed (toString (if up then q + 1 else q)) places

end PayoffPricing.Decimal

namespace PayoffPricing

/-- The texts of a double: its sign, and names for the values without digits. -/
structure NumberStyle where
  undefined : String
  infinite : String
  zero : String
  tie : Tie
  finite : Decimal → String

namespace NumberStyle

def write (style : NumberStyle) (x : Float) : String :=
  let bits := x.toBits.toNat
  let sign := if bits ≥ Binary64.sign then "-" else ""
  if x.isNaN then style.undefined
  else if x.isInf then sign ++ style.infinite
  else if bits % Binary64.sign = 0 then sign ++ style.zero
  else sign ++ style.finite (.ofRange style.tie (.ofBits (bits % Binary64.sign)))

/-- Numbers in messages and listings: the fewest digits, never with an exponent. -/
def plain : NumberStyle := ⟨"NaN", "inf", "0", .up, Decimal.positional⟩

/-- Numbers in structured reports: always with a fraction or an exponent. -/
def report : NumberStyle := ⟨"null", "null", "0.0", .even, Decimal.balanced⟩

/-- Numbers in configuration listings: positional, whole numbers with one zero after the point. -/
def setting : NumberStyle :=
  ⟨"nan", "inf", "0.0", .up, fun d => if d.exponent < 0 then d.positional else d.positional ++ ".0"⟩

/-- Numbers in tables: a fixed number of places, taken from the exact binary value. -/
def fixed (places : Nat) (x : Float) : String :=
  let bits := x.toBits.toNat
  let sign := if bits ≥ Binary64.sign then "-" else ""
  if x.isNaN then "NaN"
  else if x.isInf then sign ++ "inf"
  else sign ++ Decimal.fixedRatio (RoundingRange.ofBits (bits % Binary64.sign)).mid places

end NumberStyle

/-- The text of a number in messages and listings. -/
def numberText (x : Float) : String := NumberStyle.plain.write x

end PayoffPricing
