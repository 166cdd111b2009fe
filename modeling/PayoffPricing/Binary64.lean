/-!
The fields of a double's representation, read as a number of 64 bits: its sign is worth most, then
its exponent, then its fraction.
-/

namespace PayoffPricing.Binary64

/-- The representations of negative numbers start here. -/
def sign : Nat := 1 <<< 63

/-- So many fractions share an exponent. -/
def fractions : Nat := 1 <<< 52

/-- So many exponents share a sign. -/
def exponents : Nat := 1 <<< 11

end PayoffPricing.Binary64
