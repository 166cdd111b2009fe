import PayoffPricing.Scalar
/-!
Numerals: natural numbers and decimals as scripts, settings and files write them.
-/

namespace PayoffPricing.Numeral

def isDigit (c : Char) : Bool := '0' ≤ c && c ≤ '9'

def digitValue (c : Char) : Nat := c.toNat - '0'.toNat

def value (digits : List Char) : Nat := digits.foldl (fun n c => n * 10 + digitValue c) 0

/-- A sign that may stand in front of a number, and what follows it. -/
def signed (cs : List Char) : Bool × List Char :=
  match cs with
  | '+' :: rest => (false, rest)
  | '-' :: rest => (true, rest)
  | _ => (false, cs)

/-- An exponent and its length; nothing when there is none. -/
def exponent (cs : List Char) : Int × Nat :=
  match cs with
  | [] => (0, 0)
  | e :: rest =>
    let (negative, unsigned) := signed rest
    let digits := unsigned.takeWhile isDigit
    if (e = 'e' ∨ e = 'E') ∧ !digits.isEmpty then
      let power := Int.ofNat (value digits)
      (if negative then -power else power, 1 + (rest.length - unsigned.length) + digits.length)
    else (0, 0)

variable {R : Type} [Scalar R]

/--
A number at the start of a text, and its length: digits, with a point and more digits after them if
any, or a point with digits after it; then an exponent.
-/
def leading? (cs : List Char) : Option (R × Nat) :=
  let whole := cs.takeWhile isDigit
  let (fraction, points) := match cs.drop whole.length with
    | '.' :: rest => (rest.takeWhile isDigit, 1)
    | _ => ([], 0)
  if whole.isEmpty ∧ fraction.isEmpty then none
  else
    let mantissa := whole.length + points + fraction.length
    let (e, size) := exponent (cs.drop mantissa)
    some (Scalar.ofDecimal (value (whole ++ fraction)) (e - Int.ofNat fraction.length),
      mantissa + size)

/-- A natural number below a limit: digits, with an optional plus sign in front. -/
def natural? (limit : Nat) (cs : List Char) : Option Nat :=
  let digits := match cs with
    | '+' :: rest => rest
    | _ => cs
  if digits.isEmpty || !digits.all isDigit then none
  else if value digits < limit then some (value digits) else none

/-- A number with an optional sign; the names of the other values stand in any case of letters. -/
def real? (cs : List Char) : Option R :=
  let (negative, rest) := signed cs
  let magnitude : Option R := match String.ofList (rest.map Char.toLower) with
    | "inf" => some (1 / 0)
    | "infinity" => some (1 / 0)
    | "nan" => some Scalar.undefined
    | _ => match leading? rest with
      | some (x, size) => if size = rest.length then some x else none
      | none => none
  magnitude.map fun x => if negative then -x else x

end PayoffPricing.Numeral
