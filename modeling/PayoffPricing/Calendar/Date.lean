import PayoffPricing.Decimal.Numeral
import PayoffPricing.Text.Blank
/-!
Dates of the Gregorian calendar, extended backward and forward without reform. Days are counted
from the first day of year one; adding months keeps the day, or takes the last one of a shorter
month.
-/

namespace PayoffPricing

namespace Calendar

def isLeap (year : Int) : Bool := year % 4 == 0 && (year % 100 != 0 || year % 400 == 0)

def daysInMonth (year : Int) (month : Nat) : Nat :=
  if month = 2 then (if isLeap year then 29 else 28)
  else if month = 4 ∨ month = 6 ∨ month = 9 ∨ month = 11 then 30
  else 31

/-- Days before the first day of a year. -/
def daysBeforeYear (year : Int) : Int :=
  let y := year - 1
  365 * y + y / 4 - y / 100 + y / 400

/-- Days of a year before the first day of a month. -/
def daysBeforeMonth (year : Int) (month : Nat) : Nat :=
  (List.range' 1 (month - 1)).foldl (fun n m => n + daysInMonth year m) 0

/-- The year that a day falls into; four centuries have 146097 days. -/
def yearOfDay (n : Int) : Int :=
  let guess := n * 400 / 146097 + 1
  if n < daysBeforeYear guess then guess - 1
  else if daysBeforeYear (guess + 1) ≤ n then guess + 1
  else guess

/-- Month and day of the day that has `n` days before it among the given months. -/
def monthAndDay (year : Int) : List Nat → Nat → Option (Nat × Nat)
  | [], _ => none
  | m :: ms, n =>
    if n < daysInMonth year m then some (m, n + 1)
    else monthAndDay year ms (n - daysInMonth year m)

end Calendar

open Calendar

structure Date where
  year : Int
  month : Nat
  day : Nat
  year_range : -262143 ≤ year ∧ year ≤ 262142
  month_range : 1 ≤ month ∧ month ≤ 12
  day_range : 1 ≤ day ∧ day ≤ daysInMonth year month
deriving DecidableEq

namespace Date

/-- The date with the given parts, where there is one. -/
def ofParts? (year : Int) (month day : Nat) : Option Date :=
  if hy : -262143 ≤ year ∧ year ≤ 262142 then
    if hm : 1 ≤ month ∧ month ≤ 12 then
      if hd : 1 ≤ day ∧ day ≤ daysInMonth year month then some ⟨year, month, day, hy, hm, hd⟩
      else none
    else none
  else none

/-- Days since the first day of year one. -/
def dayNumber (d : Date) : Int :=
  daysBeforeYear d.year + Int.ofNat (daysBeforeMonth d.year d.month + (d.day - 1))

def ofDayNumber? (n : Int) : Option Date :=
  let year := yearOfDay n
  match monthAndDay year (List.range' 1 12) (n - daysBeforeYear year).toNat with
  | some (month, day) => ofParts? year month day
  | none => none

/-- Months since the first month of year zero. -/
def monthNumber (d : Date) : Int := d.year * 12 + Int.ofNat (d.month - 1)

def addDays? (d : Date) (n : Nat) : Option Date := ofDayNumber? (d.dayNumber + Int.ofNat n)

/-- The same day `n` months later, or the last day of that month when it is shorter. -/
def addMonths? (d : Date) (n : Nat) : Option Date :=
  let total := d.monthNumber + Int.ofNat n
  let year := total / 12
  let month := (total % 12).toNat + 1
  ofParts? year month (min d.day (daysInMonth year month))

instance : LT Date := ⟨fun a b => a.year < b.year ∨ (a.year = b.year ∧
  (a.month < b.month ∨ (a.month = b.month ∧ a.day < b.day)))⟩

instance : DecidableLT Date := fun a b => inferInstanceAs (Decidable (a.year < b.year ∨
  (a.year = b.year ∧ (a.month < b.month ∨ (a.month = b.month ∧ a.day < b.day)))))

/-- Digits with zeros in front, at least `width` of them. -/
def padded (n width : Nat) : String :=
  let digits := (toString n).toList
  String.ofList (List.replicate (width - digits.length) '0' ++ digits)

/-- Year, month and day; a year of other than four digits has a sign. -/
def text (d : Date) : String :=
  let year :=
    if 0 ≤ d.year ∧ d.year ≤ 9999 then padded d.year.toNat 4
    else (if d.year < 0 then "-" else "+") ++ padded d.year.natAbs 4
  year ++ "-" ++ padded d.month 2 ++ "-" ++ padded d.day 2

/-- The value of at most `width` leading digits; there must be one. -/
def readDigits (width : Nat) (cs : List Char) : Option (Nat × List Char) :=
  let ds := (cs.take width).takeWhile Numeral.isDigit
  if ds.isEmpty then none
  else some (Numeral.value ds, cs.drop ds.length)

def skipBlanks (cs : List Char) : List Char := cs.dropWhile Text.isBlank

def readYear (cs : List Char) : Option (Int × List Char) :=
  match cs with
  | '-' :: rest => (readDigits rest.length rest).map fun (n, rest) => (-Int.ofNat n, rest)
  | '+' :: rest => (readDigits rest.length rest).map fun (n, rest) => (Int.ofNat n, rest)
  | _ => (readDigits 4 cs).map fun (n, rest) => (Int.ofNat n, rest)

/-- Reads a hyphen and a part of at most two digits; blanks may stand around them. -/
def readPart (cs : List Char) : Option (Nat × List Char) :=
  match skipBlanks cs with
  | '-' :: rest => readDigits 2 (skipBlanks rest)
  | _ => none

/-- Reads year, month and day; zeros in front may be left out, and blanks may stand between. -/
def ofText? (s : String) : Option Date := do
  let (year, rest) ← readYear (skipBlanks s.toList)
  let (month, rest) ← readPart rest
  let (day, rest) ← readPart rest
  if (skipBlanks rest).isEmpty then ofParts? year month day else none

end Date

end PayoffPricing
