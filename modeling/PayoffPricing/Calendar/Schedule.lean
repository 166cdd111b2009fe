import PayoffPricing.Calendar.Date
/-!
Tenors such as `3M`, and schedules that repeat a date by a tenor. The dates of a schedule are
counted from its start, so the ends of months do not drift.
-/

namespace PayoffPricing

inductive TenorUnit where
  | days
  | weeks
  | months
  | years
deriving DecidableEq, Repr

/-- A positive number of units. -/
structure Tenor where
  count : Nat
  unit : TenorUnit
  count_pos : 0 < count
deriving DecidableEq

inductive CalendarError where
  | invalidTenor (text : String)
  | emptySchedule (start stop : Date)

namespace CalendarError

def message : CalendarError → String
  | invalidTenor text => s!"invalid tenor '{text}'"
  | emptySchedule start stop =>
    "schedule end " ++ stop.text ++ " is not after start " ++ start.text

end CalendarError

namespace TenorUnit

def letter : TenorUnit → Char
  | days => 'D'
  | weeks => 'W'
  | months => 'M'
  | years => 'Y'

def ofLetter? (c : Char) : Option TenorUnit :=
  if c = 'D' ∨ c = 'd' then some days
  else if c = 'W' ∨ c = 'w' then some weeks
  else if c = 'M' ∨ c = 'm' then some months
  else if c = 'Y' ∨ c = 'y' then some years
  else none

end TenorUnit

namespace Tenor

/-- Counts stay below this. -/
def countLimit : Nat := 1 <<< 32

def text (t : Tenor) : String := (toString t.count).push t.unit.letter

/-- Reads a count and the letter of a unit, in either case. -/
def ofText (s : String) : Except CalendarError Tenor :=
  let cs := Text.trimList s.toList
  let tenor := do
    let unit ← TenorUnit.ofLetter? (← cs.getLast?)
    let count ← Numeral.natural? countLimit cs.dropLast
    if h : 0 < count then some ⟨count, unit, h⟩ else none
  match tenor with
  | some t => .ok t
  | none => .error (.invalidTenor (String.ofList cs))

/-- The date `k` tenors after `d`, where the calendar has one. -/
def advance? (t : Tenor) (d : Date) (k : Nat) : Option Date :=
  let n := t.count * k
  if n < countLimit then
    match t.unit with
    | .days => d.addDays? n
    | .weeks => d.addDays? (n * 7)
    | .months => d.addMonths? n
    | .years => if n * 12 < countLimit then d.addMonths? (n * 12) else none
  else none

theorem advance?_eq_none (t : Tenor) (d : Date) (k : Nat) (h : countLimit ≤ k) :
    t.advance? d k = none := by
  have : k ≤ t.count * k := Nat.le_mul_of_pos_left k t.count_pos
  simp [advance?, Nat.not_lt.2 (Nat.le_trans h this)]

end Tenor

/-- Which end of a period its event is observed at. -/
inductive Fixing where
  | begin
  | stop
deriving DecidableEq, Repr

structure Period where
  start : Date
  stop : Date
  fixing : Date

/-- A date range cut into periods of one tenor. -/
structure Schedule where
  start : Date
  stop : Date
  tenor : Tenor
  fixing : Fixing

namespace Schedule

/-- The dates `start + k * tenor` before the end, from `k` on. -/
def innerDates (s : Schedule) (k : Nat) : List Date :=
  match h : s.tenor.advance? s.start k with
  | some d => if d < s.stop then d :: innerDates s (k + 1) else []
  | none => []
termination_by Tenor.countLimit - k
decreasing_by
  have : k < Tenor.countLimit := by
    apply Decidable.byContradiction
    intro hk
    simp [s.tenor.advance?_eq_none s.start k (Nat.le_of_not_lt hk)] at h
  omega

/-- The start, the dates between, and the end. -/
def dates (s : Schedule) : Except CalendarError (List Date) :=
  if s.start < s.stop then .ok (s.start :: s.innerDates 1 ++ [s.stop])
  else .error (.emptySchedule s.start s.stop)

/-- The stretches between consecutive dates. -/
def between (fixing : Fixing) : List Date → List Period
  | a :: b :: rest =>
    ⟨a, b, match fixing with
      | .begin => a
      | .stop => b⟩ :: between fixing (b :: rest)
  | _ => []

def periods (s : Schedule) : Except CalendarError (List Period) :=
  s.dates.map (between s.fixing)

end Schedule

end PayoffPricing
