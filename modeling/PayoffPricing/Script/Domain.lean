import PayoffPricing.Script.Interval
/-!
Sets of numbers as unions of intervals that do not touch, in increasing order. A domain holds all
values that an expression can take on any path.
-/

namespace PayoffPricing.Script

structure Domain (R : Type) where
  intervals : List (Interval R)

namespace Domain

variable {R ε : Type} [Scalar R]

def empty : Domain R := ⟨[]⟩

def ofInterval (a : Interval R) : Domain R := ⟨[a]⟩

def singleton (v : R) : Domain R := ofInterval (.singleton v)

def realLine : Domain R := ofInterval .realLine

def nonNegative : Domain R := ofInterval .nonNegative

/-- Merges an interval with those it touches, and returns what it does not touch. -/
def absorb (a : Interval R) (others : List (Interval R)) : Interval R × List (Interval R) :=
  match _h : others.find? fun b => b.intersects a with
  | none => (a, others)
  | some b => absorb (a.merge b) (others.eraseP fun b => b.intersects a)
termination_by others.length
decreasing_by
  have hb := List.mem_of_find?_eq_some _h
  have hp := List.find?_some _h
  have := List.length_eraseP_of_mem (p := fun b => b.intersects a) hb hp
  have := List.length_pos_of_mem hb
  omega

/-- Puts an interval before the first one that starts later. -/
def place (a : Interval R) (others : List (Interval R)) : List (Interval R) :=
  let before := fun b : Interval R => !a.left.isBelow b.left
  others.takeWhile before ++ a :: others.dropWhile before

/-- Adds the elements of an interval. -/
def insert (d : Domain R) (a : Interval R) : Domain R :=
  if a.left.isInfinite && a.right.isInfinite then ⟨[a]⟩
  else
    let (merged, others) := absorb a d.intervals
    ⟨place merged others⟩

def insertAll (d : Domain R) (intervals : List (Interval R)) : Domain R := intervals.foldl insert d

def ofIntervals (intervals : List (Interval R)) : Domain R := insertAll empty intervals

def union (d e : Domain R) : Domain R := d.insertAll e.intervals

/-- All values of an interval operation on an element of each domain. -/
def combine (f : Interval R → Interval R → Interval R) (d e : Domain R) : Domain R :=
  ofIntervals (d.intervals.flatMap fun a => e.intervals.map fun b => f a b)

def add (d e : Domain R) : Domain R := combine Interval.add d e

def sub (d e : Domain R) : Domain R := combine Interval.sub d e

def mul (d e : Domain R) : Domain R := combine Interval.mul d e

def min (d e : Domain R) : Domain R := combine Interval.min d e

def max (d e : Domain R) : Domain R := combine Interval.max d e

def neg (d : Domain R) : Domain R := ofIntervals (d.intervals.map Interval.neg)

/-- Quotients; zero must not be an isolated value of the divisor. -/
def div (d e : Domain R) : Except (ScriptError R) (Domain R) := do
  let quotients ← e.intervals.mapM fun b => do
    let inverse ← b.inverse
    return d.intervals.map fun a => a.mul inverse
  return ofIntervals quotients.flatten

/-- There are values, and all of them are isolated. -/
def isDiscrete (d : Domain R) : Bool :=
  !d.intervals.isEmpty && d.intervals.all Interval.isSingleton

/-- The values of a discrete domain. -/
def values? (d : Domain R) : Option (List R) :=
  if d.isDiscrete then some (d.intervals.map (·.left.value)) else none

def lowest (d : Domain R) : Bound R := d.intervals.head?.elim .minusInfinity (·.left)

def highest (d : Domain R) : Bound R := d.intervals.getLast?.elim .plusInfinity (·.right)

/-- Contains a number, up to the tolerance of ends. -/
def includes (d : Domain R) (x : R) : Bool := d.intervals.any (·.includes x)

def canBeZero (d : Domain R) : Bool := d.includes 0

def canBeNonZero (d : Domain R) : Bool :=
  match d.intervals with
  | [] => false
  | [a] => !a.isZero
  | _ => true

/-- Zero is an isolated value. -/
def zeroIsDiscrete (d : Domain R) : Bool := d.intervals.any Interval.isZero

def canBePositive (strict : Bool) (d : Domain R) : Bool :=
  d.intervals.getLast?.any (·.right.isPositive strict)

def canBeNegative (strict : Bool) (d : Domain R) : Bool :=
  d.intervals.head?.any (·.left.isNegative strict)

/-- The left end of the first interval above zero, if the last one is above zero. -/
def leastPositive (strict : Bool) (d : Domain R) : Option R :=
  let above := fun a : Interval R => !a.left.isNegative !strict
  if d.intervals.getLast?.any above then (d.intervals.find? above).map (·.left.value) else none

/-- The right end of the last interval below zero, if the first one is below zero. -/
def greatestNegative (strict : Bool) (d : Domain R) : Option R :=
  let below := fun a : Interval R => !a.right.isPositive !strict
  if d.intervals.head?.any below then (d.intervals.reverse.find? below).map (·.right.value) else none

/-- The values of a function on a discrete domain; `otherwise` on other domains. -/
def image (d : Domain R) (f : R → Except ε R) (otherwise : Domain R) : Except ε (Domain R) :=
  match d.values? with
  | some xs => return ofIntervals ((← xs.mapM f).map .singleton)
  | none => return otherwise

/-- The values of a function of two arguments on discrete domains. -/
def image₂ (d e : Domain R) (f : R → R → Except ε R) (otherwise : Domain R) :
    Except ε (Domain R) :=
  match d.values?, e.values? with
  | some xs, some ys => do
    let rows ← xs.mapM fun x => ys.mapM (f x)
    return ofIntervals (rows.flatten.map .singleton)
  | _, _ => return otherwise

def text (d : Domain Float) : String :=
  "\x7b" ++ ", ".intercalate (d.intervals.map Interval.text) ++ "\x7d"

end Domain

end PayoffPricing.Script
