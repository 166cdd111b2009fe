import PayoffPricing.Script.Domain
import PayoffPricing.Script.Intrinsic
import PayoffPricing.Script.Annotated
import PayoffPricing.Script.Slots
/-!
Domains of variables, followed through the events in the order of execution. A comparison is
decided when the domain of its argument admits one outcome only; for smoothed evaluation, other
comparisons get the window in which the argument takes no value but perhaps zero.
-/

namespace PayoffPricing.Script

variable {R : Type} [Scalar R]

/-- Lifts an error of the language. -/
def liftError {α : Type} : Except (ScriptError R) α → Except (Fault (ScriptError R)) α
  | .ok a => .ok a
  | .error e => .error (.error e)

namespace Expr

/-- The value of a function at a number. -/
def unaryValue (f : Function) (v : R) : Except (Fault (ScriptError R)) R :=
  Evaluation.plain (Intrinsic.unary f v)

/-- A power of numbers. -/
def powValue (x y : R) : Except (Fault (ScriptError R)) R :=
  Evaluation.plain (Intrinsic.binary .pow x y)

mutual

/-- All values of an expression whose variables have the given domains. -/
def domain (domains : Array (Domain R)) : Expr R → Except (Fault (ScriptError R)) (Domain R)
  | literal v => .ok (.singleton v)
  | spot => .ok .realLine
  | read _ v => Fault.ofOption domains[v.slot]?
  | neg _ arg => return (← arg.domain domains).neg
  | plus _ arg => arg.domain domains
  | binary _ op lhs rhs => do
    let a ← lhs.domain domains
    let b ← rhs.domain domains
    match op with
    | .add => return a.add b
    | .sub => return a.sub b
    | .mul => return a.mul b
    | .div => liftError (a.div b)
    | .pow => a.image₂ b powValue .realLine
  | call _ f args =>
    match f, args with
    | .log, [x] => do (← x.domain domains).image (unaryValue .log) .realLine
    | .sqrt, [x] => do (← x.domain domains).image (unaryValue .sqrt) .nonNegative
    | .exp, [x] => do (← x.domain domains).image (unaryValue .exp) .nonNegative
    | .min, x :: rest => do
      let first ← x.domain domains
      return (← domainList domains rest).foldl Domain.min first
    | .max, x :: rest => do
      let first ← x.domain domains
      return (← domainList domains rest).foldl Domain.max first
    | .smooth, [x, above, below, width] => do
      if (← x.domain domains).isDiscrete then .error (.error (.analysis .discreteSmoothing))
      else
        let _ ← width.domain domains
        let a ← above.domain domains
        let b ← below.domain domains
        let span ← liftError (Interval.ofBounds (a.lowest.min b.lowest) (a.highest.max b.highest))
        return .ofInterval span
    | f, args => .error (.error (.arity f.name args.length))

def domainList (domains : Array (Domain R)) :
    List (Expr R) → Except (Fault (ScriptError R)) (List (Domain R))
  | [] => .ok []
  | e :: es => do
    let d ← e.domain domains
    return d :: (← domainList domains es)

end

end Expr

namespace Comparison

/-- Half the width of a window on a side where the argument takes no isolated value. -/
def halfWindow : R := 0.5

/-- The outcome of the relation for all elements of a domain, where they agree. -/
def outcome (relation : Relation) (d : Domain R) : Option Bool :=
  match relation with
  | .equal => if !d.canBeZero then some false else if !d.canBeNonZero then some true else none
  | .above =>
    if !d.canBePositive true then some false
    else if !d.canBeNegative false then some true else none
  | .aboveOrEqual =>
    if !d.canBePositive false then some false
    else if !d.canBeNegative true then some true else none

/-- The window around zero in which the argument takes isolated values only. -/
def withWindow (c : Comparison R) (d : Domain R) : Comparison R :=
  let right := (d.leastPositive true).getD halfWindow
  let left := (d.greatestNegative true).getD (-halfWindow)
  match c.relation with
  | .equal =>
    if d.zeroIsDiscrete then { c with discrete := true, left := left, right := right }
    else { c with discrete := false }
  | .above =>
    if !d.canBeZero then { c with discrete := true, left := left, right := right }
    else if d.zeroIsDiscrete then { c with discrete := true, left := 0, right := right }
    else { c with discrete := false }
  | .aboveOrEqual =>
    if !d.canBeZero then { c with discrete := true, left := left, right := right }
    else if d.zeroIsDiscrete then { c with discrete := true, left := left, right := 0 }
    else { c with discrete := false }

end Comparison

/-- What is known of a conjunction. -/
def bothDecided : Option Bool → Option Bool → Option Bool
  | some false, _ => some false
  | _, some false => some false
  | some true, some true => some true
  | _, _ => none

/-- What is known of a disjunction. -/
def eitherDecided : Option Bool → Option Bool → Option Bool
  | some true, _ => some true
  | _, some true => some true
  | some false, some false => some false
  | _, _ => none

namespace Cond

/-- Notes what the domains of the variables decide; windows are noted when `fuzzy`. -/
def decide (fuzzy : Bool) (domains : Array (Domain R)) :
    Cond R → Annotated (Fault (ScriptError R)) (Cond R)
  | literal b => ⟨literal b, none⟩
  | compare decided c =>
    match c.arg.domain domains with
    | .error e => ⟨compare decided c, some e⟩
    | .ok d =>
      match Comparison.outcome c.relation d with
      | some b => ⟨compare (some b) c, none⟩
      | none => ⟨compare none (if fuzzy then c.withWindow d else c), none⟩
  | not decided arg =>
    let ⟨arg, stop⟩ := arg.decide fuzzy domains
    ⟨not (if stop.isSome then decided else arg.decided?.map (!·)) arg, stop⟩
  | and decided lhs rhs =>
    let ⟨lhs, stop⟩ := lhs.decide fuzzy domains
    if stop.isSome then ⟨and decided lhs rhs, stop⟩
    else
      let ⟨rhs, stop⟩ := rhs.decide fuzzy domains
      ⟨and (if stop.isSome then decided else bothDecided lhs.decided? rhs.decided?) lhs rhs, stop⟩
  | or decided lhs rhs =>
    let ⟨lhs, stop⟩ := lhs.decide fuzzy domains
    if stop.isSome then ⟨or decided lhs rhs, stop⟩
    else
      let ⟨rhs, stop⟩ := rhs.decide fuzzy domains
      ⟨or (if stop.isSome then decided else eitherDecided lhs.decided? rhs.decided?) lhs rhs, stop⟩

end Cond

/-- The domains of the variables by slot. -/
abbrev Domains (R : Type) := Array (Domain R)

namespace Domains

/-- Every variable starts at zero. -/
def initial (count : Nat) : Domains R := Array.replicate count (.singleton 0)

/-- Stores the domain of a slot; nothing is stored outside the table. -/
def store (slot : Nat) (d : Domain R) : StateM (Domains R) (Option (Fault (ScriptError R))) :=
  fun domains =>
    if slot < domains.size then (none, domains.setIfInBounds slot d)
    else (some (.misuse .outOfRange), domains)

/-- The domains of several slots. -/
def collect (slots : List Nat) (domains : Domains R) :
    Except (Fault (ScriptError R)) (List (Domain R)) :=
  slots.mapM fun slot => Fault.ofOption domains[slot]?

def storeAll (entries : List (Nat × Domain R)) (domains : Domains R) : Domains R :=
  entries.foldl (fun domains (slot, d) => domains.setIfInBounds slot d) domains

end Domains

/-- The domain of a variable after a payment of `paid` divided by a positive numeraire. -/
def paidDomain (domains : Domains R) (slot : Nat) (paid : Domain R) :
    Except (Fault (ScriptError R)) (Domain R) := do
  let paid ← liftError (paid.div .nonNegative)
  return (← Fault.ofOption domains[slot]?).add paid

namespace Statement

mutual

/-- Follows a statement; both branches of an undecided conditional contribute. -/
def infer (fuzzy : Bool) :
    Statement R → StateM (Domains R) (Annotated (Fault (ScriptError R)) (Statement R))
  | assign v e => do
    match e.domain (← get) with
    | .error stop => return ⟨assign v e, some stop⟩
    | .ok d => return ⟨assign v e, ← Domains.store v.slot d⟩
  | pays v e => do
    let domains ← get
    match e.domain domains >>= paidDomain domains v.slot with
    | .error stop => return ⟨pays v e, some stop⟩
    | .ok d => return ⟨pays v e, ← Domains.store v.slot d⟩
  | branch c body otherwise affected => do
    let ⟨c, stop⟩ := c.decide fuzzy (← get)
    if stop.isSome then return ⟨branch c body otherwise affected, stop⟩
    match c.decided? with
    | some true => do
      let ⟨body, stop⟩ ← inferBlock fuzzy body
      return ⟨branch c body otherwise affected, stop⟩
    | some false => do
      let ⟨otherwise, stop⟩ ← inferBlock fuzzy otherwise
      return ⟨branch c body otherwise affected, stop⟩
    | none => do
      match Domains.collect affected (← get) with
      | .error stop => return ⟨branch c body otherwise affected, some stop⟩
      | .ok before => do
        let ⟨body, stop⟩ ← inferBlock fuzzy body
        if stop.isSome then return ⟨branch c body otherwise affected, stop⟩
        match Domains.collect affected (← get) with
        | .error stop => return ⟨branch c body otherwise affected, some stop⟩
        | .ok after => do
          modify (Domains.storeAll (affected.zip before))
          let ⟨otherwise, stop⟩ ← inferBlock fuzzy otherwise
          if stop.isSome then return ⟨branch c body otherwise affected, stop⟩
          match Domains.collect affected (← get) with
          | .error stop => return ⟨branch c body otherwise affected, some stop⟩
          | .ok others => do
            modify (Domains.storeAll (affected.zip (List.zipWith Domain.union others after)))
            return ⟨branch c body otherwise affected, none⟩
  | sequence body => do
    let ⟨body, stop⟩ ← inferBlock fuzzy body
    return ⟨sequence body, stop⟩

def inferBlock (fuzzy : Bool) :
    List (Statement R) → StateM (Domains R) (Annotated (Fault (ScriptError R)) (List (Statement R)))
  | [] => return ⟨[], none⟩
  | s :: rest => do
    let ⟨s, stop⟩ ← s.infer fuzzy
    if stop.isSome then return ⟨s :: rest, stop⟩
    let ⟨rest, stop⟩ ← inferBlock fuzzy rest
    return ⟨s :: rest, stop⟩

end

end Statement

/-- Follows the events in order. -/
def inferEvents (fuzzy : Bool) :
    List (Event R) → StateM (Domains R) (Annotated (Fault (ScriptError R)) (List (Event R)))
  | [] => return ⟨[], none⟩
  | event :: rest => do
    let ⟨event, stop⟩ ← Statement.inferBlock fuzzy event
    if stop.isSome then return ⟨event :: rest, stop⟩
    let ⟨rest, stop⟩ ← inferEvents fuzzy rest
    return ⟨event :: rest, stop⟩

end PayoffPricing.Script
