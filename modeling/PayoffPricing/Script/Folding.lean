import PayoffPricing.Script.Intrinsic
import PayoffPricing.Script.Annotated
import PayoffPricing.Script.Slots
/-!
Constant folding. A variable is known while it has only been written by unconditional assignments
of known values; a conditional assignment or a payment makes it unknown for good.
-/

namespace PayoffPricing.Script

variable {R : Type} [Scalar R]

/-- The value of a function of known arguments; undefined ones do not count in extremes. -/
def foldedCall (f : Function) (args : List R) : Except (Fault (ScriptError R)) R :=
  match f, args with
  | .log, [x] => Evaluation.plain (Intrinsic.unary .log x)
  | .sqrt, [x] => Evaluation.plain (Intrinsic.unary .sqrt x)
  | .exp, [x] => Evaluation.plain (Intrinsic.unary .exp x)
  | .min, x :: rest => .ok (rest.foldl Scalar.minDefined x)
  | .max, x :: rest => .ok (rest.foldl Scalar.maxDefined x)
  | .smooth, [x, above, below, width] => Evaluation.plain (Intrinsic.smooth x above below width)
  | f, args => .error (.error (.arity f.name args.length))

/-- All values of a list, if all are known. -/
def allKnown : List (Option R) → Option (List R)
  | [] => some []
  | none :: _ => none
  | some v :: rest => (allKnown rest).map (v :: ·)

namespace Expr

mutual

/-- Notes the value of every known part; variables have the given values. -/
def fold (values : Array (Option R)) :
    Expr R → Expr R × Except (Fault (ScriptError R)) (Option R)
  | literal v => (literal v, .ok (some v))
  | spot => (spot, .ok none)
  | read known v =>
    match values[v.slot]? with
    | some value => (read value v, .ok value)
    | none => (read known v, .error (.misuse .outOfRange))
  | neg known arg =>
    match arg.fold values with
    | (arg, .ok value) =>
      let value := value.map (-·)
      (neg value arg, .ok value)
    | (arg, .error e) => (neg known arg, .error e)
  | plus known arg =>
    match arg.fold values with
    | (arg, .ok value) => (plus value arg, .ok value)
    | (arg, .error e) => (plus known arg, .error e)
  | binary known op lhs rhs =>
    match lhs.fold values with
    | (lhs, .error e) => (binary known op lhs rhs, .error e)
    | (lhs, .ok a) =>
      match rhs.fold values with
      | (rhs, .error e) => (binary known op lhs rhs, .error e)
      | (rhs, .ok b) =>
        match a, b with
        | some a, some b =>
          match Evaluation.plain (Intrinsic.binary op a b) with
          | .ok v => (binary (some v) op lhs rhs, .ok (some v))
          | .error e => (binary known op lhs rhs, .error e)
        | _, _ => (binary none op lhs rhs, .ok none)
  | call known f args =>
    match foldList values args with
    | (args, .error e) => (call known f args, .error e)
    | (args, .ok results) =>
      match allKnown results with
      | some vs =>
        match foldedCall f vs with
        | .ok v => (call (some v) f args, .ok (some v))
        | .error e => (call known f args, .error e)
      | none => (call none f args, .ok none)

def foldList (values : Array (Option R)) :
    List (Expr R) → List (Expr R) × Except (Fault (ScriptError R)) (List (Option R))
  | [] => ([], .ok [])
  | e :: es =>
    match e.fold values with
    | (e, .error stop) => (e :: es, .error stop)
    | (e, .ok value) =>
      match foldList values es with
      | (es, .error stop) => (e :: es, .error stop)
      | (es, .ok rest) => (e :: es, .ok (value :: rest))

end

end Expr

namespace Cond

/-- Notes known values in compared expressions. -/
def fold (values : Array (Option R)) : Cond R → Annotated (Fault (ScriptError R)) (Cond R)
  | literal b => ⟨literal b, none⟩
  | compare decided c =>
    match c.arg.fold values with
    | (arg, .ok _) => ⟨compare decided { c with arg := arg }, none⟩
    | (arg, .error e) => ⟨compare decided { c with arg := arg }, some e⟩
  | not decided arg =>
    let ⟨arg, stop⟩ := arg.fold values
    ⟨not decided arg, stop⟩
  | and decided lhs rhs =>
    let ⟨lhs, stop⟩ := lhs.fold values
    if stop.isSome then ⟨and decided lhs rhs, stop⟩
    else
      let ⟨rhs, stop⟩ := rhs.fold values
      ⟨and decided lhs rhs, stop⟩
  | or decided lhs rhs =>
    let ⟨lhs, stop⟩ := lhs.fold values
    if stop.isSome then ⟨or decided lhs rhs, stop⟩
    else
      let ⟨rhs, stop⟩ := rhs.fold values
      ⟨or decided lhs rhs, stop⟩

end Cond

/-- The known values of the variables, and which of them can no longer be known. -/
structure Knowledge (R : Type) where
  values : Array (Option R)
  tainted : Array Bool

namespace Knowledge

/-- Every variable starts at zero. -/
def initial (count : Nat) : Knowledge R :=
  ⟨Array.replicate count (some 0), Array.replicate count false⟩

/-- A write to a slot; a conditional one taints it. -/
def write (slot : Nat) (value : Option R) (conditional : Bool) :
    StateM (Knowledge R) (Option (Fault (ScriptError R))) := fun k =>
  match k.tainted[slot]? with
  | none => (some (.misuse .outOfRange), k)
  | some tainted =>
    if conditional || tainted then
      (none, ⟨k.values.setIfInBounds slot none, k.tainted.setIfInBounds slot true⟩)
    else (none, { k with values := k.values.setIfInBounds slot value })

end Knowledge

namespace Statement

mutual

/-- Notes known values in a statement; inside a conditional one, writes are conditional. -/
def fold (conditional : Bool) :
    Statement R → StateM (Knowledge R) (Annotated (Fault (ScriptError R)) (Statement R))
  | assign v e => do
    match e.fold (← get).values with
    | (e, .error stop) => return ⟨assign v e, some stop⟩
    | (e, .ok value) => return ⟨assign v e, ← Knowledge.write v.slot value conditional⟩
  | pays v e => do
    match e.fold (← get).values with
    | (e, .error stop) => return ⟨pays v e, some stop⟩
    | (e, .ok _) => return ⟨pays v e, ← Knowledge.write v.slot none true⟩
  | branch c body otherwise affected => do
    let ⟨c, stop⟩ := c.fold (← get).values
    if stop.isSome then return ⟨branch c body otherwise affected, stop⟩
    let ⟨body, stop⟩ ← foldBlock true body
    if stop.isSome then return ⟨branch c body otherwise affected, stop⟩
    let ⟨otherwise, stop⟩ ← foldBlock true otherwise
    return ⟨branch c body otherwise affected, stop⟩
  | sequence body => do
    let ⟨body, stop⟩ ← foldBlock conditional body
    return ⟨sequence body, stop⟩

def foldBlock (conditional : Bool) :
    List (Statement R) → StateM (Knowledge R) (Annotated (Fault (ScriptError R)) (List (Statement R)))
  | [] => return ⟨[], none⟩
  | s :: rest => do
    let ⟨s, stop⟩ ← s.fold conditional
    if stop.isSome then return ⟨s :: rest, stop⟩
    let ⟨rest, stop⟩ ← foldBlock conditional rest
    return ⟨s :: rest, stop⟩

end

end Statement

/-- Notes known values in all events, in order. -/
def foldEvents :
    List (Event R) → StateM (Knowledge R) (Annotated (Fault (ScriptError R)) (List (Event R)))
  | [] => return ⟨[], none⟩
  | event :: rest => do
    let ⟨event, stop⟩ ← Statement.foldBlock false event
    if stop.isSome then return ⟨event :: rest, stop⟩
    let ⟨rest, stop⟩ ← foldEvents rest
    return ⟨event :: rest, stop⟩

end PayoffPricing.Script
