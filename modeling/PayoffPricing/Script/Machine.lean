import PayoffPricing.Script.Bytecode
/-!
The stack machine that runs bytecode. The first branch of a selection is a run of its own, bounded
by the place where the second branch starts; all other control is a jump forward.
-/

namespace PayoffPricing.Script

/-- The variables and the two stacks, the top of a stack first. -/
structure Machine (T : Type) where
  values : Variables T
  numbers : List T
  outcomes : List Bool

namespace Machine

variable {R S T : Type} [Scalar R] [Quantity R S T]

def underflow {α : Type} : Process R S (Machine T) α :=
  throw (.error (.analysis .stackUnderflow))

def pushNumber (x : T) : Process R S (Machine T) Unit :=
  modify fun m => { m with numbers := x :: m.numbers }

def popNumber : Process R S (Machine T) T := do
  let m ← get
  match m.numbers with
  | [] => underflow
  | x :: rest => do
    set { m with numbers := rest }
    return x

def pushOutcome (b : Bool) : Process R S (Machine T) Unit :=
  modify fun m => { m with outcomes := b :: m.outcomes }

def popOutcome : Process R S (Machine T) Bool := do
  let m ← get
  match m.outcomes with
  | [] => underflow
  | b :: rest => do
    set { m with outcomes := rest }
    return b

/-- Replaces the top of the stack of numbers. -/
def onTop (f : T → Evaluation R S T) : Process R S (Machine T) Unit := do
  let x ← popNumber
  pushNumber (← Process.ofEvaluation (f x))

/-- Replaces the two topmost numbers; the second operand is on top. -/
def onTopTwo (f : T → T → Evaluation R S T) : Process R S (Machine T) Unit := do
  let y ← popNumber
  onTop fun x => f x y

def onOutcomes (f : Bool → Bool → Bool) : Process R S (Machine T) Unit := do
  let b ← popOutcome
  let a ← popOutcome
  pushOutcome (f a b)

/-- Moves the top of the stack of numbers to the stack of outcomes. -/
def test (relation : Relation) (tolerance : R) : Process R S (Machine T) Unit := do
  let x ← popNumber
  pushOutcome (Intrinsic.holds relation (Valued.value (x : T)) tolerance)

def onVariables (step : Variables T → Evaluation R S (Variables T)) :
    Process R S (Machine T) Unit := do
  let m ← get
  let values ← Process.ofEvaluation (step m.values)
  set { m with values := values }

/-- The word at a place of the stream. -/
def wordAt (p : Program R) (i : Nat) : Process R S (Machine T) Nat :=
  match p.code[i]? with
  | some w => pure w
  | none => throw (.misuse .outOfRange)

/-- The constant that the word at a place of the stream refers to. -/
def constantAt (p : Program R) (i : Nat) : Process R S (Machine T) R := do
  match p.constants[← wordAt p i]? with
  | some v => pure v
  | none => throw (.misuse .outOfRange)

/-- Combines the top of the stack with the constant at `i`, which is the second operand. -/
def withConstant (p : Program R) (i : Nat) (f : T → T → Evaluation R S T) :
    Process R S (Machine T) Unit := do
  let v ← constantAt p i
  onTop fun x => f x (Valued.constant v)

/-- Runs an instruction that does not jump; its operands follow place `i`. -/
def execute (p : Program R) (sample : Sample T) (i : Nat) (op : Opcode) :
    Process R S (Machine T) Unit := do
  match op with
  | .add => onTopTwo (Intrinsic.binary .add)
  | .addConst => withConstant p (i + 1) (Intrinsic.binary .add)
  | .sub => onTopTwo (Intrinsic.binary .sub)
  | .subConst => withConstant p (i + 1) (Intrinsic.binary .sub)
  | .constSub => withConstant p (i + 1) fun x c => Intrinsic.binary .sub c x
  | .mul => onTopTwo (Intrinsic.binary .mul)
  | .mulConst => withConstant p (i + 1) (Intrinsic.binary .mul)
  | .div => onTopTwo (Intrinsic.binary .div)
  | .divConst => withConstant p (i + 1) (Intrinsic.binary .div)
  | .constDiv => withConstant p (i + 1) fun x c => Intrinsic.binary .div c x
  | .pow => onTopTwo (Intrinsic.binary .pow)
  | .powConst => withConstant p (i + 1) (Intrinsic.binary .pow)
  | .constPow => withConstant p (i + 1) fun x c => Intrinsic.binary .pow c x
  | .max => onTopTwo fun x y => pure (Quantity.max x y)
  | .maxConst => withConstant p (i + 1) fun x c => pure (Quantity.max x c)
  | .min => onTopTwo fun x y => pure (Quantity.min x y)
  | .minConst => withConstant p (i + 1) fun x c => pure (Quantity.min x c)
  | .spot => pushNumber sample.spot
  | .load => do
    let slot ← wordAt p (i + 1)
    pushNumber (← Process.ofEvaluation ((← get).values.fetch (R := R) (S := S) slot))
  | .const => do pushNumber (Valued.constant (← constantAt p (i + 1)))
  | .store => do
    let slot ← wordAt p (i + 1)
    let x ← popNumber
    onVariables fun values => values.store slot x
  | .storeConst => do
    let slot ← wordAt p (i + 1)
    let v ← constantAt p (i + 2)
    onVariables fun values => values.store slot (Valued.constant v)
  | .pay => do
    let slot ← wordAt p (i + 1)
    let x ← popNumber
    onVariables fun values => values.pay slot x sample.numeraire
  | .payConst => do
    let slot ← wordAt p (i + 1)
    let v ← constantAt p (i + 2)
    onVariables fun values => values.pay slot (Valued.constant v) sample.numeraire
  | .equal => do test .equal (← constantAt p (i + 1))
  | .above => do test .above (← constantAt p (i + 1))
  | .aboveOrEqual => do test .aboveOrEqual (← constantAt p (i + 1))
  | .and => onOutcomes (· && ·)
  | .or => onOutcomes (· || ·)
  | .not => do pushOutcome !(← popOutcome)
  | .yes => pushOutcome true
  | .no => pushOutcome false
  | .smooth => do
    let width ← popNumber
    let below ← popNumber
    let above ← popNumber
    onTop fun x => Intrinsic.smooth x above below width
  | .sqrt => onTop (Intrinsic.unary .sqrt)
  | .log => onTop (Intrinsic.unary .log)
  | .exp => onTop (Intrinsic.unary .exp)
  | .neg => onTop fun x => Evaluation.record (Quantity.neg x)
  | .skip => pure ()
  | .select => pure ()

/-- Runs the stream from place `i` until it reaches `last`; jumps go forward. -/
def runFrom (p : Program R) (sample : Sample T) (i last : Nat) : Process R S (Machine T) Unit :=
  if i < last then
    match h : p.code[i]? with
    | none => throw (.misuse .outOfRange)
    | some w =>
      have : i < p.code.size := (Array.getElem?_eq_some_iff.1 h).1
      match Opcode.ofWord? w with
      | none => throw (.error (.analysis (.invalidOpcode w i)))
      | some .skip => do
        let target ← wordAt p (i + 1)
        if ← popOutcome then runFrom p sample (i + 2) last
        else if _ : i < target then runFrom p sample target last
        else throw (.misuse .outOfRange)
      | some .select => do
        let second ← wordAt p (i + 1)
        let stop ← wordAt p (i + 2)
        if ← popOutcome then
          runFrom p sample (i + 3) second
          if _ : i < stop then runFrom p sample stop last else throw (.misuse .outOfRange)
        else if _ : i < second then runFrom p sample second last
        else throw (.misuse .outOfRange)
      | some op => do
        execute p sample i op
        runFrom p sample (i + 1 + op.operands) last
  else pure ()
termination_by p.code.size - i

/-- Runs the bytecode of an event, from empty stacks. -/
def run (p : Program R) (sample : Sample T) : Process R S (Machine T) Unit := do
  modify fun m => { m with numbers := [], outcomes := [] }
  runFrom p sample 0 p.code.size

end Machine

end PayoffPricing.Script
