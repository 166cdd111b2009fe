import PayoffPricing.Script.Intrinsic
import PayoffPricing.Script.Slots
/-!
Bytecode of events: a flat stream of words, each an opcode or an operand of the opcode before it.
Operands are slots of variables, places in a pool of constants, and places in the stream to jump
to. Known values and decided conditions are compiled to constants.
-/

namespace PayoffPricing.Script

/-- Instructions on a stack of numbers and a stack of outcomes. -/
inductive Opcode where
  | add
  | addConst
  | sub
  | subConst
  | constSub
  | mul
  | mulConst
  | div
  | divConst
  | constDiv
  | pow
  | powConst
  | constPow
  | max
  | maxConst
  | min
  | minConst
  | spot
  | load
  | const
  | store
  | storeConst
  | pay
  | payConst
  | skip
  | select
  | equal
  | above
  | aboveOrEqual
  | and
  | or
  | smooth
  | sqrt
  | log
  | not
  | neg
  | exp
  | yes
  | no
deriving DecidableEq, Repr

namespace Opcode

/-- All opcodes, in the order of their words. -/
def all : List Opcode :=
  [add, addConst, sub, subConst, constSub, mul, mulConst, div, divConst, constDiv, pow, powConst,
    constPow, max, maxConst, min, minConst, spot, load, const, store, storeConst, pay, payConst,
    skip, select, equal, above, aboveOrEqual, and, or, smooth, sqrt, log, not, neg, exp, yes, no]

/-- The word that stands for an opcode. -/
def word (op : Opcode) : Nat := all.idxOf op

def ofWord? (w : Nat) : Option Opcode := all[w]?

/-- The names of opcodes in listings, in the order of their words. -/
def names : List String :=
  ["Add", "AddConst", "Sub", "SubConst", "ConstSub", "Mult", "MultConst", "Div", "DivConst",
    "ConstDiv", "Pow", "PowConst", "ConstPow", "Max2", "Max2Const", "Min2", "Min2Const", "Spot",
    "Var", "Const", "Assign", "AssignConst", "Pays", "PaysConst", "If", "IfElse", "Equal", "Sup",
    "SupEqual", "And", "Or", "Smooth", "Sqrt", "Log", "Not", "Uminus", "Exp", "True", "False"]

def name (op : Opcode) : String := names.getD op.word ""

/-- The number of operands. -/
def operands : Opcode → Nat
  | storeConst => 2
  | payConst => 2
  | select => 2
  | addConst => 1
  | subConst => 1
  | constSub => 1
  | mulConst => 1
  | divConst => 1
  | constDiv => 1
  | powConst => 1
  | constPow => 1
  | maxConst => 1
  | minConst => 1
  | load => 1
  | const => 1
  | store => 1
  | pay => 1
  | skip => 1
  | equal => 1
  | above => 1
  | aboveOrEqual => 1
  | _ => 0

end Opcode

/-- The bytecode of an event, its constants, and the greatest heights of the two stacks. -/
structure Program (R : Type) where
  code : Array Nat
  constants : Array R
  height : Nat
  outcomeHeight : Nat

namespace Program

/-- The instructions from place `i` on, up to the first word that is no opcode. -/
def instructionsFrom {R : Type} (p : Program R) (i : Nat) : List (Opcode × List Nat) :=
  match _h : p.code[i]? with
  | none => []
  | some w =>
    match Opcode.ofWord? w with
    | none => []
    | some op =>
      let next := i + 1 + op.operands
      (op, (p.code.extract (i + 1) next).toList) :: instructionsFrom p next
termination_by p.code.size - i
decreasing_by
  have := (Array.getElem?_eq_some_iff.1 _h).1
  omega

def instructions {R : Type} (p : Program R) : List (Opcode × List Nat) := p.instructionsFrom 0

/-- The instructions as texts: the name of each opcode and its operands. -/
def listing {R : Type} (p : Program R) : List String :=
  p.instructions.map fun (op, operands) => " ".intercalate (op.name :: operands.map toString)

end Program

variable {R : Type} [Scalar R]

/-- The place of a constant in a pool that grows when the constant is new. -/
def placeOf (v : R) : StateM (Array R) Nat := fun pool =>
  match pool.findIdx? (Scalar.identical v) with
  | some place => (place, pool)
  | none => (pool.size, pool.push v)

namespace Operator

/-- Takes both operands from the stack. -/
def opcode : Operator → Opcode
  | add => .add
  | sub => .sub
  | mul => .mul
  | div => .div
  | pow => .pow

/-- Takes the left operand from the stack and the right one from the pool. -/
def opcodeConst : Operator → Opcode
  | add => .addConst
  | sub => .subConst
  | mul => .mulConst
  | div => .divConst
  | pow => .powConst

/-- Takes the right operand from the stack and the left one from the pool. -/
def constOpcode : Operator → Opcode
  | add => .addConst
  | sub => .constSub
  | mul => .mulConst
  | div => .constDiv
  | pow => .constPow

end Operator

def Relation.opcode : Relation → Opcode
  | equal => .equal
  | above => .above
  | aboveOrEqual => .aboveOrEqual

namespace Expr

/-- Pushes a constant. -/
def compileConst (v : R) : StateM (Array R) (List Nat) :=
  return [Opcode.const.word, ← placeOf v]

mutual

/-- Words that push the value of an expression. -/
def compile : Expr R → StateM (Array R) (List Nat)
  | literal v => compileConst v
  | spot => return [Opcode.spot.word]
  | read (some v) _ => compileConst v
  | read none x => return [Opcode.load.word, x.slot]
  | neg (some v) _ => compileConst v
  | neg none arg => return (← arg.compile) ++ [Opcode.neg.word]
  | plus (some v) _ => compileConst v
  | plus none arg => arg.compile
  | binary (some v) _ _ _ => compileConst v
  | binary none op lhs rhs =>
    match lhs.known?, rhs.known? with
    | _, some v => do
      let code ← lhs.compile
      return code ++ [op.opcodeConst.word, ← placeOf v]
    | some v, none => do
      let code ← rhs.compile
      return code ++ [op.constOpcode.word, ← placeOf v]
    | none, none => do
      let code ← lhs.compile
      return code ++ (← rhs.compile) ++ [op.opcode.word]
  | call (some v) _ _ => compileConst v
  | call none f args =>
    match f, args with
    | .min, [] => return []
    | .min, x :: rest => do
      let code ← x.compile
      return code ++ (← compileChain .min .minConst rest)
    | .max, [] => return []
    | .max, x :: rest => do
      let code ← x.compile
      return code ++ (← compileChain .max .maxConst rest)
    | .log, args => return (← compileList args) ++ [Opcode.log.word]
    | .sqrt, args => return (← compileList args) ++ [Opcode.sqrt.word]
    | .exp, args => return (← compileList args) ++ [Opcode.exp.word]
    | .smooth, args => return (← compileList args) ++ [Opcode.smooth.word]

/-- Words that push the values of several expressions. -/
def compileList : List (Expr R) → StateM (Array R) (List Nat)
  | [] => return []
  | e :: es => do
    let code ← e.compile
    return code ++ (← compileList es)

/-- Words that combine the top of the stack with the values of several expressions, one by one. -/
def compileChain (plain fixed : Opcode) : List (Expr R) → StateM (Array R) (List Nat)
  | [] => return []
  | e :: es =>
    match e.known? with
    | some v => do
      let place ← placeOf v
      return fixed.word :: place :: (← compileChain plain fixed es)
    | none => do
      let code ← e.compile
      return code ++ plain.word :: (← compileChain plain fixed es)

end

mutual

/-- How high the compiled expression lets the stack grow. -/
def height : Expr R → Nat
  | literal _ => 1
  | spot => 1
  | read _ _ => 1
  | neg (some _) _ => 1
  | neg none arg => arg.height
  | plus (some _) _ => 1
  | plus none arg => arg.height
  | binary (some _) _ _ _ => 1
  | binary none _ lhs rhs =>
    match lhs.known?, rhs.known? with
    | _, some _ => lhs.height
    | some _, none => rhs.height
    | none, none => max lhs.height (rhs.height + 1)
  | call (some _) _ _ => 1
  | call none f args =>
    match f, args with
    | .min, [] => 0
    | .min, x :: rest => max x.height (chainHeight rest)
    | .max, [] => 0
    | .max, x :: rest => max x.height (chainHeight rest)
    | _, args => listHeight 0 args

/-- The height when `below` values are pushed before the others. -/
def listHeight (below : Nat) : List (Expr R) → Nat
  | [] => below
  | e :: es => max (below + e.height) (listHeight (below + 1) es)

def chainHeight : List (Expr R) → Nat
  | [] => 0
  | e :: es =>
    match e.known? with
    | some _ => chainHeight es
    | none => max (e.height + 1) (chainHeight es)

end

end Expr

namespace Cond

/-- Words that push the outcome of a condition. -/
def compile : Cond R → StateM (Array R) (List Nat)
  | literal b => return [outcome b]
  | compare (some b) _ => return [outcome b]
  | compare none c =>
    match c.arg.known? with
    | some x => return [outcome (Intrinsic.holds c.relation x c.toleranceOrDefault)]
    | none => do
      let code ← c.arg.compile
      return code ++ [c.relation.opcode.word, ← placeOf c.toleranceOrDefault]
  | not (some b) _ => return [outcome b]
  | not none arg => return (← arg.compile) ++ [Opcode.not.word]
  | and (some b) _ _ => return [outcome b]
  | and none lhs rhs => do
    let code ← lhs.compile
    return code ++ (← rhs.compile) ++ [Opcode.and.word]
  | or (some b) _ _ => return [outcome b]
  | or none lhs rhs => do
    let code ← lhs.compile
    return code ++ (← rhs.compile) ++ [Opcode.or.word]
where
  outcome (b : Bool) : Nat := if b then Opcode.yes.word else Opcode.no.word

/-- How high the compiled condition lets the stack of numbers grow. -/
def height : Cond R → Nat
  | compare none c => c.arg.known?.elim c.arg.height fun _ => 0
  | not none arg => arg.height
  | and none lhs rhs => max lhs.height rhs.height
  | or none lhs rhs => max lhs.height rhs.height
  | _ => 0

/-- How high the compiled condition lets the stack of outcomes grow. -/
def outcomeHeight : Cond R → Nat
  | not none arg => arg.outcomeHeight
  | and none lhs rhs => max lhs.outcomeHeight (rhs.outcomeHeight + 1)
  | or none lhs rhs => max lhs.outcomeHeight (rhs.outcomeHeight + 1)
  | _ => 1

end Cond

namespace Statement

/-- Words that write the value of an expression to a variable, in either way. -/
def compileWrite (plain fixed : Opcode) (v : Variable) (e : Expr R) :
    StateM (Array R) (List Nat) :=
  match e.known? with
  | some x => return [fixed.word, v.slot, ← placeOf x]
  | none => return (← e.compile) ++ [plain.word, v.slot]

mutual

/-- Words that run a statement when they start at place `start` of the stream. -/
def compile (start : Nat) : Statement R → StateM (Array R) (List Nat)
  | assign v e => compileWrite .store .storeConst v e
  | pays v e => compileWrite .pay .payConst v e
  | branch c body otherwise _ => do
    let test ← c.compile
    match otherwise with
    | [] =>
      let first := start + test.length + 2
      let code ← compileBlock first body
      return test ++ [Opcode.skip.word, first + code.length] ++ code
    | _ =>
      let first := start + test.length + 3
      let code ← compileBlock first body
      let second := first + code.length
      let others ← compileBlock second otherwise
      return test ++ [Opcode.select.word, second, second + others.length] ++ code ++ others
  | sequence body => compileBlock start body

def compileBlock (start : Nat) : List (Statement R) → StateM (Array R) (List Nat)
  | [] => return []
  | s :: rest => do
    let code ← s.compile start
    return code ++ (← compileBlock (start + code.length) rest)

end

mutual

/-- How high the compiled statement lets the stack of numbers grow. -/
def height : Statement R → Nat
  | assign _ e => e.known?.elim e.height fun _ => 0
  | pays _ e => e.known?.elim e.height fun _ => 0
  | branch c body otherwise _ => max c.height (max (blockHeight body) (blockHeight otherwise))
  | sequence body => blockHeight body

def blockHeight : List (Statement R) → Nat
  | [] => 0
  | s :: rest => max s.height (blockHeight rest)

end

mutual

/-- How high the compiled statement lets the stack of outcomes grow. -/
def outcomeHeight : Statement R → Nat
  | assign _ _ => 0
  | pays _ _ => 0
  | branch c body otherwise _ =>
    max c.outcomeHeight (max (blockOutcomeHeight body) (blockOutcomeHeight otherwise))
  | sequence body => blockOutcomeHeight body

def blockOutcomeHeight : List (Statement R) → Nat
  | [] => 0
  | s :: rest => max s.outcomeHeight (blockOutcomeHeight rest)

end

end Statement

/-- The bytecode of an event. -/
def Program.ofEvent (event : Event R) : Program R :=
  let (code, constants) := (Statement.compileBlock 0 event).run #[]
  ⟨code.toArray, constants, Statement.blockHeight event, Statement.blockOutcomeHeight event⟩

end PayoffPricing.Script
