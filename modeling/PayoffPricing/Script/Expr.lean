import PayoffPricing.Scalar
/-!
Expressions of the payoff language. Constant folding leaves the value of a constant expression at
its root; literals are their own value.
-/

namespace PayoffPricing.Script

inductive Operator where
  | add
  | sub
  | mul
  | div
  | pow
deriving DecidableEq, Repr

inductive Function where
  | log
  | sqrt
  | exp
  | min
  | max
  | smooth
deriving DecidableEq, Repr

/-- A variable and its slot in the table of variables. -/
structure Variable where
  name : String
  slot : Nat
deriving DecidableEq, Repr

/-- An expression; `known` is its value when that does not depend on the path. -/
inductive Expr (R : Type) where
  | literal (value : R)
  | spot
  | read (known : Option R) (target : Variable)
  | neg (known : Option R) (arg : Expr R)
  | plus (known : Option R) (arg : Expr R)
  | binary (known : Option R) (op : Operator) (lhs rhs : Expr R)
  | call (known : Option R) (function : Function) (args : List (Expr R))

namespace Operator

def name : Operator → String
  | add => "ADD"
  | sub => "SUB"
  | mul => "MUL"
  | div => "DIV"
  | pow => "POW"

end Operator

namespace Function

def all : List Function := [log, sqrt, exp, min, max, smooth]

def name : Function → String
  | log => "LOG"
  | sqrt => "SQRT"
  | exp => "EXP"
  | min => "MIN"
  | max => "MAX"
  | smooth => "SMOOTH"

def ofName? (s : String) : Option Function := all.find? fun f => f.name == s

/-- The least and the greatest number of arguments. -/
def arity : Function → Nat × Nat
  | log => (1, 1)
  | sqrt => (1, 1)
  | exp => (1, 1)
  | min => (2, 1000)
  | max => (2, 1000)
  | smooth => (4, 4)

end Function

namespace Variable

/-- The slot of a variable that has none yet. -/
def unassigned : Nat := 1 <<< 64 - 1

def ofName (name : String) : Variable := ⟨name, unassigned⟩

end Variable

namespace Expr

variable {R : Type}

/-- The value of the expression when that does not depend on the path. -/
def known? : Expr R → Option R
  | literal v => some v
  | spot => none
  | read known _ => known
  | neg known _ => known
  | plus known _ => known
  | binary known _ _ _ => known
  | call known _ _ => known

/-- A difference that nothing is known about. -/
def difference (a b : Expr R) : Expr R := binary none .sub a b

end Expr

end PayoffPricing.Script
