import PayoffPricing.Script.Slots
/-!
Arities of calls. In texts that can be read, every call has as many arguments as its function takes.
-/

namespace PayoffPricing.Script

variable {R : Type}

def Function.takes (f : Function) (count : Nat) : Bool :=
  decide (f.arity.1 ≤ count) && decide (count ≤ f.arity.2)

namespace Expr

mutual

/-- All calls in the expression have a number of arguments that their function takes. -/
def hasArities : Expr R → Bool
  | literal _ => true
  | spot => true
  | read _ _ => true
  | neg _ arg => arg.hasArities
  | plus _ arg => arg.hasArities
  | binary _ _ lhs rhs => lhs.hasArities && rhs.hasArities
  | call _ f args => f.takes args.length && haveArities args

def haveArities : List (Expr R) → Bool
  | [] => true
  | e :: es => e.hasArities && haveArities es

end

end Expr

def Cond.hasArities : Cond R → Bool
  | literal _ => true
  | compare _ c => c.arg.hasArities
  | not _ arg => arg.hasArities
  | and _ lhs rhs => lhs.hasArities && rhs.hasArities
  | or _ lhs rhs => lhs.hasArities && rhs.hasArities

namespace Statement

mutual

def hasArities : Statement R → Bool
  | assign _ e => e.hasArities
  | pays _ e => e.hasArities
  | branch c body otherwise _ => c.hasArities && blockHasArities body && blockHasArities otherwise
  | sequence body => blockHasArities body

def blockHasArities : List (Statement R) → Bool
  | [] => true
  | s :: rest => s.hasArities && blockHasArities rest

end

end Statement

end PayoffPricing.Script
