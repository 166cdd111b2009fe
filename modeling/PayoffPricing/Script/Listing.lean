import PayoffPricing.Decimal.Format
import PayoffPricing.Script.Statement
/-!
Statements in functional form, one line per statement.
-/

namespace PayoffPricing.Script

/-- A known value behind the expression it belongs to. -/
def knownText : Option Float → String
  | some v => "[=" ++ numberText v ++ "]"
  | none => ""

namespace Expr

mutual

def text : Expr Float → String
  | literal v => numberText v
  | spot => "SPOT()"
  | read known target => target.name ++ knownText known
  | neg known arg => "NEG(" ++ arg.text ++ ")" ++ knownText known
  | plus known arg => "PLUS(" ++ arg.text ++ ")" ++ knownText known
  | binary known op lhs rhs =>
    op.name ++ "(" ++ lhs.text ++ ", " ++ rhs.text ++ ")" ++ knownText known
  | call known function args =>
    function.name ++ "(" ++ ", ".intercalate (texts args) ++ ")" ++ knownText known

def texts : List (Expr Float) → List String
  | [] => []
  | e :: es => e.text :: texts es

end

end Expr

def Comparison.text (c : Comparison Float) : String :=
  c.relation.name ++ "(" ++ c.arg.text
    ++ (c.tolerance.elim "" fun t => "; eps=" ++ numberText t)
    ++ (if c.discrete then "; window=[" ++ numberText c.left ++ ", " ++ numberText c.right ++ "]"
      else "")
    ++ ")"

namespace Cond

def text : Cond Float → String
  | literal true => "TRUE"
  | literal false => "FALSE"
  | compare _ c => c.text
  | not _ arg => "NOT(" ++ arg.text ++ ")"
  | and _ lhs rhs => "AND(" ++ lhs.text ++ ", " ++ rhs.text ++ ")"
  | or _ lhs rhs => "OR(" ++ lhs.text ++ ", " ++ rhs.text ++ ")"

end Cond

namespace Statement

def indentation (depth : Nat) : String := String.ofList (List.replicate depth ' ')

mutual

/-- The lines of a statement, indented by `depth`; nested blocks are indented by two more. -/
def lines (depth : Nat) : Statement Float → List String
  | assign target value =>
    [indentation depth ++ "ASSIGN(" ++ target.name ++ ", " ++ value.text ++ ")"]
  | pays target value =>
    [indentation depth ++ "PAYS(" ++ target.name ++ ", " ++ value.text ++ ")"]
  | branch cond body otherwise affected =>
    [indentation depth ++ "IF(" ++ cond.text ++ ") AFFECTS ["
      ++ ", ".intercalate (affected.map toString) ++ "]"]
      ++ blockLines (depth + 2) body
      ++ (match otherwise with
        | [] => []
        | _ => [indentation depth ++ "ELSE"])
      ++ blockLines (depth + 2) otherwise
      ++ [indentation depth ++ "END"]
  | sequence body => [indentation depth ++ "COLLECT"] ++ blockLines (depth + 2) body

def blockLines (depth : Nat) : List (Statement Float) → List String
  | [] => []
  | s :: rest => s.lines depth ++ blockLines depth rest

end

end Statement

end PayoffPricing.Script
