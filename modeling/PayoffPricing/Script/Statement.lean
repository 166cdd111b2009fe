import PayoffPricing.Script.Expr
/-!
Conditions and statements of the payoff language. Analysis leaves its findings in place: the
outcome of a decided condition, the window of a comparison whose argument takes isolated values,
and the variables that a conditional statement may write.
-/

namespace PayoffPricing.Script

/-- How a number is compared with zero. -/
inductive Relation where
  | equal
  | above
  | aboveOrEqual
deriving DecidableEq, Repr

/--
A comparison of an expression with zero. When `discrete`, the argument takes no value strictly
between `left` and `right` but perhaps zero.
-/
structure Comparison (R : Type) where
  relation : Relation
  arg : Expr R
  tolerance : Option R
  discrete : Bool
  left : R
  right : R

/-- A condition; `decided` is its outcome when that does not depend on the path. A literal is always decided. -/
inductive Cond (R : Type) where
  | literal (holds : Bool)
  | compare (decided : Option Bool) (comparison : Comparison R)
  | not (decided : Option Bool) (arg : Cond R)
  | and (decided : Option Bool) (lhs rhs : Cond R)
  | or (decided : Option Bool) (lhs rhs : Cond R)

/-- A statement; `affected` lists the slots that a conditional one may write. -/
inductive Statement (R : Type) where
  | assign (target : Variable) (value : Expr R)
  | pays (target : Variable) (value : Expr R)
  | branch (cond : Cond R) (body otherwise : List (Statement R)) (affected : List Nat)
  | sequence (body : List (Statement R))

namespace Relation

def name : Relation → String
  | equal => "EQUAL"
  | above => "SUP"
  | aboveOrEqual => "SUPEQUAL"

end Relation

namespace Comparison

/-- A comparison that has not been analysed. -/
def new {R : Type} [Scalar R] (relation : Relation) (arg : Expr R) (tolerance : Option R) :
    Comparison R :=
  ⟨relation, arg, tolerance, false, -0.5, 0.5⟩

end Comparison

namespace Cond

variable {R : Type}

/-- The outcome of the condition when that does not depend on the path. -/
def decided? : Cond R → Option Bool
  | literal b => some b
  | compare decided _ => decided
  | not decided _ => decided
  | and decided _ _ => decided
  | or decided _ _ => decided

end Cond

end PayoffPricing.Script
