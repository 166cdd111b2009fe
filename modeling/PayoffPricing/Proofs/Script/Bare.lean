import PayoffPricing.Script.Collapse
/-!
Terms without the findings of analysis, as they come from the parser.
-/

namespace PayoffPricing.Script

variable {R : Type}

namespace Expr

mutual

/-- The expression with nothing known about its value. -/
def bare : Expr R → Expr R
  | literal v => literal v
  | spot => spot
  | read _ v => read none v
  | neg _ arg => neg none arg.bare
  | plus _ arg => plus none arg.bare
  | binary _ op lhs rhs => binary none op lhs.bare rhs.bare
  | call _ f args => call none f (bareList args)

def bareList : List (Expr R) → List (Expr R)
  | [] => []
  | e :: es => e.bare :: bareList es

end

theorem bareList_eq (es : List (Expr R)) : bareList es = es.map bare := by
  induction es with
  | nil => rfl
  | cons e es ih => rw [bareList, ih, List.map_cons]

@[simp]
theorem length_bareList (es : List (Expr R)) : (bareList es).length = es.length := by
  rw [bareList_eq, List.length_map]

end Expr

namespace Cond

/-- The condition with nothing decided. -/
def bare : Cond R → Cond R
  | literal b => literal b
  | compare _ c => compare none { c with arg := c.arg.bare }
  | not _ arg => not none arg.bare
  | and _ lhs rhs => and none lhs.bare rhs.bare
  | or _ lhs rhs => or none lhs.bare rhs.bare

/-- Every decided part has been replaced by its outcome. -/
def Undecided : Cond R → Prop
  | literal _ => True
  | compare decided _ => decided = none
  | not decided arg => decided = none ∧ arg.Undecided
  | and decided lhs rhs => decided = none ∧ lhs.Undecided ∧ rhs.Undecided
  | or decided lhs rhs => decided = none ∧ lhs.Undecided ∧ rhs.Undecided

theorem undecided_collapse (c : Cond R) : c.collapse.Undecided := by
  induction c with
  | literal b => trivial
  | compare decided c => cases decided <;> simp [collapse, Undecided]
  | not decided arg ih => cases decided <;> simp [collapse, Undecided, ih]
  | and decided lhs rhs ihl ihr => cases decided <;> simp [collapse, Undecided, ihl, ihr]
  | or decided lhs rhs ihl ihr => cases decided <;> simp [collapse, Undecided, ihl, ihr]

theorem undecided_bare (c : Cond R) : c.bare.Undecided := by
  induction c with
  | literal b => trivial
  | compare decided c => rfl
  | not decided arg ih => exact ⟨rfl, ih⟩
  | and decided lhs rhs ihl ihr => exact ⟨rfl, ihl, ihr⟩
  | or decided lhs rhs ihl ihr => exact ⟨rfl, ihl, ihr⟩

end Cond

namespace Statement

mutual

/-- The statement without findings in its expressions and conditions. -/
def bare : Statement R → Statement R
  | assign v e => assign v e.bare
  | pays v e => pays v e.bare
  | branch c body otherwise affected => branch c.bare (bareBlock body) (bareBlock otherwise) affected
  | sequence body => sequence (bareBlock body)

def bareBlock : List (Statement R) → List (Statement R)
  | [] => []
  | s :: rest => s.bare :: bareBlock rest

end

mutual

/-- No condition of the statement has a decided part. -/
def Undecided : Statement R → Prop
  | assign _ _ => True
  | pays _ _ => True
  | branch c body otherwise _ => c.Undecided ∧ UndecidedBlock body ∧ UndecidedBlock otherwise
  | sequence body => UndecidedBlock body

def UndecidedBlock : List (Statement R) → Prop
  | [] => True
  | s :: rest => s.Undecided ∧ UndecidedBlock rest

end

mutual

theorem undecided_collapse : (s : Statement R) → s.collapse.1.Undecided
  | assign _ _ => trivial
  | pays _ _ => trivial
  | branch c body otherwise affected => by
    simp only [collapse]
    split
    · exact undecided_collapseBlock body
    · exact undecided_collapseBlock otherwise
    · exact ⟨c.undecided_collapse, undecided_collapseBlock body, undecided_collapseBlock otherwise⟩
  | sequence body => undecided_collapseBlock body

theorem undecided_collapseBlock : (body : List (Statement R)) → UndecidedBlock (collapseBlock body).1
  | [] => trivial
  | s :: rest => ⟨undecided_collapse s, undecided_collapseBlock rest⟩

end

mutual

theorem undecided_bare : (s : Statement R) → s.bare.Undecided
  | assign _ _ => trivial
  | pays _ _ => trivial
  | branch c body otherwise _ => ⟨c.undecided_bare, undecided_bareBlock body, undecided_bareBlock otherwise⟩
  | sequence body => undecided_bareBlock body

theorem undecided_bareBlock : (body : List (Statement R)) → UndecidedBlock (bareBlock body)
  | [] => trivial
  | s :: rest => ⟨undecided_bare s, undecided_bareBlock rest⟩

end

end Statement

end PayoffPricing.Script
