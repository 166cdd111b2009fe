import Mathlib.Tactic.SplitIfs
import PayoffPricing.Proofs.Script.Process
import PayoffPricing.Script.Bytecode
import PayoffPricing.Script.Collapse
import PayoffPricing.Script.Exact
import PayoffPricing.Script.Folding
import PayoffPricing.Script.Inference
/-!
Windows of comparisons play no part in what is crisp. A statement and the statement without its windows go through
every stage of analysis side by side, run alike and compile to the same words.
-/

namespace PayoffPricing.Script

variable {R S T : Type}

section Annotated

variable {ε α β : Type}

/-- Annotation of another term, which stops where this one stops. -/
def Annotated.map (f : α → β) (r : Annotated ε α) : Annotated ε β := ⟨f r.term, r.stop⟩

theorem Annotated.result_map (f : α → β) (r : Annotated ε α) : (r.map f).result = f <$> r.result := by
  obtain ⟨term, stop⟩ := r
  cases stop <;> rfl

end Annotated

variable [Scalar R]

namespace Comparison

/-- The comparison with the window of one that has not been analysed. -/
def windowless (c : Comparison R) : Comparison R := { c with discrete := false, left := -0.5, right := 0.5 }

theorem windowless_withWindow (c : Comparison R) (d : Domain R) : (c.withWindow d).windowless = c.windowless := by
  unfold withWindow
  dsimp only
  split <;> split_ifs <;> rfl

end Comparison

namespace Cond

def windowless : Cond R → Cond R
  | literal b => literal b
  | compare decided c => compare decided c.windowless
  | not decided arg => not decided arg.windowless
  | and decided lhs rhs => and decided lhs.windowless rhs.windowless
  | or decided lhs rhs => or decided lhs.windowless rhs.windowless

@[simp]
theorem decided?_windowless (c : Cond R) : c.windowless.decided? = c.decided? := by
  cases c <;> rfl

theorem decide_windowless (fuzzy : Bool) (domains : Domains R) (c : Cond R) :
    c.windowless.decide false domains = (c.decide fuzzy domains).map windowless := by
  induction c with
  | literal b => rfl
  | compare decided c =>
    have harg : c.windowless.arg = c.arg := rfl
    have hrelation : c.windowless.relation = c.relation := rfl
    simp only [windowless, decide, harg, hrelation]
    cases hd : c.arg.domain domains with
    | error e => rfl
    | ok d =>
      cases ho : Comparison.outcome c.relation d with
      | some b => simp only [ho, Annotated.map, windowless]
      | none =>
        cases fuzzy with
        | false => simp only [ho, Annotated.map, windowless]; rfl
        | true => simp [ho, Annotated.map, windowless, c.windowless_withWindow d]
  | not decided arg ih => simp only [windowless, decide, ih, Annotated.map, decided?_windowless]
  | and decided lhs rhs ihl ihr | or decided lhs rhs ihl ihr =>
    simp only [windowless, decide, ihl, ihr, Annotated.map, decided?_windowless]
    split <;> rfl

theorem collapse_windowless (c : Cond R) : c.windowless.collapse = c.collapse.windowless := by
  induction c with
  | literal b => rfl
  | compare decided c => cases decided <;> rfl
  | not decided arg ih => cases decided <;> simp [windowless, collapse, ih]
  | and decided lhs rhs ihl ihr => cases decided <;> simp [windowless, collapse, ihl, ihr]
  | or decided lhs rhs ihl ihr => cases decided <;> simp [windowless, collapse, ihl, ihr]

theorem fold_windowless (values : Array (Option R)) (c : Cond R) :
    c.windowless.fold values = (c.fold values).map windowless := by
  induction c with
  | literal b => rfl
  | compare decided c =>
    simp only [windowless, fold, Comparison.windowless]
    rcases c.arg.fold values with ⟨arg, result⟩
    cases result <;> rfl
  | not decided arg ih => simp only [windowless, fold, ih, Annotated.map]
  | and decided lhs rhs ihl ihr | or decided lhs rhs ihl ihr =>
    simp only [windowless, fold, ihl, ihr, Annotated.map]
    split <;> rfl

theorem compile_windowless (c : Cond R) : c.windowless.compile = c.compile := by
  induction c with
  | literal b => rfl
  | compare decided c => cases decided <;> rfl
  | not decided arg ih => cases decided <;> simp [windowless, compile, ih]
  | and decided lhs rhs ihl ihr => cases decided <;> simp [windowless, compile, ihl, ihr]
  | or decided lhs rhs ihl ihr => cases decided <;> simp [windowless, compile, ihl, ihr]

theorem height_windowless (c : Cond R) : c.windowless.height = c.height := by
  induction c with
  | literal b => rfl
  | compare decided c => cases decided <;> rfl
  | not decided arg ih => cases decided <;> simp [windowless, height, ih]
  | and decided lhs rhs ihl ihr => cases decided <;> simp [windowless, height, ihl, ihr]
  | or decided lhs rhs ihl ihr => cases decided <;> simp [windowless, height, ihl, ihr]

theorem outcomeHeight_windowless (c : Cond R) : c.windowless.outcomeHeight = c.outcomeHeight := by
  induction c with
  | literal b => rfl
  | compare decided c => cases decided <;> rfl
  | not decided arg ih => cases decided <;> simp [windowless, outcomeHeight, ih]
  | and decided lhs rhs ihl ihr => cases decided <;> simp [windowless, outcomeHeight, ihl, ihr]
  | or decided lhs rhs ihl ihr => cases decided <;> simp [windowless, outcomeHeight, ihl, ihr]

theorem eval_windowless [Quantity R S T] (values : Variables T) (sample : Sample T) (c : Cond R) :
    (c.windowless.eval values sample : Evaluation R S Bool) = c.eval values sample := by
  induction c with
  | literal b => rfl
  | compare decided c => cases decided <;> rfl
  | not decided arg ih => cases decided <;> simp [windowless, eval, ih]
  | and decided lhs rhs ihl ihr => cases decided <;> simp [windowless, eval, ihl, ihr]
  | or decided lhs rhs ihl ihr => cases decided <;> simp [windowless, eval, ihl, ihr]

end Cond

namespace Statement

mutual

/-- The statement with none of its comparisons windowed. -/
def windowless : Statement R → Statement R
  | assign v e => assign v e
  | pays v e => pays v e
  | branch c body otherwise affected =>
    branch c.windowless (windowlessBlock body) (windowlessBlock otherwise) affected
  | sequence body => sequence (windowlessBlock body)

def windowlessBlock : List (Statement R) → List (Statement R)
  | [] => []
  | s :: rest => s.windowless :: windowlessBlock rest

end

section Passes

variable (fuzzy : Bool)

mutual

theorem infer_windowless : (s : Statement R) →
    s.windowless.infer false = Annotated.map windowless <$> s.infer fuzzy
  | assign v e => by
    simp only [windowless, infer, map_bind]
    refine bind_congr fun domains => ?_
    cases e.domain domains <;> rfl
  | pays v e => by
    simp only [windowless, infer, map_bind]
    refine bind_congr fun domains => ?_
    cases e.domain domains >>= paidDomain domains v.slot <;> rfl
  | branch c body otherwise affected => by
    have hbody := inferBlock_windowless body
    have hotherwise := inferBlock_windowless otherwise
    simp only [windowless, infer, map_bind, hbody, hotherwise, bind_map_left]
    refine bind_congr fun domains => ?_
    rw [c.decide_windowless fuzzy domains]
    obtain ⟨c, stop⟩ := c.decide fuzzy domains
    simp only [Annotated.map, Cond.decided?_windowless]
    split_ifs
    · rfl
    cases c.decided? with
    | some b => cases b <;> simp only [map_bind, map_pure, Annotated.map, windowless]
    | none =>
      simp only [map_bind]
      refine bind_congr fun domains => ?_
      cases Domains.collect affected domains with
      | error e => rfl
      | ok before =>
        simp only [map_bind]
        refine bind_congr fun ⟨body, stop⟩ => ?_
        cases stop with
        | some e => rfl
        | none =>
          simp only [Option.isSome_none, Bool.false_eq_true, ↓reduceIte, map_bind]
          refine bind_congr fun domains => ?_
          cases Domains.collect affected domains with
          | error e => rfl
          | ok after =>
            simp only [map_bind]
            refine bind_congr fun _ => bind_congr fun ⟨otherwise, stop⟩ => ?_
            cases stop with
            | some e => rfl
            | none =>
              simp only [Option.isSome_none, Bool.false_eq_true, ↓reduceIte, map_bind]
              refine bind_congr fun domains => ?_
              cases Domains.collect affected domains <;> rfl
  | sequence body => by
    have hbody := inferBlock_windowless body
    simp only [windowless, infer, map_bind, hbody, bind_map_left]
    rfl

theorem inferBlock_windowless : (body : List (Statement R)) →
    inferBlock false (windowlessBlock body) = Annotated.map windowlessBlock <$> inferBlock fuzzy body
  | [] => rfl
  | s :: rest => by
    have hs := infer_windowless s
    have hrest := inferBlock_windowless rest
    simp only [windowlessBlock, inferBlock, map_bind, hs, hrest, bind_map_left]
    refine bind_congr fun ⟨s, stop⟩ => ?_
    cases stop with
    | some e => rfl
    | none => simp [Annotated.map, windowlessBlock]

end

mutual

theorem fold_windowless (conditional : Bool) : (s : Statement R) →
    s.windowless.fold conditional = Annotated.map windowless <$> s.fold conditional
  | assign v e => by
    simp only [windowless, fold, map_bind]
    refine bind_congr fun k => ?_
    rcases e.fold k.values with ⟨e, result⟩
    cases result <;> rfl
  | pays v e => by
    simp only [windowless, fold, map_bind]
    refine bind_congr fun k => ?_
    rcases e.fold k.values with ⟨e, result⟩
    cases result <;> rfl
  | branch c body otherwise affected => by
    have hbody := foldBlock_windowless true body
    have hotherwise := foldBlock_windowless true otherwise
    simp only [windowless, fold, map_bind, hbody, hotherwise, bind_map_left]
    refine bind_congr fun k => ?_
    rw [c.fold_windowless k.values]
    obtain ⟨c, stop⟩ := c.fold k.values
    cases stop with
    | some e => rfl
    | none =>
      simp only [Annotated.map, Option.isSome_none, Bool.false_eq_true, ↓reduceIte, map_bind]
      refine bind_congr fun ⟨body, stop⟩ => ?_
      cases stop with
      | some e => rfl
      | none => simp [Annotated.map, windowless]
  | sequence body => by
    have hbody := foldBlock_windowless conditional body
    simp only [windowless, fold, map_bind, hbody, bind_map_left]
    rfl

theorem foldBlock_windowless (conditional : Bool) : (body : List (Statement R)) →
    foldBlock conditional (windowlessBlock body) = Annotated.map windowlessBlock <$> foldBlock conditional body
  | [] => rfl
  | s :: rest => by
    have hs := fold_windowless conditional s
    have hrest := foldBlock_windowless conditional rest
    simp only [windowlessBlock, foldBlock, map_bind, hs, hrest, bind_map_left]
    refine bind_congr fun ⟨s, stop⟩ => ?_
    cases stop with
    | some e => rfl
    | none => simp [Annotated.map, windowlessBlock]

end

mutual

theorem collapse_windowless : (s : Statement R) →
    s.windowless.collapse = (s.collapse.1.windowless, s.collapse.2)
  | assign _ _ => rfl
  | pays _ _ => rfl
  | branch c body otherwise affected => by
    simp only [windowless, collapse, Cond.decided?_windowless, collapseBlock_windowless body,
      collapseBlock_windowless otherwise]
    split
    · rfl
    · rfl
    · simp only [windowless, Cond.collapse_windowless]
  | sequence body => by simp only [windowless, collapse, collapseBlock_windowless body]

theorem collapseBlock_windowless : (body : List (Statement R)) →
    collapseBlock (windowlessBlock body) = (windowlessBlock (collapseBlock body).1, (collapseBlock body).2)
  | [] => rfl
  | s :: rest => by
    simp only [windowlessBlock, collapseBlock, collapse_windowless s, collapseBlock_windowless rest]

end

end Passes

section Compilation

mutual

theorem compile_windowless (start : Nat) : (s : Statement R) → s.windowless.compile start = s.compile start
  | assign _ _ => rfl
  | pays _ _ => rfl
  | branch c body otherwise affected => by
    have hbody (start : Nat) := compileBlock_windowless start body
    cases otherwise with
    | nil => simp only [windowless, windowlessBlock, compile, c.compile_windowless, hbody]
    | cons s rest =>
      have hotherwise (start : Nat) := compileBlock_windowless start (s :: rest)
      simp only [windowlessBlock] at hotherwise
      simp only [windowless, windowlessBlock, compile, c.compile_windowless, hbody, hotherwise]
  | sequence body => by simp only [windowless, compile, compileBlock_windowless start body]

theorem compileBlock_windowless (start : Nat) : (body : List (Statement R)) →
    compileBlock start (windowlessBlock body) = compileBlock start body
  | [] => rfl
  | s :: rest => by
    have hrest (start : Nat) := compileBlock_windowless start rest
    simp only [windowlessBlock, compileBlock, compile_windowless start s, hrest]

end

mutual

theorem height_windowless : (s : Statement R) → s.windowless.height = s.height
  | assign _ _ => rfl
  | pays _ _ => rfl
  | branch c body otherwise _ => by
    simp only [windowless, height, c.height_windowless, blockHeight_windowless body, blockHeight_windowless otherwise]
  | sequence body => by simp only [windowless, height, blockHeight_windowless body]

theorem blockHeight_windowless : (body : List (Statement R)) → blockHeight (windowlessBlock body) = blockHeight body
  | [] => rfl
  | s :: rest => by simp only [windowlessBlock, blockHeight, height_windowless s, blockHeight_windowless rest]

end

mutual

theorem outcomeHeight_windowless : (s : Statement R) → s.windowless.outcomeHeight = s.outcomeHeight
  | assign _ _ => rfl
  | pays _ _ => rfl
  | branch c body otherwise _ => by
    simp only [windowless, outcomeHeight, c.outcomeHeight_windowless, blockOutcomeHeight_windowless body,
      blockOutcomeHeight_windowless otherwise]
  | sequence body => by simp only [windowless, outcomeHeight, blockOutcomeHeight_windowless body]

theorem blockOutcomeHeight_windowless : (body : List (Statement R)) →
    blockOutcomeHeight (windowlessBlock body) = blockOutcomeHeight body
  | [] => rfl
  | s :: rest => by
    simp only [windowlessBlock, blockOutcomeHeight, outcomeHeight_windowless s, blockOutcomeHeight_windowless rest]

end

end Compilation

section Runs

variable [Quantity R S T] (sample : Sample T)

mutual

theorem run_windowless : (s : Statement R) → (s.windowless.run sample : Process R S (Variables T) Unit) = s.run sample
  | assign _ _ => rfl
  | pays _ _ => rfl
  | branch c body otherwise _ => by
    simp only [windowless, run, c.eval_windowless, runBlock_windowless body, runBlock_windowless otherwise]
  | sequence body => by simp only [windowless, run, runBlock_windowless body]

theorem runBlock_windowless : (body : List (Statement R)) →
    (runBlock sample (windowlessBlock body) : Process R S (Variables T) Unit) = runBlock sample body
  | [] => rfl
  | s :: rest => by simp only [windowlessBlock, runBlock, run_windowless s, runBlock_windowless rest]

end

end Runs

end Statement

/-- An event compiles to the same program without its windows. -/
theorem Program.ofEvent_windowless (event : Event R) : ofEvent (Statement.windowlessBlock event) = ofEvent event := by
  simp only [ofEvent, Statement.compileBlock_windowless, Statement.blockHeight_windowless,
    Statement.blockOutcomeHeight_windowless]

end PayoffPricing.Script
