import PayoffPricing.Proofs.Script.Crisp
import PayoffPricing.Proofs.Script.Decision
import PayoffPricing.Proofs.Script.Everywhere
import PayoffPricing.Proofs.Script.Relocation
/-!
Removal of decided conditions keeps what programs do: evaluated exactly or with smoothing, and compiled.
-/

namespace PayoffPricing.Script

variable {R S T : Type}

namespace Cond

theorem collapse_collapse (c : Cond R) : c.collapse.collapse = c.collapse := by
  induction c with
  | literal b => rfl
  | compare decided c => cases decided <;> rfl
  | not decided arg ih => cases decided <;> simp [collapse, ih]
  | and decided lhs rhs ihl ihr => cases decided <;> simp [collapse, ihl, ihr]
  | or decided lhs rhs ihl ihr => cases decided <;> simp [collapse, ihl, ihr]

@[simp]
theorem decided?_collapse (c : Cond R) : c.collapse.decided? = c.decided? := by
  cases c with
  | literal b => rfl
  | compare decided c => cases decided <;> rfl
  | not decided arg => cases decided <;> rfl
  | and decided lhs rhs => cases decided <;> rfl
  | or decided lhs rhs => cases decided <;> rfl

variable [Scalar R]

theorem compile_collapse (c : Cond R) : c.collapse.compile = c.compile := by
  induction c with
  | literal b => rfl
  | compare decided c => cases decided <;> rfl
  | not decided arg ih => cases decided <;> simp [collapse, compile, ih]
  | and decided lhs rhs ihl ihr => cases decided <;> simp [collapse, compile, ihl, ihr]
  | or decided lhs rhs ihl ihr => cases decided <;> simp [collapse, compile, ihl, ihr]

variable [Quantity R S T]

theorem eval_collapse (values : Variables T) (sample : Sample T) (c : Cond R) :
    (c.collapse.eval values sample : Evaluation R S Bool) = c.eval values sample := by
  induction c with
  | literal b => rfl
  | compare decided c => cases decided <;> rfl
  | not decided arg ih => cases decided <;> simp [collapse, eval, ih]
  | and decided lhs rhs ihl ihr => cases decided <;> simp [collapse, eval, ihl, ihr]
  | or decided lhs rhs ihl ihr => cases decided <;> simp [collapse, eval, ihl, ihr]

theorem eval_of_decided {c : Cond R} {b : Bool} (h : c.decided? = some b) (values : Variables T) (sample : Sample T) :
    (c.eval values sample : Evaluation R S Bool) = pure b := by
  rw [← eval_collapse, collapse_of_decided h, eval]

theorem degree_collapse (width : R) (values : Variables T) (sample : Sample T) (c : Cond R) :
    (Fuzzy.degree width values sample c.collapse : Evaluation R S T) = Fuzzy.degree width values sample c := by
  induction c with
  | literal b => rfl
  | compare decided c => cases decided <;> rfl
  | not decided arg ih => cases decided <;> simp [collapse, Fuzzy.degree, ih]
  | and decided lhs rhs ihl ihr => cases decided <;> simp [collapse, Fuzzy.degree, ihl, ihr]
  | or decided lhs rhs ihl ihr => cases decided <;> simp [collapse, Fuzzy.degree, ihl, ihr]

theorem degree_of_decided {c : Cond R} {b : Bool} (h : c.decided? = some b) (width : R) (values : Variables T)
    (sample : Sample T) : (Fuzzy.degree width values sample c : Evaluation R S T) = pure (Fuzzy.crisp b) := by
  rw [← degree_collapse, collapse_of_decided h, Fuzzy.degree]

end Cond

namespace Statement

section Structure

/-- No conditional statement has a decided condition. -/
abbrev AllOpen (body : List (Statement R)) : Prop :=
  HoldsBlock (fun _ _ => True) (fun c => c.decided? = none) (fun _ => True) body

mutual

theorem open_collapse : (s : Statement R) →
    s.collapse.1.Holds (fun _ _ => True) (fun c => c.decided? = none) fun _ => True
  | assign _ _ => trivial
  | pays _ _ => trivial
  | branch c body otherwise affected => by
    simp only [collapse]
    split
    · exact allOpen_collapseBlock body
    · exact allOpen_collapseBlock otherwise
    · next h => exact ⟨c.decided?_collapse.trans h, allOpen_collapseBlock body, allOpen_collapseBlock otherwise, trivial⟩
  | sequence body => allOpen_collapseBlock body

theorem allOpen_collapseBlock : (body : List (Statement R)) → AllOpen (collapseBlock body).1
  | [] => trivial
  | s :: rest => ⟨open_collapse s, allOpen_collapseBlock rest⟩

end

mutual

theorem collapse_collapse : (s : Statement R) → s.collapse.1.collapse = (s.collapse.1, 0)
  | assign _ _ => rfl
  | pays _ _ => rfl
  | branch c body otherwise affected => by
    have hbody := collapseBlock_collapseBlock body
    have hotherwise := collapseBlock_collapseBlock otherwise
    rw [collapse]
    split
    · simp only [collapse, hbody]
    · simp only [collapse, hotherwise]
    · next h => simp only [collapse, Cond.decided?_collapse, h, hbody, hotherwise, Cond.collapse_collapse]
  | sequence body => by
    simp only [collapse, collapseBlock_collapseBlock body]

theorem collapseBlock_collapseBlock : (body : List (Statement R)) →
    collapseBlock (collapseBlock body).1 = ((collapseBlock body).1, 0)
  | [] => rfl
  | s :: rest => by
    simp only [collapseBlock, collapse_collapse s, collapseBlock_collapseBlock rest]

end

theorem collapseBlock_eq_nil_iff {body : List (Statement R)} : (collapseBlock body).1 = [] ↔ body = [] := by
  cases body <;> simp [collapseBlock]

end Structure

variable [Scalar R] [Quantity R S T] (sample : Sample T)

section Exact

mutual

theorem run_collapse : (s : Statement R) →
    (s.collapse.1.run sample : Process R S (Variables T) Unit) = s.run sample
  | assign _ _ => rfl
  | pays _ _ => rfl
  | branch c body otherwise affected => by
    have hbody := runBlock_collapseBlock body
    have hotherwise := runBlock_collapseBlock otherwise
    simp only [collapse]
    split
    · next h =>
      simp only [run, hbody, Cond.eval_of_decided h]
      rfl
    · next h =>
      simp only [run, hotherwise, Cond.eval_of_decided h]
      rfl
    · simp only [run, hbody, hotherwise, Cond.eval_collapse]
  | sequence body => by
    simp only [collapse, run, runBlock_collapseBlock body]

theorem runBlock_collapseBlock : (body : List (Statement R)) →
    (runBlock sample (collapseBlock body).1 : Process R S (Variables T) Unit) = runBlock sample body
  | [] => rfl
  | s :: rest => by
    simp only [collapseBlock, runBlock, run_collapse s, runBlock_collapseBlock rest]

end

end Exact

end Statement

/-- One counts as true and zero as false, with the cutoffs of smoothing. -/
class CrispScalar (R : Type) [Scalar R] : Prop where
  true_above : (1 : R) > 1 - Fuzzy.cutoff
  false_below : ¬(0 : R) > 1 - Fuzzy.cutoff ∧ (0 : R) < Fuzzy.cutoff

instance : CrispScalar Float := ⟨by decide, by decide⟩

instance {R : Type} [ExactScalar R] : CrispScalar R := ⟨above_cutoff, below_cutoff⟩

namespace Fuzzy

variable [Scalar R] [Quantity R S T] [CrispScalar R] [SteadyQuantity R S T] (width : R) (sample : Sample T)

omit [CrispScalar R] in
theorem value_crisp (b : Bool) : Valued.value (crisp b : T) = if b then (1 : R) else 0 := by
  cases b
  · exact SteadyQuantity.value_constant (S := S) (0 : R)
  · exact SteadyQuantity.value_constant (S := S) (1 : R)

theorem run_of_decided {c : Cond R} {b : Bool} (h : c.decided? = some b) (body otherwise : List (Statement R))
    (affected : List Nat) : (run width sample (.branch c body otherwise affected) : Process R S (State T) Unit) =
      runBlock width sample (if b then body else otherwise) := by
  have hvalue := value_crisp (R := R) (S := S) (T := T) b
  have hdegree : ∀ values : Variables T,
      (Process.ofEvaluation (degree width values sample c) : Process R S (State T) T) = pure (crisp b) := fun values => by
    rw [Cond.degree_of_decided h]
    rfl
  simp only [run, hdegree, pure_bind, hvalue]
  cases b with
  | true =>
    simp only [if_true, if_pos CrispScalar.true_above]
    rfl
  | false =>
    simp only [Bool.false_eq_true, if_false, if_neg CrispScalar.false_below.1, if_pos CrispScalar.false_below.2]
    rfl

-- The linter does not see that the two theorems call each other.
set_option linter.unusedSectionVars false in
mutual

theorem run_collapse : (s : Statement R) →
    (run width sample s.collapse.1 : Process R S (State T) Unit) = run width sample s
  | .assign _ _ => rfl
  | .pays _ _ => rfl
  | .branch c body otherwise affected => by
    have hbody := runBlock_collapseBlock body
    have hotherwise := runBlock_collapseBlock otherwise
    simp only [Statement.collapse]
    split
    · next h =>
      rw [run_of_decided width sample h, run]
      exact hbody
    · next h =>
      rw [run_of_decided width sample h, run]
      exact hotherwise
    · simp only [run, hbody, hotherwise, Cond.degree_collapse]
  | .sequence body => by
    simp only [Statement.collapse, run, runBlock_collapseBlock body]

theorem runBlock_collapseBlock : (body : List (Statement R)) →
    (runBlock width sample (Statement.collapseBlock body).1 : Process R S (State T) Unit) = runBlock width sample body
  | [] => rfl
  | s :: rest => by
    simp only [Statement.collapseBlock, runBlock, run_collapse s, runBlock_collapseBlock rest]

end

end Fuzzy

namespace Statement

open Machine

theorem decide_outcome (b : Bool) (x y : Process R S (Machine T) Unit) :
    (do pushOutcome b; if ← popOutcome then x else y : Process R S (Machine T) Unit) = if b then x else y := by
  cases b <;> rfl

variable [Scalar R] [Quantity R S T] {sample : Sample T}

theorem emits_branch {c : Cond R} {body otherwise : List (Statement R)} {d x y : Process R S (Machine T) Unit}
    (hc : Emits c.compile (Acts sample d)) (hbody : ∀ start, Emits (compileBlock start body) (Enacts sample x start))
    (hotherwise : ∀ start, Emits (compileBlock start otherwise) (Enacts sample y start))
    (hnil : otherwise = [] → y = pure ()) (affected : List Nat) (start : Nat) :
    Emits ((branch c body otherwise affected).compile start)
      (Enacts sample (do d; if ← popOutcome then x else y) start) := by
  cases otherwise with
  | nil =>
    obtain rfl := hnil rfl
    exact hc.bind fun test => (hbody _).bind fun code => .pure fun final hcode htest => .skip htest hcode
  | cons s rest =>
    exact hc.bind fun test => (hbody _).bind fun code => (hotherwise _).bind fun others =>
      .pure fun final hothers hcode htest => .select htest hcode hothers

theorem emits_branch_of_decided {c : Cond R} {b : Bool} (h : c.decided? = some b) {body otherwise : List (Statement R)}
    {x y : Process R S (Machine T) Unit} (hbody : ∀ start, Emits (compileBlock start body) (Enacts sample x start))
    (hotherwise : ∀ start, Emits (compileBlock start otherwise) (Enacts sample y start))
    (hnil : otherwise = [] → y = pure ()) (affected : List Nat) (start : Nat) :
    Emits ((branch c body otherwise affected).compile start) (Enacts sample (if b then x else y) start) := by
  have hbranch := emits_branch (Cond.relocates_of_decided h) hbody hotherwise hnil affected start
  rwa [decide_outcome] at hbranch

variable (S) in
/-- The code of two statements does the same, wherever it stands. -/
def SameCode (sample : Sample T) (s s' : Statement R) : Prop :=
  ∃ action : Process R S (Machine T) Unit, (∀ start, Emits (s.compile start) (Enacts sample action start)) ∧
    ∀ start, Emits (s'.compile start) (Enacts sample action start)

variable (S) in
/-- The code of two blocks does the same, wherever it stands. -/
def SameBlockCode (sample : Sample T) (body body' : List (Statement R)) : Prop :=
  ∃ action : Process R S (Machine T) Unit, (body = [] → action = pure ()) ∧
    (∀ start, Emits (compileBlock start body) (Enacts sample action start)) ∧
    ∀ start, Emits (compileBlock start body') (Enacts sample action start)

theorem sameBlockCode_nil : SameBlockCode S sample ([] : List (Statement R)) [] :=
  ⟨pure (), fun _ => rfl, fun start => .pure fun final => .nil sample start final,
    fun start => .pure fun final => .nil sample start final⟩

theorem SameCode.cons {s s' : Statement R} {rest rest' : List (Statement R)} (h : SameCode S sample s s')
    (hrest : SameBlockCode S sample rest rest') : SameBlockCode S sample (s :: rest) (s' :: rest') := by
  obtain ⟨a, ha, ha'⟩ := h
  obtain ⟨b, -, hb, hb'⟩ := hrest
  refine ⟨do a; b, fun hnil => absurd hnil (List.cons_ne_nil s rest), fun start => ?_, fun start => ?_⟩
  · exact (ha start).bind fun code => (hb _).bind fun more => .pure fun final hmore hcode => hcode.append hmore
  · exact (ha' start).bind fun code => (hb' _).bind fun more => .pure fun final hmore hcode => hcode.append hmore

variable [RepresentedScalar R]

-- The linter does not see that the two theorems call each other.
set_option linter.unusedSectionVars false in
mutual

theorem sameCode_collapse : (s : Statement R) → SameCode S sample s s.collapse.1
  | assign v e => by
    obtain ⟨a, ha⟩ := relocates_assign (S := S) sample v e
    exact ⟨a, fun start => ha.mono fun final code h => h start, fun start => ha.mono fun final code h => h start⟩
  | pays v e => by
    obtain ⟨a, ha⟩ := relocates_pays (S := S) sample v e
    exact ⟨a, fun start => ha.mono fun final code h => h start, fun start => ha.mono fun final code h => h start⟩
  | branch c body otherwise affected => by
    obtain ⟨x, -, hx, hx'⟩ := sameBlockCode_collapse body
    obtain ⟨y, hnil, hy, hy'⟩ := sameBlockCode_collapse otherwise
    simp only [collapse]
    split
    · next h => exact ⟨x, emits_branch_of_decided h hx hy hnil affected, hx'⟩
    · next h => exact ⟨y, emits_branch_of_decided h hx hy hnil affected, hy'⟩
    · obtain ⟨d, hd⟩ : c.Relocates S sample := c.relocates
      refine ⟨_, emits_branch hd hx hy hnil affected, emits_branch ?_ hx' hy' ?_ affected⟩
      · rwa [Cond.compile_collapse]
      · exact fun h => hnil (collapseBlock_eq_nil_iff.1 h)
  | sequence body => by
    obtain ⟨x, -, hx, hx'⟩ := sameBlockCode_collapse body
    exact ⟨x, hx, hx'⟩

theorem sameBlockCode_collapse : (body : List (Statement R)) → SameBlockCode S sample body (collapseBlock body).1
  | [] => sameBlockCode_nil
  | s :: rest => (sameCode_collapse s).cons (sameBlockCode_collapse rest)

end

end Statement

namespace Machine

variable [Scalar R] [Quantity R S T] {sample : Sample T}

/-- The code of a whole event, run from an empty stack. -/
theorem run_ofEvent {event : Event R} {action : Process R S (Machine T) Unit}
    (h : Emits (Statement.compileBlock 0 event) (Enacts sample action 0)) :
    (run (Program.ofEvent event) sample : Process R S (Machine T) Unit) = (do
      modify fun m => { m with numbers := [], outcomes := [] }
      action) := by
  have hcode : Enacts sample action 0 (Program.ofEvent event).constants (Program.ofEvent event).code.toList :=
    (h #[]).2 _ (List.prefix_refl _)
  have hrun := hcode _ rfl (Program.hasCode_toList _) (Program.ofEvent event).code.size (by simp)
  rw [run, hrun, runFrom_stop (by simp), bind_pure]

theorem run_collapseBlock [RepresentedScalar R] (event : Event R) :
    (run (Program.ofEvent (Statement.collapseBlock event).1) sample : Process R S (Machine T) Unit) =
      run (Program.ofEvent event) sample := by
  obtain ⟨action, -, h, h'⟩ : Statement.SameBlockCode S sample event _ := Statement.sameBlockCode_collapse event
  rw [run_ofEvent (h' 0), run_ofEvent (h 0)]

end Machine

end PayoffPricing.Script
