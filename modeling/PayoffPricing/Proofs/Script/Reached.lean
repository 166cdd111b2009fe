import PayoffPricing.Proofs.Script.Bare
import PayoffPricing.Proofs.Script.Process
import PayoffPricing.Script.Exact
/-!
What a run comes to when nothing is known beforehand: a statement reaches the expressions that it evaluates,
and an expression those of its parts that are evaluated. What follows an error is not reached.
-/

namespace PayoffPricing.Script

variable {R : Type} [Scalar R]

/-- Whether evaluation looks at the arguments of a function, given their number. -/
def Function.Takes : Function → Nat → Prop
  | .log, n | .sqrt, n | .exp, n => n = 1
  | .min, n | .max, n => 0 < n
  | .smooth, n => n = 4

namespace Expr

/-- The value of an expression when nothing is known beforehand. -/
def outcome (vs : Variables R) (s : Sample R) (e : Expr R) : Except (Fault (ScriptError R)) R :=
  ((e.bare.eval vs s : Evaluation R Unit R).exec ()).1

variable (P : Expr R → Prop) (vs : Variables R) (s : Sample R)

mutual

/-- `P` holds of the expression and of the parts that its evaluation reaches. -/
def Reached : Expr R → Prop
  | literal v => P (literal v)
  | spot => P spot
  | read known v => P (read known v)
  | neg known arg => P (neg known arg) ∧ arg.Reached
  | plus known arg => P (plus known arg) ∧ arg.Reached
  | binary known op lhs rhs => P (binary known op lhs rhs) ∧ lhs.Reached ∧
      ((∃ x, lhs.outcome vs s = .ok x) → rhs.Reached)
  | call known f args => P (call known f args) ∧ (f.Takes args.length → ReachedList args)

def ReachedList : List (Expr R) → Prop
  | [] => True
  | e :: es => e.Reached ∧ ((∃ x, e.outcome vs s = .ok x) → ReachedList es)

end

variable {P vs s}

theorem Reached.self {e : Expr R} (h : e.Reached P vs s) : P e := by
  cases e with
  | literal | spot | read => exact h
  | neg | plus | binary | call => exact h.1

mutual

theorem reached_of_forall (h : ∀ e, P e) : (e : Expr R) → e.Reached P vs s
  | literal _ => h _
  | spot => h _
  | read _ _ => h _
  | neg _ arg => ⟨h _, reached_of_forall h arg⟩
  | plus _ arg => ⟨h _, reached_of_forall h arg⟩
  | binary _ _ lhs rhs => ⟨h _, reached_of_forall h lhs, fun _ => reached_of_forall h rhs⟩
  | call _ _ args => ⟨h _, fun _ => reachedList_of_forall h args⟩

theorem reachedList_of_forall (h : ∀ e, P e) : (es : List (Expr R)) → ReachedList P vs s es
  | [] => trivial
  | e :: es => ⟨reached_of_forall h e, fun _ => reachedList_of_forall h es⟩

end

end Expr

namespace Cond

/-- `P` holds of the expressions that the evaluation of the condition reaches. -/
def Reached (P : Expr R → Prop) (vs : Variables R) (s : Sample R) : Cond R → Prop
  | literal _ => True
  | compare _ c => c.arg.Reached P vs s
  | not _ arg => arg.Reached P vs s
  | and _ lhs rhs => lhs.Reached P vs s ∧
      ((∃ b, (lhs.bare.eval vs s : Evaluation R Unit Bool).exec () = (.ok b, ())) → rhs.Reached P vs s)
  | or _ lhs rhs => lhs.Reached P vs s ∧
      ((∃ b, (lhs.bare.eval vs s : Evaluation R Unit Bool).exec () = (.ok b, ())) → rhs.Reached P vs s)

theorem reached_of_forall {P : Expr R → Prop} {vs : Variables R} {s : Sample R} (h : ∀ e, P e) (c : Cond R) :
    c.Reached P vs s := by
  induction c with
  | literal b => trivial
  | compare decided c => exact Expr.reached_of_forall h c.arg
  | not decided arg ih => exact ih
  | and decided lhs rhs ihl ihr => exact ⟨ihl, fun _ => ihr⟩
  | or decided lhs rhs ihl ihr => exact ⟨ihl, fun _ => ihr⟩

end Cond

namespace Statement

variable (P : Variables R → Sample R → Expr R → Prop) (s : Sample R)

mutual

/-- `P` holds of the expressions that a run of the statement reaches, on the table that they find. -/
def Reached : Statement R → Variables R → Prop
  | assign _ e, vs => e.Reached (P vs s) vs s
  | pays _ e, vs => e.Reached (P vs s) vs s
  | branch c body otherwise _, vs => c.Reached (P vs s) vs s ∧
      ((c.bare.eval vs s : Evaluation R Unit Bool).exec () = (.ok true, ()) → ReachedBlock body vs) ∧
      ((c.bare.eval vs s : Evaluation R Unit Bool).exec () = (.ok false, ()) → ReachedBlock otherwise vs)
  | sequence body, vs => ReachedBlock body vs

def ReachedBlock : List (Statement R) → Variables R → Prop
  | [], _ => True
  | st :: rest, vs => st.Reached vs ∧
      ∀ vs', (st.bare.run s : Process R Unit (Variables R) Unit).exec vs () = ((.ok (), vs'), ()) →
        ReachedBlock rest vs'

end

variable {P s}

mutual

theorem reached_of_forall (h : ∀ vs s e, P vs s e) : (st : Statement R) → (vs : Variables R) → st.Reached P s vs
  | assign _ e, vs => e.reached_of_forall (h vs s)
  | pays _ e, vs => e.reached_of_forall (h vs s)
  | branch c body otherwise _, vs => ⟨c.reached_of_forall (h vs s), fun _ => reachedBlock_of_forall h body vs,
      fun _ => reachedBlock_of_forall h otherwise vs⟩
  | sequence body, vs => reachedBlock_of_forall h body vs

theorem reachedBlock_of_forall (h : ∀ vs s e, P vs s e) : (body : List (Statement R)) → (vs : Variables R) →
    ReachedBlock P s body vs
  | [], _ => trivial
  | st :: rest, vs => ⟨reached_of_forall h st vs, fun vs' _ => reachedBlock_of_forall h rest vs'⟩

end

end Statement

/-- `P` holds of the expressions that a run of the events reaches, each event on the sample of its time. -/
def ReachedEvents (P : Variables R → Sample R → Expr R → Prop) :
    List (Event R) → List (Sample R) → Variables R → Prop
  | event :: events, s :: samples, vs => Statement.ReachedBlock P s event vs ∧
      ∀ vs', (Statement.runBlock s (Statement.bareBlock event) : Process R Unit (Variables R) Unit).exec vs () =
          ((.ok (), vs'), ()) → ReachedEvents P events samples vs'
  | _, _, _ => True

theorem reachedEvents_of_forall {P : Variables R → Sample R → Expr R → Prop} (h : ∀ vs s e, P vs s e)
    (events : List (Event R)) (samples : List (Sample R)) (vs : Variables R) : ReachedEvents P events samples vs := by
  induction events generalizing samples vs with
  | nil => trivial
  | cons event events ih =>
    cases samples with
    | nil => trivial
    | cons s samples => exact ⟨Statement.reachedBlock_of_forall h event vs, fun vs' _ => ih samples vs'⟩

end PayoffPricing.Script
