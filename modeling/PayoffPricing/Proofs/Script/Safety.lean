import PayoffPricing.Proofs.Script.Fitting
import PayoffPricing.Proofs.Script.Tables
import PayoffPricing.Script.Exact
import PayoffPricing.Script.Fuzzy
/-!
Evaluation of events that fit their table stops for nothing but an argument outside a domain, whatever the
variables and the observations are.
-/

namespace PayoffPricing.Script

variable {R S T V α β : Type}

/-- A function was called, or an operator used, with an argument outside its domain. -/
def IsDomainError (e : Fault (ScriptError R)) : Prop := ∃ function argument, e = .error (.domain function argument)

/-- The result is as it should be, or an argument was outside a domain. -/
def Allowed (good : α → Prop) : Except (Fault (ScriptError R)) α → Prop
  | .ok a => good a
  | .error e => IsDomainError e

namespace Evaluation

/-- The evaluation stops for an argument outside a domain only, and its value is as it should be. -/
def Safe (action : Evaluation R S α) (good : α → Prop) : Prop := ∀ s, Allowed good (action.exec s).1

variable {good : α → Prop} {after : β → Prop}

theorem Safe.pure {a : α} (h : good a) : (Pure.pure a : Evaluation R S α).Safe good := fun _ => h

theorem Safe.record (action : StateM S α) : (Evaluation.record action : Evaluation R S α).Safe fun _ => True :=
  fun _ => trivial

theorem Safe.domain (function : String) (argument : R) :
    (Evaluation.fail (.domain function argument) : Evaluation R S α).Safe good :=
  fun _ => ⟨function, argument, rfl⟩

theorem Safe.bind {action : Evaluation R S α} {next : α → Evaluation R S β} (h : action.Safe good)
    (hn : ∀ a, good a → (next a).Safe after) : (action >>= next).Safe after := by
  intro s
  have hs := h s
  rw [exec_bind]
  generalize action.exec s = result at hs ⊢
  obtain ⟨_ | a, s⟩ := result
  · exact hs
  · exact hn a hs s

theorem Safe.mono {action : Evaluation R S α} {weaker : α → Prop} (h : action.Safe good)
    (hw : ∀ a, good a → weaker a) : action.Safe weaker := by
  intro s
  have hs := h s
  generalize (action.exec s).1 = result at hs ⊢
  cases result with
  | error e => exact hs
  | ok a => exact hw a hs

end Evaluation

namespace Process

/-- The process keeps the invariant of its state, also when it stops, stops for an argument outside a domain only,
and its result is as it should be. -/
def Safe (invariant : V → Prop) (action : Process R S V α) (good : α → Prop) : Prop :=
  ∀ v s, invariant v → invariant (action.exec v s).1.2 ∧ Allowed good (action.exec v s).1.1

variable {invariant : V → Prop} {good : α → Prop} {after : β → Prop}

theorem Safe.pure {a : α} (h : good a) : Safe invariant (Pure.pure a : Process R S V α) good := fun _ _ hv => ⟨hv, h⟩

theorem Safe.bind {action : Process R S V α} {next : α → Process R S V β} (h : Safe invariant action good)
    (hn : ∀ a, good a → Safe invariant (next a) after) : Safe invariant (action >>= next) after := by
  intro v s hv
  have hs := h v s hv
  rw [exec_bind]
  generalize action.exec v s = result at hs ⊢
  obtain ⟨⟨_ | a, v⟩, s⟩ := result
  · exact hs
  · exact hn a hs.2 v s hs.1

theorem Safe.get : Safe invariant (MonadState.get : Process R S V V) invariant := fun _ _ hv => ⟨hv, hv⟩

theorem Safe.set {w : V} (h : invariant w) : Safe invariant (MonadStateOf.set w : Process R S V PUnit) fun _ => True :=
  fun _ _ _ => ⟨h, trivial⟩

theorem Safe.update {f : V → V} (h : ∀ v, invariant v → invariant (f v)) :
    Safe invariant (modify f : Process R S V PUnit) fun _ => True :=
  fun v _ hv => ⟨h v hv, trivial⟩

theorem Safe.ofEvaluation {action : Evaluation R S α} (h : action.Safe good) :
    Safe invariant (Process.ofEvaluation action) good :=
  fun _ s hv => ⟨hv, h s⟩

end Process

variable {n : Nat} {values : Variables T} {slot : Nat} {slots : List Nat}

namespace Variables

theorem safe_fetch (h : slot < values.size) : (values.fetch slot : Evaluation R S T).Safe fun _ => True := by
  intro s
  rw [exec_fetch, Array.getElem?_eq_getElem h]
  trivial

theorem safe_store (h : slot < values.size) (x : T) :
    (values.store slot x : Evaluation R S (Variables T)).Safe fun after => after.size = values.size := by
  intro s
  rw [exec_store, if_pos h]
  exact Array.size_setIfInBounds

theorem safe_fetchAll (h : ∀ slot ∈ slots, slot < values.size) :
    (values.fetchAll slots : Evaluation R S (List T)).Safe fun _ => True := by
  intro s
  obtain ⟨xs, hxs, -⟩ := exec_fetchAll (R := R) (r := s) h
  rw [hxs]
  trivial

theorem safe_storeAll {entries : List (Nat × T)} (h : ∀ p ∈ entries, p.1 < values.size) :
    (values.storeAll entries : Evaluation R S (Variables T)).Safe fun after => after.size = values.size := by
  induction entries generalizing values with
  | nil => exact .pure rfl
  | cons p entries ih =>
    rw [List.forall_mem_cons] at h
    refine (safe_store h.1 p.2).bind fun after hsize => ?_
    have hrest : (after.storeAll entries : Evaluation R S (Variables T)).Safe fun later => later.size = after.size :=
      ih (hsize ▸ h.2)
    exact hrest.mono fun _ hlater => hlater.trans hsize

variable [Scalar R] [Quantity R S T]

theorem safe_pay (h : slot < values.size) (paid numeraire : T) :
    (values.pay slot paid numeraire : Evaluation R S (Variables T)).Safe fun after => after.size = values.size :=
  (safe_fetch h).bind fun _ _ => (Evaluation.Safe.record _).bind fun _ _ =>
    (Evaluation.Safe.record _).bind fun _ _ => safe_store h _

end Variables

variable [Scalar R] [Quantity R S T]

namespace Intrinsic

theorem safe_finiteOr (function : String) (argument result : T) :
    (finiteOr function argument result : Evaluation R S T).Safe fun _ => True := by
  unfold finiteOr
  split
  · exact .pure trivial
  · exact .domain _ _

theorem safe_binary (op : Operator) (x y : T) : (binary op x y : Evaluation R S T).Safe fun _ => True := by
  cases op with
  | add | sub | mul => exact .record _
  | div | pow => exact (Evaluation.Safe.record _).bind fun _ _ => safe_finiteOr _ _ _

/-- Logarithms, square roots and exponentials; other functions are not of one argument. -/
theorem safe_unary {f : Function} (hf : f.takes 1 = true) (x : T) :
    (unary f x : Evaluation R S T).Safe fun _ => True := by
  cases f with
  | log | sqrt =>
    simp only [unary]
    split
    · exact .domain _ _
    · exact .record _
  | exp => exact .record _
  | min | max | smooth => exact absurd hf (by decide)

end Intrinsic

section Ramps

open Smoothing

variable {width left right : R}

omit [Scalar R] [Quantity R S T] in
theorem safe_require {holds : Bool} (h : holds = true) (cause : Misuse) :
    Evaluation.Safe (R := R) (S := S) (require holds cause) fun _ => True := by
  unfold require
  rw [if_pos h]
  exact .pure trivial

theorem safe_callSpread (x : T) (h : width > 0) :
    Evaluation.Safe (R := R) (S := S) (callSpread x width) fun _ => True := by
  unfold callSpread
  refine (safe_require (decide_eq_true h) _).bind fun _ _ => ?_
  dsimp only
  split
  · exact .pure trivial
  split
  · exact .pure trivial
  · exact Evaluation.Safe.record _

theorem safe_callSpreadOn (x : T) (h : left < right) :
    Evaluation.Safe (R := R) (S := S) (callSpreadOn x left right) fun _ => True := by
  unfold callSpreadOn
  refine (safe_require (decide_eq_true h) _).bind fun _ _ => ?_
  dsimp only
  split
  · exact .pure trivial
  split
  · exact .pure trivial
  · exact Evaluation.Safe.record _

theorem safe_butterfly (x : T) (h : width > 0) :
    Evaluation.Safe (R := R) (S := S) (butterfly x width) fun _ => True := by
  unfold butterfly
  refine (safe_require (decide_eq_true h) _).bind fun _ _ => ?_
  dsimp only
  split
  · exact .pure trivial
  · exact Evaluation.Safe.record _

theorem safe_smoothStep (x above below : T) (h : width > 0) :
    Evaluation.Safe (R := R) (S := S) (smoothStep x above below width) fun _ => True := by
  unfold smoothStep
  refine (safe_require (decide_eq_true h) _).bind fun _ _ => ?_
  dsimp only
  split
  · exact .pure trivial
  split
  · exact .pure trivial
  · exact Evaluation.Safe.record _

end Ramps

theorem Intrinsic.safe_smooth (x above below width : T) :
    (smooth x above below width : Evaluation R S T).Safe fun _ => True := by
  unfold smooth
  dsimp only
  split
  · next h => exact safe_smoothStep x above below h
  · exact .domain _ _

variable {sample : Sample T}

namespace Expr

mutual

theorem safe_eval : (e : Expr R) → e.Fits values.size →
    (e.eval values sample : Evaluation R S T).Safe fun _ => True
  | literal _, _ => .pure trivial
  | spot, _ => .pure trivial
  | read (some _) _, _ => .pure trivial
  | read none v, h => Variables.safe_fetch h
  | neg (some _) _, _ => .pure trivial
  | neg none arg, h => (safe_eval arg h).bind fun _ _ => .record _
  | plus (some _) _, _ => .pure trivial
  | plus none arg, h => safe_eval arg h
  | binary (some _) _ _ _, _ => .pure trivial
  | binary none op lhs rhs, h =>
    (safe_eval lhs h.1).bind fun x _ => (safe_eval rhs h.2).bind fun y _ => Intrinsic.safe_binary op x y
  | call (some _) _ _, _ => .pure trivial
  | call none f args, h => by
    obtain ⟨hf, hargs⟩ := h
    match f, args with
    | .log, [x] | .sqrt, [x] | .exp, [x] =>
      exact (safe_eval x hargs.1).bind fun _ _ => Intrinsic.safe_unary rfl _
    | .min, x :: rest | .max, x :: rest =>
      exact (safe_eval x hargs.1).bind fun _ _ => (safe_evalList rest hargs.2).bind fun _ _ => .pure trivial
    | .smooth, [x, above, below, width] =>
      obtain ⟨hx, ha, hb, hw, -⟩ := hargs
      exact (safe_eval x hx).bind fun _ _ => (safe_eval above ha).bind fun _ _ => (safe_eval below hb).bind fun _ _ =>
        (safe_eval width hw).bind fun _ _ => Intrinsic.safe_smooth _ _ _ _

theorem safe_evalList : (es : List (Expr R)) → FitAll values.size es →
    (evalList values sample es : Evaluation R S (List T)).Safe fun _ => True
  | [], _ => .pure trivial
  | e :: es, h => (safe_eval e h.1).bind fun _ _ => (safe_evalList es h.2).bind fun _ _ => .pure trivial

end

end Expr

theorem Cond.safe_eval (c : Cond R) (h : c.Fits values.size) :
    (c.eval values sample : Evaluation R S Bool).Safe fun _ => True := by
  induction c with
  | literal b => exact .pure trivial
  | compare decided c =>
    cases decided with
    | some b => exact .pure trivial
    | none => exact (c.arg.safe_eval h).bind fun _ _ => .pure trivial
  | not decided arg ih =>
    cases decided with
    | some b => exact .pure trivial
    | none => exact (ih h).bind fun _ _ => .pure trivial
  | and decided lhs rhs ihl ihr | or decided lhs rhs ihl ihr =>
    cases decided with
    | some b => exact .pure trivial
    | none => exact (ihl h.1).bind fun _ _ => (ihr h.2).bind fun _ _ => .pure trivial

namespace Statement

/-- The table has `n` slots. -/
abbrev HasSize (n : Nat) (values : Variables T) : Prop := values.size = n

mutual

theorem safe_run : (st : Statement R) → st.Fits n →
    Process.Safe (HasSize n) (st.run sample : Process R S (Variables T) Unit) fun _ => True
  | assign v e, h => by
    refine Process.Safe.get.bind fun values hv => ?_
    subst hv
    refine (Process.Safe.ofEvaluation (e.safe_eval h.2)).bind fun x _ => ?_
    exact (Process.Safe.ofEvaluation (Variables.safe_store h.1 x)).bind fun after hsize => .set hsize
  | pays v e, h => by
    refine Process.Safe.get.bind fun values hv => ?_
    subst hv
    refine (Process.Safe.ofEvaluation (e.safe_eval h.2)).bind fun x _ => ?_
    exact (Process.Safe.ofEvaluation (Variables.safe_pay h.1 x _)).bind fun after hsize => .set hsize
  | branch c body otherwise _, h => by
    refine Process.Safe.get.bind fun values hv => ?_
    refine (Process.Safe.ofEvaluation (c.safe_eval (hv ▸ h.1))).bind fun b _ => ?_
    cases b with
    | false => exact safe_runBlock otherwise h.2.2.1
    | true => exact safe_runBlock body h.2.1
  | sequence body, h => safe_runBlock body h

theorem safe_runBlock : (body : List (Statement R)) → FitsBlock n body →
    Process.Safe (HasSize n) (runBlock sample body : Process R S (Variables T) Unit) fun _ => True
  | [], _ => .pure trivial
  | s :: rest, h => (safe_run s h.1).bind fun _ _ => safe_runBlock rest h.2

end

end Statement

namespace Fuzzy

variable {width : R}

theorem safe_degreeOfComparison (hw : width > 0) {c : Comparison R} (h : c.arg.Fits values.size) :
    (degreeOfComparison width values sample c : Evaluation R S T).Safe fun _ => True := by
  refine (c.arg.safe_eval h).bind fun x _ => ?_
  have hchosen (t : R) : (if t > 0 then t else width) > 0 := by
    split
    · assumption
    · exact hw
  dsimp only
  split
  · split
    · exact .record _
    · refine safe_butterfly x ?_
      split
      · exact hchosen _
      · exact hw
  · split
    · next hwindow =>
      rw [Bool.and_eq_true, decide_eq_true_eq] at hwindow
      exact safe_callSpreadOn x hwindow.2
    · refine safe_callSpread x ?_
      split
      · exact hchosen _
      · exact hw

theorem safe_degree (hw : width > 0) (c : Cond R) (h : c.Fits values.size) :
    (degree width values sample c : Evaluation R S T).Safe fun _ => True := by
  induction c with
  | literal b => exact .pure trivial
  | compare decided c =>
    cases decided with
    | some b => exact .pure trivial
    | none => exact safe_degreeOfComparison hw h
  | not decided arg ih =>
    cases decided with
    | some b => exact .pure trivial
    | none => exact (ih h).bind fun _ _ => .record _
  | and decided lhs rhs ihl ihr | or decided lhs rhs ihl ihr =>
    cases decided with
    | some b => exact .pure trivial
    | none => exact (ihl h.1).bind fun _ _ => (ihr h.2).bind fun _ _ => .record _

theorem safe_blend {slots : List Nat} (h : ∀ slot ∈ slots, slot < values.size) (d : T) (after : List T) :
    (blend d slots after values : Evaluation R S (Variables T)).Safe fun mixed => mixed.size = values.size := by
  refine (Evaluation.Safe.record _).bind fun rest _ => ?_
  have hentries : ∀ p ∈ slots.zip after, p.1 < values.size := fun p hp => h p.1 (List.of_mem_zip hp).1
  clear h
  generalize slots.zip after = entries at hentries
  induction entries generalizing values with
  | nil => exact .pure rfl
  | cons p entries ih =>
    rw [List.forall_mem_cons] at hentries
    have hstep : Evaluation.Safe (R := R) (S := S) (do
        let first ← Evaluation.record (Quantity.mul d p.2)
        let second ← Evaluation.record (Quantity.mul rest (← values.fetch p.1))
        values.store p.1 (← Evaluation.record (Quantity.add first second)))
        fun mixed => mixed.size = values.size :=
      (Evaluation.Safe.record _).bind fun _ _ => (Variables.safe_fetch hentries.1).bind fun _ _ =>
        (Evaluation.Safe.record _).bind fun _ _ => (Evaluation.Safe.record _).bind fun z _ =>
        Variables.safe_store hentries.1 z
    rw [List.foldlM_cons]
    exact hstep.bind fun mixed hsize => (ih (hsize ▸ hentries.2)).mono fun _ hlater => hlater.trans hsize

/-- The table of variables has `n` slots. -/
def HasSize (n : Nat) (s : State T) : Prop := s.values.size = n

omit [Scalar R] [Quantity R S T] in
theorem safe_onVariables {step : Variables T → Evaluation R S (Variables T)}
    (h : ∀ values, values.size = n → (step values).Safe fun after => after.size = n) :
    Process.Safe (HasSize n) (onVariables step) fun _ => True :=
  Process.Safe.get.bind fun s hs => (Process.Safe.ofEvaluation (h s.values hs)).bind fun _ hsize => .set hsize

omit [Scalar R] [Quantity R S T] in
theorem safe_enter : Process.Safe (HasSize n) (enter : Process R S (State T) Nat) fun _ => True :=
  fun _ _ hs => ⟨hs, trivial⟩

omit [Scalar R] [Quantity R S T] in
theorem safe_leave (level : Nat) (before after : List T) :
    Process.Safe (HasSize n) (leave level before after : Process R S (State T) Unit) fun _ => True :=
  .update fun _ hs => hs

mutual

theorem safe_run (hw : width > 0) : (st : Statement R) → st.Fits n →
    Process.Safe (HasSize n) (run width sample st : Process R S (State T) Unit) fun _ => True
  | .assign v e, h => by
    rw [run]
    refine safe_onVariables fun values hv => ?_
    subst hv
    exact (e.safe_eval h.2).bind fun x _ => Variables.safe_store h.1 x
  | .pays v e, h => by
    rw [run]
    refine safe_onVariables fun values hv => ?_
    subst hv
    exact (e.safe_eval h.2).bind fun x _ => Variables.safe_pay h.1 x _
  | .branch c body otherwise affected, h => by
    obtain ⟨hc, hb, ho, hn⟩ := h
    rw [run]
    refine Process.Safe.get.bind fun s hs => ?_
    refine (Process.Safe.ofEvaluation (safe_degree hw c (hs ▸ hc))).bind fun d _ => ?_
    dsimp only
    split
    · exact safe_runBlock hw body hb
    split
    · exact safe_runBlock hw otherwise ho
    refine safe_enter.bind fun level _ => ?_
    refine Process.Safe.get.bind fun s hs => ?_
    refine (Process.Safe.ofEvaluation (Variables.safe_fetchAll (hs ▸ hn))).bind fun before _ => ?_
    refine (safe_runBlock hw body hb).bind fun _ _ => ?_
    refine Process.Safe.get.bind fun s hs => ?_
    refine (Process.Safe.ofEvaluation (Variables.safe_fetchAll (hs ▸ hn))).bind fun after _ => ?_
    have hback : Process.Safe (HasSize n) (onVariables fun values => values.storeAll (affected.zip before) :
        Process R S (State T) Unit) fun _ => True := by
      refine safe_onVariables fun values hv => ?_
      refine (Variables.safe_storeAll fun p hp => ?_).mono fun _ hsize => hsize.trans hv
      exact hv ▸ hn p.1 (List.of_mem_zip hp).1
    refine hback.bind fun _ _ => (safe_runBlock hw otherwise ho).bind fun _ _ => ?_
    have hblend : Process.Safe (HasSize n) (onVariables (blend d affected after) : Process R S (State T) Unit)
        fun _ => True :=
      safe_onVariables fun values hv => (safe_blend (hv ▸ hn) d after).mono fun _ hsize => hsize.trans hv
    exact hblend.bind fun _ _ => safe_leave level before after
  | .sequence body, h => by
    rw [run]
    exact safe_runBlock hw body h

theorem safe_runBlock (hw : width > 0) : (body : List (Statement R)) → Statement.FitsBlock n body →
    Process.Safe (HasSize n) (runBlock width sample body : Process R S (State T) Unit) fun _ => True
  | [], _ => .pure trivial
  | s :: rest, h => by
    rw [runBlock]
    exact (safe_run hw s h.1).bind fun _ _ => safe_runBlock hw rest h.2

end

end Fuzzy

end PayoffPricing.Script
