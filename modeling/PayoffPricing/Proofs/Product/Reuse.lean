import Mathlib.Data.Real.Basic
import PayoffPricing.Proofs.Product.Likeness
import PayoffPricing.Proofs.Product.Safety
/-!
Evaluators are as good as new. Evaluations before, finished, stopped or refused, leave values in the variables, on
the stacks and at the levels of nesting; none of it reaches the next evaluation.
-/

namespace PayoffPricing

open Script Worlds

section Same

variable (R S T : Type) [Scalar R] [Quantity R S T]

/-- Two runs on one record that compute the same quantities. -/
def Worlds.same : Worlds S S where
  Valid w := w.1 = w.2
  Later _ _ := True
  refl _ := trivial
  trans _ _ := trivial

variable {R S T} in
theorem Worlds.agree_same {α : Type} {a a' : StateM S α} {w : S × S} (h : a = a') :
    (same S).Agree w a a' fun _ x x' => x = x' := by
  subst h
  rintro (hw : w.1 = w.2)
  rw [hw]
  exact ⟨rfl, trivial, rfl⟩

def Likeness.same : Likeness R S S T T where
  toWorlds := Worlds.same S
  Like _ x x' := x = x'
  mono _ h := h
  constant _ _ := rfl
  value := congrArg _
  add hx hy := agree_same (by rw [hx, hy])
  sub hx hy := agree_same (by rw [hx, hy])
  mul hx hy := agree_same (by rw [hx, hy])
  div hx hy := agree_same (by rw [hx, hy])
  pow hx hy := agree_same (by rw [hx, hy])
  neg hx := agree_same (by rw [hx])
  addScalar _ hx := agree_same (by rw [hx])
  subScalar _ hx := agree_same (by rw [hx])
  mulScalar _ hx := agree_same (by rw [hx])
  divScalar _ hx := agree_same (by rw [hx])
  exp hx := agree_same (by rw [hx])
  log hx := agree_same (by rw [hx])
  sqrt hx := agree_same (by rw [hx])
  abs hx := agree_same (by rw [hx])
  lognormalStep _ hx hy hz := agree_same (by rw [hx, hy, hz])

variable {R S T}

theorem Likeness.likeScenario_same (w : S × S) (scenario : Scenario T) :
    (Likeness.same R S T).LikeScenario w scenario scenario :=
  List.forall₂_same.2 fun _ _ => ⟨rfl, rfl⟩

theorem Likeness.LikeTable.eq {n : Nat} {w : S × S} {xs ys : Array T} (h : (Likeness.same R S T).LikeTable n w xs ys) :
    xs = ys := Array.toList_inj.1 (List.forall₂_eq_eq_eq ▸ h.toList)

end Same

namespace Evaluator

variable {R S T : Type} [Scalar R] [Quantity R S T] {n : Nat} {e : Evaluator R T} {p : Product R} {method : Method R}

theorem method_run (p : Product R) (scenario : Scenario T) (e : Evaluator R T) (s : S) :
    ((run p scenario).exec e s).1.2.method = e.method := by
  cases e <;> rfl

theorem method_reset (e : Evaluator R T) : e.reset.method = e.method := by
  cases e <;> rfl

theorem method_evaluate (p : Product R) (scenario : Scenario T) (e : Evaluator R T) (s : S) :
    ((evaluate p scenario).exec e s).1.2.method = e.method := by
  unfold evaluate
  split
  · rfl
  · rw [Process.exec_bind, Process.exec_modify]
    exact (method_run p scenario e.reset s).trans (method_reset e)

theorem method_ofMethod (h : ofMethod p method = .ok e) : e.method = method := by
  cases method with
  | exact | compiled =>
    cases h
    rfl
  | fuzzy width =>
    simp only [ofMethod] at h
    split at h
    · cases h
      rfl
    · cases h

theorem exists_fuzzy {R T : Type} [ExactScalar R] [Valued R T] (p : Product R) {width : R} (hw : 0 < width) :
    ∃ e : Evaluator R T, ofMethod p (.fuzzy width) = .ok e := by
  refine ⟨_, if_pos ?_⟩
  rw [scalar_zero]
  exact hw

/-- What is left of an evaluator by evaluations on scenarios, each with the record that it starts from. -/
def afterAll (p : Product R) (history : List (Scenario T × S)) (e : Evaluator R T) : Evaluator R T :=
  history.foldl (fun e (scenario, s) => ((evaluate p scenario).exec e s).1.2) e

theorem method_afterAll (p : Product R) (history : List (Scenario T × S)) (e : Evaluator R T) :
    (afterAll p history e).method = e.method := by
  induction history generalizing e with
  | nil => rfl
  | cons first history ih => exact (ih _).trans (method_evaluate p first.1 e first.2)

theorem HasTable.afterAll (hp : p.Fits) (he : e.HasTable p.names.size) (history : List (Scenario T × S)) :
    (afterAll p history e).HasTable p.names.size := by
  induction history generalizing e with
  | nil => exact he
  | cons first history ih => exact ih (he.evaluate hp first.1 first.2)

theorem frame_afterAll (hp : p.Fits) (he : e.HasTable p.names.size) (history : List (Scenario T × S)) :
    (afterAll p history e).frame = e.frame :=
  Prod.ext (method_afterAll p history e) ((he.afterAll hp history).size_values.trans he.size_values.symm)

theorem same_evaluate {e' : Evaluator R T} (h : e.frame = e'.frame) (p : Product R) (scenario : Scenario T) (s : S) :
    (Likeness.same R S T).LikeRun e'.frame (s, s) ((evaluate p scenario).exec e s).1
        ((evaluate p scenario).exec e' s).1 ∧
      ((evaluate p scenario).exec e s).2 = ((evaluate p scenario).exec e' s).2 := by
  have hscenario := Likeness.likeScenario_same (R := R) (s, s) scenario
  obtain ⟨hrecord, -, hresult⟩ := Likeness.agree_evaluate (w := (s, s)) p h rfl hscenario rfl
  exact ⟨hresult.imp fun _ _ he => ⟨he.method_left, he.method_right, he.values.size_eq, he.values.toList⟩, hrecord⟩

end Evaluator

variable {R S T : Type} [Scalar R] [Quantity R S T]

/-- An evaluator of a built product may be used again and again. Whatever scenarios it has seen, those included that
stopped it halfway or that it refused, it ends the next evaluation as a new one does, with the same record, and when
it succeeds with the same variables and payoff. -/
theorem evaluators_are_reusable {plan : Plan R} {p : Product R} (h : plan.build = .ok p) {method : Method R}
    {new : Evaluator R T} (hnew : Evaluator.ofMethod p method = .ok new) (history : List (Scenario T × S))
    (scenario : Scenario T) (s : S) :
    ∃ result used' new' s',
      (Evaluator.evaluate p scenario).exec (new.afterAll p history) s = ((result, used'), s') ∧
      (Evaluator.evaluate p scenario).exec new s = ((result, new'), s') ∧
      (result = .ok () → used'.values = new'.values ∧ used'.payoff? p = new'.payoff? p) := by
  have hframe := Evaluator.frame_afterAll (Plan.fits_build h) (Evaluator.hasTable_ofMethod hnew) history
  obtain ⟨hresult, hrecord⟩ := Evaluator.same_evaluate hframe p scenario s
  generalize (Evaluator.evaluate p scenario).exec (new.afterAll p history) s = run at hresult hrecord
  generalize (Evaluator.evaluate p scenario).exec new s = run' at hresult hrecord
  obtain ⟨⟨result, used'⟩, s'⟩ := run
  obtain ⟨⟨result', new'⟩, s''⟩ := run'
  have heq : result = result' := hresult.eq fun _ => rfl
  subst heq
  cases hrecord
  refine ⟨result, used', new', s', rfl, rfl, fun hok => ?_⟩
  subst hok
  have hvalues : used'.values = new'.values := hresult.values.eq
  exact ⟨hvalues, by rw [Evaluator.payoff?, Evaluator.payoff?, hvalues]⟩

/-- A smoothing evaluator that refused one scenario and evaluated another is as good as new. -/
theorem evaluators_are_reusable_capped : ∃ p, (Plan.cappedPlan (1 : ℝ)).build = .ok p ∧
    ∃ new : Evaluator ℝ ℝ, Evaluator.ofMethod p (.fuzzy 1) = .ok new ∧ ∀ first sample : Sample ℝ,
      ∃ result used' new' s',
        (Evaluator.evaluate p #[sample]).exec (new.afterAll p [(#[], ()), (#[first], ())]) () =
          ((result, used'), s') ∧
        (Evaluator.evaluate p #[sample]).exec new () = ((result, new'), s') ∧
        (result = .ok () → used'.values = new'.values ∧ used'.payoff? p = new'.payoff? p) := by
  obtain ⟨p, hp, -⟩ := Plan.build_capped (t := (1 : ℝ)) zero_le_one
  obtain ⟨new, hnew⟩ := Evaluator.exists_fuzzy (T := ℝ) p (zero_lt_one' ℝ)
  exact ⟨p, hp, new, hnew, fun first sample =>
    evaluators_are_reusable hp hnew [(#[], ()), (#[first], ())] #[sample] ()⟩

end PayoffPricing
