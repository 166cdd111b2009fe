import Mathlib
import PayoffPricing.Proofs.Product.Folding
import PayoffPricing.Proofs.Product.Reuse
import PayoffPricing.Proofs.Script.Crisp
/-!
Smoothing away from the windows. Where every compared number that the run of a built product comes to is clear of its
window, smoothed evaluation leaves what exact evaluation does, on plain scalars and on recorded numbers.
-/

namespace PayoffPricing

open Script Worlds

namespace Script

variable {R : Type} [ExactScalar R]

/-- The numbers that a run of the events compares are clear of their windows, each event on the sample of its time. -/
def ClearEvents (width : R) : List (Event R) → List (Sample R) → Variables R → Prop
  | event :: events, s :: samples, vs => Statement.ClearBlock width s event vs ∧
      ∀ vs', (Statement.runBlock s event : Process R Unit (Variables R) Unit).exec vs () = ((.ok (), vs'), ()) →
        ClearEvents width events samples vs'
  | _, _, _ => True

theorem exec_fuzzyEvents {width : R} (hw : 0 < width) {events : List (Event R)}
    (hwindowed : ∀ event ∈ events, Statement.WindowedBlock event) {samples : List (Sample R)} (state : Fuzzy.State R)
    (hclear : ClearEvents width events samples state.values) :
    (Evaluator.runEvents (fun event s => Fuzzy.runBlock width s event) events samples.toArray :
        Process R Unit (Fuzzy.State R) Unit).exec state () =
      ((((Evaluator.runEvents (fun event s => Statement.runBlock s event) events samples.toArray :
            Process R Unit (Variables R) Unit).exec state.values ()).1.1,
        { state with values := ((Evaluator.runEvents (fun event s => Statement.runBlock s event) events samples.toArray :
            Process R Unit (Variables R) Unit).exec state.values ()).1.2 }), ()) := by
  induction events generalizing samples state with
  | nil => rfl
  | cons event events ih =>
    cases samples with
    | nil => rfl
    | cons s samples =>
      rw [List.forall_mem_cons] at hwindowed
      rw [Evaluator.runEvents_cons, Evaluator.runEvents_cons, Process.exec_bind, Process.exec_bind,
        Statement.exec_fuzzyRunBlock hw event hwindowed.1 state hclear.1]
      rcases hrun : (Statement.runBlock s event : Process R Unit (Variables R) Unit).exec state.values () with
        ⟨⟨_ | _, vs'⟩, _⟩
      · rfl
      · exact ih hwindowed.2 { state with values := vs' } (hclear.2 vs' hrun)

end Script

namespace Evaluator

section

variable {R S T : Type} [Scalar R] [Quantity R S T] {p : Product R} {e : Evaluator R T}

/-- What an evaluation leaves: the values of all variables, or the error that stops it. -/
def left (r : (Except (Fault (ScriptError R)) Unit × Evaluator R T) × S) :
    Except (Fault (ScriptError R)) (Variables R) := Script.left ((r.1.1, r.1.2.values), r.2)

theorem Serves.frame (h : e.Serves S p) (hp : p.Fits) : e.frame = (e.method, p.names.size) :=
  Prod.ext rfl (h.hasTable hp).size_values

theorem left_evaluate {e : Evaluator R R} {e' : Evaluator R (Number R)} (h : e'.frame = e.frame) {scenario : Scenario R}
    {numbers : Scenario (Number R)} {t : Tape R} (ht : t.Sound)
    (hs : (recordingLikeness R).LikeScenario ((), t) scenario numbers) :
    left ((evaluate p numbers).exec e' t) = left ((evaluate p scenario).exec e ()) := by
  obtain ⟨-, -, houtcome⟩ := Likeness.agree_evaluate p (f := e.frame) rfl h hs ht
  exact left_eq_of_outcome houtcome fun _ _ h => h.values

end

variable {R : Type} [ExactScalar R] {p : Product R} {width : R} {scenario : Scenario R}

theorem left_fuzzy {values : Variables R} {state : Fuzzy.State R} (hw : 0 < width)
    (hwindowed : ∀ event ∈ p.events, Statement.WindowedBlock event) (hvalues : values.size = p.names.size)
    (hstate : state.values.size = p.names.size)
    (hclear : scenario.size = p.times.length →
      ClearEvents width p.events scenario.toList (Array.replicate p.names.size 0)) :
    left ((evaluate p scenario).exec (fuzzy width state) ()) = left ((evaluate p scenario).exec (exact values) ()) := by
  have hreset {vs : Variables R} (hsize : vs.size = p.names.size) :
      (vs.map fun _ => Quantity.zero) = Array.replicate p.names.size (0 : R) := by
    rw [← hsize]
    refine Array.ext (by simp) fun i _ _ => ?_
    simp only [Array.getElem_map, Array.getElem_replicate]
    exact scalar_zero
  by_cases hsize : scenario.size = p.times.length
  · have hrun := exec_fuzzyEvents hw hwindowed
      (⟨Array.replicate p.names.size 0, state.levels, 0⟩ : Fuzzy.State R) (hclear hsize)
    simp only [evaluate, check_of_size hsize, Process.exec_bind, Process.exec_modify, reset, hreset hvalues,
      hreset hstate]
    exact congrArg (fun r => Script.left ((r.1.1, r.1.2.values), r.2)) hrun
  · simp only [evaluate, check_of_size_ne hsize]
    rfl

end Evaluator

open Evaluator

variable {R : Type} [ExactScalar R]

/-- Where the numbers that an exact run compares are beyond their tolerances and outside of their windows, a smoothing
evaluator of a built product leaves the variables that an exact one leaves, or stops with its error. This is so for
plain scalars and for recorded numbers, however often the evaluators were used before. -/
theorem smoothing_keeps_clear_runs {plan : Plan R} {p : Product R} (h : plan.build = .ok p) {width : R}
    {scenario : Scenario R}
    (hclear : scenario.size = p.times.length →
      ClearEvents width p.events scenario.toList (Array.replicate p.names.size 0)) :
    (∀ exact fuzzy : Evaluator R R, exact.Serves Unit p → exact.method = .exact → fuzzy.Serves Unit p →
      fuzzy.method = .fuzzy width →
      left ((evaluate p scenario).exec fuzzy ()) = left ((evaluate p scenario).exec exact ())) ∧
    ∀ exact fuzzy : Evaluator R (Number R), exact.Serves (Tape R) p → exact.method = .exact →
      fuzzy.Serves (Tape R) p → fuzzy.method = .fuzzy width →
      ∀ (t : Tape R) (numbers : Scenario (Number R)), t.Sound →
        (recordingLikeness R).LikeScenario ((), t) scenario numbers →
        left ((evaluate p numbers).exec fuzzy t) = left ((evaluate p numbers).exec exact t) := by
  have hp := Plan.fits_build h
  have hplain : ∀ exact fuzzy : Evaluator R R, exact.Serves Unit p → exact.method = .exact → fuzzy.Serves Unit p →
      fuzzy.method = .fuzzy width →
      left ((evaluate p scenario).exec fuzzy ()) = left ((evaluate p scenario).exec exact ()) := by
    intro exact fuzzy he hexact hf hfuzzy
    have htable := he.hasTable hp
    have htable' := hf.hasTable hp
    cases exact with
    | fuzzy | compiled => cases hexact
    | exact values =>
      cases fuzzy with
      | exact | compiled => cases hfuzzy
      | fuzzy width' state =>
        cases hfuzzy
        have hw : 0 < width := scalar_zero (R := R) ▸ htable'.1
        exact left_fuzzy hw (windowed_build h) htable.size_values htable'.size_values hclear
  refine ⟨hplain, fun exact fuzzy he hexact hf hfuzzy t numbers ht hs => ?_⟩
  have hsame {e' : Evaluator R (Number R)} {e : Evaluator R R} (he' : e'.Serves (Tape R) p)
      (he : ofMethod p e'.method = .ok e) :
      left ((evaluate p numbers).exec e' t) = left ((evaluate p scenario).exec e ()) := by
    refine left_evaluate ?_ ht hs
    rw [he'.frame hp, (Serves.new (S := Unit) he).frame hp, method_ofMethod he]
  obtain ⟨e, hnew⟩ : ∃ e : Evaluator R R, ofMethod p exact.method = .ok e := by
    rw [hexact]
    exact ⟨_, rfl⟩
  obtain ⟨f, hnew'⟩ : ∃ f : Evaluator R R, ofMethod p fuzzy.method = .ok f := by
    have htable := hf.hasTable hp
    cases fuzzy with
    | exact | compiled => cases hfuzzy
    | fuzzy width' state => exact ⟨_, if_pos htable.1⟩
  rw [hsame hf hnew', hsame he hnew]
  exact hplain e f (.new hnew) ((method_ofMethod hnew).trans hexact) (.new hnew') ((method_ofMethod hnew').trans hfuzzy)

section Capped

/-- The spot is three, which is further from the cap than half of the width of one. -/
theorem clearEvents_capped : ClearEvents (1 : ℝ) (Plan.cappedProduct (1 : ℝ)).events [⟨3, 1, #[], #[]⟩] #[0] := by
  refine ⟨⟨trivial, fun vs h => ?_⟩, fun _ _ => trivial⟩
  have hvs : vs = #[3] := (congrArg (fun r => r.1.2) h).symm
  subst hvs
  refine ⟨⟨fun x hx => ?_, fun _ => ⟨trivial, fun _ _ => trivial⟩, fun _ => trivial⟩, fun _ _ => trivial⟩
  have hvalue : (3 : ℝ) - Scalar.ofDecimal 1 0 = x := Except.ok.inj (congrArg Prod.fst hx)
  rw [Plan.decimal_one] at hvalue
  subst hvalue
  refine ⟨Bound.tolerance_lt_one.trans ?_, ?_⟩
  · norm_num
  · change (1 : ℝ) / 2 < |3 - 1|
    norm_num

theorem smoothing_keeps_clear_runs_capped :
    ∃ p, (Plan.cappedPlan (1 : ℝ)).build = .ok p ∧
      ∃ exact fuzzy : Evaluator ℝ ℝ, ofMethod p .exact = .ok exact ∧ ofMethod p (.fuzzy 1) = .ok fuzzy ∧
        left ((evaluate p #[⟨3, 1, #[], #[]⟩]).exec fuzzy ()) = left ((evaluate p #[⟨3, 1, #[], #[]⟩]).exec exact ()) := by
  have hbuild := Plan.build_eq_capped (zero_le_one (α := ℝ))
  have hexact : ofMethod (T := ℝ) (Plan.cappedProduct (1 : ℝ)) .exact = .ok (.exact #[Quantity.zero]) := rfl
  obtain ⟨fuzzy, hfuzzy⟩ := exists_fuzzy (T := ℝ) (Plan.cappedProduct (1 : ℝ)) (zero_lt_one' ℝ)
  have hkeeps := smoothing_keeps_clear_runs hbuild fun _ => clearEvents_capped
  exact ⟨_, hbuild, _, fuzzy, hexact, hfuzzy,
    hkeeps.1 _ fuzzy (.new hexact) rfl (.new hfuzzy) (method_ofMethod hfuzzy)⟩

end Capped

end PayoffPricing
