import PayoffPricing.Proofs.Product.Events
import PayoffPricing.Proofs.Product.Fitting
import PayoffPricing.Proofs.Script.TypedCompilation
import PayoffPricing.Proofs.Script.TypedRuns
/-!
Evaluations of built products. Whatever the observations are, an evaluation stops for an argument outside a domain
only, and the runs of the bytecode keep to its instructions and to the heights that compilation foresees.
-/

namespace PayoffPricing

open Script

variable {R S T V α : Type}

theorem Product.Fits.isTyped [Scalar R] {p : Product R} (hp : p.Fits) :
    ∀ program ∈ p.programs, program.IsTyped p.names.size := by
  rw [hp.programs]
  exact List.forall_mem_map.2 fun event hevent => Program.typed_ofEvent (hp.events event hevent)

namespace Evaluator

theorem safe_runEvents {invariant : V → Prop} {step : α → Sample T → Process R S V Unit} {events : List α}
    (h : ∀ event ∈ events, ∀ sample, Process.Safe invariant (step event sample) fun _ => True)
    (scenario : Scenario T) : Process.Safe invariant (runEvents step events scenario) fun _ => True := by
  obtain ⟨samples⟩ := scenario
  induction events generalizing samples with
  | nil => exact .pure trivial
  | cons event events ih =>
    cases samples with
    | nil => exact .pure trivial
    | cons sample samples =>
      rw [List.forall_mem_cons] at h
      rw [runEvents_cons]
      exact (h.1 sample).bind fun _ _ => ih h.2 samples

variable [Scalar R] {n : Nat} {e : Evaluator R T} {p : Product R} {method : Method R} {scenario : Scenario T}

/-- The table of the variables has `n` slots, and smoothing has a positive width. -/
def HasTable (n : Nat) : Evaluator R T → Prop
  | exact values => Statement.HasSize n values
  | fuzzy width state => width > 0 ∧ Fuzzy.HasSize n state
  | compiled machine => machine.values.size = n

theorem HasTable.size_values (he : e.HasTable n) : e.values.size = n := by
  cases e with
  | exact values => exact he
  | fuzzy width state => exact he.2
  | compiled machine => exact he

section

variable [Valued R T]

theorem hasTable_ofMethod (h : ofMethod p method = .ok e) : e.HasTable p.names.size := by
  cases method with
  | exact | compiled =>
    cases h
    exact Array.size_replicate
  | fuzzy width =>
    simp only [ofMethod] at h
    split at h
    · next hw =>
      cases h
      exact ⟨hw, Array.size_replicate⟩
    · cases h

theorem HasTable.reset (he : e.HasTable n) : e.reset.HasTable n := by
  cases e with
  | exact values => exact Array.size_map.trans he
  | fuzzy width state => exact ⟨he.1, Array.size_map.trans he.2⟩
  | compiled machine => exact Array.size_map.trans he

end

variable [Quantity R S T]

theorem safe_run (hp : p.Fits) (scenario : Scenario T) :
    Process.Safe (HasTable p.names.size) (run p scenario : Process R S (Evaluator R T) Unit) fun _ => True := by
  intro e s he
  cases e with
  | exact values =>
    have hsafe : Process.Safe (Statement.HasSize p.names.size)
        (runEvents (fun event sample => Statement.runBlock sample event) p.events scenario :
          Process R S (Variables T) Unit) fun _ => True :=
      safe_runEvents (fun event hevent _ => Statement.safe_runBlock event (hp.events event hevent)) scenario
    exact hsafe values s he
  | fuzzy width state =>
    have hsafe : Process.Safe (Fuzzy.HasSize p.names.size)
        (runEvents (fun event sample => Fuzzy.runBlock width sample event) p.events scenario :
          Process R S (Fuzzy.State T) Unit) fun _ => True :=
      safe_runEvents (fun event hevent _ => Fuzzy.safe_runBlock he.1 event (hp.events event hevent)) scenario
    obtain ⟨hsize, hallowed⟩ := hsafe state s he.2
    exact ⟨⟨he.1, hsize⟩, hallowed⟩
  | compiled machine =>
    have hsafe : Process.Safe (fun m : Machine T => m.values.size = p.names.size)
        (runEvents Machine.run p.programs scenario : Process R S (Machine T) Unit) fun _ => True :=
      safe_runEvents (fun program hprogram _ => Machine.safe_run (hp.isTyped program hprogram)) scenario
    exact hsafe machine s he

theorem safe_evaluate (hp : p.Fits) (hsize : scenario.size = p.times.length) :
    Process.Safe (HasTable p.names.size) (evaluate p scenario : Process R S (Evaluator R T) Unit) fun _ => True := by
  simp only [evaluate, check_of_size hsize]
  exact (Process.Safe.update fun _ he => he.reset).bind fun _ _ => safe_run hp scenario

/-- A scenario of another length is refused, and leaves the evaluator as it is. -/
theorem HasTable.evaluate (he : e.HasTable p.names.size) (hp : p.Fits) (scenario : Scenario T) (s : S) :
    ((evaluate p scenario).exec e s).1.2.HasTable p.names.size := by
  by_cases hsize : scenario.size = p.times.length
  · exact (safe_evaluate hp hsize e s he).1
  · simp only [Evaluator.evaluate, check_of_size_ne hsize]
    exact he

/-- The evaluators of a product: new ones, and those that a scenario leaves, also one that is refused or that the
evaluation does not finish. -/
inductive Serves (S : Type) [Quantity R S T] (p : Product R) : Evaluator R T → Prop
  | new {method : Method R} {e : Evaluator R T} (h : ofMethod p method = .ok e) : Serves S p e
  | again {e : Evaluator R T} (h : Serves S p e) (scenario : Scenario T) (s : S) :
      Serves S p ((evaluate p scenario).exec e s).1.2

theorem Serves.hasTable (h : e.Serves S p) (hp : p.Fits) : e.HasTable p.names.size := by
  induction h with
  | new h => exact hasTable_ofMethod h
  | again _ scenario s ih => exact ih.evaluate hp scenario s

end Evaluator

variable [Scalar R] [Quantity R S T]

/-- A built product has an evaluator for each method, smoothing of positive width included. An evaluation, however
often the evaluator was used before, leaves a payoff or stops for an argument outside a domain. The jumps of the
bytecode go forward to instructions or to the end of the stream, and all of its runs go well. -/
theorem built_never_goes_wrong {plan : Plan R} {p : Product R} (h : plan.build = .ok p) :
    (∀ method, (∀ width, method = .fuzzy width → width > 0) →
      ∃ e : Evaluator R T, Evaluator.ofMethod p method = .ok e) ∧
    (∀ e : Evaluator R T, e.Serves S p → ∀ scenario : Scenario T, scenario.size = p.times.length → ∀ s : S,
      ∃ result e' s', (Evaluator.evaluate p scenario).exec e s = ((result, e'), s') ∧
        (result = .ok () ∧ (∃ x, e'.payoff? p = some x) ∨
          ∃ function argument, result = .error (.error (.domain function argument)))) ∧
    ∀ program ∈ p.programs,
      (∀ a, program.Leads 0 a → a < program.code.size → program.JumpsAhead program.code.size a) ∧
      ∀ (sample : Sample T) (m : Machine T) (s : S), m.values.size = p.names.size →
        Machine.RunsWell program sample m s := by
  have hp := Plan.fits_build h
  refine ⟨?_, ?_, ?_⟩
  · intro method hwidth
    cases method with
    | exact | compiled => exact ⟨_, rfl⟩
    | fuzzy width => exact ⟨_, if_pos (hwidth width rfl)⟩
  · intro e he scenario hsize s
    have hsafe := Evaluator.safe_evaluate hp hsize e s (he.hasTable hp)
    generalize (Evaluator.evaluate p scenario).exec e s = run at hsafe
    obtain ⟨⟨result, e'⟩, s'⟩ := run
    refine ⟨result, e', s', rfl, ?_⟩
    cases result with
    | error fault =>
      obtain ⟨function, argument, rfl⟩ := hsafe.2
      exact .inr ⟨function, argument, rfl⟩
    | ok =>
      have hpayoff : p.payoff < e'.values.size := hsafe.1.size_values ▸ hp.payoff
      exact .inl ⟨rfl, _, Array.getElem?_eq_getElem hpayoff⟩
  · intro program hprogram
    have htyped := hp.isTyped program hprogram
    exact ⟨htyped.jumpsAhead, fun sample m s hm => Machine.runsWell htyped hm⟩

theorem built_never_goes_wrong_capped : ∃ p, (Plan.cappedPlan (1 : ℝ)).build = .ok p ∧
    ∃ e : Evaluator ℝ ℝ, Evaluator.ofMethod p (.fuzzy 1) = .ok e ∧ ∀ sample : Sample ℝ,
      ∃ result e', (Evaluator.evaluate p #[sample]).exec e () = ((result, e'), ()) ∧
        (result = .ok () ∧ (∃ x, e'.payoff? p = some x) ∨
          ∃ function argument, result = .error (.error (.domain function argument))) := by
  obtain ⟨p, hp, htimes⟩ := Plan.build_capped (t := (1 : ℝ)) zero_le_one
  obtain ⟨hnew, heval, -⟩ := built_never_goes_wrong (S := Unit) (T := ℝ) hp
  obtain ⟨e, he⟩ := hnew (.fuzzy 1) fun width h => by
    cases h
    rw [scalar_zero]
    exact zero_lt_one' ℝ
  refine ⟨p, hp, e, he, fun sample => ?_⟩
  obtain ⟨result, e', u, hexec, hresult⟩ := heval e (.new he) #[sample] (by simp [htimes]) ()
  exact ⟨result, e', hexec, hresult⟩

end PayoffPricing
