import PayoffPricing.Product.Evaluator
import PayoffPricing.Proofs.Script.Process
/-!
Runs over the events of a product, one event and one sample at a time.
-/

namespace PayoffPricing.Evaluator

open Script

variable {R S T V α : Type} (step : α → Sample T → Process R S V Unit)

@[simp]
theorem runEvents_nil (scenario : Scenario T) : runEvents step [] scenario = pure () := rfl

@[simp]
theorem runEvents_none (events : List α) : runEvents step events #[] = pure () := by
  cases events <;> rfl

@[simp]
theorem runEvents_cons (event : α) (events : List α) (sample : Sample T) (samples : List (Sample T)) :
    runEvents step (event :: events) (sample :: samples).toArray =
      step event sample >>= fun _ => runEvents step events samples.toArray := rfl

theorem runEvents_map {β : Type} (f : β → α) (events : List β) (scenario : Scenario T) :
    runEvents step (events.map f) scenario = runEvents (fun event => step (f event)) events scenario := by
  obtain ⟨samples⟩ := scenario
  induction events generalizing samples with
  | nil => rfl
  | cons event events ih =>
    cases samples with
    | nil => rfl
    | cons sample samples => rw [List.map_cons, runEvents_cons, runEvents_cons, ih]

theorem check_of_size [Scalar R] {p : Product R} {scenario : Scenario T} (h : scenario.size = p.times.length) :
    Scenario.check p.requests scenario = .ok () := by
  rw [Scenario.check, if_pos]
  simp [Product.requests, h]

theorem check_of_size_ne [Scalar R] {p : Product R} {scenario : Scenario T} (h : scenario.size ≠ p.times.length) :
    Scenario.check p.requests scenario = .error (.lengthMismatch p.requests.size scenario.size) := by
  rw [Scenario.check, if_neg]
  simpa [Product.requests, eq_comm] using h

end PayoffPricing.Evaluator
