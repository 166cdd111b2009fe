import PayoffPricing.Proofs.Product.Events
import PayoffPricing.Proofs.Script.Collapse
/-!
Events without decided conditions do what they did.
-/

namespace PayoffPricing.Script

open Evaluator

variable {R S T V : Type}

theorem events_collapse (events : List (Event R)) :
    (collapse events).1 = events.map fun event => (Statement.collapseBlock event).1 := by
  simp [collapse]

theorem removed_collapse (events : List (Event R)) :
    (collapse events).2 = (events.map fun event => (Statement.collapseBlock event).2).sum := by
  simp [collapse, List.sum_eq_foldl, List.foldl_map]

theorem collapse_collapse (events : List (Event R)) :
    collapse (collapse events).1 = ((collapse events).1, 0) := by
  have hagain : ∀ event : Event R, (Statement.collapseBlock (Statement.collapseBlock event).1).2 = 0 :=
    fun event => congrArg Prod.snd (Statement.collapseBlock_collapseBlock event)
  refine Prod.ext ?_ ?_
  · simp [events_collapse, Statement.collapseBlock_collapseBlock]
  · simp [removed_collapse, events_collapse, Function.comp_def, hagain]

/-- Steps that are blind to the decided conditions of one event are blind to those of all. -/
theorem runEvents_collapse {step : Event R → Sample T → Process R S V Unit}
    (h : ∀ event sample, step (Statement.collapseBlock event).1 sample = step event sample) (events : List (Event R))
    (scenario : Scenario T) : runEvents step (collapse events).1 scenario = runEvents step events scenario := by
  rw [events_collapse, runEvents_map]
  exact congrArg (fun step => runEvents step events scenario) (funext fun event => funext (h event))

variable [Scalar R] [Quantity R S T]

/-- Decided conditions can go: events evaluated exactly, with smoothing or compiled end as before from all variables
on. No decided conditional statement is left, and a second pass finds none. -/
theorem collapse_keeps_runs [RepresentedScalar R] [CrispScalar R] [SteadyQuantity R S T] (events : List (Event R))
    (width : R) (scenario : Scenario T) :
    (runEvents (fun event sample => Statement.runBlock sample event) (collapse events).1 scenario :
        Process R S (Variables T) Unit) =
      runEvents (fun event sample => Statement.runBlock sample event) events scenario ∧
    (runEvents (fun event sample => Fuzzy.runBlock width sample event) (collapse events).1 scenario :
        Process R S (Fuzzy.State T) Unit) =
      runEvents (fun event sample => Fuzzy.runBlock width sample event) events scenario ∧
    (runEvents Machine.run ((collapse events).1.map Program.ofEvent) scenario : Process R S (Machine T) Unit) =
      runEvents Machine.run (events.map Program.ofEvent) scenario ∧
    (∀ event ∈ (collapse events).1, Statement.AllOpen event) ∧
    collapse (collapse events).1 = ((collapse events).1, 0) := by
  refine ⟨?_, ?_, ?_, ?_, collapse_collapse events⟩
  · exact runEvents_collapse (fun event sample => Statement.runBlock_collapseBlock sample event) events scenario
  · exact runEvents_collapse (fun event sample => Fuzzy.runBlock_collapseBlock width sample event) events scenario
  · rw [runEvents_map, runEvents_map]
    exact runEvents_collapse (fun event _ => Machine.run_collapseBlock event) events scenario
  · rw [events_collapse]
    exact List.forall_mem_map.2 fun event _ => Statement.allOpen_collapseBlock event

/-- `IF SPOT() > 0 AND NOT TRUE THEN IF FALSE THEN V = 1 ELSE V = 2 ENDIF ELSE V = 3 ENDIF`, with the negation marked
as true. -/
def markedEvent : Event Float :=
  [.branch (.and none (.compare none (.new .above .spot none)) (.not (some true) (.literal true)))
    [.branch (.literal false) [.assign ⟨"V", 0⟩ (.literal 1)] [.assign ⟨"V", 0⟩ (.literal 2)] [0]]
    [.assign ⟨"V", 0⟩ (.literal 3)] [0]]

theorem collapse_keeps_runs_marked :
    (collapse [markedEvent]).2 = 1 ∧ (∀ event ∈ (collapse [markedEvent]).1, Statement.AllOpen event) ∧
    (runEvents Machine.run ((collapse [markedEvent]).1.map Program.ofEvent) #[⟨5, 1, #[], #[]⟩] :
        Process Float Unit (Machine Float) Unit) =
      runEvents Machine.run ([markedEvent].map Program.ofEvent) #[⟨5, 1, #[], #[]⟩] ∧
    (runEvents (fun event sample => Fuzzy.runBlock 1 sample event) (collapse [markedEvent]).1
        #[⟨.constant 5, .constant 1, #[], #[]⟩] : Process Float (Tape Float) (Fuzzy.State (Number Float)) Unit) =
      runEvents (fun event sample => Fuzzy.runBlock 1 sample event) [markedEvent]
        #[⟨.constant 5, .constant 1, #[], #[]⟩] := by
  obtain ⟨-, -, hcompiled, hopen, -⟩ := collapse_keeps_runs (S := Unit) (T := Float) [markedEvent] 1
    #[⟨5, 1, #[], #[]⟩]
  obtain ⟨-, hfuzzy, -⟩ := collapse_keeps_runs (S := Tape Float) (T := Number Float) [markedEvent] 1
    #[⟨.constant 5, .constant 1, #[], #[]⟩]
  exact ⟨rfl, hopen, hcompiled, hfuzzy⟩

end PayoffPricing.Script
