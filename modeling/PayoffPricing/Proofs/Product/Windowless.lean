import PayoffPricing.Proofs.Except
import PayoffPricing.Proofs.Product.Events
import PayoffPricing.Proofs.Product.Stages
import PayoffPricing.Proofs.Script.Windowless
/-!
Plans built with and without windows. Asking for smoothing windows the comparisons of a product and changes nothing
else, so that crisp evaluations cannot tell.
-/

namespace PayoffPricing

open Script

variable {R S T : Type} [Scalar R]

/-- The analysis with the windows of all events taken away. -/
def Analysis.windowless (a : Analysis R) : Analysis R := { a with events := a.events.map Statement.windowlessBlock }

namespace Script

theorem inferEvents_windowless (fuzzy : Bool) (events : List (Event R)) :
    inferEvents false (events.map Statement.windowlessBlock) =
      Annotated.map (List.map Statement.windowlessBlock) <$> inferEvents fuzzy events := by
  induction events with
  | nil => rfl
  | cons event rest ih =>
    simp only [List.map_cons, inferEvents, map_bind, Statement.inferBlock_windowless fuzzy event, ih, bind_map_left]
    refine bind_congr fun annotated => ?_
    obtain ⟨event, stop⟩ := annotated
    cases stop with
    | some e => rfl
    | none => simp [Annotated.map]

theorem foldEvents_windowless (events : List (Event R)) :
    foldEvents (events.map Statement.windowlessBlock) =
      Annotated.map (List.map Statement.windowlessBlock) <$> foldEvents events := by
  induction events with
  | nil => rfl
  | cons event rest ih =>
    simp only [List.map_cons, foldEvents, map_bind, Statement.foldBlock_windowless false event, ih, bind_map_left]
    refine bind_congr fun annotated => ?_
    obtain ⟨event, stop⟩ := annotated
    cases stop with
    | some e => rfl
    | none => simp [Annotated.map]

theorem collapse_windowless (events : List (Event R)) :
    (collapse (events.map Statement.windowlessBlock)).1 = (collapse events).1.map Statement.windowlessBlock := by
  simp [collapse, Function.comp_def, Statement.collapseBlock_windowless]

/-- What is left to do once conditions are decided. -/
def completed (names : Array String) (nesting : Nat) (events : List (Event R)) :
    Except (Fault (ScriptError R)) (Analysis R) := do
  let events ← ((foldEvents (collapse events).1).run (Knowledge.initial names.size)).1.result
  return ⟨events, names, nesting⟩

theorem analyse_eq (fuzzy : Bool) (events : List (Event R)) :
    analyse fuzzy events =
      ((inferEvents fuzzy (markAffected (assignSlots events).1).1).run
        (Domains.initial (assignSlots events).2.size)).1.result >>=
      completed (assignSlots events).2 (markAffected (assignSlots events).1).2 := rfl

theorem completed_windowless (names : Array String) (nesting : Nat) (events : List (Event R)) :
    completed names nesting (events.map Statement.windowlessBlock) =
      Analysis.windowless <$> completed names nesting events := by
  have hfold (k : Knowledge R) :
      ((foldEvents ((collapse events).1.map Statement.windowlessBlock)).run k).1.result =
        List.map Statement.windowlessBlock <$> ((foldEvents (collapse events).1).run k).1.result := by
    rw [foldEvents_windowless]
    exact Annotated.result_map _ _
  simp only [completed, collapse_windowless, hfold, bind_map_left, map_bind, map_pure]
  rfl

/-- Whether windows are noted or not, the analysis ends alike, with the same events up to windows. -/
theorem analyse_windowless (fuzzy : Bool) (events : List (Event R)) :
    Analysis.windowless <$> analyse fuzzy events = Analysis.windowless <$> analyse false events := by
  have hinfer (fuzzy : Bool) (marked : List (Event R)) (domains : Domains R) :
      List.map Statement.windowlessBlock <$> ((inferEvents fuzzy marked).run domains).1.result =
        ((inferEvents false (marked.map Statement.windowlessBlock)).run domains).1.result := by
    rw [inferEvents_windowless fuzzy]
    exact (Annotated.result_map _ _).symm
  simp only [analyse_eq, map_bind, ← completed_windowless]
  simp only [← bind_map_left, hinfer]

end Script

/-- Products with the same times, variables, payoff and programs, and the same statements up to the windows of
comparisons. -/
structure Product.DiffersInWindows (p q : Product R) : Prop where
  times : p.times = q.times
  names : p.names = q.names
  payoff : p.payoff = q.payoff
  nesting : p.nesting = q.nesting
  programs : p.programs = q.programs
  events : p.events.map Statement.windowlessBlock = q.events.map Statement.windowlessBlock

namespace Product.DiffersInWindows

variable {p q : Product R} (h : p.DiffersInWindows q)

include h

theorem ofMethod_exact [Valued R T] :
    (Evaluator.ofMethod p .exact : Except (ScriptError R) (Evaluator R T)) = Evaluator.ofMethod q .exact := by
  simp only [Evaluator.ofMethod, h.names]

theorem ofMethod_compiled [Valued R T] :
    (Evaluator.ofMethod p .compiled : Except (ScriptError R) (Evaluator R T)) = Evaluator.ofMethod q .compiled := by
  simp only [Evaluator.ofMethod, h.names]

theorem check_eq (scenario : Scenario T) : Scenario.check p.requests scenario = Scenario.check q.requests scenario := by
  rw [Product.requests, Product.requests, h.times]

variable [Quantity R S T]

theorem runEvents_eq (scenario : Scenario T) :
    (Evaluator.runEvents (fun event sample => Statement.runBlock sample event) p.events scenario :
      Process R S (Variables T) Unit) =
    Evaluator.runEvents (fun event sample => Statement.runBlock sample event) q.events scenario := by
  have hwindowless (events : List (Event R)) :
      (Evaluator.runEvents (fun event sample => Statement.runBlock sample event)
        (events.map Statement.windowlessBlock) scenario : Process R S (Variables T) Unit) =
      Evaluator.runEvents (fun event sample => Statement.runBlock sample event) events scenario := by
    rw [Evaluator.runEvents_map]
    simp only [Statement.runBlock_windowless]
  rw [← hwindowless, h.events, hwindowless]

/-- Evaluations agree from an evaluator that the runs do not tell the products apart from. -/
theorem exec_evaluate {e : Evaluator R T} (scenario : Scenario T)
    (hrun : ∀ s : S, (Evaluator.run p scenario).exec e.reset s = (Evaluator.run q scenario).exec e.reset s) (s : S) :
    (Evaluator.evaluate p scenario).exec e s = (Evaluator.evaluate q scenario).exec e s := by
  simp only [Evaluator.evaluate, h.check_eq]
  cases Scenario.check q.requests scenario with
  | error e => rfl
  | ok => simpa using hrun s

theorem exec_exact (scenario : Scenario T) (values : Variables T) (s : S) :
    (Evaluator.evaluate p scenario).exec (.exact values) s = (Evaluator.evaluate q scenario).exec (.exact values) s := by
  refine h.exec_evaluate scenario (fun s => ?_) s
  have hevents := congrArg (fun action => (action.run (values.map fun _ => Quantity.zero)).run s)
    (h.runEvents_eq (S := S) scenario)
  simp only [Evaluator.reset, Process.exec, Evaluator.run]
  exact congrArg (fun r : (Except (Fault (ScriptError R)) Unit × Variables T) × S =>
    ((r.1.1, Evaluator.exact r.1.2), r.2)) hevents

theorem exec_compiled (scenario : Scenario T) (machine : Machine T) (s : S) :
    (Evaluator.evaluate p scenario).exec (.compiled machine) s =
      (Evaluator.evaluate q scenario).exec (.compiled machine) s := by
  refine h.exec_evaluate scenario (fun s => ?_) s
  simp only [Evaluator.reset, Process.exec, Evaluator.run, h.programs]
  rfl

end Product.DiffersInWindows

namespace Plan

/-- A product is assembled from one analysis if it is from another one with the same events up to windows. -/
theorem assembled_windowless {a b : Analysis R} (hab : a.windowless = b.windowless) (payoff : String) (times : List R) :
    (∃ fault, assembled true payoff times a = .error fault ∧ assembled false payoff times b = .error fault) ∨
      ∃ p q, assembled true payoff times a = .ok p ∧ assembled false payoff times b = .ok q ∧ p.DiffersInWindows q := by
  obtain ⟨events, names, nesting⟩ := a
  obtain ⟨others, names', nesting'⟩ := b
  obtain ⟨hevents, rfl, rfl⟩ := Analysis.mk.inj hab
  simp only [assembled]
  cases names.idxOf? payoff with
  | none => exact .inl ⟨_, rfl, rfl⟩
  | some slot =>
    have hprograms : events.map Program.ofEvent = others.map Program.ofEvent := by
      have hmap (events : List (Event R)) :
          (events.map Statement.windowlessBlock).map Program.ofEvent = events.map Program.ofEvent := by
        rw [List.map_map]
        exact List.map_congr_left fun event _ => Program.ofEvent_windowless event
      rw [← hmap, hevents, hmap]
    exact .inr ⟨_, _, rfl, rfl, rfl, rfl, rfl, rfl, hprograms, hevents⟩

theorem build_windowless (plan : Plan R) :
    (∃ fault, { plan with fuzzy := true }.build = .error fault ∧ { plan with fuzzy := false }.build = .error fault) ∨
      ∃ p q, { plan with fuzzy := true }.build = .ok p ∧ { plan with fuzzy := false }.build = .ok q ∧
        p.DiffersInWindows q := by
  rw [build_eq, build_eq]
  cases plan.payoff with
  | none => exact .inl ⟨_, rfl, rfl⟩
  | some payoff =>
    cases liftError plan.timeline with
    | error fault => exact .inl ⟨fault, rfl, rfl⟩
    | ok timeline =>
      cases hparsed : liftError (plan.parseAll (timeline.map (·.2))) with
      | error fault => exact .inl ⟨fault, by simp [bind, Except.bind, hparsed]⟩
      | ok events =>
        simp only [bind, Except.bind, hparsed]
        rcases alike_of_map_eq (analyse_windowless true events) with ⟨fault, ha, hb⟩ | ⟨a, b, ha, hb, hab⟩
        · rw [ha, hb]
          exact .inl ⟨fault, rfl, rfl⟩
        · rw [ha, hb]
          exact assembled_windowless hab payoff _

end Plan

/-- Asking for smoothing leaves crisp pricing alone: a plan is built with it exactly if it is built without, refused
with the same error otherwise, and the two products have the same times, variables, payoff and programs, and the same
statements up to the windows of comparisons. So exact and compiled evaluations agree on every scenario. -/
theorem smoothing_leaves_crisp_pricing (plan : Plan R) :
    (∃ fault, { plan with fuzzy := true }.build = .error fault ∧ { plan with fuzzy := false }.build = .error fault) ∨
      ∃ p q, { plan with fuzzy := true }.build = .ok p ∧ { plan with fuzzy := false }.build = .ok q ∧
        p.DiffersInWindows q ∧ ∀ {S T : Type} [Quantity R S T],
          (Evaluator.ofMethod p .exact : Except (ScriptError R) (Evaluator R T)) = Evaluator.ofMethod q .exact ∧
          (Evaluator.ofMethod p .compiled : Except (ScriptError R) (Evaluator R T)) = Evaluator.ofMethod q .compiled ∧
          (∀ e : Evaluator R T, e.payoff? p = e.payoff? q) ∧
          ∀ (scenario : Scenario T) (s : S),
            (∀ values, (Evaluator.evaluate p scenario).exec (.exact values) s =
              (Evaluator.evaluate q scenario).exec (.exact values) s) ∧
            ∀ machine, (Evaluator.evaluate p scenario).exec (.compiled machine) s =
              (Evaluator.evaluate q scenario).exec (.compiled machine) s := by
  rcases plan.build_windowless with hfault | ⟨p, q, hp, hq, h⟩
  · exact .inl hfault
  · refine .inr ⟨p, q, hp, hq, h, ?_⟩
    intro S T _
    refine ⟨h.ofMethod_exact, h.ofMethod_compiled, fun e => ?_, fun scenario s => ?_⟩
    · rw [Evaluator.payoff?, Evaluator.payoff?, h.payoff]
    · exact ⟨fun values => h.exec_exact scenario values s, fun machine => h.exec_compiled scenario machine s⟩

end PayoffPricing
