import Mathlib
import PayoffPricing.Proofs.Product.Events
import PayoffPricing.Proofs.Product.Folding
import PayoffPricing.Proofs.Script.Branches
import PayoffPricing.Proofs.Script.Parsing
import PayoffPricing.Proofs.Script.Slots
/-!
Building keeps the meaning of a script. As far as the domain analysis settles its conditions, the
built product leaves the variables as the parsed events do.
-/

namespace PayoffPricing.Script

open Statement

variable {R : Type} [ExactScalar R]

/-- The events are run in order, each on the sample of its time. -/
def walk {S : Type} [Quantity R S R] (events : List (Event R)) (scenario : Scenario R) :
    Process R S (Variables R) Unit :=
  Evaluator.runEvents (fun event sample => runBlock sample event) events scenario

/-- The tolerance tells apart what the analysis of the events compares, and its verdicts are right at the
tolerances that the events state. -/
def SettledEvents (fuzzy : Bool) (domains : Domains R) : List (Event R) → Prop
  | [] => True
  | event :: rest => SettledBlock fuzzy domains event ∧
      SettledEvents fuzzy ((inferBlock fuzzy event).run domains).2 rest

section Inversion

variable {fuzzy : Bool} {event : Event R} {rest results : List (Event R)}

theorem inferEvents_cons {domains domains' : Domains R}
    (h : inferEvents fuzzy (event :: rest) domains = (⟨results, none⟩, domains')) :
    ∃ first domains₁ others, inferBlock fuzzy event domains = (⟨first, none⟩, domains₁) ∧
      inferEvents fuzzy rest domains₁ = (⟨others, none⟩, domains') ∧ results = first :: others := by
  simp only [inferEvents, bind, StateT.bind, pure] at h
  generalize hs : inferBlock fuzzy event domains = r at h
  obtain ⟨⟨first, _ | stop⟩, domains₁⟩ := r
  · simp only [Option.isSome_none, Bool.false_eq_true, if_false, StateT.bind] at h
    generalize hr : inferEvents fuzzy rest domains₁ = r at h
    obtain ⟨⟨others, stop⟩, domains₂⟩ := r
    cases h
    exact ⟨first, domains₁, others, rfl, hr, rfl⟩
  · cases h

end Inversion

theorem remembers_walk (events : List (Event R)) (samples : List (Sample R)) :
    (walk events samples.toArray : Process R Prop (Variables R) Unit).Remembers := by
  induction events generalizing samples with
  | nil => exact fun _ _ h => h
  | cons event rest ih =>
    cases samples with
    | nil => exact fun _ _ h => h
    | cons s samples => exact (remembers_runBlock event).bind fun _ => ih samples

theorem walk_markAffected {S : Type} [Quantity R S R] (events : List (Event R)) (samples : List (Sample R)) :
    (walk ((events.map markAffectedBlock).map bareBlock) samples.toArray : Process R S (Variables R) Unit) =
      walk (events.map bareBlock) samples.toArray := by
  induction events generalizing samples with
  | nil => rfl
  | cons event rest ih =>
    cases samples with
    | nil => rfl
    | cons s samples =>
      have hrest := ih samples
      simp only [walk] at hrest ⊢
      rw [List.map_cons, List.map_cons, List.map_cons, Evaluator.runEvents_cons, Evaluator.runEvents_cons,
        runBlock_markAffected, hrest]

/-- A run that divides by no zero is also one of the analysed events without decided conditions. -/
theorem exec_walk_collapse {fuzzy : Bool} {events results : List (Event R)} {samples : List (Sample R)}
    {domains domains' : Domains R} {vs vs' : Variables R} (hn : ∀ s ∈ samples, 0 < s.numeraire)
    (hD : domains.Sharp) (hm : ∀ event ∈ events, MarkedBlock event) (hs : SettledEvents fuzzy domains events)
    (h : inferEvents fuzzy events domains = (⟨results, none⟩, domains')) (hin : domains.Hold vs)
    (hrun : (walk (events.map bareBlock) samples.toArray : Process R Prop (Variables R) Unit).Yields vs () vs') :
    (walk ((collapse results).1.map bareBlock) samples.toArray : Process R Unit (Variables R) Unit).exec vs () =
      ((.ok (), vs'), ()) := by
  induction events generalizing results samples domains vs with
  | nil =>
    cases h
    cases hrun
    rfl
  | cons event rest ih =>
    obtain ⟨first, domains₁, others, hfirst, hrest, rfl⟩ := inferEvents_cons h
    cases samples with
    | nil =>
      cases hrun
      rfl
    | cons s samples =>
      obtain ⟨hse, hsr⟩ := hs
      rw [show (inferBlock fuzzy event).run domains = (⟨first, none⟩, domains₁) from hfirst] at hsr
      have hf := follows_inferBlock (hn s List.mem_cons_self) event hD (hm event List.mem_cons_self) hse hfirst
      obtain ⟨_, us, hev, hrun⟩ := hrun.bind_inv fun _ => remembers_walk (rest.map bareBlock) samples
      obtain ⟨hin, hexec⟩ := hf.run vs us hin hev
      have htail := ih (fun s hs => hn s (List.mem_cons_of_mem _ hs)) hf.sharp
        (fun e he => hm e (List.mem_cons_of_mem _ he)) hsr hrest hin hrun
      exact (Process.exec_bind _ _ vs ()).trans (hexec ▸ htail)

/-- Folded events without decided conditions run as they did. -/
theorem exec_walk_fold {events results : List (Event R)} {samples : List (Sample R)} {k k' : Knowledge R}
    {vs : Variables R} (hu : ∀ event ∈ events, UndecidedBlock event)
    (h : foldEvents events k = (⟨results, none⟩, k')) (hk : Knows k.values vs) :
    (walk results samples.toArray : Process R Unit (Variables R) Unit).exec vs () =
      (walk (events.map bareBlock) samples.toArray : Process R Unit (Variables R) Unit).exec vs () :=
  (exec_runEvents_fold hu h hk (reachedEvents_of_forall (fun _ _ _ x _ => isUndefined_exact x) events samples vs)).1

section Start

variable (n : Nat)

theorem sharp_initial : (Domains.initial n : Domains R).Sharp := by
  intro i d h
  rw [Domains.initial, scalar_zero, Array.getElem?_replicate] at h
  split_ifs at h
  rw [← Option.some.inj h]
  refine sharp_singleton fun u hu v hv => ?_
  have h0 : ∀ u ∈ [Bound.finite 0, Bound.finite (0 : R)], u = Bound.finite 0 := by simp
  rw [h0 u hu, h0 v hv]
  exact Bound.apart_self _

theorem hold_initial : (Domains.initial n : Domains R).Hold (Array.replicate n 0) := by
  intro i d x hd hx
  rw [Domains.initial, scalar_zero, Array.getElem?_replicate] at hd
  rw [Array.getElem?_replicate] at hx
  split_ifs at hd hx
  rw [← Option.some.inj hd, ← Option.some.inj hx]
  exact Domain.has_ofInterval (Interval.has_singleton 0)

end Start

theorem Annotated.result_eq_ok {ε α : Type} {r : Annotated ε α} {a : α} (h : r.result = .ok a) :
    r = ⟨a, none⟩ := by
  obtain ⟨term, _ | stop⟩ := r
  · cases h
    rfl
  · cases h

omit [ExactScalar R] in
theorem undecided_of_collapse {events : List (Event R)} {event : Event R} (h : event ∈ (collapse events).1) :
    UndecidedBlock event := by
  simp only [collapse, List.map_map, List.mem_map, Function.comp_apply] at h
  obtain ⟨body, -, rfl⟩ := h
  exact undecided_collapseBlock body

/-- Analysed events leave the variables as they do without analysis. -/
theorem exec_walk_analyse {fuzzy : Bool} {events : List (Event R)} {a : Analysis R} {names : Array String}
    {indexed : List (Event R)} (ha : analyse fuzzy events = .ok a) (hi : assignSlots events = (indexed, names))
    (hb : indexed.map bareBlock = indexed)
    (hs : SettledEvents fuzzy (Domains.initial names.size) (markAffected indexed).1)
    {samples : List (Sample R)} (hn : ∀ s ∈ samples, 0 < s.numeraire) {vs : Variables R}
    (hrun : (walk indexed samples.toArray : Process R Prop (Variables R) Unit).Yields
      (Array.replicate names.size 0) () vs) :
    a.names = names ∧ (walk a.events samples.toArray : Process R Unit (Variables R) Unit).exec
      (Array.replicate names.size 0) () = ((.ok (), vs), ()) := by
  unfold analyse at ha
  rw [hi] at ha
  obtain ⟨inferred, hinfer, ha⟩ := bind_eq_ok_iff.1 ha
  obtain ⟨folded, hfold, ha⟩ := bind_eq_ok_iff.1 ha
  cases ha
  have hinfer := Annotated.result_eq_ok hinfer
  have hfold := Annotated.result_eq_ok hfold
  have hzeros : (Array.replicate names.size Quantity.zero : Variables R) = Array.replicate names.size 0 :=
    congrArg (Array.replicate names.size) scalar_zero
  have hknows : Knows (Knowledge.initial names.size).values (Array.replicate names.size (0 : R)) :=
    hzeros ▸ knows_initial names.size
  refine ⟨rfl, (exec_walk_fold (fun _ => undecided_of_collapse) (Prod.ext hfold rfl) hknows).trans ?_⟩
  refine exec_walk_collapse hn (sharp_initial names.size) (fun event he => ?_) hs (Prod.ext hinfer rfl)
    (hold_initial names.size) ?_
  · obtain ⟨body, -, rfl⟩ := List.mem_map.1 he
    exact marked_markAffectedBlock body
  · rw [show (markAffected indexed).1 = indexed.map markAffectedBlock from rfl, walk_markAffected, hb]
    exact hrun

end PayoffPricing.Script

namespace PayoffPricing.Plan

open Script

variable {R : Type} [ExactScalar R]

/-- The events of a plan as they are parsed, with slots, and the names of the variables. -/
def indexed (plan : Plan R) : Except (ScriptError R) (List (Event R) × Array String) := do
  let timeline ← plan.timeline
  return assignSlots (← plan.parseAll (timeline.map (·.2)))

theorem bare_parseAll {plan : Plan R} {texts : List String} {events : List (Event R)}
    (h : plan.parseAll texts = .ok events) : events.map Statement.bareBlock = events := by
  have hall := mapM_eq_ok_iff.1 h
  refine (List.map_congr_left fun event he => ?_).trans (List.map_id events)
  obtain ⟨⟨text, i⟩, -, hparse⟩ := exists_left_of_forall₂ hall he
  exact bare_parseEvent hparse

/-- An exact evaluator starts from zeros, whatever it holds. -/
theorem exec_evaluate {p : Product R} {samples : List (Sample R)} {old vs : Variables R}
    (hsize : samples.length = p.times.length)
    (h : (walk p.events samples.toArray : Process R Unit (Variables R) Unit).exec
      (Array.replicate old.size 0) () = ((.ok (), vs), ())) :
    (Evaluator.evaluate p samples.toArray : Process R Unit (Evaluator R R) Unit).exec (.exact old) () =
      ((.ok (), .exact vs), ()) := by
  have hcheck : Scenario.check p.requests samples.toArray = .ok () := by
    rw [Scenario.check, if_pos]
    simp [Product.requests, hsize]
  have hzero : (old.map fun _ => (Quantity.zero : R)) = Array.replicate old.size 0 := by
    rw [Array.map_const', Quantity.zero, scalar_zero]
    rfl
  simp only [Evaluator.evaluate, hcheck, Process.exec_bind, Process.exec_modify, Evaluator.reset, hzero]
  exact (congrArg (fun r => ((r.1.1, Evaluator.exact r.1.2), r.2)) h :)

section Capped

def cappedText : String := "X=SPOT() IF X>1 THEN X=1 END"

/-- The spot at a time, but no more than one. -/
def cappedPlan {R : Type} [Scalar R] (t : R) : Plan R :=
  (Plan.empty.addEvent (.years t) cappedText).setPayoff "X"

def cappedEvent (R : Type) [Scalar R] (slot : Nat) : Event R :=
  [.assign ⟨"X", slot⟩ .spot,
    .branch (.compare none (.new .above
        (.difference (.read none ⟨"X", slot⟩) (.literal (Scalar.ofDecimal 1 0))) none))
      [.assign ⟨"X", slot⟩ (.literal (Scalar.ofDecimal 1 0))] [] []]

variable {t : R}

theorem timeline_capped (ht : 0 ≤ t) : (cappedPlan t).timeline = .ok [(t, cappedText)] := by
  have hexpanded : (cappedPlan t).expanded cappedText = .ok cappedText := by cbv
  have htimes : (cappedPlan t).times (.years t) = .ok [t] := by
    simp only [times, ExactScalar.isFinite_eq, Bool.true_and, scalar_zero, ge_iff_le, decide_eq_true ht,
      if_true]
  have hocc : (cappedPlan t).occurrences = .ok [(t, cappedText)] := by
    simp only [occurrences, show (cappedPlan t).events = [(.years t, cappedText)] from rfl, List.mapM_cons,
      hexpanded, htimes]
    rfl
  simp only [timeline, hocc]
  change Except.ok (joinTexts ([(t, cappedText)].mergeSort _)) = _
  rw [List.mergeSort_singleton, joinTexts]

theorem parseAll_capped :
    (cappedPlan t).parseAll [cappedText] = .ok [cappedEvent R Variable.unassigned] := by
  have hparse : parseEvent cappedText 0 [] = .ok (cappedEvent R Variable.unassigned) := by cbv
  simp only [parseAll, List.zipIdx_cons, List.zipIdx_nil, List.mapM_cons, List.mapM_nil,
    show (cappedPlan t).constants = [] from rfl, hparse]
  rfl

theorem indexed_capped (ht : 0 ≤ t) : (cappedPlan t).indexed = .ok ([cappedEvent R 0], #["X"]) := by
  have hslots : assignSlots [cappedEvent R Variable.unassigned] = ([cappedEvent R 0], #["X"]) := by cbv
  simp only [indexed, timeline_capped ht, bind, Except.bind, List.map_cons, List.map_nil, parseAll_capped,
    hslots]
  rfl

/-- The product of the plan. The domain of the spot is the whole line, so that nothing is decided. -/
def cappedProduct {R : Type} [Scalar R] (t : R) : Product R where
  times := [t]
  events := (markAffected [cappedEvent R 0]).1
  programs := (markAffected [cappedEvent R 0]).1.map .ofEvent
  names := #["X"]
  payoff := 0
  nesting := 1
  fuzzy := false

theorem build_eq_capped (ht : 0 ≤ t) : (cappedPlan t).build = .ok (cappedProduct t) := by
  have hanalyse : analyse false [cappedEvent R Variable.unassigned] =
      .ok ⟨(markAffected [cappedEvent R 0]).1, #["X"], 1⟩ := by cbv
  have hpayoff : (cappedPlan t).payoff = some "X" := by cbv
  have hslot : (#["X"] : Array String).idxOf? "X" = some 0 := by cbv
  simp only [build, hpayoff, timeline_capped ht, liftError, bind, Except.bind, List.map_cons, List.map_nil,
    parseAll_capped, show (cappedPlan t).fuzzy = false from rfl, hanalyse, hslot]
  rfl

theorem build_capped (ht : 0 ≤ t) : ∃ p, (cappedPlan t).build = .ok p ∧ p.times = [t] :=
  ⟨cappedProduct t, build_eq_capped ht, rfl⟩

theorem decimal_one : (Scalar.ofDecimal 1 0 : R) = 1 := by
  rw [ExactScalar.ofDecimal_eq]
  norm_num

theorem resolved_capped :
    Resolved [Bound.minusInfinity, .plusInfinity, .finite (Scalar.ofDecimal 1 0 : R)] := by
  have h := Bound.tolerance_lt_one (R := R)
  rw [decimal_one]
  intro a ha b hb
  fin_cases ha <;> fin_cases hb <;> simp [Bound.Apart, h]

theorem settled_capped :
    SettledEvents false (Domains.initial 1) (markAffected [cappedEvent R 0]).1 := by
  have hone : Resolved [Bound.finite (Scalar.ofDecimal 1 0 : R)] := resolved_capped.mono (by simp)
  refine ⟨⟨trivial, ⟨⟨⟨trivial, hone, fun a b ha hb => ?_⟩, fun d _ t b ht => ?_⟩, ?_⟩, trivial⟩, trivial⟩
  · cases hb
    cases ha
    change Resolved [Bound.minusInfinity, .plusInfinity]
    exact resolved_capped.mono (by simp)
  · cases ht
  · change (_ ∧ _) ∧ _ ∧ ∀ i ∈ [0], _
    refine ⟨⟨hone, trivial⟩, trivial, fun i hi a b ha hb => ?_⟩
    cases List.mem_singleton.1 hi
    cases ha
    cases hb
    change Resolved [Bound.minusInfinity, .plusInfinity, .finite (Scalar.ofDecimal 1 0 : R),
      .finite (Scalar.ofDecimal 1 0)]
    exact resolved_capped.mono (by simp)

theorem yields_capped :
    (walk [cappedEvent ℝ 0] [(⟨3, 1, #[], #[]⟩ : Sample ℝ)].toArray :
      Process ℝ Prop (Variables ℝ) Unit).Yields #[0] () #[1] := by
  have h : Intrinsic.holds .above (3 - 1 : ℝ) Intrinsic.defaultTolerance = true := by
    refine decide_eq_true (lt_trans Bound.tolerance_lt_one ?_)
    norm_num
  simp only [Process.Yields, walk, cappedEvent, Comparison.new, Expr.difference, decimal_one,
    Evaluator.runEvents_cons, Statement.runBlock, Statement.run, Expr.eval, Variables.store, Cond.eval,
    Variables.fetch, Intrinsic.binary, pure_bind, bind_pure_comp, map_bind, id_map', bind_assoc,
    Evaluator.runEvents_none, Process.exec_bind, Process.exec_get, List.size_toArray, List.length_cons,
    List.length_nil, zero_add, Order.lt_one_iff, if_true, List.setIfInBounds_toArray, List.set_cons_zero,
    Process.exec_ofEvaluation, Evaluation.exec_pure, Process.exec_set, getElem?_pos, List.getElem_toArray,
    List.getElem_cons_zero, Evaluation.exec_map, Evaluation.exec_record]
  exact (congrArg (fun action : Process ℝ Prop (Variables ℝ) Unit => action.exec #[3] True)
    (if_pos h)).trans rfl

end Capped

end PayoffPricing.Plan
