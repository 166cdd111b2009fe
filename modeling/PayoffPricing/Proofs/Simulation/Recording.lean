import PayoffPricing.Proofs.Model.Prototype
import PayoffPricing.Proofs.Simulation.Reverse
import PayoffPricing.Simulation.Run
/-!
Recording never changes what is computed: a path has the same observations, the same variables and the
same error with numbers as with plain scalars, and a simulation has the same payoffs, price and error of
the price.
-/

namespace PayoffPricing

/-- The sample without what is recorded about it. -/
def Sample.values {R : Type} (s : Sample (Number R)) : Sample R :=
  ⟨s.spot.value, s.numeraire.value, s.forwards.map (·.value), s.discounts.map (·.value)⟩

namespace Simulation

open PayoffPricing.Random Worlds Likeness

variable {R G : Type} [Scalar R]

section Result

/-- The configuration in another mode. -/
def Config.withMode (c : Config R) (mode : AdjointMode) : Config R := { c with mode := mode }

def Config.splitSize (c : Config R) : Nat := c.effectiveBatchSize c.effectiveThreads

def Config.queue (c : Config R) : BatchQueue := .ofPaths c.paths c.splitSize

def Config.workers (c : Config R) : Nat := min c.effectiveThreads c.queue.count

/-- The payoffs of all workers, each one at the place of its path. -/
def Config.assemble (c : Config R) (results : List (WorkerResult R)) : Array R :=
  results.foldl (fun payoffs r => writeBatches c.splitSize payoffs r.output) (Array.replicate c.paths 0)

/-- The sensitivities before any worker has added to them. -/
def Config.zeros (c : Config R) (prepared : Model R R) : List R :=
  match c.mode with
  | .off => []
  | .reverse => prepared.parameters.map fun _ => 0

/-- What a simulation makes of the results of its workers. -/
def Config.result (c : Config R) (prepared : Model R R) (results : List (WorkerResult R)) : Result R where
  payoffs := c.assemble results
  price := (meanAndError (c.assemble results)).1
  stdError := (meanAndError (c.assemble results)).2
  gradient := (results.foldl (fun sum r => addLists sum r.gradient) (c.zeros prepared)).map
    (· / Scalar.ofNat c.paths)
  paths := c.paths
  batches := c.queue.count
  workers := c.workers

theorem simulate_eq [DrawStream R G] (p : Product R) (m : Model R R) (stream : G) (c : Config R) :
    simulate p m stream c = (do
      let prepared ← ((prepareModel p m : Simulated R Unit (Model R R)).run ()).1
      let results ← runWorkers ⟨p, m, stream, c, prepared.dimension⟩ c.workers c.queue
      return c.result prepared results) := rfl

/-- The results from which a simulation is made. -/
theorem Job.exists_results [DrawStream R G] (job : Job R G) {prepared : Model R R} {r : Result R}
    (hprepared : ((prepareModel job.product job.model : Simulated R Unit (Model R R)).run ()).1 = .ok prepared)
    (hdimension : job.dimension = prepared.dimension)
    (h : simulate job.product job.model job.stream job.config = .ok r) :
    ∃ results, runWorkers job job.config.workers job.config.queue = .ok results ∧
      job.config.result prepared results = r := by
  rw [simulate_eq, hprepared] at h
  obtain ⟨_, hsame, h⟩ := bind_eq_ok_iff.1 h
  obtain rfl := Except.ok.inj hsame
  obtain ⟨results, hresults, hr⟩ := bind_eq_ok_iff.1 h
  rw [← hdimension] at hresults
  exact ⟨results, hresults, Except.ok.inj hr⟩

end Result

section Workspaces

variable (T T' : Type) [Valued R T] [Valued R T']

theorem shape_initial (p : Product R) :
    shape (Scenario.reset (Scenario.allocate p.requests : Scenario T)).toList =
      p.requests.toList.map fun r => r.forwards.size := by
  simp [shape, Scenario.reset, Scenario.allocate, Sample.reset, Sample.allocate]

/-- New evaluators have one frame, or are refused alike. -/
theorem outcome_ofMethod (p : Product R) (μ : Method R) :
    Outcome (fun (e : Evaluator R T) (e' : Evaluator R T') => e.frame = e'.frame) (Evaluator.ofMethod p μ)
      (Evaluator.ofMethod p μ) := by
  cases μ with
  | exact => simp [Evaluator.ofMethod, Outcome, Evaluator.frame, Evaluator.method, Evaluator.values]
  | fuzzy width =>
    simp only [Evaluator.ofMethod]
    split
    · simp [Outcome, Evaluator.frame, Evaluator.method, Evaluator.values]
    · rfl
  | compiled => simp [Evaluator.ofMethod, Outcome, Evaluator.frame, Evaluator.method, Evaluator.values]

theorem outcome_create [DrawStream R G] (p : Product R) (c : Config R) (stream : G) (dimension : Nat) :
    Outcome (fun (u : Workspace R G T) (u' : Workspace R G T') => u.stream = u'.stream ∧ u.frame = u'.frame)
      (Workspace.create p c stream dimension) (Workspace.create p c stream dimension) := by
  have h := outcome_ofMethod T T' p c.method
  unfold Workspace.create
  generalize (Evaluator.ofMethod p c.method : Except _ (Evaluator R T)) = r at h
  generalize (Evaluator.ofMethod p c.method : Except _ (Evaluator R T')) = r' at h
  rcases r with e | e <;> rcases r' with e' | e'
  · exact congrArg (Fault.error ∘ SimulationError.script) h
  · exact h.elim
  · exact h.elim
  · refine ⟨rfl, Prod.ext ?_ h⟩
    change shape _ = shape _
    rw [shape_initial T, shape_initial T']

end Workspaces

section Workers

variable [DrawStream R G]

theorem agree_input (w : Unit × Tape R) (c : R) :
    (recordingWorlds R).Agree w (pure c) (Number.input c) fun v => Carries v.2 :=
  agree_notes (Number.notes_input c) (Tape.accepts_nil w.2)

/-- A model with recorded parameters is prepared when the plain one is. -/
theorem recorded_prepareModel (p : Product R) (m : Model R R) {m₁ : Model R (Number R)} {t₁ t₂ : Tape R}
    {r : Except (Fault (SimulationError R)) (Model R R)}
    {r' : Except (Fault (SimulationError R)) (Model R (Number R))}
    (hlift : (m.lift Number.input).run (.empty : Tape R) = (m₁, t₁))
    (hplain : ((prepareModel p m : Simulated R Unit (Model R R)).run.run ()).1 = r)
    (hrecorded : (prepareModel p m₁ : Simulated R (Tape R) (Model R (Number R))).run.run t₁ = (r', t₂)) :
    t₂.Sound ∧ t₂.adjointCount = 1 ∧ (∀ x ∈ m₁.parameters, x.OnTape t₂) ∧
      Outcome (Model.Alike (Carries t₂) m.parameters.length) r r' := by
  have hempty : (Tape.empty : Tape R).Sound := Tape.sound_withBlockSize _ _
  have hagree := Model.agree_lift (W := recordingWorlds R) (w := ((), Tape.empty)) agree_input
    (fun hl h => ⟨h.1, h.2.grows hl⟩) m
  rw [Model.lift_pure] at hagree
  have hstart : Tape.Sound t₁ ∧ Tape.Grows .empty t₁ ∧ Model.Alike (Carries t₁) m.parameters.length m.fresh m₁ := by
    have := hagree hempty
    have hend : m.lift Number.input (Tape.empty : Tape R) = (m₁, t₁) := hlift
    rw [hend] at this
    exact this
  obtain ⟨hsound, hgrows, halike⟩ := hstart
  have hboth : Tape.Sound t₂ ∧ Tape.Grows t₁ t₂ ∧ Outcome (Model.Alike (Carries t₂) m.parameters.length) r r' := by
    have := alike_prepareModel (L := recordingLikeness R) (w := ((), t₁)) p halike hsound
    have hend : (prepareModel p m₁ : Simulated R (Tape R) (Model R (Number R))).run t₁ = (r', t₂) := hrecorded
    rw [prepareModel_fresh, hend] at this
    rw [← hplain]
    exact this
  obtain ⟨hsound₂, hgrows₂, hprepared⟩ := hboth
  refine ⟨hsound₂, (hgrows.trans hgrows₂).built.adjointCount_eq, fun x hx => ?_, hprepared⟩
  obtain ⟨_, -, hcarries⟩ := exists_left_of_forall₂ halike.parameters.2 hx
  exact hcarries.2.grows hgrows₂

omit [DrawStream R G] in
/-- The sweep at the end of a worker reaches the parameters. -/
theorem gradient_ok {base t : Tape R} (ht : base.Returns t) (hcount : base.adjointCount = 1) {xs : List (Number R)}
    (hxs : ∀ x ∈ xs, x.OnTape base) :
    ∃ t' : Tape R, (t.propagateMarkToStart >>= fun t => xs.mapM fun x => x.adjoint t) =
        .ok (xs.map fun x => x.adjointOn t') ∧
      t'.column 0 = t.pushAll (t.visited .start t.nodes.mark) (t.column 0) := by
  have hk : 0 < t.adjointCount := by
    rw [ht.count_eq, hcount]
    exact Nat.one_pos
  obtain ⟨t', hsweep, hsweeps⟩ := ht.sound.sweepRange_ok .start t.nodes.mark
  refine ⟨t', ?_, hsweeps.column_eq 0 hk⟩
  have hon : ∀ x ∈ xs, x.OnTape t' := by
    intro x hx id hid
    obtain ⟨node, hnode⟩ := Option.isSome_iff_exists.1 (hxs x hx id hid)
    rw [hsweeps.same.nodes_eq, ht.get?_of_base hnode]
    rfl
  have hread := Number.mapM_adjoint_eq (hsweeps.same.sound ht.sound) (hsweeps.same.count_eq ▸ hk) hon
  rw [Tape.propagateMarkToStart, hsweep]
  exact hread

namespace Job

/-- A worker without sensitivities, as it finds the queue. -/
def startPlain (job : Job R G) : Except (Fault (SimulationError R)) (Worker R G Unit R) := do
  let m ← ((prepareModel job.product job.model).run ()).1
  let w ← Workspace.create job.product job.config job.stream job.dimension
  return ⟨Working.nextPayoff job.product m job.dimension, w, ()⟩

/-- The parameters that a worker with sensitivities records first. -/
def parameters (job : Job R G) : List (Number R) := ((job.model.lift Number.input).run (.empty : Tape R)).1.parameters

/-- A worker with sensitivities, as it finds the queue. -/
def startReverse (job : Job R G) : Except (Fault (SimulationError R)) (Worker R G (Tape R) (Number R)) := do
  let (m, tape) := (job.model.lift Number.input).run .empty
  let (m, tape) := (prepareModel job.product m).run tape
  let m ← m
  let w ← Workspace.create job.product job.config job.stream job.dimension
  return ⟨recordPath job.product m job.dimension, w, tape.setMark⟩

theorem runPlain_eq (job : Job R G) (queue : BatchQueue) :
    job.runPlain queue = (do
      let w ← job.startPlain
      let (output, queue) ← ((Working.drain w.path #[] queue).exec w.workspace w.record).1.1
      return (⟨output, []⟩, queue)) := by
  unfold runPlain startPlain
  rcases (prepareModel job.product job.model : Simulated R Unit (Model R R)).run () with ⟨_ | _, _⟩
  · rfl
  · rcases (Workspace.create job.product job.config job.stream job.dimension : Except _ (Workspace R G R)) with _ | _ <;>
      rfl

theorem runReverse_eq (job : Job R G) (queue : BatchQueue) :
    job.runReverse queue = (do
      let w ← job.startReverse
      let ((result, _), tape) := (Working.drain w.path #[] queue).exec w.workspace w.record
      let (output, queue) ← result
      let gradient ← (tape.propagateMarkToStart >>= fun tape => job.parameters.mapM (·.adjoint tape)).mapError .misuse
      return (⟨output, gradient⟩, queue)) := by
  unfold runReverse startReverse parameters
  rcases (job.model.lift Number.input).run (.empty : Tape R) with ⟨m, tape⟩
  dsimp only
  rcases (prepareModel job.product m : Simulated R (Tape R) (Model R (Number R))).run tape with ⟨_ | _, _⟩
  · rfl
  · rcases (Workspace.create job.product job.config job.stream job.dimension :
      Except _ (Workspace R G (Number R))) with _ | _ <;> rfl

/-- Workers of one frame, the second of which returns to `base`, that leave the same payoff on every path. -/
structure Parallel (job : Job R G) (base : Tape R) (f : List Nat × Method R × Nat) (w : Worker R G Unit R)
    (w' : Worker R G (Tape R) (Number R)) : Prop where
  sound : base.Sound
  count_eq : base.adjointCount = 1
  parameters : ∀ x ∈ job.parameters, x.OnTape base
  beside : Beside base f w.workspace w.record w'.workspace w'.record
  draws : ∃ m, w.path = Working.nextPayoff job.product m job.dimension
  path : Working.Matches (Beside base f) w.path w'.path Eq

theorem outcome_start (job : Job R G) :
    Outcome (fun w w' => ∃ base f, job.Parallel base f w w') job.startPlain job.startReverse := by
  unfold startPlain startReverse
  rcases hlift : (job.model.lift Number.input).run (.empty : Tape R) with ⟨m₁, t₁⟩
  have hm₁ : job.parameters = m₁.parameters := by rw [parameters, hlift]
  dsimp only
  rcases hplain : (prepareModel job.product job.model : Simulated R Unit (Model R R)).run () with ⟨r, _⟩
  rcases hrecorded : (prepareModel job.product m₁ : Simulated R (Tape R) (Model R (Number R))).run t₁ with ⟨r', base⟩
  obtain ⟨hbase, hcount, hparameters, hprepared⟩ :=
    recorded_prepareModel job.product job.model hlift (congrArg Prod.fst hplain) hrecorded
  dsimp only
  rcases r with e | m <;> rcases r' with e' | m'
  · exact hprepared
  · exact hprepared.elim
  · exact hprepared.elim
  have hcreate := outcome_create R (Number R) job.product job.config job.stream job.dimension
  generalize (Workspace.create job.product job.config job.stream job.dimension :
    Except _ (Workspace R G R)) = r at hcreate ⊢
  generalize (Workspace.create job.product job.config job.stream job.dimension :
    Except _ (Workspace R G (Number R))) = r' at hcreate ⊢
  rcases r with e | u <;> rcases r' with e' | u'
  · exact hcreate
  · exact hcreate.elim
  · exact hcreate.elim
  · refine ⟨base, u'.frame, hbase, hcount, hm₁ ▸ hparameters, ?_, ⟨m, rfl⟩, ?_⟩
    · exact ⟨hcreate.1, hcreate.2, rfl, Tape.returns_setMark hbase⟩
    · exact matches_recordPath job.product hbase hcount hprepared job.dimension

/-- Both workers leave the same payoffs and the same queue, or stop with the same error. -/
theorem outcome_runReverse (job : Job R G) (queue : BatchQueue) :
    Outcome (fun r r' => r.1.output = r'.1.output ∧ r.2 = r'.2) (job.runPlain queue) (job.runReverse queue) := by
  rw [runPlain_eq, runReverse_eq]
  have hstart := job.outcome_start
  generalize job.startPlain = r at hstart ⊢
  generalize job.startReverse = r' at hstart ⊢
  rcases r with e | w <;> rcases r' with e' | w'
  · exact hstart
  · exact hstart.elim
  · exact hstart.elim
  obtain ⟨base, f, h⟩ := hstart
  have hdrain := Working.Matches.drain placeable_beside h.path #[] queue _ _ _ _ h.beside
  dsimp only [bind, Except.bind]
  generalize (Working.drain w.path #[] queue).exec w.workspace w.record = q at hdrain ⊢
  generalize (Working.drain w'.path #[] queue).exec w'.workspace w'.record = q' at hdrain ⊢
  rcases q with ⟨⟨_ | x, v⟩, _⟩ <;> rcases q' with ⟨⟨_ | x', v'⟩, t⟩
  · exact hdrain
  · exact hdrain.elim
  · exact hdrain.elim
  obtain ⟨rfl, hbeside⟩ := hdrain
  obtain ⟨t', hgradient, -⟩ := gradient_ok hbeside.returns h.count_eq h.parameters
  simp only [bind, Except.bind] at hgradient
  dsimp only
  rw [hgradient]
  exact ⟨rfl, rfl⟩

end Job

theorem outcome_runWorkers (p : Product R) (m : Model R R) (stream : G) (c : Config R) (dimension n : Nat)
    (queue : BatchQueue) :
    Outcome (List.Forall₂ fun r r' => r.output = r'.output)
      (runWorkers ⟨p, m, stream, c.withMode .off, dimension⟩ n queue)
      (runWorkers ⟨p, m, stream, c.withMode .reverse, dimension⟩ n queue) := by
  induction n generalizing queue with
  | zero => exact List.Forall₂.nil
  | succ n ih =>
    have hworker := Job.outcome_runReverse ⟨p, m, stream, c.withMode .reverse, dimension⟩ queue
    have hplain : (⟨p, m, stream, c.withMode .off, dimension⟩ : Job R G).runWorker queue =
        (⟨p, m, stream, c.withMode .reverse, dimension⟩ : Job R G).runPlain queue := rfl
    have hreverse : (⟨p, m, stream, c.withMode .reverse, dimension⟩ : Job R G).runWorker queue =
        (⟨p, m, stream, c.withMode .reverse, dimension⟩ : Job R G).runReverse queue := rfl
    unfold runWorkers
    rw [hplain, hreverse]
    generalize (⟨p, m, stream, c.withMode .reverse, dimension⟩ : Job R G).runPlain queue = r at hworker ⊢
    generalize (⟨p, m, stream, c.withMode .reverse, dimension⟩ : Job R G).runReverse queue = r' at hworker ⊢
    rcases r with e | ⟨x, rest⟩ <;> rcases r' with e' | ⟨x', rest'⟩
    · exact hworker
    · exact hworker.elim
    · exact hworker.elim
    obtain ⟨houtput, hrest⟩ := hworker
    dsimp only at houtput hrest
    subst hrest
    have hlater := ih rest
    dsimp only [bind, Except.bind]
    generalize runWorkers ⟨p, m, stream, c.withMode .off, dimension⟩ n rest = r at hlater ⊢
    generalize runWorkers ⟨p, m, stream, c.withMode .reverse, dimension⟩ n rest = r' at hlater ⊢
    rcases r with e | xs <;> rcases r' with e' | xs'
    · exact hlater
    · exact hlater.elim
    · exact hlater.elim
    · exact List.Forall₂.cons houtput hlater

omit [Scalar R] [DrawStream R G] in
theorem writeBatches_congr {batchSize : Nat} {payoffs : Array R} {results results' : List (WorkerResult R)}
    (h : List.Forall₂ (fun r r' => r.output = r'.output) results results') :
    results.foldl (fun payoffs r => writeBatches batchSize payoffs r.output) payoffs =
      results'.foldl (fun payoffs r => writeBatches batchSize payoffs r.output) payoffs := by
  induction h generalizing payoffs with
  | nil => rfl
  | cons hr _ ih =>
    rw [List.foldl_cons, List.foldl_cons, hr]
    exact ih

theorem outcome_simulate (p : Product R) (m : Model R R) (stream : G) (c : Config R) :
    Outcome (fun r r' => r.payoffs = r'.payoffs ∧ r.price = r'.price ∧ r.stdError = r'.stdError)
      (simulate p m stream (c.withMode .off)) (simulate p m stream (c.withMode .reverse)) := by
  rw [simulate_eq, simulate_eq]
  rcases ((prepareModel p m : Simulated R Unit (Model R R)).run ()).1 with e | prepared
  · rfl
  have hworkers := outcome_runWorkers p m stream c prepared.dimension c.workers c.queue
  have hcount (mode : AdjointMode) : (c.withMode mode).workers = c.workers := rfl
  have hqueue (mode : AdjointMode) : (c.withMode mode).queue = c.queue := rfl
  dsimp only [bind, Except.bind]
  rw [hcount, hcount, hqueue, hqueue]
  generalize runWorkers ⟨p, m, stream, c.withMode .off, prepared.dimension⟩ c.workers c.queue = r at hworkers ⊢
  generalize runWorkers ⟨p, m, stream, c.withMode .reverse, prepared.dimension⟩ c.workers c.queue = r' at hworkers ⊢
  rcases r with e | results <;> rcases r' with e' | results'
  · exact hworkers
  · exact hworkers.elim
  · exact hworkers.elim
  · have hpayoffs : (c.withMode .off).assemble results = (c.withMode .reverse).assemble results' :=
      writeBatches_congr hworkers
    exact ⟨hpayoffs, congrArg (fun xs => (meanAndError xs).1) hpayoffs, congrArg (fun xs => (meanAndError xs).2) hpayoffs⟩

end Workers

section Path

variable {S T : Type} [Quantity R S T]

/-- One path from the beginning: prepares the model, generates the path from given draws and evaluates the
product with a new evaluator. -/
def simulatePath (p : Product R) (μ : Method R) (m : Model R T) (draws : Array R) :
    Simulated R S (Workspace R Unit T) := ExceptT.mk do
  match ← (prepareModel p m).run, (Evaluator.ofMethod p μ : Except _ (Evaluator R T)) with
  | .error e, _ => return .error e
  | .ok _, .error e => return .error (.error (.script e))
  | .ok m, .ok evaluator => do
    let (r, w) ← (do Working.fill m draws; Working.evaluate p : Working R Unit S T T).run.run
      ⟨(), Scenario.reset (Scenario.allocate p.requests), evaluator⟩
    return r.map fun _ => w

section Likeness

variable {S' T' : Type} [Quantity R S' T'] {L : Likeness R S S' T T'} {w : S × S'}

theorem likeCurves_initial (p : Product R) (w : S × S') :
    List.Forall₂ (L.LikeCurves w) (Scenario.reset (Scenario.allocate p.requests)).toList
      (Scenario.reset (Scenario.allocate p.requests)).toList := by
  have hsample (r : Request R) : L.LikeCurves w (Sample.allocate r).reset (Sample.allocate r).reset := by
    refine ⟨?_, ?_⟩
    · simpa [Sample.reset, Sample.allocate] using likeList_replicate r.forwards.size (L.constant w 100)
    · simpa [Sample.reset, Sample.allocate] using likeList_replicate r.discounts.size (L.one w)
  simp only [Scenario.reset, Scenario.allocate, Array.toList_map, List.forall₂_map_left_iff,
    List.forall₂_map_right_iff]
  exact List.forall₂_same.2 fun r _ => hsample r

theorem agree_simulatePath (p : Product R) (μ : Method R) {m : Model R T} {m' : Model R T'} {n : Nat}
    (hm : Model.Alike (L.Like w) n m m') (draws : Array R) :
    L.toWorlds.Agree w (simulatePath p μ m draws : Simulated R S _).run
      (simulatePath p μ m' draws : Simulated R S' _).run fun v => Outcome fun u u' =>
        ∃ f, Working.LikeWorkspace L True f v u u' := by
  have hcreate := outcome_ofMethod T T' p μ
  refine Agree.bind (alike_prepareModel p hm) fun v r r' hv hr => ?_
  generalize (Evaluator.ofMethod p μ : Except _ (Evaluator R T)) = e at hcreate ⊢
  generalize (Evaluator.ofMethod p μ : Except _ (Evaluator R T')) = e' at hcreate ⊢
  rcases r with e₁ | m <;> rcases r' with e₁' | m'
  · exact Agree.pure hr
  · exact hr.elim
  · exact hr.elim
  rcases e with e | e <;> rcases e' with e' | e'
  · exact Agree.pure (congrArg (fun cause => Fault.error (SimulationError.script cause)) hcreate)
  · exact hcreate.elim
  · exact hcreate.elim
  refine Agree.bind (Working.agree_path p hr draws rfl (Prod.ext ?_ hcreate)) fun u r r' _ hrun => ?_
  · exact (shape_initial T p).trans (shape_initial T' p).symm
  rcases r with ⟨e₂ | x, s⟩ <;> rcases r' with ⟨e₂' | x', s'⟩
  · exact Agree.pure hrun
  · exact hrun.elim
  · exact hrun.elim
  · obtain ⟨-, hspaces, -⟩ := hrun
    exact Agree.pure ⟨_, hspaces.stream_eq,
      { hspaces.samples with curves := fun _ => hspaces.samples.curves (likeCurves_initial p v) }, hspaces.evaluator⟩

end Likeness

theorem map_values_eq {w : Unit × Tape R} {l : List (Sample R)} {l' : List (Sample (Number R))}
    (hlike : List.Forall₂ ((recordingLikeness R).LikeSample w) l l')
    (hcurves : List.Forall₂ ((recordingLikeness R).LikeCurves w) l l') : l'.map Sample.values = l := by
  induction hlike with
  | nil => rfl
  | @cons s s' _ _ hs _ ih =>
    cases hcurves with
    | cons hc hcurves =>
      have hsample : s'.values = s := by
        obtain ⟨spot, numeraire, forwards, discounts⟩ := s
        rw [Sample.values, map_value_eq hc.forwards, map_value_eq hc.discounts, ← hs.spot.1, ← hs.numeraire.1]
      rw [List.map_cons, ih hcurves, hsample]

theorem outcome_simulatePath (p : Product R) (μ : Method R) {m : Model R R} {m' : Model R (Number R)} {n : Nat}
    {t : Tape R} (ht : t.Sound) (hm : Model.Alike (Carries t) n m m') (draws : Array R) :
    Outcome (fun w w' => w'.scenario.map Sample.values = w.scenario ∧
        w'.evaluator.values.map (·.value) = w.evaluator.values)
      ((simulatePath p μ m draws : Simulated R Unit _).run ()).1
      ((simulatePath p μ m' draws : Simulated R (Tape R) _).run t).1 := by
  obtain ⟨-, -, h⟩ := agree_simulatePath (L := recordingLikeness R) (w := ((), t)) p μ hm draws ht
  generalize ((simulatePath p μ m draws : Simulated R Unit _).run ()) = r at h ⊢
  generalize ((simulatePath p μ m' draws : Simulated R (Tape R) _).run t) = r' at h ⊢
  obtain ⟨e | u, _⟩ := r <;> obtain ⟨e' | u', t'⟩ := r'
  · exact h
  · exact h.elim
  · exact h.elim
  · obtain ⟨f, hspaces⟩ := h
    refine ⟨?_, map_value_eq hspaces.evaluator.values.toList⟩
    rw [← Array.toList_inj, Array.toList_map]
    exact map_values_eq hspaces.samples.like (hspaces.samples.curves trivial)

end Path

/-- Recording never changes a value. A path with numbers, whichever of the parameters are recorded, succeeds
exactly when the path with plain scalars does, with the same error otherwise, and all observations and all
variables have the values of that path. A simulation has the same payoffs, price and error of the price
with sensitivities as without. -/
theorem recording_keeps_values (p : Product R) (m : Model R R) :
    (∀ (μ : Method R) (m' : Model R (Number R)) (n : Nat) (t : Tape R) (draws : Array R), t.Sound →
      Model.Alike (Carries t) n m m' →
      Outcome (fun w w' => w'.scenario.map Sample.values = w.scenario ∧
          w'.evaluator.values.map (·.value) = w.evaluator.values)
        ((simulatePath p μ m draws : Simulated R Unit _).run ()).1
        ((simulatePath p μ m' draws : Simulated R (Tape R) _).run t).1) ∧
      ∀ {G : Type} [DrawStream R G] (stream : G) (c : Config R),
        Outcome (fun r r' => r.payoffs = r'.payoffs ∧ r.price = r'.price ∧ r.stdError = r'.stdError)
          (simulate p m stream (c.withMode .off)) (simulate p m stream (c.withMode .reverse)) :=
  ⟨fun μ _ _ _ draws ht hm => outcome_simulatePath p μ ht hm draws, fun stream c => outcome_simulate p m stream c⟩

section Forward

/-- Pays the spot in a year. -/
def forwardProduct : Product Float where
  times := [1]
  events := [[.pays ⟨"X", 0⟩ .spot]]
  programs := [.ofEvent [.pays ⟨"X", 0⟩ .spot]]
  names := #["X"]
  payoff := 0
  nesting := 0
  fuzzy := false

/-- Only the spot is recorded. -/
theorem recording_keeps_values_forward :
    let t : Tape Float := Tape.empty.recordLeaf.2
    let m : Model Float Float := .blackScholes ⟨100, 0.2, 0.05, 0, [], false⟩
    let m' : Model Float (Number Float) :=
      .blackScholes ⟨⟨100, some .start⟩, .constant 0.2, .constant 0.05, .constant 0, [], false⟩
    t.Sound ∧ Model.Alike (Carries t) 4 m m' ∧
      Outcome (fun w w' => w'.scenario.map Sample.values = w.scenario ∧
          w'.evaluator.values.map (·.value) = w.evaluator.values)
        ((simulatePath forwardProduct .compiled m #[1] : Simulated Float Unit _).run ()).1
        ((simulatePath forwardProduct .compiled m' #[1] : Simulated Float (Tape Float) _).run t).1 := by
  intro t m m'
  have hempty : (Tape.empty : Tape Float).Sound := Tape.sound_withBlockSize _ _
  have hsound : t.Sound := (Tape.BuiltFrom.leaf .start).sound hempty
  have hspot : (t.nodes.get? .start).isSome := rfl
  have halike : Model.Alike (Carries t) 4 m m' := by
    refine ⟨⟨⟨rfl, fun id hid => ?_⟩, ⟨rfl, Number.onTape_constant t _⟩, ⟨rfl, Number.onTape_constant t _⟩,
      ⟨rfl, Number.onTape_constant t _⟩, .nil, rfl⟩, rfl⟩
    obtain rfl := Option.some.inj hid
    exact hspot
  exact ⟨hsound, halike, (recording_keeps_values forwardProduct m).1 .compiled m' 4 t #[1] hsound halike⟩

end Forward

end Simulation

end PayoffPricing
