import PayoffPricing.Proofs.Simulation.Alone
import PayoffPricing.Proofs.Simulation.Independence
/-!
What paths leave behind. A path records nodes whose inputs are on the tape, and no number that an earlier path has
left in the workspace plays a part in it.
-/

namespace PayoffPricing

namespace Tape

variable {R : Type} [Scalar R] {k : Nat} {start s t t' : Tape R}

/-- Every node that was added to `start` was recorded when the targets of its edges were on the tape, and all of them
precede it. -/
def RecordsBackward (start t : Tape R) : Prop :=
  ∀ p, (t.nodes.get? p).isSome → start.nodes.get? p = none → ∃ s s', BuiltFrom start s ∧
    Recorded s p (t.inputs p) s' ∧ BuiltFrom s' t ∧
    ∀ e ∈ t.inputs p, ∃ q, e.target = some q ∧ q < p ∧ (s.nodes.get? q).isSome

theorem RecordsBackward.step {id : Position} {kept : List (Edge R)} (h : RecordsBackward start t) (ht : t.Sound)
    (hstart : BuiltFrom start t) (hr : Recorded t id kept t') (hnext : BuiltFrom t t')
    (hkept : ∀ e ∈ kept, ∃ q, e.target = some q ∧ (t.nodes.get? q).isSome) : RecordsBackward start t' := by
  intro p hp hnew
  by_cases hid : p = id
  · subst hid
    rw [hr.inputs_eq ht, if_pos rfl]
    refine ⟨t, t', hstart, hr, .start, fun e he => ?_⟩
    obtain ⟨q, hq, hon⟩ := hkept e he
    exact ⟨q, hq, hr.fresh hon, hon⟩
  · rw [hr.inputs_eq ht, if_neg hid]
    have hon : (t.nodes.get? p).isSome := (hr.isSome_get?_iff.1 hp).resolve_left hid
    obtain ⟨s, s', hs, hrecorded, hlater, hedges⟩ := h p hon hnew
    exact ⟨s, s', hs, hrecorded, hlater.trans hnext, hedges⟩

theorem BuiltFrom.recordsBackward (h : BuiltFrom start t) (hs : start.Sound) : RecordsBackward start t := by
  induction h with
  | start =>
    intro p hp hnew
    rw [hnew] at hp
    contradiction
  | @leaf t ht ih =>
    have hsound := ht.sound hs
    exact ih.step hsound ht (hsound.recorded_record []) (.leaf .start) (accepts_nil t).filter_isActive
  | edges ht candidates hc ih =>
    have hsound := ht.sound hs
    exact ih.step hsound ht (hsound.recorded_record candidates) (.edges .start candidates hc) hc.filter_isActive
  | folded ht candidates hc ih =>
    have hsound := ht.sound hs
    exact ih.step hsound ht (hsound.recorded_recordFolded candidates) (.folded .start candidates hc) hc.merge

/-- Tapes with the same nodes, which have the same inputs and the same adjoints. -/
structure SameNodes (t t' : Tape R) : Prop where
  nodes : ∀ p, (t.nodes.get? p).isSome ↔ (t'.nodes.get? p).isSome
  inputs : t.inputs = t'.inputs
  adjoints : ∀ j < t.adjointCount, t.column j = t'.column j

theorem Twins.sameNodes (h : Twins k t t') (hs : s.Sound) (ht : BuiltFrom s t) (ht' : BuiltFrom s t') :
    SameNodes t t' where
  nodes _ := h.nodes.isSome_iff
  inputs := h.inputs_eq
  adjoints j hj := by
    have hj : j < s.adjointCount := ht.adjointCount_eq ▸ hj
    rw [ht.column_eq hs hj, ht'.column_eq hs hj]

omit [Scalar R] in
theorem Continues.twins_rewindToMark {base : Tape R} (h : Continues k base t) (hbase : base.Sound) :
    t.rewindToMark.Twins k t.rewindToMark := by
  have hsound := h.returns.sound_rewindToMark hbase
  have huniform := h.uniform.rewindToMark
  exact ⟨hsound, hsound, ⟨huniform, huniform, rfl, fun _ => rfl⟩, rfl⟩

end Tape

namespace Simulation

open PayoffPricing.Random Worlds

variable {R G : Type} [Scalar R] [DrawStream R G]

namespace Job

/-- The next path from what is left in a workspace, on a tape rewound to its checkpoint. -/
def next (job : Job R G) (m : Model R (Number R)) (u : Workspace R G (Number R)) (t : Tape R) :
    (Except (Fault (SimulationError R)) (Number R) × Workspace R G (Number R)) × Tape R :=
  (Working.nextPayoff job.product m job.dimension).exec u t.rewindToMark

/-- The next path uses no node that is not there. It starts with the nodes before the checkpoint and adds nodes
whose inputs are on the tape when it records them. The node of its payoff was recorded before the checkpoint or by the
path itself, and the sweep from it succeeds. A frame is the shape of the scenario, the method and the number of the
variables: whatever numbers are left as observations, variables, on the stacks or set aside, the payoff or the error
and the tape are the same. -/
structure RunsClean (job : Job R G) (m : Model R (Number R)) (base : Tape R) (u : Workspace R G (Number R))
    (t : Tape R) : Prop where
  before : ∀ p, t.rewindToMark.nodes.get? p = base.nodes.get? p
  built : Tape.BuiltFrom t.rewindToMark (job.next m u t).2
  backward : Tape.RecordsBackward t.rewindToMark (job.next m u t).2
  seed : ∀ payoff id, (job.next m u t).1.1 = .ok payoff → payoff.node = some id →
    (id < t.nodes.mark ∧ (base.nodes.get? id).isSome) ∨
      (t.nodes.mark ≤ id ∧ t.rewindToMark.nodes.get? id = none ∧ ((job.next m u t).2.nodes.get? id).isSome)
  sweep : ∀ payoff, (job.next m u t).1.1 = .ok payoff → ∃ t', propagatePayoff payoff (job.next m u t).2 = .ok t'
  leftovers : ∀ u', u'.stream = u.stream → u'.frame = u.frame →
    (job.next m u' t).1.1 = (job.next m u t).1.1 ∧ Tape.SameNodes (job.next m u' t).2 (job.next m u t).2

section Path

variable {job : Job R G} {k : Nat} {m : Model R (Number R)} {base t t' : Tape R} {u u' : Workspace R G (Number R)}
  {w : Worker R G (Tape R) (Number R)}

theorem Based.agree_next (h : job.Based k m base w) (ht : Tape.Continues k base t) (hstream : u.stream = u'.stream)
    (hframe : u.frame = u'.frame) :
    (job.next m u t).2.Twins k (job.next m u' t).2 ∧
      (t.rewindToMark.Grows (job.next m u t).2 ∧ t.rewindToMark.Keeps (job.next m u t).2) ∧
      t.rewindToMark.Grows (job.next m u' t).2 ∧
      Outcome (fun x x' => Shared (job.next m u t).2 x x' ∧ (job.next m u t).1.2.frame = u.frame)
        (job.next m u t).1.1 (job.next m u' t).1.1 := by
  have hrewound : t.rewindToMark.Twins k t.rewindToMark := ht.twins_rewindToMark h.twins.sound_left
  exact h.agree_nextPayoff hrewound (fun p hp => ht.returns.get?_nodes p ▸ hp) hstream hframe

theorem Based.continues_next (h : job.Based k m base w) (ht : Tape.Continues k base t) :
    Tape.Continues k base (job.next m u t).2 := by
  have hbase := h.twins.sound_left
  obtain ⟨htwins, ⟨hgrows, hkeeps⟩, -, -⟩ := h.agree_next (u := u) ht rfl rfl
  exact ⟨(ht.returns.rewindToMark hbase).builtFrom hgrows.built, htwins.nodes.uniform_left,
    (ht.keeps_rewindToMark hbase).trans hkeeps⟩

theorem Based.onTape_next (h : job.Based k m base w) (ht : Tape.Continues k base t) {payoff : Number R}
    (hpayoff : (job.next m u t).1.1 = .ok payoff) :
    payoff.OnTape (job.next m u t).2 ∧ (job.next m u t).1.2.frame = u.frame := by
  obtain ⟨-, -, -, hr⟩ := h.agree_next (u := u) ht rfl rfl
  rw [hpayoff] at hr
  exact ⟨hr.1.2, hr.2⟩

theorem Based.propagatePayoff_next (h : job.Based k m base w) (ht : Tape.Continues k base t) {payoff : Number R}
    (hpayoff : (job.next m u t).1.1 = .ok payoff) :
    ∃ t', propagatePayoff payoff (job.next m u t).2 = .ok t' ∧ Tape.SameRecord (job.next m u t).2 t' := by
  have hnext : Tape.Continues k base (job.next m u t).2 := h.continues_next ht
  cases hid : payoff.node with
  | none => exact ⟨_, propagatePayoff_passive hid _, .refl _⟩
  | some id =>
    have hcount : (job.next m u t).2.adjointCount = 1 := hnext.returns.count_eq.trans h.built.adjointCount_eq
    obtain ⟨t', hok, hsame, -⟩ := propagatePayoff_ok hnext.returns.sound hcount hid ((h.onTape_next ht hpayoff).1 id hid)
    exact ⟨t', hok, hsame⟩

theorem Based.runsClean (h : job.Based k m base w) (ht : Tape.Continues k base t) : job.RunsClean m base u t := by
  have hbase := h.twins.sound_left
  have hrewound := ht.returns.sound_rewindToMark hbase
  have hnext : Tape.Continues k base (job.next m u t).2 := h.continues_next ht
  have hbuilt : Tape.BuiltFrom t.rewindToMark (job.next m u t).2 := (h.agree_next ht rfl rfl).2.1.1.built
  refine ⟨ht.returns.get?_nodes, hbuilt, hbuilt.recordsBackward hrewound, ?_, ?_, ?_⟩
  · intro payoff id hpayoff hid
    have hon := (h.onTape_next ht hpayoff).1 id hid
    have hsplits := hnext.splits hbase
    have hmark : (job.next m u t).2.nodes.mark = t.nodes.mark :=
      hnext.returns.nodes.mark_eq.trans ht.returns.nodes.mark_eq.symm
    rw [hmark] at hsplits
    rcases lt_or_ge id t.nodes.mark with hlt | hle
    · exact .inl ⟨hlt, hsplits.before id hon hlt⟩
    · refine .inr ⟨hle, ?_, hon⟩
      rw [ht.returns.get?_nodes, ← Option.not_isSome_iff_eq_none]
      exact fun hold => absurd (hsplits.behind id hold) (not_lt.2 hle)
  · intro payoff hpayoff
    obtain ⟨t', hok, -⟩ := h.propagatePayoff_next ht hpayoff
    exact ⟨t', hok⟩
  · intro u' hstream hframe
    obtain ⟨htwins, ⟨hgrows, -⟩, hgrows', hr⟩ := h.agree_next ht hstream hframe
    exact ⟨Outcome.eq (fun hx => hx.1.1) hr, htwins.sameNodes hrewound hgrows.built hgrows'.built⟩

theorem Based.continues_path (h : job.Based k m base w) (ht : Tape.Continues k base t) {x : R}
    (hpath : w.path.exec u t = ((.ok x, u'), t')) : u'.frame = u.frame ∧ Tape.Continues k base t' := by
  have hnext : Tape.Continues k base (job.next m u t).2 := h.continues_next ht
  rw [h.path_eq, exec_recordPath] at hpath
  rcases hrun : (Working.nextPayoff job.product m job.dimension :
    Working R G (Tape R) (Number R) (Number R)).exec u t.rewindToMark with ⟨⟨e | payoff, v⟩, s⟩
  · rw [hrun] at hpath
    cases hpath
  · have hnexteq : job.next m u t = ((.ok payoff, v), s) := hrun
    obtain ⟨-, hframe⟩ := h.onTape_next ht (congrArg (·.1.1) hnexteq)
    obtain ⟨t₁, hok, hsame⟩ := h.propagatePayoff_next ht (congrArg (·.1.1) hnexteq)
    rw [hnexteq] at hframe hok hsame hnext
    rw [hrun] at hpath
    dsimp only at hpath hok
    rw [hok] at hpath
    cases hpath
    exact ⟨hframe, hnext.sameRecord hsame⟩

/-- Whatever the workers do in whatever order, their tapes go on from the checkpoint. -/
theorem Based.continues_run (h : job.Based k m base w) {queue : BatchQueue} {l : Nat} {trace : List Nat}
    {c : Crew R G (Tape R) (Number R) l} (hrun : Run w.path (Crew.assembled l queue w) trace c) (i : Fin l) :
    Tape.Continues k base (c.desks i).record := by
  induction hrun generalizing i with
  | start =>
    change Tape.Continues k base w.record
    rw [h.record_eq]
    exact h.twins.continues
  | @step _ c j _ _ d _ hstep ih =>
    change Tape.Continues k base (Function.update c.desks j d i).record
    by_cases hij : i = j
    · subst hij
      rw [Function.update_self]
      cases hstep with
      | take | leave | handIn => exact ih i
      | path _ _ hpath => exact (h.continues_path (ih i) hpath).2
    · rw [Function.update_of_ne hij]
      exact ih i

end Path

end Job

/-- No stale node is used. A worker with sensitivities records its parameters and its model on an empty tape, sets
the checkpoint there, and then, however it and other workers take paths from a queue, every path runs clean. -/
theorem no_stale_node (job : Job R G) {w : Worker R G (Tape R) (Number R)} (hw : job.startReverse = .ok w) :
    ∃ (m : Model R (Number R)) (base : Tape R),
      w.path = Job.recordPath job.product m job.dimension ∧ w.record = base.setMark ∧
        Tape.BuiltFrom .empty base ∧ Tape.RecordsBackward .empty base ∧
        ∀ (queue : BatchQueue) (l : Nat) (trace : List Nat) (c : Crew R G (Tape R) (Number R) l),
          Run w.path (Crew.assembled l queue w) trace c →
            ∀ i, job.RunsClean m base (c.desks i).workspace (c.desks i).record := by
  obtain ⟨k, m, base, h⟩ := Job.exists_based hw
  exact ⟨m, base, h.path_eq, h.record_eq, h.built, h.built.recordsBackward (Tape.sound_withBlockSize _ _),
    fun queue l trace c hrun i => h.runsClean (h.continues_run hrun i)⟩

section Whole

local instance : Scalar Int := wholeNumbers

theorem no_stale_node_spot : ∃ w m base c, spotJob.startReverse = .ok w ∧
    Run w.path (Crew.assembled 1 (.ofPaths 3 2) w) [0] c ∧
      spotJob.RunsClean m base (c.desks 0).workspace (c.desks 0).record := by
  have hplain : spotJob.startPlain = .ok spotWorker := rfl
  obtain ⟨w, _, f, hstart, hparallel⟩ := Job.exists_reverse hplain
  obtain ⟨m, base, -, -, -, -, hclean⟩ := no_stale_node spotJob hstart
  have hpayoff := hparallel.eq (Job.placeable_beside 0 _ _ _ _ hparallel.beside)
  have hvalue : (spotWorker.path.exec { spotWorker.workspace with
      stream := DrawStream.skipTo 0 spotWorker.workspace.stream } ()).1.1 = .ok 200 := by cbv
  rw [hvalue] at hpayoff
  rcases hpath : w.path.exec { w.workspace with stream := DrawStream.skipTo 0 w.workspace.stream } w.record
    with ⟨⟨_ | x, u⟩, t⟩
  · rw [hpath] at hpayoff
    cases hpayoff
  · have h₀ : Run w.path (Crew.assembled 1 (.ofPaths 3 2) w) [] _ := .start
    have h₁ := h₀.step (i := 0) (.take rfl rfl)
    have hfirst : ((BatchQueue.ofPaths 3 2).batchAt 0).first + 0 < ((BatchQueue.ofPaths 3 2).batchAt 0).stop := by decide
    have h₂ := h₁.step (i := 0) (.path rfl hfirst hpath)
    exact ⟨w, m, base, _, hstart, h₂, hclean _ _ _ _ h₂ 0⟩

end Whole

end Simulation

end PayoffPricing
