import Mathlib
import PayoffPricing.Proofs.Adjoint.Accumulation
import PayoffPricing.Proofs.Simulation.Recording
/-!
Paths alone. Each path can be recorded on a tape of its own, behind the parameters and what the model prepares;
a worker that records it behind its checkpoint records the same.
-/

namespace PayoffPricing.Simulation.Job

open PayoffPricing.Random Worlds

variable {R G : Type}

section Definitions

variable [Scalar R] [DrawStream R G] (job : Job R G) (i : Nat)

/-- A path of given place. -/
def nextAt {S T : Type} [Quantity R S T] (m : Model R T) (u : Workspace R G T) (s : S) :
    (Except (Fault (SimulationError R)) T × Workspace R G T) × S :=
  (Working.nextPayoff job.product m job.dimension).exec { u with stream := DrawStream.skipTo i u.stream } s

/-- A path on a fresh tape: its payoff and the tape. -/
def recordAlone : Except (Fault (SimulationError R)) (Number R × Tape R) := do
  let (m, tape) := (job.model.lift Number.input).run .empty
  let (m, tape) := (prepareModel job.product m).run tape
  let m ← m
  let w ← Workspace.create job.product job.config job.stream job.dimension
  let r := job.nextAt i m w tape
  r.1.1.map (·, r.2)

/-- The adjoints of the parameters after a sweep from the payoff of a path on a fresh tape. -/
def adjointsAlone : Except (Fault (SimulationError R)) (List R) := do
  let (payoff, tape) ← job.recordAlone i
  (payoff.propagateToStart tape >>= fun tape => job.parameters.mapM (·.adjoint tape)).mapError .misuse

/-- The tape of a worker with sensitivities when it has emptied a queue. -/
def tapeAfter (queue : BatchQueue) : Except (Fault (SimulationError R)) (Tape R) := do
  let w ← job.startReverse
  let ((result, _), tape) := (Working.drain w.path #[] queue).exec w.workspace w.record
  let _ ← result
  return tape

end Definitions

section Base

variable [Scalar R]

/-- A parameter that has just been recorded. -/
def Entered (t : Tape R) (x x' : Number R) : Prop := Shared t x x' ∧ x.Enters t

theorem agree_entered {k : Nat} (w : Tape R × Tape R) (c : R) :
    (twinWorlds R k).Agree w (Number.input c) (Number.input c) fun u => Entered u.1 := by
  intro hw
  have hvalid : w.1.Twins k w.2 := hw
  have hrecorded := hvalid.sound_left.recorded_record []
  obtain ⟨hnext, hlater, hshared⟩ := agree_shared (Number.notes_input c) (Tape.accepts_nil w.1) hw
  refine ⟨hnext, hlater, hshared, (w.1.record []).1, rfl, hrecorded.get?_self, ?_⟩
  exact (hrecorded.inputs_eq hvalid.sound_left).trans (if_pos rfl)

variable [DrawStream R G]

/-- What a worker with sensitivities starts from: the prepared model and the tape up to its checkpoint. -/
structure Based (job : Job R G) (k : Nat) (m : Model R (Number R)) (base : Tape R)
    (w : Worker R G (Tape R) (Number R)) : Prop where
  built : Tape.BuiltFrom .empty base
  twins : base.Twins k base
  model : Model.Alike (Shared base) job.model.parameters.length m m
  count : job.parameters.length = job.model.parameters.length
  enters : ∀ x ∈ job.parameters, x.Enters base
  path_eq : w.path = recordPath job.product m job.dimension
  record_eq : w.record = base.setMark
  alone (i : Nat) : job.recordAlone i =
    (job.nextAt i m w.workspace base).1.1.map (·, (job.nextAt i m w.workspace base).2)

theorem exists_based {job : Job R G} {w : Worker R G (Tape R) (Number R)} (h : job.startReverse = .ok w) :
    ∃ k m base, job.Based k m base w := by
  have hstart : (Tape.empty : Tape R).Twins 16384 .empty := Tape.twins_withBlockSize _
  rcases hlift : (job.model.lift Number.input).run (.empty : Tape R) with ⟨m₁, t₁⟩
  have hentered := Model.agree_lift (W := twinWorlds R 16384) (w := (.empty, .empty)) agree_entered
    (fun hl h => ⟨h.1.grows hl.1.1, h.2.keeps hl.1.2⟩) job.model hstart
  have hend : job.model.lift Number.input (.empty : Tape R) = (m₁, t₁) := hlift
  rw [hend] at hentered
  obtain ⟨htwins, ⟨⟨hgrows, -⟩, -⟩, halike⟩ := hentered
  rcases hprepare : (prepareModel job.product m₁ : Simulated R (Tape R) (Model R (Number R))).run.run t₁ with ⟨r, base⟩
  have hprepared := alike_prepareModel (L := twinLikeness R 16384) (w := (t₁, t₁)) job.product
    (halike.imp fun _ _ hx => hx.1) htwins
  have hend : (prepareModel job.product m₁ : Simulated R (Tape R) (Model R (Number R))).run t₁ = (r, base) := hprepare
  rw [hend] at hprepared
  obtain ⟨hbase, ⟨⟨hlater, hkeeps⟩, -⟩, houtcome⟩ := hprepared
  unfold startReverse at h
  rw [hlift] at h
  dsimp only at h
  rw [hend] at h
  dsimp only at h
  obtain ⟨m, rfl, hrest⟩ := bind_eq_ok_iff.1 h
  obtain ⟨u, hcreate, hw⟩ := bind_eq_ok_iff.1 hrest
  cases hw
  have hparameters : job.parameters = m₁.parameters := by rw [parameters, hlift]
  refine ⟨16384, m, base, ?_⟩
  refine ⟨(hgrows.trans hlater).built, hbase, houtcome, ?_, fun x hx => ?_, rfl, rfl, fun i => ?_⟩
  · rw [hparameters]
    exact halike.parameters.1
  · rw [hparameters] at hx
    obtain ⟨_, -, hentered⟩ := exists_right_of_forall₂ halike.parameters.2 hx
    exact hentered.2.keeps hkeeps
  · unfold recordAlone
    rw [hlift]
    dsimp only
    rw [hend]
    dsimp only
    rw [hcreate]
    rfl

/-- Paths on twins that have the nodes of the start, from workspaces of one frame, whatever is left there. -/
theorem Based.agree_nextPayoff {job : Job R G} {k : Nat} {m : Model R (Number R)} {base s s' : Tape R}
    {w : Worker R G (Tape R) (Number R)} {u u' : Workspace R G (Number R)} (h : job.Based k m base w)
    (hs : s.Twins k s') (hkept : ∀ p, (base.nodes.get? p).isSome → (s.nodes.get? p).isSome)
    (hstream : u.stream = u'.stream) (hframe : u.frame = u'.frame) :
    let r := (Working.nextPayoff job.product m job.dimension : Working R G (Tape R) (Number R) (Number R)).exec u s
    let r' := (Working.nextPayoff job.product m job.dimension : Working R G (Tape R) (Number R) (Number R)).exec u' s'
    r.2.Twins k r'.2 ∧ (s.Grows r.2 ∧ s.Keeps r.2) ∧ s'.Grows r'.2 ∧
      Outcome (fun x x' => Shared r.2 x x' ∧ r.1.2.frame = u.frame) r.1.1 r'.1.1 := by
  have hmodel : Model.Alike ((twinLikeness R k).Like (s, s')) job.model.parameters.length m m :=
    h.model.imp fun x x' hx => ⟨hx.1, fun id hid => hkept id (hx.2 id hid)⟩
  obtain ⟨htwins, ⟨hleft, hright⟩, hr⟩ := Working.agree_nextPayoff (L := twinLikeness R k) (w := (s, s'))
    job.product hmodel job.dimension hstream hframe hs
  exact ⟨htwins, hleft, hright, Outcome.imp hr fun _ _ hx => ⟨hx.1, hx.2.1⟩⟩

end Base

section Path

variable [ExactScalar R] {k : Nat} {base t : Tape R} {payoff : Number R} {p : Position}

theorem sameRecord_propagatePayoff {t' : Tape R} (ht : t.Sound) (hcount : t.adjointCount = 1) (hpayoff : payoff.OnTape t)
    (hrun : propagatePayoff payoff t = .ok t') : Tape.SameRecord t t' := by
  cases hnode : payoff.node with
  | none =>
    rw [propagatePayoff_passive hnode] at hrun
    cases hrun
    exact .refl t
  | some id =>
    obtain ⟨t₁, hok, hsame, -⟩ := propagatePayoff_ok ht hcount hnode (hpayoff id hnode)
    obtain rfl := Except.ok.inj (hok.symm.trans hrun)
    exact hsame

/-- Propagating a payoff to the checkpoint adds its derivatives to what is before. -/
theorem influence_propagatePayoff {t' twin : Tape R} (h : Tape.Continues k base t) (hbase : base.Sound)
    (hcount : base.adjointCount = 1) (htwins : t.Twins k twin) (hpayoff : payoff.OnTape t)
    (hfresh : ∀ p, base.nodes.get? p = none → t.column 0 p = 0) (hp : (base.nodes.get? p).isSome)
    (hleaf : base.inputs p = []) (hrun : propagatePayoff payoff t = .ok t')
    (hd : ∀ id, payoff.node = some id →
      twin.Discernible (twin.visited .start id.next) (Function.update (fun _ => 0) id 1)) :
    base.influence p (t'.column 0) =
      base.influence p (t.column 0) + payoff.node.elim 0 (twin.pathSum p) := by
  have hsplits := h.splits hbase
  cases hnode : payoff.node with
  | none =>
    rw [propagatePayoff_passive hnode] at hrun
    cases hrun
    exact (add_zero _).symm
  | some id =>
    have hid := hpayoff id hnode
    obtain ⟨t₁, hok, -, hcolumn⟩ := propagatePayoff_ok htwins.sound_left (h.returns.count_eq.trans hcount) hnode hid
    obtain rfl := Except.ok.inj (hok.symm.trans hrun)
    have hpath : t.pathSum p id = twin.pathSum p id :=
      (htwins.keeps.pathSum_eq htwins.sound_left htwins.sound_right hid).symm
    have hseed := hd id hnode
    rw [← htwins.visited_eq, ← Tape.discernible_eq fun q _ => congrFun htwins.inputs_eq q] at hseed
    rw [hcolumn, payoffChange, Option.elim_some, ← hpath]
    simp only [scalar_one]
    by_cases hmark : t.nodes.mark ≤ id
    · rw [if_pos hmark]
      exact hsplits.influence_sweep hp hleaf hfresh hid hmark hseed
    · rw [if_neg hmark]
      exact hsplits.influence_seed hid (not_le.1 hmark)

variable [DrawStream R G] {job : Job R G} {m : Model R (Number R)} {w : Worker R G (Tape R) (Number R)}

theorem Based.count_eq (h : job.Based k m base w) : base.adjointCount = 1 := h.built.adjointCount_eq

/-- A path that was recorded alone, and what it adds to a worker that records it behind its checkpoint. -/
structure Adds (job : Job R G) (base : Tape R) (i : Nat) (t t' : Tape R) (payoff : Number R) (tape : Tape R) : Prop where
  alone : job.recordAlone i = .ok (payoff, tape)
  grows : base.Grows tape
  onTape : payoff.OnTape tape
  influence (p : Position) (hp : (base.nodes.get? p).isSome) (hleaf : base.inputs p = [])
    (hd : ∀ id, payoff.node = some id →
      tape.Discernible (tape.visited .start id.next) (Function.update (fun _ => 0) id 1)) :
    base.influence p (t'.column 0) = base.influence p (t.column 0) + payoff.node.elim 0 (tape.pathSum p)

/-- A worker records a path as it is recorded alone. -/
theorem Based.exists_adds (h : job.Based k m base w) {i : Nat} {u u' : Workspace R G (Number R)} {t' : Tape R} {y : R}
    (hframe : u.frame = w.workspace.frame) (hstream : u.stream = DrawStream.skipTo i w.workspace.stream)
    (ht : Tape.Continues k base t) (hexec : w.path.exec u t = ((.ok y, u'), t')) :
    Tape.Continues k base t' ∧ ∃ payoff tape, job.Adds base i t t' payoff tape := by
  have hbase : base.Sound := h.twins.sound_left
  have htwins : t.rewindToMark.Twins k base := ht.returns.twins hbase h.twins.nodes.uniform_left ht.uniform
  have hframe : u.frame =
    ({ w.workspace with stream := DrawStream.skipTo i w.workspace.stream } : Workspace R G (Number R)).frame := hframe
  have hboth := h.agree_nextPayoff htwins (fun _ hp => htwins.nodes.isSome_iff.2 hp) hstream hframe
  have halone := h.alone i
  unfold nextAt at halone
  rw [h.path_eq, exec_recordPath] at hexec
  generalize (Working.nextPayoff job.product m job.dimension :
    Working R G (Tape R) (Number R) (Number R)).exec u t.rewindToMark = r at hexec hboth
  generalize (Working.nextPayoff job.product m job.dimension :
    Working R G (Tape R) (Number R) (Number R)).exec
      { w.workspace with stream := DrawStream.skipTo i w.workspace.stream } base = r' at halone hboth
  obtain ⟨htwins', ⟨hgrows, hkeeps⟩, hgrows', hr⟩ := hboth
  rcases r with ⟨⟨e | x, v⟩, tape⟩ <;> rcases r' with ⟨⟨e' | payoff, v'⟩, twin⟩
  · cases hexec
  · exact hr.elim
  · exact hr.elim
  obtain ⟨⟨rfl, hon⟩, -⟩ := hr
  dsimp only at hexec halone htwins' hgrows hkeeps hgrows' hon
  cases hrun : propagatePayoff x tape with
  | error cause =>
    rw [hrun] at hexec
    cases hexec
  | ok t₁ =>
    rw [hrun] at hexec
    cases hexec
    have htape : Tape.Continues k base tape :=
      ⟨(ht.returns.rewindToMark hbase).builtFrom hgrows.built, htwins'.nodes.uniform_left,
        (ht.keeps_rewindToMark hbase).trans hkeeps⟩
    obtain ⟨hfresh, -⟩ := ht.column_eq (x := .start) hbase h.count_eq hgrows
    refine ⟨htape.sameRecord (sameRecord_propagatePayoff htwins'.sound_left (htape.returns.count_eq.trans h.count_eq) hon hrun), x, twin, ?_⟩
    refine ⟨halone, hgrows', fun id hid => htwins'.nodes.isSome_iff.1 (hon id hid), fun p hp hleaf hd => ?_⟩
    have hadded := influence_propagatePayoff htape hbase h.count_eq htwins' hon hfresh hp hleaf hrun hd
    rw [hadded, (ht.column_eq hbase h.count_eq hgrows).2]

end Path

end PayoffPricing.Simulation.Job
