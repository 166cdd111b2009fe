import Mathlib
import PayoffPricing.Proofs.Simulation.Alone
import PayoffPricing.Proofs.Simulation.Independence
/-!
Sensitivities are means. What the paths of a worker leave before its checkpoint adds up, so the sweep at its end
gives each parameter the sum of the adjoints that it has after the single paths.
-/

namespace PayoffPricing.Simulation

open PayoffPricing.Random

variable {R G : Type} [ExactScalar R]

/-- What the adjoints before a checkpoint come to at a number. -/
def tally (base : Tape R) (x : Number R) (t : Tape R) : R := x.node.elim 0 fun p => base.influence p (t.column 0)

variable [DrawStream R G]

namespace Job

section Definitions

variable (job : Job R G)

/-- The sweep from the payoff of a path on a fresh tape leaves no adjoint behind for being too small. -/
def PropagatesAlone (i : Nat) : Prop :=
  ∀ r, job.recordAlone i = .ok r → ∀ id, r.1.node = some id → ∀ seeded, r.2.setAdjoint id 1 = .ok seeded →
    seeded.Propagates ((seeded.nodes.range .start id.next).reverse.map (·.2))

/-- Nor does the sweep from the checkpoint when a queue is empty. -/
def PropagatesAfter (queue : BatchQueue) : Prop :=
  ∀ tape, job.tapeAfter queue = .ok tape →
    tape.Propagates ((tape.nodes.range .start tape.nodes.mark).reverse.map (·.2))

instance : Decidable (job.PropagatesAlone i) := inferInstanceAs (Decidable (∀ _, _ → ∀ _, _ → ∀ _, _ → _))

instance : Decidable (job.PropagatesAfter queue) := inferInstanceAs (Decidable (∀ _, _ → _))

/-- The derivative of the payoff of a path on a fresh tape. -/
def slopeAlone (x : Number R) (i : Nat) : R := (job.recordAlone i).toOption.elim 0 fun r => Number.slope r.2 x r.1

/-- A path that can be recorded on a fresh tape, behind `base`. -/
def RecordsAlone (base : Tape R) (i : Nat) : Prop :=
  ∃ payoff tape, job.recordAlone i = .ok (payoff, tape) ∧ base.Grows tape ∧ payoff.OnTape tape

end Definitions

variable {job : Job R G} {k n size : Nat} {m : Model R (Number R)} {base : Tape R}
  {w : Worker R G (Tape R) (Number R)} {x : Number R} {i : Nat}

section Alone

variable {payoff : Number R} {tape : Tape R}

theorem slopeAlone_eq (h : job.recordAlone i = .ok (payoff, tape)) : job.slopeAlone x i = Number.slope tape x payoff := by
  rw [slopeAlone, h]
  rfl

theorem Based.discernible (h : job.Based k m base w) (halone : job.recordAlone i = .ok (payoff, tape))
    (hgrows : base.Grows tape) (hon : payoff.OnTape tape) (hi : job.PropagatesAlone i) (id : Position)
    (hid : payoff.node = some id) :
    tape.Discernible (tape.visited .start id.next) (Function.update (fun _ => 0) id 1) := by
  obtain ⟨hsound, hcount, hzero⟩ := (h.built.trans hgrows.built).of_empty
  exact hsound.discernible_seed hcount hzero (hon id hid) (hi (payoff, tape) halone id hid)

/-- The adjoints after a path alone are its derivatives. -/
theorem Based.adjointsAlone_eq (h : job.Based k m base w) (hi : job.PropagatesAlone i)
    (halone : job.RecordsAlone base i) :
    job.adjointsAlone i = .ok (job.parameters.map fun x => job.slopeAlone x i) := by
  obtain ⟨payoff, tape, hrecord, hgrows, hon⟩ := halone
  obtain ⟨hsound, hcount, hzero⟩ := (h.built.trans hgrows.built).of_empty
  have henters : ∀ x ∈ job.parameters, x.Enters tape := fun x hx =>
    (h.enters x hx).keeps (hgrows.built.keeps h.twins.sound_left)
  have hadjoints := Number.adjoints_propagateToStart hsound hcount hzero hon henters
    (h.discernible hrecord hgrows hon hi)
  have hslopes : (fun x => job.slopeAlone x i) = fun x => Number.slope tape x payoff :=
    funext fun x => slopeAlone_eq hrecord
  rw [adjointsAlone, hrecord, hslopes]
  exact congrArg (Except.mapError Fault.misuse) hadjoints

end Alone

section Runs

variable {l : Nat} {q q' : BatchQueue} {d d' : Desk R G (Tape R) (Number R)} {label : Option Nat} {trace : List Nat}
  {c : Crew R G (Tape R) (Number R) l} {Ready : Workspace R G (Number R) → Tape R → Prop}
  {price : Nat → Except (Fault (SimulationError R)) R}

/-- A path adds its derivatives to what lies before the checkpoint. -/
theorem Based.tally_path (h : job.Based k m base w) {u u' : Workspace R G (Number R)} {t t' : Tape R} {y : R}
    (hframe : u.frame = w.workspace.frame) (hstream : u.stream = DrawStream.skipTo i w.workspace.stream)
    (ht : Tape.Continues k base t) (hexec : w.path.exec u t = ((.ok y, u'), t')) (hi : job.PropagatesAlone i) :
    Tape.Continues k base t' ∧ job.RecordsAlone base i ∧
      ∀ x ∈ job.parameters, tally base x t' = tally base x t + job.slopeAlone x i := by
  obtain ⟨ht', payoff, tape, hadds⟩ := h.exists_adds hframe hstream ht hexec
  refine ⟨ht', ⟨payoff, tape, hadds.alone, hadds.grows, hadds.onTape⟩, fun x hx => ?_⟩
  obtain ⟨p, hp, hon, hleaf⟩ := h.enters x hx
  have hd := h.discernible hadds.alone hadds.grows hadds.onTape hi
  rw [slopeAlone_eq hadds.alone, tally, tally, Number.slope, hp]
  exact hadds.influence p hon hleaf hd

/-- What a worker has after the paths of a step. -/
theorem Based.tally_deskStep (h : job.Based k m base w) (hready : ∀ u t, Ready u t → u.frame = w.workspace.frame)
    (hfits : d.Fits w.workspace.stream Ready price q) (ht : Tape.Continues k base d.record)
    (hstep : DeskStep w.path q d label q' d') (hlabel : ∀ i ∈ label.toList, job.PropagatesAlone i) :
    Tape.Continues k base d'.record ∧ (∀ i ∈ label.toList, job.RecordsAlone base i) ∧
      ∀ x ∈ job.parameters,
        tally base x d'.record = tally base x d.record + (label.toList.map (job.slopeAlone x)).sum := by
  cases hstep with
  | take | leave | handIn => exact ⟨ht, by simp, by simp⟩
  | @path b payoffs y u t htask hleft hexec =>
    obtain ⟨-, -, hstream⟩ := hfits.busy b payoffs htask
    have hi := hlabel (b.first + payoffs.size) (List.mem_singleton_self _)
    obtain ⟨ht', halone, htally⟩ := h.tally_path (hready _ _ hfits.ready) hstream ht hexec hi
    refine ⟨ht', fun i hi => ?_, fun x hx => ?_⟩
    · rw [List.mem_singleton.1 hi]
      exact halone
    · rw [htally x hx, Option.toList_some, List.map_singleton, List.sum_singleton]

/-- What the workers hold after the paths of `trace`. -/
structure Tallied (job : Job R G) (k : Nat) (base : Tape R) (trace : List Nat) (c : Crew R G (Tape R) (Number R) l) :
    Prop where
  continues : ∀ j, Tape.Continues k base (c.desks j).record
  alone : ∀ i ∈ trace, job.RecordsAlone base i
  sum_eq : ∀ x ∈ job.parameters, ∑ j, tally base x (c.desks j).record = (trace.map (job.slopeAlone x)).sum

theorem Based.tallied_assembled (h : job.Based k m base w) : job.Tallied k base [] (Crew.assembled l q w) where
  continues _ := by
    change Tape.Continues k base w.record
    rw [h.record_eq]
    exact h.twins.continues
  alone _ hi := by contradiction
  sum_eq x hx := by
    have hcolumn : w.record.column 0 = fun _ => 0 := by
      rw [h.record_eq]
      exact h.built.column_eq_zero
    have hzero : tally base x w.record = 0 := by
      obtain ⟨p, hp, -, -⟩ := h.enters x hx
      rw [tally, hp, Option.elim_some, hcolumn, Tape.influence, Tape.total]
      simp
    exact Finset.sum_eq_zero fun j _ => hzero

theorem Based.tallied_step (h : job.Based k m base w) (hready : ∀ u t, Ready u t → u.frame = w.workspace.frame)
    (hc : job.Tallied k base trace c) {j : Fin l} (hfits : (c.desks j).Fits w.workspace.stream Ready price c.queue)
    (hstep : DeskStep w.path c.queue (c.desks j) label q d) (hlabel : ∀ i ∈ label.toList, job.PropagatesAlone i) :
    job.Tallied k base (trace ++ label.toList) (Crew.mk q (Function.update c.desks j d)) := by
  obtain ⟨hcontinues, halone, htally⟩ := h.tally_deskStep hready hfits (hc.continues j) hstep hlabel
  refine ⟨fun j' => ?_, fun i hi => ?_, fun x hx => ?_⟩
  · change Tape.Continues k base (Function.update c.desks j d j').record
    by_cases hj : j' = j
    · rw [hj, Function.update_self]
      exact hcontinues
    · rw [Function.update_of_ne hj]
      exact hc.continues j'
  · exact (List.mem_append.1 hi).elim (hc.alone i) (halone i)
  · have hsum := sum_update (fun d : Desk R G (Tape R) (Number R) => tally base x d.record) c.desks j (htally x hx)
    rw [List.map_append, List.sum_append, ← hc.sum_eq x hx]
    exact hsum

/-- The workers hold the derivatives of all paths that were simulated. -/
theorem Based.tallied (h : job.Based k m base w) (hpath : Positional w.path w.workspace.stream Ready price)
    (hw : Ready w.workspace w.record) (hready : ∀ u t, Ready u t → u.frame = w.workspace.frame)
    (hrun : Run w.path (Crew.assembled l (.ofPaths n size) w) trace c) (htrace : ∀ i ∈ trace, job.PropagatesAlone i) :
    job.Tallied k base trace c := by
  induction hrun with
  | start => exact h.tallied_assembled
  | step hrun hstep ih =>
    have hbefore := ih fun i hi => htrace i (List.mem_append_left _ hi)
    exact h.tallied_step hready hbefore ((hrun.consistent hpath hw).fits _) hstep fun i hi =>
      htrace i (List.mem_append_right _ hi)

end Runs

section Workers

variable {queue queue' : BatchQueue} {r : WorkerResult R} {t : Tape R}

/-- The tape from which a worker reads its sensitivities. -/
theorem exists_tape (hw : job.startReverse = .ok w) (hrun : job.runReverse queue = .ok (r, queue')) :
    ∃ u t, (Working.drain w.path #[] queue).exec w.workspace w.record = ((.ok (r.output, queue'), u), t) ∧
      job.tapeAfter queue = .ok t ∧
      (t.propagateMarkToStart >>= fun t => job.parameters.mapM (·.adjoint t)) = .ok r.gradient := by
  obtain ⟨u, t, hexec⟩ := exec_drain_reverse hw hrun
  refine ⟨u, t, hexec, ?_, ?_⟩
  · rw [tapeAfter, hw]
    simp only [bind, Except.bind, hexec]
    rfl
  · rw [runReverse_eq, hw] at hrun
    simp only [bind, Except.bind, hexec] at hrun
    split at hrun
    · contradiction
    · next gradient hgradient =>
      have hresult := congrArg (·.1.gradient) (Except.ok.inj hrun)
      rw [← hresult]
      exact mapError_eq_ok_iff.1 hgradient

/-- The sweep at the end of a worker takes what lies before the checkpoint to the parameters. -/
theorem Based.gradient_eq_tally (h : job.Based k m base w) (ht : Tape.Continues k base t)
    (hp : t.Propagates ((t.nodes.range .start t.nodes.mark).reverse.map (·.2))) :
    (t.propagateMarkToStart >>= fun t => job.parameters.mapM (·.adjoint t)) =
      .ok (job.parameters.map fun x => tally base x t) := by
  have hbase : base.Sound := h.twins.sound_left
  have hcount : 0 < t.adjointCount := by
    rw [ht.returns.count_eq, h.count_eq]
    exact Nat.one_pos
  obtain ⟨t', hgradient, hcolumn⟩ := gradient_ok ht.returns h.count_eq fun x hx => (h.enters x hx).onTape
  have hvalues : job.parameters.map (·.adjointOn t') = job.parameters.map fun x => tally base x t := by
    apply List.map_congr_left
    intro x hx
    obtain ⟨p, hx, hon, hleaf⟩ := h.enters x hx
    have hd := ht.returns.sound.discernible_of_propagates hp hcount
    rw [Number.adjointOn, tally, hx, Option.elim_some, Option.elim_some, hcolumn]
    exact (ht.splits hbase).pushAll_before hon hleaf hd
  rw [hgradient, hvalues]

variable [LawfulStream R G]

/-- A worker that empties the queue alone records all paths. -/
theorem Based.tally_drain (h : job.Based k m base w) (hw : job.startReverse = .ok w) (hsize : 0 < size)
    {u : Workspace R G (Number R)} {output : Output R}
    (hexec : (Working.drain w.path #[] (.ofPaths n size)).exec w.workspace w.record = ((.ok (output, queue'), u), t))
    (halone : ∀ i < n, job.PropagatesAlone i) :
    Tape.Continues k base t ∧ (∀ i < n, job.RecordsAlone base i) ∧
      ∀ x ∈ job.parameters, tally base x t = ∑ i ∈ Finset.range n, job.slopeAlone x i := by
  obtain ⟨_, _, f, -, hparallel⟩ := exists_plain hw
  obtain ⟨trace, c, hrun, hdesk⟩ : ∃ trace c, Run w.path (Crew.assembled 1 (.ofPaths n size) w) trace c ∧
      c.desks 0 = ⟨u, t, .done, output⟩ := by
    have hstart : Run w.path (Crew.assembled 1 (.ofPaths n size) w) [] (Crew.assembled 1 (.ofPaths n size) w) := .start
    obtain ⟨trace, hrun⟩ := hstart.moves (i := 0) (moves_drain rfl hexec)
    refine ⟨trace, _, hrun, ?_⟩
    dsimp only
    rw [Function.update_self]
  have hfinished : c.Finished := by
    intro j
    rw [Subsingleton.elim j 0, hdesk]
  have hperm : trace.Perm (List.range n) :=
    (hrun.consistent hparallel.positional_reverse hparallel.ready_reverse).trace_perm hsize Nat.one_pos hfinished
  have hmem (i : Nat) : i ∈ trace ↔ i < n := by rw [hperm.mem_iff, List.mem_range]
  have htallied := h.tallied hparallel.positional_reverse hparallel.ready_reverse
    (fun v t hv => hv.1.1.trans hparallel.beside.frame_right.symm) hrun fun i hi => halone i ((hmem i).1 hi)
  have hcontinues := htallied.continues 0
  rw [hdesk] at hcontinues
  refine ⟨hcontinues, fun i hi => htallied.alone i ((hmem i).2 hi), fun x hx => ?_⟩
  have hsum := htallied.sum_eq x hx
  rw [Fin.sum_univ_one, hdesk, (hperm.map _).sum_eq] at hsum
  rw [hsum]
  rfl

end Workers

end Job

section Simulation

omit [DrawStream R G] in
theorem addLists_map {α : Type} {z : R} (hz : z = 0) {l : List α} {ys : List R} (h : ys.length = l.length) :
    addLists (l.map fun _ => z) ys = ys := by
  induction l generalizing ys with
  | nil => exact (List.eq_nil_of_length_eq_zero h).symm
  | cons a l ih =>
    obtain ⟨y, ys, rfl⟩ := List.exists_cons_of_length_eq_add_one h
    rw [List.map_cons, addLists, ih (Nat.succ.inj h), hz, zero_add]

omit [DrawStream R G] in
/-- Preparing keeps the number of parameters. -/
theorem length_parameters {p : Product R} {m prepared : Model R R}
    (h : ((prepareModel p m : Simulated R Unit (Model R R)).run ()).1 = .ok prepared) :
    prepared.parameters.length = m.parameters.length := by
  rcases hlift : (m.lift Number.input).run (.empty : Tape R) with ⟨m₁, t₁⟩
  rcases hrecorded : (prepareModel p m₁ : Simulated R (Tape R) (Model R (Number R))).run t₁ with ⟨r, t₂⟩
  obtain ⟨-, -, -, halike⟩ := recorded_prepareModel p m hlift h hrecorded
  rcases r with e | m₂
  · exact halike.elim
  · exact halike.parameters.1

theorem map_eq_ofFn {α β : Type} {n : Nat} (f : α → β) (l : List α) (h : l.length = n) :
    l.map f = List.ofFn fun j : Fin n => f (l.get (j.cast h.symm)) := by
  subst h
  apply List.ext_getElem
  · simp
  · simp

/-- The sensitivities of a simulation with one worker are those that the worker hands back, by the number of paths. -/
theorem gradient_of_worker {job : Job R G} {prepared : Model R R} {r : Result R}
    (hprepared : ((prepareModel job.product job.model : Simulated R Unit (Model R R)).run ()).1 = .ok prepared)
    (hdimension : job.dimension = prepared.dimension) (hmode : job.config.mode = .reverse)
    (hworkers : job.config.workers = 1)
    (h : simulate job.product job.model job.stream job.config = .ok r) :
    ∃ result queue, job.runReverse job.config.queue = .ok (result, queue) ∧
      (result.gradient.length = job.model.parameters.length →
        r.gradient = result.gradient.map (· / (job.config.paths : R))) := by
  obtain ⟨results, hresults, rfl⟩ := job.exists_results hprepared hdimension h
  simp only [hworkers, runWorkers, bind_eq_ok_iff] at hresults
  obtain ⟨⟨result, queue⟩, hrun, rest, hrest, hall⟩ := hresults
  cases hrest
  obtain rfl : [result] = results := Except.ok.inj hall
  have hrun : job.runReverse job.config.queue = .ok (result, queue) := by
    rw [← hrun, Job.runWorker, hmode]
  refine ⟨result, queue, hrun, fun hlength => ?_⟩
  have hzeros : addLists (job.config.zeros prepared) result.gradient = result.gradient := by
    rw [Config.zeros, hmode]
    exact addLists_map ((ExactScalar.literal_eq 0).trans Nat.cast_zero)
      (hlength.trans (length_parameters hprepared).symm)
  rw [Config.result, List.foldl_cons, List.foldl_nil, hzeros, ExactScalar.ofNat_eq]

variable [LawfulStream R G]

/-- Sensitivities are means over the paths. When a simulation with sensitivities on one worker succeeds, and its
sweeps leave no adjoint behind for being too small, each sensitivity is the mean, over all paths, of the adjoint
that the parameter has after the path alone was recorded on a fresh tape and its payoff, with the seed one, was
propagated to the start. -/
theorem gradient_eq_mean_of_paths (job : Job R G) {prepared : Model R R} {r : Result R}
    (hprepared : ((prepareModel job.product job.model : Simulated R Unit (Model R R)).run ()).1 = .ok prepared)
    (hdimension : job.dimension = prepared.dimension) (hmode : job.config.mode = .reverse)
    (hworkers : job.config.workers = 1)
    (h : simulate job.product job.model job.stream job.config = .ok r)
    (halone : ∀ i < job.config.paths, job.PropagatesAlone i) (hafter : job.PropagatesAfter job.config.queue) :
    ∃ adjoints : Nat → Fin job.model.parameters.length → R,
      (∀ i < job.config.paths, job.adjointsAlone i = .ok (List.ofFn (adjoints i))) ∧
      r.gradient = List.ofFn fun j => (∑ i ∈ Finset.range job.config.paths, adjoints i j) / job.config.paths := by
  obtain ⟨result, queue, hrun, hgradient⟩ := gradient_of_worker hprepared hdimension hmode hworkers h
  rw [Job.runReverse_eq] at hrun
  obtain ⟨w, hw, -⟩ := bind_eq_ok_iff.1 hrun
  rw [← Job.runReverse_eq] at hrun
  obtain ⟨k, m, base, hbased⟩ := Job.exists_based hw
  obtain ⟨u, t, hexec, htape, hread⟩ := Job.exists_tape hw hrun
  have hsplit : 0 < job.config.splitSize := Nat.lt_of_lt_of_le Nat.one_pos (Nat.le_max_left ..)
  obtain ⟨hcontinues, hrecords, htally⟩ := hbased.tally_drain hw hsplit hexec halone
  have hsum : result.gradient =
      job.parameters.map fun x => ∑ i ∈ Finset.range job.config.paths, job.slopeAlone x i := by
    rw [hbased.gradient_eq_tally hcontinues (hafter t htape)] at hread
    rw [← Except.ok.inj hread]
    exact List.map_congr_left htally
  have hlength : result.gradient.length = job.model.parameters.length := by
    rw [hsum, List.length_map, hbased.count]
  refine ⟨fun i j => job.slopeAlone (job.parameters.get (j.cast hbased.count.symm)) i, fun i hi => ?_, ?_⟩
  · rw [hbased.adjointsAlone_eq (halone i hi) (hrecords i hi), map_eq_ofFn _ _ hbased.count]
  · rw [hgradient hlength, hsum, List.map_map, map_eq_ofFn _ _ hbased.count]
    rfl

end Simulation

section Rational

open Script

/-- Rational numbers as scalars, with the first order of the exponential. -/
local instance rationalScalar : Scalar ℚ where
  ofDecimal m e := if 0 ≤ e then m * 10 ^ e.toNat else mkRat m (10 ^ (-e).toNat)
  ofNat n := n
  exp x := if 0 ≤ 1 + x then 1 + x else 0
  log x := x - 1
  sqrt x := if 0 ≤ x then x else -x
  pow x y := x ^ y.num.toNat
  abs x := if 0 ≤ x then x else -x
  isFinite _ := true
  ceilNat x := ⌈x⌉₊
  beq x y := decide (x = y)
  identical x y := decide (x = y)
  precedes x y := decide (x ≤ y)
  decLt := inferInstance
  decLe := inferInstance

theorem rational_ofDecimal (m : Nat) (e : Int) : (Scalar.ofDecimal m e : ℚ) = m * 10 ^ e := by
  simp only [Scalar.ofDecimal]
  split
  · next h =>
    obtain ⟨n, rfl⟩ := Int.eq_ofNat_of_zero_le h
    simp
  · next h =>
    obtain ⟨n, rfl⟩ : ∃ n : Nat, e = -(n : Int) := ⟨(-e).toNat, by omega⟩
    simp [Rat.mkRat_eq_div, div_eq_mul_inv]

theorem rational_abs (a : ℚ) : Scalar.abs a = |a| := by
  simp only [Scalar.abs]
  split
  · next h => exact (abs_of_nonneg h).symm
  · next h => exact (abs_of_neg (not_le.1 h)).symm

theorem rational_exp_nonneg (a : ℚ) : 0 ≤ Scalar.exp a := by
  simp only [Scalar.exp]
  split
  · assumption
  · exact le_refl 0

theorem rational_sqrt_nonneg (a : ℚ) : 0 ≤ Scalar.sqrt a := by
  simp only [Scalar.sqrt]
  split
  · assumption
  · next h => exact neg_nonneg.2 (not_le.1 h).le

local instance rationalNumbers : ExactScalar ℚ where
  toScalar := rationalScalar
  __ := (inferInstance : Field ℚ)
  __ := (inferInstance : LinearOrder ℚ)
  __ := (inferInstance : IsStrictOrderedRing ℚ)
  ofNat_eq _ := rfl
  ofDecimal_eq := rational_ofDecimal
  abs_eq := rational_abs
  isFinite_eq _ := rfl
  beq_iff x y := by simp [BEq.beq]
  identical_iff x y := by simp [Scalar.identical]
  precedes_iff x y := by simp [Scalar.precedes]
  exp_nonneg := rational_exp_nonneg
  sqrt_nonneg := rational_sqrt_nonneg

/-- Pays the last spot when it is above 120, one when it is below 60, and the first spot otherwise. -/
def corridorProduct : Product ℚ where
  times := [0, 1]
  events := [[.assign ⟨"X", 0⟩ .spot],
    [.branch (.compare none (.new .above (.binary none .sub .spot (.literal 120)) none)) [.assign ⟨"X", 0⟩ .spot] [] [0],
      .branch (.compare none (.new .above (.binary none .sub (.literal 60) .spot) none)) [.assign ⟨"X", 0⟩ (.literal 1)]
        [] [0]]]
  programs := []
  names := #["X"]
  payoff := 0
  nesting := 1
  fuzzy := false

/-- Five paths, the first three of which end above the corridor, in it and below. -/
def corridorJob : Job ℚ (FixedStream ℚ) where
  product := corridorProduct
  model := .blackScholes ⟨100, 1 / 2, 0, 0, [], false⟩
  stream := ⟨#[#[0, 1], #[0, 0], #[0, -1]], 0, 0⟩
  config := ⟨5, 0, 4, .exact, 1, .reverse, none, by decide, by decide, by decide, by decide, by decide, rfl, by decide⟩
  dimension := 2

theorem gradient_eq_mean_of_paths_corridor :
    (∀ i < 5, corridorJob.PropagatesAlone i) ∧ corridorJob.PropagatesAfter corridorJob.config.queue ∧
      ∃ (r : Result ℚ) (adjoints : Nat → Fin 4 → ℚ),
        simulate corridorJob.product corridorJob.model corridorJob.stream corridorJob.config = .ok r ∧
        r.payoffs = #[275 / 2, 100, 1, 275 / 2, 100] ∧
        (∀ i < 5, corridorJob.adjointsAlone i = .ok (List.ofFn (adjoints i))) ∧
        (List.ofFn (adjoints 0) = [11 / 8, 275 / 4, 275 / 2, -275 / 2] ∧ List.ofFn (adjoints 1) = [1, 0, 0, 0] ∧
          List.ofFn (adjoints 2) = [0, 0, 0, 0]) ∧
        r.gradient = List.ofFn fun j => (∑ i ∈ Finset.range 5, adjoints i j) / (5 : Nat) := by
  have halone : ∀ i < 5, corridorJob.PropagatesAlone i := by decide +kernel
  have hafter : corridorJob.PropagatesAfter corridorJob.config.queue := by decide +kernel
  have hdimension : ((prepareModel corridorJob.product corridorJob.model :
      Simulated ℚ Unit (Model ℚ ℚ)).run ()).1.toOption.map (·.dimension) = some 2 := by decide +kernel
  have hworkers : corridorJob.config.workers = 1 := by decide +kernel
  have hpayoffs : (simulate corridorJob.product corridorJob.model corridorJob.stream corridorJob.config).toOption.map
      (·.payoffs) = some #[275 / 2, 100, 1, 275 / 2, 100] := by decide +kernel
  have hadjoints : ((corridorJob.adjointsAlone 0).toOption = some [11 / 8, 275 / 4, 275 / 2, -275 / 2] ∧
      (corridorJob.adjointsAlone 1).toOption = some [1, 0, 0, 0]) ∧
      (corridorJob.adjointsAlone 2).toOption = some [0, 0, 0, 0] := by decide +kernel
  obtain ⟨prepared, hprepared, hprepared₂⟩ := exists_of_toOption_map hdimension
  obtain ⟨r, hr, hr₂⟩ := exists_of_toOption_map hpayoffs
  obtain ⟨adjoints, hpaths, hgradient⟩ :=
    gradient_eq_mean_of_paths corridorJob hprepared hprepared₂.symm rfl hworkers hr halone hafter
  have hpath (i : Nat) (hi : i < 5) : corridorJob.adjointsAlone i = .ok (List.ofFn (adjoints i)) := hpaths i hi
  rw [hpath 0 (by decide), hpath 1 (by decide), hpath 2 (by decide)] at hadjoints
  obtain ⟨⟨habove, hwithin⟩, hbelow⟩ := hadjoints
  exact ⟨halone, hafter, r, adjoints, hr, hr₂, hpath,
    ⟨Option.some.inj habove, Option.some.inj hwithin, Option.some.inj hbelow⟩, hgradient⟩

end Rational

end PayoffPricing.Simulation
