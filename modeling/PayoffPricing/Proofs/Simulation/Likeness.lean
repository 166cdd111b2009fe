import PayoffPricing.Proofs.Except
import PayoffPricing.Proofs.Model.Likeness
import PayoffPricing.Proofs.Product.Likeness
import PayoffPricing.Simulation.Worker
/-!
Workers preserve likeness of quantities. A workspace carries nothing from one path to the next but the
place of its stream.
-/

namespace PayoffPricing.Simulation

open PayoffPricing.Random Worlds Likeness

variable {R G S S' T T' : Type}

/-- What a workspace keeps along all paths. -/
def Workspace.frame (u : Workspace R G T) : List Nat × Method R × Nat :=
  (shape u.scenario.toList, u.evaluator.frame)

variable [Scalar R] [Quantity R S T] [Quantity R S' T'] {L : Likeness R S S' T T'} {w : S × S'} {n : Nat}
  {m : Model R T} {m' : Model R T'}

theorem alike_prepareModel (p : Product R) (h : Model.Alike (L.Like w) n m m') :
    L.toWorlds.Alike w (prepareModel p m : Simulated R S (Model R T))
      (prepareModel p m' : Simulated R S' (Model R T')) fun v => Model.Alike (L.Like v) n := by
  refine Agree.bind (Model.tracks_init p.times p.requests.toList _ _ (h.allocate p.times p.requests.toList))
    fun v r r' _ hr => Agree.pure ?_
  obtain ⟨_ | _, a⟩ := r <;> obtain ⟨_ | _, a'⟩ := r'
  · cases hr
    rfl
  · exact hr.elim
  · exact hr.elim
  · exact hr.2

namespace Working

omit [Quantity R S' T'] in
/-- A path from given draws, step by step. -/
theorem run_path (p : Product R) (m : Model R T) (draws : Array R) (u : Workspace R G T) :
    (do fill m draws; evaluate p : Working R G S T T).run.run u = (do
      match ← (m.generate draws u.scenario).run with
      | .error e => return (.error (e.map .model), u)
      | .ok scenario => do
        let (result, evaluator) ← (Evaluator.evaluate p scenario).run.run u.evaluator
        return (do
          raise .script result
          Fault.ofOption (evaluator.payoff? p), ⟨u.stream, scenario, evaluator⟩)) := by
  rw [run_run_bind]
  funext t
  simp only [fill, bind, StateT.bind, ExceptT.run_mk]
  rcases h : (m.generate draws u.scenario).run t with ⟨_ | _, _⟩
  · simp [StateT.run, StateT.bind, h, bind]; rfl
  · simp [StateT.run, StateT.bind, h, bind]; rfl

/-- Workspaces of the frame `f` with like scenarios and evaluators; where `q` holds, scenarios are alike in
all that they show. -/
structure LikeWorkspace (L : Likeness R S S' T T') (q : Prop) (f : List Nat × Method R × Nat) (w : S × S')
    (u : Workspace R G T) (u' : Workspace R G T') : Prop where
  stream_eq : u.stream = u'.stream
  samples : L.LikeSamples f.1 q w u.scenario.toList u'.scenario.toList
  evaluator : L.LikeEvaluator f.2 w u.evaluator u'.evaluator

variable {u : Workspace R G T} {u' : Workspace R G T'}

theorem LikeWorkspace.frame_left {q : Prop} {f : List Nat × Method R × Nat} (h : LikeWorkspace L q f w u u') :
    u.frame = f := Prod.ext h.samples.shape_left h.evaluator.frame_left

theorem LikeWorkspace.frame_right {q : Prop} {f : List Nat × Method R × Nat} (h : LikeWorkspace L q f w u u') :
    u'.frame = f := Prod.ext h.samples.shape_right h.evaluator.frame_right

/-- Paths from the same draws are alike in workspaces of one frame, whatever is left there of other paths. -/
theorem agree_path (p : Product R) (h : Model.Alike (L.Like w) n m m') (draws : Array R)
    (hstream : u.stream = u'.stream) (hframe : u.frame = u'.frame) :
    L.toWorlds.Agree w ((do fill m draws; evaluate p : Working R G S T T).run.run u)
      ((do fill m' draws; evaluate p : Working R G S' T' T').run.run u') fun v r r' =>
        Outcome (fun x x' => L.Like v x x' ∧
          LikeWorkspace L (List.Forall₂ (L.LikeCurves w) u.scenario.toList u'.scenario.toList) u.frame v r.2 r'.2 ∧
          r.2.stream = u.stream) r.1 r'.1 := by
  obtain ⟨hshape, hevaluator⟩ := Prod.ext_iff.1 hframe
  rw [run_path, run_path]
  refine Agree.bind (h.alike_generate _ hshape) fun v r r' _ hr => ?_
  rcases r with e | s <;> rcases r' with e' | s'
  · cases hr
    exact Agree.pure rfl
  · exact hr.elim
  · exact hr.elim
  · refine Agree.bind (agree_evaluate p rfl hevaluator.symm hr.like) fun v₂ r r' hv hrun => Agree.pure ?_
    obtain ⟨_ | _, e⟩ := r <;> obtain ⟨_ | _, e'⟩ := r'
    · cases hrun
      rfl
    · exact hrun.elim
    · exact hrun.elim
    · have hpayoff := hrun.payoff p
      change Outcome _ (Fault.ofOption (e.payoff? p)) (Fault.ofOption (e'.payoff? p))
      generalize e.payoff? p = o at hpayoff
      generalize e'.payoff? p = o' at hpayoff
      cases hpayoff with
      | none => rfl
      | some hx => exact ⟨hx, ⟨hstream, hr.mono hv, hrun⟩, rfl⟩

variable [DrawStream R G]

omit [Quantity R S' T'] in
theorem run_nextPayoff (p : Product R) (m : Model R T) (dimension : Nat) (u : Workspace R G T) :
    (nextPayoff p m dimension : Working R G S T T).run.run u =
      (do fill m ((DrawStream.normals dimension).run u.stream).1; evaluate p : Working R G S T T).run.run
        { u with stream := ((DrawStream.normals dimension).run u.stream).2 } := by
  rw [nextPayoff, run_run_bind]
  rfl

/-- Paths of workspaces of one frame are alike when their streams are at the same place. -/
theorem agree_nextPayoff (p : Product R) (h : Model.Alike (L.Like w) n m m') (dimension : Nat)
    (hstream : u.stream = u'.stream) (hframe : u.frame = u'.frame) :
    L.toWorlds.Agree w ((nextPayoff p m dimension : Working R G S T T).run.run u)
      ((nextPayoff p m' dimension : Working R G S' T' T').run.run u') fun v r r' =>
        Outcome (fun x x' => L.Like v x x' ∧ r.2.frame = u.frame ∧ r'.2.frame = u.frame ∧
          r.2.stream = ((DrawStream.normals dimension).run u.stream).2 ∧ r.2.stream = r'.2.stream) r.1 r'.1 := by
  rw [run_nextPayoff, run_nextPayoff, ← hstream]
  generalize (DrawStream.normals dimension).run u.stream = drawn
  have hmoved : ({ u with stream := drawn.2 } : Workspace R G T).frame =
      ({ u' with stream := drawn.2 } : Workspace R G T').frame := hframe
  refine (agree_path p h drawn.1 rfl hmoved).imp fun v r r' _ hr => ?_
  obtain ⟨_ | x, s⟩ := r <;> obtain ⟨_ | x', s'⟩ := r'
  · exact hr
  · exact hr.elim
  · exact hr.elim
  · obtain ⟨hx, hspaces, hplace⟩ := hr
    exact ⟨hx, hspaces.frame_left, hspaces.frame_right, hplace, hspaces.stream_eq⟩

end Working

end PayoffPricing.Simulation
