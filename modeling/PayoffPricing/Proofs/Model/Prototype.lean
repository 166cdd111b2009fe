import PayoffPricing.Proofs.Except
import PayoffPricing.Simulation.Worker
/-!
Models as prototypes. Preparing a model forgets every timeline that it was prepared for before.
-/

namespace PayoffPricing

section Preparing

variable {R S M α : Type}

theorem run_run_get (m : M) : (get : Preparing R S M M).run.run m = pure (.ok m, m) := rfl

theorem run_run_modify (f : M → M) (m : M) :
    (modify f : Preparing R S M PUnit).run.run m = pure (.ok ⟨⟩, f m) := rfl

theorem run_run_record (a : StateM S α) (m : M) :
    (Modelling.record a |>.prepare : Preparing R S M α).run.run m = (do return (.ok (← a), m)) := rfl

end Preparing

namespace BlackScholes
variable {R S T : Type} [Scalar R] [Quantity R S T]

theorem run_init {times : List R} {requests : List (Request R)} (m : BlackScholes T)
    (h : times.length = requests.length) (hm : m.steps.length = times.length) :
    (init times requests : Preparing R S (BlackScholes T) Unit).run.run m = (do
      let (carry, driftRate) ← m.driftRates
      let (steps, stop) ← m.prepare carry driftRate 0 (times.zip requests) m.steps
      match stop with
      | some e => return (.error (.error e), { m with steps := steps })
      | none => return (.ok (), { m with steps := steps, isReady := true })) := by
  unfold init
  simp only [h, ne_eq, not_true_eq_false, ↓reduceIte]
  rw [run_run_bind, run_run_get, pure_bind]
  simp only [hm, h, not_true_eq_false, ↓reduceIte]
  rw [run_run_bind, run_run_get, pure_bind]
  dsimp only
  rw [run_run_bind, run_run_record, bind_assoc]
  refine congrArg _ (funext fun rates => ?_)
  rw [pure_bind]
  dsimp only
  rw [run_run_bind, run_run_record, bind_assoc]
  refine congrArg _ (funext fun r => ?_)
  obtain ⟨steps, stop⟩ := r
  cases stop <;> rfl

end BlackScholes

namespace LocalVol
variable {R S T : Type} [Scalar R] [Quantity R S T]

/-- The model with other lengths, deviations and drifts of steps. -/
def withSteps (m : LocalVol R T) (lengths : Array R) (deviations : Array (Array T)) (drifts : Array T) :
    LocalVol R T := { m with lengths := lengths, deviations := deviations, drifts := drifts }

theorem prepare_withSteps (m : LocalVol R T) (lengths : Array R) (deviations : Array (Array T)) (drifts : Array T)
    (previous : R) (steps : List (R × R)) (events : List (R × Request R)) (fixtures : List (Fixture T)) :
    ((m.withSteps lengths deviations drifts).prepare previous steps events fixtures : StateM S _) =
      m.prepare previous steps events fixtures := by
  induction events generalizing previous steps fixtures with
  | nil => rfl
  | cons event events ih =>
    cases fixtures with
    | nil => rfl
    | cons _ fixtures =>
      simp only [prepare]
      split
      · rfl
      · simp only [ih]
        rfl

theorem run_init {times : List R} {requests : List (Request R)} (m : LocalVol R T)
    (h : times.length = requests.length) (hm : m.fixtures.length = times.length) :
    (init times requests : Preparing R S (LocalVol R T) Unit).run.run m = (do
      let (steps, fixtures, stop) ← m.prepare 0 [] (times.zip requests) m.fixtures
      let m := { m with lengths := (steps.map Prod.snd).toArray, fixtures := fixtures }
      match stop with
      | some e => return (.error (.error e), m)
      | none =>
        match ← (m.perStep steps).run with
        | .error e => return (.error e, m)
        | .ok prepared => return (.ok (), { m with
            deviations := (prepared.map Prod.fst).toArray
            drifts := (prepared.map Prod.snd).toArray
            isReady := true })) := by
  unfold init
  simp only [h, ne_eq, not_true_eq_false, ↓reduceIte]
  rw [run_run_bind, run_run_get, pure_bind]
  simp only [hm, h, not_true_eq_false, ↓reduceIte]
  rw [run_run_bind, run_run_get, pure_bind]
  dsimp only
  rw [run_run_bind, run_run_record, bind_assoc]
  refine congrArg _ (funext fun r => ?_)
  obtain ⟨steps, fixtures, stop⟩ := r
  rw [pure_bind]
  dsimp only
  rw [run_run_bind]
  have hset (m m' : LocalVol R T) :
      (set m' : Preparing R S (LocalVol R T) PUnit).run.run m = (do return (.ok ⟨⟩, m')) := rfl
  rw [hset, pure_bind]
  cases stop with
  | some e => rfl
  | none =>
    have hprepare {α : Type} (a : Modelling R S α) (m : LocalVol R T) :
        (a.prepare : Preparing R S (LocalVol R T) α).run.run m = (do return (← a.run, m)) := rfl
    dsimp only
    rw [run_run_bind, hprepare, bind_assoc]
    refine congrArg _ (funext fun r => ?_)
    cases r <;> rfl

theorem init_withSteps {times : List R} {requests : List (Request R)} (m : LocalVol R T)
    (h : times.length = requests.length) (hm : m.fixtures.length = times.length) (lengths : Array R)
    (deviations : Array (Array T)) (drifts : Array T) :
    (do
      let (result, m) ← (init times requests : Preparing R S (LocalVol R T) Unit).run.run
        (m.withSteps lengths deviations drifts)
      return result.map fun _ => m) = (do
      let (result, m) ← (init times requests : Preparing R S (LocalVol R T) Unit).run.run m
      return result.map fun _ => m) := by
  rw [run_init m h hm, run_init (m.withSteps lengths deviations drifts) h hm, prepare_withSteps, bind_assoc, bind_assoc]
  refine congrArg _ (funext fun r => ?_)
  obtain ⟨steps, fixtures, stop⟩ := r
  cases stop with
  | some e => rfl
  | none =>
    rw [bind_assoc, bind_assoc]
    refine congrArg _ (funext fun r => ?_)
    cases r <;> rfl
end LocalVol

namespace Model

variable {R S T : Type}

/-- The model before it is prepared for a timeline. -/
def fresh : Model R T → Model R T
  | blackScholes m => blackScholes { m with steps := [], isReady := false }
  | localVol m => localVol { m.withSteps #[] #[] #[] with fixtures := [], isReady := false }

theorem lift_pure (m : Model R R) : (m.lift pure : StateM S (Model R R)) = pure m.fresh := by
  cases m with
  | blackScholes m => rfl
  | localVol m =>
    have hvols : (m.vols.mapM pure : StateM S (Array R)) = pure m.vols := by
      rw [Array.mapM_eq_mapM_toList]
      have hlist : (m.vols.toList.mapM pure : StateM S (List R)) = pure m.vols.toList := by
        simpa using List.mapM_pure (m := StateM S) (l := m.vols.toList) (f := id)
      rw [hlist]
      rfl
    simp only [lift, LocalVol.lift, pure_bind, hvols]
    rfl

end Model

namespace Simulation

variable {R S T : Type} [Scalar R] [Quantity R S T]

theorem prepareModel_blackScholes (p : Product R) (m : BlackScholes T) :
    (prepareModel p (.blackScholes m) : Simulated R S (Model R T)) = ExceptT.mk (do
      let (result, m) ← (BlackScholes.init p.times p.requests.toList : Preparing R S (BlackScholes T) Unit).run.run
        (m.allocate p.times p.requests.toList)
      return raise .model (result.map fun _ => Model.blackScholes m)) := by
  refine congrArg ExceptT.mk ?_
  change (((BlackScholes.init p.times p.requests.toList : Preparing R S (BlackScholes T) Unit).run.run
    (m.allocate p.times p.requests.toList) >>= fun x => pure (x.1, Model.blackScholes x.2)) >>= fun x =>
      pure (raise SimulationError.model (x.1.map fun _ => x.2)) : StateM S _) = _
  rw [bind_assoc]
  rfl

theorem prepareModel_localVol (p : Product R) (m : LocalVol R T) :
    (prepareModel p (.localVol m) : Simulated R S (Model R T)) = ExceptT.mk (do
      let (result, m) ← (LocalVol.init p.times p.requests.toList : Preparing R S (LocalVol R T) Unit).run.run
        (m.allocate p.times p.requests.toList)
      return raise .model (result.map fun _ => Model.localVol m)) := by
  refine congrArg ExceptT.mk ?_
  change (((LocalVol.init p.times p.requests.toList : Preparing R S (LocalVol R T) Unit).run.run
    (m.allocate p.times p.requests.toList) >>= fun x => pure (x.1, Model.localVol x.2)) >>= fun x =>
      pure (raise SimulationError.model (x.1.map fun _ => x.2)) : StateM S _) = _
  rw [bind_assoc]
  rfl

@[simp]
theorem size_requests (p : Product R) : p.requests.size = p.times.length := by simp [Product.requests]

theorem prepareModel_fresh (p : Product R) (m : Model R T) :
    (prepareModel p m.fresh : Simulated R S (Model R T)) = prepareModel p m := by
  cases m with
  | blackScholes m => rfl
  | localVol m =>
    have hrequests : p.times.length = p.requests.toList.length := by simp
    have hfixtures : (m.allocate p.times p.requests.toList).fixtures.length = p.times.length := by
      simp [LocalVol.allocate]
    have h := LocalVol.init_withSteps (S := S) (m.allocate p.times p.requests.toList) hrequests hfixtures #[] #[] #[]
    have hprepare (m : LocalVol R T) : (prepareModel p (.localVol m) : Simulated R S (Model R T)) = ExceptT.mk (do
        let r ← (do
          let (result, m) ← (LocalVol.init p.times p.requests.toList : Preparing R S (LocalVol R T) Unit).run.run
            (m.allocate p.times p.requests.toList)
          return result.map fun _ => m)
        return raise .model (r.map Model.localVol)) := by
      rw [prepareModel_localVol, bind_assoc]
      refine congrArg (fun f => ExceptT.mk (_ >>= f)) (funext fun r => ?_)
      rcases r with ⟨_ | _, _⟩ <;> rfl
    rw [Model.fresh, hprepare, hprepare]
    exact congrArg (fun a => ExceptT.mk (do return raise .model ((← a).map Model.localVol))) h

end Simulation

end PayoffPricing
