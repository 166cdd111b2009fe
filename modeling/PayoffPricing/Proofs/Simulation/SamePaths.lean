import Mathlib
import PayoffPricing.Proofs.Model.FlatSurface
import PayoffPricing.Proofs.Simulation.Recording
/-!
Models that can stand for each other. When two prepared models take as many draws and make the same scenario of
them, all payoffs of a simulation are the same, in both modes. A flat surface can stand for the model with its
volatility when every event is one step after the one before.
-/

namespace PayoffPricing

/-- As many draws for a path, and the same scenario of the same draws. -/
structure Model.Interchangeable {R T : Type} (S : Type) [Scalar R] [Quantity R S T] (m m' : Model R T) : Prop where
  dimension_eq : m.dimension = m'.dimension
  generate_eq (draws : Array R) (scenario : Scenario T) :
    (m.generate draws scenario : Modelling R S _) = m'.generate draws scenario

namespace Simulation

open PayoffPricing.Random Worlds

section Payoffs

variable {R G : Type} [Scalar R] [DrawStream R G]

theorem Working.nextPayoff_eq {S T : Type} [Quantity R S T] {m m' : Model R T} (h : m.Interchangeable S m')
    (p : Product R) (dimension : Nat) :
    (nextPayoff p m dimension : Working R G S T T) = nextPayoff p m' dimension := by
  unfold nextPayoff fill
  simp only [h.generate_eq]

/-- Both models are refused with the same error, or their prepared forms can stand for each other. -/
def StandsFor (p : Product R) (m m' : Model R R) : Prop :=
  Outcome (Model.Interchangeable Unit) ((prepareModel p m : Simulated R Unit (Model R R)).run ()).1
    ((prepareModel p m' : Simulated R Unit (Model R R)).run ()).1

variable {p : Product R} {m m' : Model R R}

theorem StandsFor.runPlain_eq (h : StandsFor p m m') (stream : G) (c : Config R) (dimension : Nat) (queue : BatchQueue) :
    (⟨p, m, stream, c, dimension⟩ : Job R G).runPlain queue =
      (⟨p, m', stream, c, dimension⟩ : Job R G).runPlain queue := by
  have hstart : (⟨p, m, stream, c, dimension⟩ : Job R G).startPlain =
      (⟨p, m', stream, c, dimension⟩ : Job R G).startPlain :=
    h.bind_eq fun prepared prepared' h => by
      rw [Working.nextPayoff_eq h]
  rw [Job.runPlain_eq, Job.runPlain_eq, hstart]

theorem StandsFor.runWorkers_eq (h : StandsFor p m m') (stream : G) (c : Config R) (dimension n : Nat)
    (queue : BatchQueue) :
    runWorkers (⟨p, m, stream, c.withMode .off, dimension⟩ : Job R G) n queue =
      runWorkers (⟨p, m', stream, c.withMode .off, dimension⟩ : Job R G) n queue := by
  induction n generalizing queue with
  | zero => rfl
  | succ n ih =>
    have hplain (m : Model R R) : (⟨p, m, stream, c.withMode .off, dimension⟩ : Job R G).runWorker queue =
        (⟨p, m, stream, c.withMode .off, dimension⟩ : Job R G).runPlain queue := rfl
    unfold runWorkers
    rw [hplain, hplain, h.runPlain_eq]
    simp only [ih]

/-- The mode makes no difference to the payoffs. -/
theorem payoffs_withMode (p : Product R) (m : Model R R) (stream : G) (c : Config R) :
    (simulate p m stream c).map (·.payoffs) = (simulate p m stream (c.withMode .off)).map (·.payoffs) := by
  cases hmode : c.mode with
  | off =>
    have hc : c.withMode .off = c := by rw [← hmode]; rfl
    rw [hc]
  | reverse =>
    have hc : c.withMode .reverse = c := by rw [← hmode]; rfl
    have h := outcome_simulate p m stream c
    rw [hc] at h
    exact (h.map_eq fun _ _ hr => hr.1).symm

theorem StandsFor.payoffs_eq (h : StandsFor p m m') (stream : G) (c : Config R) :
    (simulate p m stream c).map (·.payoffs) = (simulate p m' stream c).map (·.payoffs) := by
  have hworkers := h.runWorkers_eq stream c
  rw [payoffs_withMode, payoffs_withMode p m', simulate_eq, simulate_eq]
  change (Result.payoffs <$> (_ >>= _) : Except (Fault (SimulationError R)) _) = Result.payoffs <$> (_ >>= _)
  rw [map_bind, map_bind]
  refine h.bind_eq fun prepared prepared' hprepared => ?_
  rw [hprepared.dimension_eq, hworkers, map_bind, map_bind]
  rfl

end Payoffs

section Flat

variable {bs : BlackScholes ℝ} {lv : LocalVol ℝ ℝ} {vol : ℝ}

theorem interchangeable_of_legs (hflat : lv.Flat vol) (hspot : 0 < lv.spot) (rate div : ℝ) {driftRate : ℝ}
    (hrate : driftRate = lv.rate - lv.div - vol * vol * (1 / 2)) (legs : List Leg) :
    Model.Interchangeable Unit
      (.blackScholes ⟨lv.spot, vol, rate, div, legs.map (Leg.step driftRate vol), true⟩)
      (.localVol (lv.prepared vol legs)) where
  dimension_eq := by simp [Model.dimension, BlackScholes.dimension, LocalVol.dimension, LocalVol.prepared]
  generate_eq draws scenario := by
    have hfollow (h : legs.length ≤ draws.size) := (hflat.prepared legs).follow_eq hrate (lv.ready_prepared vol legs)
      ((zero_add legs.length).trans_le h) hspot scenario.toList
    have hlog : (Quantity.log lv.spot : StateM Unit ℝ) = pure (Real.log lv.spot) := rfl
    simp only [LocalVol.prepared] at hfollow
    simp only [Model.generate, BlackScholes.generate, LocalVol.generate, BlackScholes.dimension, LocalVol.dimension,
      LocalVol.prepared, List.length_map, List.size_toArray, Leg.length_fixtures, Bool.not_true, Bool.false_eq_true,
      if_false, hlog, Modelling.record_pure, pure_bind]
    split_ifs with hdraws hscenario
    · rfl
    · rfl
    · rw [hfollow (not_lt.1 hdraws)]
      rfl

/-- Both models refuse a timeline with the same error, or are prepared for the same legs. -/
theorem init_flat {times : List ℝ} {requests : List (Request ℝ)} (hrequests : times.length = requests.length)
    (hsteps : bs.steps.length = times.length) (hfixtures : lv.fixtures.length = times.length) (hflat : lv.Flat bs.vol)
    (hmax : 0 < lv.maxStep) (hrate : bs.rate = lv.rate) (hdiv : bs.div = lv.div) (hunsplit : Unsplit lv.maxStep (0 :: times)) :
    (∃ e bs' lv',
      (BlackScholes.init times requests : Preparing ℝ Unit (BlackScholes ℝ) Unit).run.run bs = pure (.error e, bs') ∧
      (LocalVol.init times requests : Preparing ℝ Unit (LocalVol ℝ ℝ) Unit).run.run lv = pure (.error e, lv')) ∨
    ∃ legs driftRate, driftRate = lv.rate - lv.div - bs.vol * bs.vol * (1 / 2) ∧
      (BlackScholes.init times requests : Preparing ℝ Unit (BlackScholes ℝ) Unit).run.run bs =
        pure (.ok (), ⟨bs.spot, bs.vol, bs.rate, bs.div, legs.map (Leg.step driftRate bs.vol), true⟩) ∧
      (LocalVol.init times requests : Preparing ℝ Unit (LocalVol ℝ ℝ) Unit).run.run lv =
        pure (.ok (), lv.prepared bs.vol legs) := by
  have hevents : (times.zip requests).length = times.length := by rw [List.length_zip, ← hrequests, min_self]
  obtain ⟨driftRate, hdrift⟩ : ∃ d, d = lv.rate - lv.div - bs.vol * bs.vol * (1 / 2) := ⟨_, rfl⟩
  have hrates : (bs.driftRates : StateM Unit (ℝ × ℝ)) = pure (lv.rate - lv.div, driftRate) := by
    rw [hdrift, ← ExactScalar.half_eq, ← hrate, ← hdiv]
    rfl
  have hchain : Unsplit lv.maxStep (0 :: (times.zip requests).map Prod.fst) := by
    rw [List.map_fst_zip hrequests.le]
    exact hunsplit
  have hprepare := prepare_eq driftRate hmax hrate rfl hchain []
    (hsteps.trans hevents.symm) (hfixtures.trans hevents.symm)
  rw [BlackScholes.run_init _ hrequests hsteps, LocalVol.run_init _ hrequests hfixtures, hrates, scalar_zero]
  simp only [pure_bind]
  rcases hprepare with ⟨e, steps, done, fixtures, hbs, hlv⟩ | ⟨legs, -, hbs, hlv⟩
  · rw [hbs, hlv]
    exact .inl ⟨_, _, _, rfl, rfl⟩
  · have hflat' : LocalVol.Flat { lv with
        lengths := ((legs.map fun leg => (leg.start, leg.length)).map Prod.snd).toArray
        fixtures := Leg.fixtures 0 legs } bs.vol :=
      ⟨hflat.spots, hflat.times, hflat.logSpots, hflat.size, hflat.vols⟩
    rw [hbs, hlv]
    simp only [List.nil_append, pure_bind]
    refine .inr ⟨legs, driftRate, hdrift, rfl, ?_⟩
    rw [List.length_nil, hflat'.perStep_eq, ExceptT.run_pure, pure_bind]
    simp only [LocalVol.prepared, List.map_map, Function.comp_def]

/-- A flat surface and the model with its volatility are refused with the same error, or do the same with draws. -/
theorem standsFor_of_flat (hflat : lv.Flat bs.vol) (hmax : 0 < lv.maxStep) (hpos : 0 < lv.spot) (hspot : bs.spot = lv.spot)
    (hrate : bs.rate = lv.rate) (hdiv : bs.div = lv.div) {p : Product ℝ} (hunsplit : Unsplit lv.maxStep (0 :: p.times)) :
    StandsFor p (.blackScholes bs) (.localVol lv) := by
  have hrequests : p.times.length = p.requests.toList.length := by simp
  have hsteps : (bs.allocate p.times p.requests.toList).steps.length = p.times.length := by
    simp [BlackScholes.allocate]
  have hfixtures : (lv.allocate p.times p.requests.toList).fixtures.length = p.times.length := by
    simp [LocalVol.allocate]
  have hinit := init_flat hrequests hsteps hfixtures
    ⟨hflat.spots, hflat.times, hflat.logSpots, hflat.size, hflat.vols⟩ hmax hrate hdiv hunsplit
  unfold StandsFor
  rw [prepareModel_blackScholes, prepareModel_localVol]
  rcases hinit with ⟨e, bs', lv', hbs, hlv⟩ | ⟨legs, driftRate, hdrift, hbs, hlv⟩
  · rw [hbs, hlv]
    exact rfl
  · rw [hbs, hlv]
    have h := interchangeable_of_legs hflat hpos bs.rate bs.div hdrift legs
    rw [← hspot] at h
    exact h

/-- Flat surfaces keep the paths of the model with their volatility. With the same spot, rate and dividend yield, and
events none of which is later than the longest step after the one before, all payoffs of a simulation are the same,
or both stop with the same error, whatever the product, the draws and the configuration. No event may be at time
zero or at the time of the one before: there the model with constant volatility takes a draw and the surface
takes none. -/
theorem flat_surface_keeps_paths {spot vol rate div maxStep : ℝ} {spots times vols : Array ℝ}
    (hbs : BlackScholes.ofParameters spot vol rate div = .ok bs)
    (hlv : (LocalVol.ofGrid spot rate div spots times vols >>= fun m => m.withMaxStep maxStep) = .ok lv)
    (hvols : ∀ v ∈ vols, v = vol) (p : Product ℝ) (hunsplit : Unsplit maxStep (0 :: p.times)) {G : Type}
    [DrawStream ℝ G] (stream : G) (c : Config ℝ) :
    (simulate p (.blackScholes bs) stream c).map (·.payoffs) = (simulate p (.localVol lv) stream c).map (·.payoffs) := by
  obtain ⟨hflat, hpos, hmax, hfields⟩ := LocalVol.flat_of_ofGrid hlv hvols
  simp only [Prod.mk.injEq] at hfields
  obtain ⟨hspot, hrate, hdiv, hstep⟩ := hfields
  obtain rfl := BlackScholes.eq_of_ofParameters hbs
  have hfollows : Unsplit lv.maxStep (0 :: p.times) := hstep ▸ hunsplit
  exact (standsFor_of_flat hflat hmax hpos hspot.symm hrate.symm hdiv.symm hfollows).payoffs_eq stream c

/-- Pays the greater one of two spots. -/
noncomputable def greaterProduct : Product ℝ where
  times := [1, 1 + 1]
  events := [[.assign ⟨"X", 0⟩ .spot],
    [.branch (.compare none (.new .above (.binary none .sub .spot (.read none ⟨"X", 0⟩)) none)) [.assign ⟨"X", 0⟩ .spot] []
      [0]]]
  programs := []
  names := #["X"]
  payoff := 0
  nesting := 1
  fuzzy := false

/-- Two paths that end above and below their first spot. -/
noncomputable def risingAndFalling : FixedStream ℝ := ⟨#[#[1, 1], #[1, -1]], 0, 0⟩

/-- Two paths with sensitivities, each one in a batch of its own. -/
noncomputable def twoPaths : Config ℝ :=
  ⟨2, 0, 1, .exact, 1, .reverse, some 1, Nat.two_pos, by decide, Nat.one_pos, by decide, by simp [scalar_zero], rfl, by decide⟩

theorem flat_surface_keeps_paths_greater : ∃ bs lv,
    BlackScholes.ofParameters (100 : ℝ) (1 / 2) 0 0 = .ok bs ∧
      (LocalVol.ofGrid (100 : ℝ) 0 0 #[50, 150] #[0] #[1 / 2, 1 / 2] >>= fun m => m.withMaxStep 1) = .ok lv ∧
      Unsplit 1 (0 :: greaterProduct.times) ∧
      (simulate greaterProduct (.blackScholes bs) risingAndFalling twoPaths).map (·.payoffs) =
        (simulate greaterProduct (.localVol lv) risingAndFalling twoPaths).map (·.payoffs) := by
  obtain ⟨bs, hbs⟩ : ∃ bs, BlackScholes.ofParameters (100 : ℝ) (1 / 2) 0 0 = .ok bs := by
    simp only [BlackScholes.ofParameters, BlackScholes.checkParameter, scalar_zero]
    norm_num
    exact ⟨_, rfl⟩
  obtain ⟨lv, hlv⟩ : ∃ lv, (LocalVol.ofGrid (100 : ℝ) 0 0 #[50, 150] #[0] #[1 / 2, 1 / 2] >>=
      fun m => m.withMaxStep 1) = .ok lv := by
    have hgrid : (50 : ℝ) < 150 := by norm_num
    simp only [LocalVol.ofGrid, LocalVol.checkGrid, LocalVol.isIncreasing, LocalVol.withMaxStep, scalar_zero]
    simp [hgrid]
    exact ⟨_, rfl⟩
  have hvols : ∀ v ∈ #[(1 / 2 : ℝ), 1 / 2], v = 1 / 2 := by simp
  have hunsplit : Unsplit 1 (0 :: greaterProduct.times) := by
    simp only [Unsplit, greaterProduct, List.isChain_cons_cons, List.isChain_singleton]
    norm_num
  exact ⟨bs, lv, hbs, hlv, hunsplit,
    flat_surface_keeps_paths hbs hlv hvols greaterProduct hunsplit risingAndFalling twoPaths⟩

end Flat

end Simulation

end PayoffPricing
