import Mathlib
import PayoffPricing.Proofs.Exact
import PayoffPricing.Proofs.Except
import PayoffPricing.Proofs.Model.BlackScholes
import PayoffPricing.Proofs.Model.LocalVol
import PayoffPricing.Proofs.Model.Preparation
/-!
Flat surfaces in exact arithmetic. Interpolation over equal volatilities is that volatility, so that an Euler step of
the logarithm is the exact step of the spot. Where every gap is one step, both models prepare the same legs, and make
the same samples of the same draws.
-/

namespace PayoffPricing

open Modelling

theorem BlackScholes.eq_of_ofParameters {spot vol rate div : ℝ} {m : BlackScholes ℝ}
    (h : ofParameters spot vol rate div = .ok m) : m = ⟨spot, vol, rate, div, [], false⟩ := by
  simp only [ofParameters, bind_eq_ok_iff] at h
  obtain ⟨_, -, _, -, _, -, _, -, h⟩ := h
  exact (Except.ok.inj h).symm

namespace LocalVol

/-- All volatilities of the surface are `vol`. -/
structure Flat (m : LocalVol ℝ ℝ) (vol : ℝ) : Prop where
  spots : 0 < m.spots.size
  times : 0 < m.times.size
  logSpots : m.logSpots.size = m.spots.size
  size : m.vols.size = m.spots.size * m.times.size
  vols : ∀ v ∈ m.vols, v = vol

theorem interpolate_flat {grid values : Array ℝ} {v : ℝ} (hsize : values.size = grid.size) (hpos : 0 < grid.size)
    (hv : ∀ y ∈ values, y = v) (x : ℝ) : (interpolate grid values x : Modelling ℝ Unit ℝ) = pure v := by
  have hread {i : Nat} {y : ℝ} (hy : values[i]? = some y) : y = v := hv y (Array.mem_of_getElem? hy)
  rcases interpolate_cases (S := Unit) hpos hsize rfl (le_total x grid[0]) with
    ⟨-, y, hy, hrun⟩ | ⟨-, -, y, hy, hrun⟩ | ⟨-, i, hi, -, -, a, b, ha, hb, hrun⟩
  · rw [hrun, hread hy]
  · rw [hrun, hread hy]
  · rw [hrun, hread ha, hread hb]
    change (pure (v + (v - v) * _) : Modelling ℝ Unit ℝ) = pure v
    rw [sub_self, zero_mul, add_zero]

theorem flat_of_ofGrid {spot rate div vol maxStep : ℝ} {spots times vols : Array ℝ} {m : LocalVol ℝ ℝ}
    (h : (ofGrid spot rate div spots times vols >>= fun m => m.withMaxStep maxStep) = .ok m)
    (hvols : ∀ v ∈ vols, v = vol) :
    m.Flat vol ∧ 0 < m.spot ∧ 0 < m.maxStep ∧ (m.spot, m.rate, m.div, m.maxStep) = (spot, rate, div, maxStep) := by
  obtain ⟨surface, hgrid, hmax⟩ := bind_eq_ok_iff.1 h
  unfold ofGrid at hgrid
  simp only [check_eq_ok_iff, bind_eq_ok_iff] at hgrid
  obtain ⟨hspot, -, -, _, hspots, _, htimes, hsize, hgrid⟩ := hgrid
  unfold withMaxStep at hmax
  split at hgrid
  · cases hgrid
  · cases hgrid
    split at hmax
    · next hstep =>
      cases hmax
      simp only [Bool.and_eq_true, Bool.not_eq_true', Bool.not_eq_false, decide_eq_true_eq, scalar_zero] at hspot hstep
      refine ⟨⟨?_, ?_, Array.size_map, not_not.1 hsize, hvols⟩, hspot.1, hstep.1, rfl⟩
      · exact List.length_pos_iff.2 (checkGrid_ne_nil hspots)
      · exact List.length_pos_iff.2 (checkGrid_ne_nil htimes)
    · cases hmax

theorem mapM_eq_pure {α β : Type} {f : α → Modelling ℝ Unit β} {g : α → β} {l : List α}
    (h : ∀ a ∈ l, f a = pure (g a)) : l.mapM f = pure (l.map g) := by
  induction l with
  | nil => rfl
  | cons a l ih =>
    rw [List.forall_mem_cons] at h
    rw [List.mapM_cons, h.1, ih h.2, pure_bind, pure_bind, List.map_cons]

/-- The model with all that is prepared for a timeline, when all volatilities are `vol`. -/
noncomputable def filledFlat (m : LocalVol ℝ ℝ) (vol : ℝ) (times : List ℝ) (os : List (Observables ℝ)) : LocalVol ℝ ℝ :=
  m.filled times os ((m.stepsFrom 0 times).map fun step =>
    (Array.replicate m.spots.size (vol * Real.sqrt step.2), (m.rate - m.div) * step.2))

namespace Flat

variable {m : LocalVol ℝ ℝ} {vol : ℝ}

theorem gridded (h : m.Flat vol) : m.Gridded := ⟨h.spots, h.times, h.logSpots, h.size⟩

theorem mem_row (h : m.Flat vol) (i : Nat) : ∀ v ∈ m.row i, v = vol := by
  intro v hv
  obtain ⟨j, hj, rfl⟩ := Array.getElem_of_mem hv
  simp only [row, Array.getElem_extract]
  exact h.vols _ (Array.getElem_mem _)

theorem stepDeviations_eq (h : m.Flat vol) (start length : ℝ) :
    (m.stepDeviations start length : Modelling ℝ Unit (Array ℝ)) =
      pure (Array.replicate m.spots.size (vol * Real.sqrt length)) := by
  have hcolumn : ∀ i ∈ List.range m.spots.size, (do
      let vol ← interpolate m.times (m.row i) (Valued.constant start)
      Modelling.record (Quantity.mulScalar vol (Scalar.sqrt length)) : Modelling ℝ Unit ℝ) =
        pure (vol * Real.sqrt length) := by
    intro i hi
    rw [interpolate_flat (h.gridded.size_row (List.mem_range.1 hi)) h.times (h.mem_row i), pure_bind]
    rfl
  unfold stepDeviations
  rw [mapM_eq_pure hcolumn, pure_bind, List.map_const', List.length_range, List.toArray_replicate]

theorem perStep_eq (h : m.Flat vol) (steps : List (ℝ × ℝ)) :
    (m.perStep steps : Modelling ℝ Unit _) = pure (steps.map fun step =>
      (Array.replicate m.spots.size (vol * Real.sqrt step.2), (m.rate - m.div) * step.2)) := by
  refine mapM_eq_pure fun step _ => ?_
  dsimp only
  rw [h.stepDeviations_eq, pure_bind]
  rfl

theorem run_init (h : m.Flat vol) {times : List ℝ} {requests : List (Request ℝ)}
    (hcount : times.length = requests.length) (hrefusal : refusal 0 (times.zip requests) = none) :
    ∃ os, (((times.zip requests).mapM m.observe : StateM Unit _)) = pure os ∧ os.length = times.length ∧
      (init times requests : Preparing ℝ Unit (LocalVol ℝ ℝ) Unit).run.run m =
        pure (.ok (), m.filledFlat vol times os) := by
  obtain ⟨os, hos⟩ := exists_eq_pure ((times.zip requests).mapM m.observe : StateM Unit _)
  have hlength := length_of_mapM (m.observe : _ → StateM Unit _) (times.zip requests) ()
  rw [hos, List.length_zip, ← hcount, min_self] at hlength
  rw [← scalar_zero] at hrefusal
  have hrun := m.run_init_of_accepted (S := Unit) hcount hrefusal
  rw [hos, pure_bind, h.perStep_eq, scalar_zero] at hrun
  exact ⟨os, hos, hlength, hrun⟩

end Flat

theorem cut_eq {m : LocalVol ℝ ℝ} (hmax : 0 < m.maxStep) (previous : ℝ) {gap : ℝ} (hpos : 0 < gap) (hle : gap ≤ m.maxStep) :
    m.cut previous gap = [(previous, gap)] := by
  have hcount : m.stepCount gap = 1 := by
    have hceil : Scalar.ceilNat (gap / m.maxStep) ≤ 1 := Nat.ceil_le.2 (by
      rw [Nat.cast_one]
      exact (div_le_one hmax).2 hle)
    exact max_eq_left hceil
  have hgap : gap > @OfNat.ofNat ℝ 0 (Scalar.instOfNat 0) := by
    rw [scalar_zero]
    exact hpos
  rw [cut, if_pos hgap, hcount]
  change [(previous + ((0 : ℕ) : ℝ) * (gap / ((1 : ℕ) : ℝ)), gap / ((1 : ℕ) : ℝ))] = _
  simp

end LocalVol

/-- What both models make of an event: a gap of positive length that starts at a time, and the observables. -/
structure Leg where
  start : ℝ
  length : ℝ
  observables : Observables ℝ
  length_pos : 0 < length

namespace Leg

/-- The step of the model with constant volatility. -/
noncomputable def step (driftRate vol : ℝ) (leg : Leg) : BlackScholes.Step ℝ :=
  ⟨true, driftRate * leg.length, vol * Real.sqrt leg.length, leg.observables⟩

/-- The fixtures of the model with a surface, when `k` steps are taken before. -/
def fixtures : Nat → List Leg → List (LocalVol.Fixture ℝ)
  | _, [] => []
  | k, leg :: legs => ⟨k + 1, leg.observables⟩ :: fixtures (k + 1) legs

@[simp]
theorem length_fixtures (k : Nat) (legs : List Leg) : (fixtures k legs).length = legs.length := by
  induction legs generalizing k with
  | nil => rfl
  | cons leg legs ih => exact congrArg (· + 1) (ih (k + 1))

end Leg

/-- An Euler step of the logarithm under a constant volatility is exact. -/
theorem exp_log_add {s : ℝ} (hs : 0 < s) {carry driftRate vol : ℝ} (hrate : driftRate = carry - vol * vol * (1 / 2))
    (z : ℝ) {t : ℝ} (ht : 0 ≤ t) :
    Real.exp (Real.log s + (carry * t + vol * Real.sqrt t * (vol * Real.sqrt t * (-(1 / 2)) + z))) =
      s * Real.exp (driftRate * t + vol * Real.sqrt t * z) := by
  rw [Real.exp_add, Real.exp_log hs, hrate]
  congr 2
  linear_combination (-(1 / 2) * vol * vol) * Real.mul_self_sqrt ht

namespace LocalVol

variable {m : LocalVol ℝ ℝ} {vol : ℝ}

/-- What is prepared for legs from a place on. -/
structure Ready (m : LocalVol ℝ ℝ) (vol : ℝ) (k : Nat) (legs : List Leg) : Prop where
  deviations : m.deviations.toList.drop k =
    legs.map fun leg => Array.replicate m.spots.size (vol * Real.sqrt leg.length)
  drifts : m.drifts.toList.drop k = legs.map fun leg => (m.rate - m.div) * leg.length

noncomputable def prepared (m : LocalVol ℝ ℝ) (vol : ℝ) (legs : List Leg) : LocalVol ℝ ℝ :=
  { m with
    lengths := (legs.map Leg.length).toArray
    fixtures := Leg.fixtures 0 legs
    deviations := (legs.map fun leg => Array.replicate m.spots.size (vol * Real.sqrt leg.length)).toArray
    drifts := (legs.map fun leg => (m.rate - m.div) * leg.length).toArray
    isReady := true }

theorem ready_prepared (m : LocalVol ℝ ℝ) (vol : ℝ) (legs : List Leg) : (m.prepared vol legs).Ready vol 0 legs :=
  ⟨rfl, rfl⟩

theorem Flat.prepared (h : m.Flat vol) (legs : List Leg) : (m.prepared vol legs).Flat vol :=
  ⟨h.spots, h.times, h.logSpots, h.size, h.vols⟩

theorem Ready.tail {k : Nat} {leg : Leg} {legs : List Leg} (h : m.Ready vol k (leg :: legs)) :
    m.Ready vol (k + 1) legs where
  deviations := by rw [← List.drop_drop (i := 1), h.deviations]; rfl
  drifts := by rw [← List.drop_drop, h.drifts]; rfl

theorem getElem?_of_drop {α : Type} {xs : Array α} {k : Nat} {x : α} {rest : List α} (h : xs.toList.drop k = x :: rest) :
    xs[k]? = some x := by
  rw [← Array.getElem?_toList, ← List.head?_drop, h]
  rfl

/-- A move over a step of which the tables hold the deviation and the drift. -/
theorem Flat.move_of_tables (hflat : m.Flat vol) {k : Nat} {length : ℝ}
    (hdeviations : m.deviations[k]? = some (Array.replicate m.spots.size (vol * Real.sqrt length)))
    (hdrift : m.drifts[k]? = some ((m.rate - m.div) * length)) {draws : Array ℝ} {z : ℝ} (hz : draws[k]? = some z) (x : ℝ) :
    (m.move draws x k : Modelling ℝ Unit ℝ) = pure (x + ((m.rate - m.div) * length +
      vol * Real.sqrt length * (vol * Real.sqrt length * (-(1 / 2)) + z))) := by
  have hinterpolate : (interpolate m.logSpots (Array.replicate m.spots.size (vol * Real.sqrt length)) x :
      Modelling ℝ Unit ℝ) = pure (vol * Real.sqrt length) :=
    interpolate_flat (by simp [hflat.logSpots]) (hflat.logSpots ▸ hflat.spots)
      (fun y hy => (Array.mem_replicate.1 hy).2) x
  simp only [move, hdeviations, hdrift, hz, read_some, pure_bind, hinterpolate]
  rw [← ExactScalar.half_eq]
  rfl

theorem Flat.move_eq (hflat : m.Flat vol) {k : Nat} {leg : Leg} {legs : List Leg} (h : m.Ready vol k (leg :: legs))
    {draws : Array ℝ} {z : ℝ} (hz : draws[k]? = some z) (x : ℝ) :
    (m.move draws x k : Modelling ℝ Unit ℝ) = pure (x + ((m.rate - m.div) * leg.length +
      vol * Real.sqrt leg.length * (vol * Real.sqrt leg.length * (-(1 / 2)) + z))) :=
  hflat.move_of_tables (getElem?_of_drop h.deviations) (getElem?_of_drop h.drifts) hz x

theorem Flat.follow_eq (hflat : m.Flat vol) {driftRate : ℝ} (hrate : driftRate = m.rate - m.div - vol * vol * (1 / 2)) {k : Nat}
    {legs : List Leg} (h : m.Ready vol k legs) {draws : Array ℝ} (hdraws : k + legs.length ≤ draws.size) {spot : ℝ}
    (hspot : 0 < spot) (samples : List (Sample ℝ)) :
    (m.follow draws (Real.log spot) k (Leg.fixtures k legs) samples : Modelling ℝ Unit _) =
      Modelling.record
        (BlackScholes.follow spot ((legs.map (Leg.step driftRate vol)).zip (draws.toList.drop k)) samples) := by
  induction legs generalizing k spot samples with
  | nil => cases samples <;> rfl
  | cons leg legs ih =>
    rw [List.length_cons] at hdraws
    have hk : k < draws.size := by omega
    have hdrop : draws.toList.drop k = draws[k] :: draws.toList.drop (k + 1) := by
      rw [List.drop_eq_getElem_cons (by simpa using hk), Array.getElem_toList]
    cases samples with
    | nil =>
      rw [hdrop]
      rfl
    | cons sample samples =>
      -- one model moves to the next spot, the other one to its logarithm
      obtain ⟨next, hnext⟩ : ∃ next, next =
        spot * Real.exp (driftRate * leg.length + vol * Real.sqrt leg.length * draws[k]) := ⟨_, rfl⟩
      have hmove := hflat.move_eq h (Array.getElem?_eq_getElem hk) (Real.log spot)
      have hexp := (exp_log_add hspot hrate draws[k] leg.length_pos.le).trans hnext.symm
      have hlog := congrArg Real.log hexp
      rw [Real.log_exp] at hlog
      rw [hlog] at hmove hexp
      have hpos : 0 < next := hnext ▸ mul_pos hspot (Real.exp_pos _)
      have hlater := ih h.tail (by omega) hpos samples
      have hquantity : (Quantity.exp (Real.log next) : StateM Unit ℝ) = pure next := congrArg pure hexp
      have hstep : (Quantity.lognormalStep spot (driftRate * leg.length) (vol * Real.sqrt leg.length) draws[k] :
          StateM Unit ℝ) = pure next := congrArg pure hnext.symm
      rw [hdrop, List.map_cons, List.zip_cons_cons]
      simp only [Leg.fixtures, LocalVol.follow, BlackScholes.follow, Nat.add_sub_cancel_left, List.range'_one,
        List.foldlM_cons, List.foldlM_nil, bind_pure, hmove, pure_bind, Nat.max_eq_right (Nat.le_add_right k 1),
        hlater, hquantity, Leg.step, if_true, hstep, record_pure, record_bind]

end LocalVol

section Preparation

variable {bs : BlackScholes ℝ} {m : LocalVol ℝ ℝ} {carry : ℝ} (driftRate : ℝ)

/-- No two events that follow each other are at one time, and no gap is longer than the longest step. -/
def Unsplit (maxStep : ℝ) (times : List ℝ) : Prop := times.IsChain fun a b => a ≠ b ∧ b - a ≤ maxStep

theorem checkEvent_le {previous time : ℝ} {request : Request ℝ} (h : checkEvent previous time request = .ok ()) :
    previous ≤ time := by
  unfold checkEvent at h
  split at h
  · cases h
  · next hcheck => simpa using hcheck

theorem step_eq {gap : ℝ} (hgap : 0 < gap) (time : ℝ) (request : Request ℝ) {observables : Observables ℝ}
    (hobservables : (Observables.ofRates bs.rate carry time request : StateM Unit _) = pure observables)
    (start : ℝ) :
    (bs.step carry driftRate gap time request : StateM Unit _) =
      pure (Leg.step driftRate bs.vol ⟨start, gap, observables, hgap⟩) := by
  have hnoisy : decide (gap > @OfNat.ofNat ℝ 0 (Scalar.instOfNat 0)) = true := by
    rw [scalar_zero]
    exact decide_eq_true hgap
  simp only [BlackScholes.step, hnoisy, hobservables, pure_bind]
  rfl

/-- Both preparations stop at the same event, or make the same legs. -/
theorem prepare_eq (hmax : 0 < m.maxStep) (hrate : bs.rate = m.rate) (hcarry : carry = m.rate - m.div)
    {events : List (ℝ × Request ℝ)} {previous : ℝ} (hchain : Unsplit m.maxStep (previous :: events.map Prod.fst))
    (done : List (ℝ × ℝ)) {steps : List (BlackScholes.Step ℝ)} {fixtures : List (LocalVol.Fixture ℝ)}
    (hsteps : steps.length = events.length) (hfixtures : fixtures.length = events.length) :
    (∃ e steps' done' fixtures',
      (bs.prepare carry driftRate previous events steps : StateM Unit _) = pure (steps', some e) ∧
      (m.prepare previous done events fixtures : StateM Unit _) = pure (done', fixtures', some e)) ∨
    ∃ legs : List Leg, legs.length = events.length ∧
      (bs.prepare carry driftRate previous events steps : StateM Unit _) =
        pure (legs.map (Leg.step driftRate bs.vol), none) ∧
      (m.prepare previous done events fixtures : StateM Unit _) =
        pure (done ++ legs.map fun leg => (leg.start, leg.length), Leg.fixtures done.length legs, none) := by
  induction events generalizing previous done steps fixtures with
  | nil =>
    obtain rfl := List.length_eq_zero_iff.1 hsteps
    obtain rfl := List.length_eq_zero_iff.1 hfixtures
    exact .inr ⟨[], rfl, rfl, by rw [List.map_nil, List.append_nil]; rfl⟩
  | cons event events ih =>
    obtain ⟨time, request⟩ := event
    obtain ⟨old, steps, rfl⟩ := List.exists_cons_of_length_eq_add_one hsteps
    obtain ⟨old', fixtures, rfl⟩ := List.exists_cons_of_length_eq_add_one hfixtures
    obtain ⟨⟨hne, hle⟩, hchain⟩ := List.isChain_cons_cons.1 hchain
    simp only [BlackScholes.prepare, LocalVol.prepare]
    cases hcheck : checkEvent previous time request with
    | error e => exact .inl ⟨e, _, _, _, rfl, rfl⟩
    | ok =>
      have hgap : 0 < time - previous := sub_pos.2 ((checkEvent_le hcheck).lt_of_ne hne)
      obtain ⟨observables, hobservables⟩ :=
        exists_eq_pure (Observables.ofRates bs.rate carry time request : StateM Unit _)
      have hstep := step_eq driftRate hgap time request hobservables previous
      have hsub : (Quantity.sub m.rate m.div : StateM Unit ℝ) = pure carry := by rw [hcarry]; rfl
      have hcut := LocalVol.cut_eq hmax previous hgap hle
      have hlater := ih hchain (done ++ [(previous, time - previous)]) (Nat.succ.inj hsteps) (Nat.succ.inj hfixtures)
      rw [hrate] at hobservables
      simp only [hstep, hsub, hcut, hobservables, pure_bind]
      rcases hlater with ⟨e, steps', done', fixtures', hbs, hm⟩ | ⟨legs, hlength, hbs, hm⟩
      · exact .inl ⟨e, _, _, _, by rw [hbs]; rfl, by rw [hm]; rfl⟩
      · refine .inr ⟨⟨previous, time - previous, observables, hgap⟩ :: legs, congrArg (· + 1) hlength, ?_, ?_⟩
        · rw [hbs]
          rfl
        · rw [hm]
          simp [Leg.fixtures]

end Preparation

end PayoffPricing
