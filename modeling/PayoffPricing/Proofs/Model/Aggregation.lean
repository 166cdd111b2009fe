import PayoffPricing.Proofs.Model.Surface
/-!
Flat surfaces over timelines with long gaps. The steps over a gap move the spot as one exact step does, with a draw
that is the scaled sum of theirs.
-/

namespace PayoffPricing

open Modelling

/-- Draws for gaps that stand for the draws of the steps over them; `reach` counts the steps before a gap. -/
def Aggregated (reach : Nat → Nat) (draws gapDraws : List ℝ) : Prop :=
  ∀ j z, gapDraws[j]? = some z → reach j < reach (j + 1) →
    z = ((draws.drop (reach j)).take (reach (j + 1) - reach j)).sum / Real.sqrt ((reach (j + 1) - reach j : Nat) : ℝ)

theorem Aggregated.tail {reach : Nat → Nat} {draws gapDraws : List ℝ} {z : ℝ}
    (h : Aggregated reach draws (z :: gapDraws)) : Aggregated (fun j => reach (j + 1)) draws gapDraws :=
  fun j => h (j + 1)

/-- Equal steps of the logarithm add up to an exact step of the spot. -/
theorem exp_log_add_steps {spot : ℝ} (hspot : 0 < spot) {carry driftRate vol : ℝ}
    (hrate : driftRate = carry - vol * vol * (1 / 2)) {n : Nat} (hn : 0 < n) (length : ℝ) {total z : ℝ}
    (hz : z = total / Real.sqrt n) :
    Real.exp (Real.log spot + (n * (carry * length - vol * vol * (1 / 2) * length) + vol * Real.sqrt length * total)) =
      spot * Real.exp (driftRate * (n * length) + vol * Real.sqrt (n * length) * z) := by
  have hroot : Real.sqrt n ≠ 0 := (Real.sqrt_pos.2 (Nat.cast_pos.2 hn)).ne'
  have hnoise : vol * Real.sqrt (n * length) * z = vol * Real.sqrt length * total := by
    rw [Real.sqrt_mul (Nat.cast_nonneg n), hz]
    field_simp
  rw [Real.exp_add, Real.exp_log hspot, hnoise, hrate]
  congr 2
  ring

namespace BlackScholes

/-- The steps to events in exact arithmetic, with the observables of the events. -/
noncomputable def exactSteps (driftRate vol previous : ℝ) : List ℝ → List (Observables ℝ) → List (Step ℝ)
  | time :: times, o :: os =>
    ⟨decide (0 < time - previous), driftRate * (time - previous), vol * Real.sqrt (time - previous), o⟩ ::
      exactSteps driftRate vol time times os
  | _, _ => []

theorem length_exactSteps (driftRate vol previous : ℝ) {times : List ℝ} {os : List (Observables ℝ)}
    (h : os.length = times.length) : (exactSteps driftRate vol previous times os).length = times.length := by
  induction times generalizing previous os with
  | nil => rfl
  | cons time times ih =>
    obtain ⟨o, os, rfl⟩ := List.exists_cons_of_length_eq_add_one h
    exact congrArg (· + 1) (ih time (Nat.succ.inj h))

theorem stepsFrom_eq (bs : BlackScholes ℝ) {lv : LocalVol ℝ ℝ} (hrate : bs.rate = lv.rate) (driftRate previous : ℝ)
    {events : List (ℝ × Request ℝ)} {os : List (Observables ℝ)}
    (hos : (events.mapM lv.observe : StateM Unit _) = pure os) :
    (bs.stepsFrom (lv.rate - lv.div) driftRate previous events : StateM Unit _) =
      pure (exactSteps driftRate bs.vol previous (events.map Prod.fst) os) := by
  induction events generalizing previous os with
  | nil => rfl
  | cons event events ih =>
    obtain ⟨time, request⟩ := event
    obtain ⟨o, ho⟩ := exists_eq_pure (lv.observe (time, request) : StateM Unit _)
    obtain ⟨os', hos'⟩ := exists_eq_pure (events.mapM lv.observe : StateM Unit _)
    have hcons : os = o :: os' := by
      rw [List.mapM_cons, ho, hos'] at hos
      exact (congrArg (fun a : StateM Unit (List (Observables ℝ)) => (a.run ()).1) hos).symm
    have hobservables : (Observables.ofRates bs.rate (lv.rate - lv.div) time request : StateM Unit _) = pure o := by
      rw [hrate]
      exact ho
    have hstep : (bs.step (lv.rate - lv.div) driftRate (time - previous) time request : StateM Unit _) =
        pure ⟨decide (0 < time - previous), driftRate * (time - previous), bs.vol * Real.sqrt (time - previous),
          o⟩ := by
      rw [step, hobservables, scalar_zero]
      rfl
    rw [stepsFrom, hstep, ih time hos', hcons]
    rfl

end BlackScholes

namespace LocalVol

variable {m : LocalVol ℝ ℝ} {vol : ℝ} {steps : List (ℝ × ℝ)}

structure Laid (m : LocalVol ℝ ℝ) (vol : ℝ) (steps : List (ℝ × ℝ)) : Prop where
  deviations : m.deviations.toList = steps.map fun step => Array.replicate m.spots.size (vol * Real.sqrt step.2)
  drifts : m.drifts.toList = steps.map fun step => (m.rate - m.div) * step.2

theorem Flat.move_laid (hflat : m.Flat vol) (h : m.Laid vol steps) {k : Nat} {step : ℝ × ℝ}
    (hstep : steps[k]? = some step) {draws : Array ℝ} {z : ℝ} (hz : draws[k]? = some z) (x : ℝ) :
    (m.move draws x k : Modelling ℝ Unit ℝ) = pure (x + ((m.rate - m.div) * step.2 +
      vol * Real.sqrt step.2 * (vol * Real.sqrt step.2 * (-(1 / 2)) + z))) := by
  apply hflat.move_of_tables
  · rw [← Array.getElem?_toList, h.deviations, List.getElem?_map, hstep, Option.map_some]
  · rw [← Array.getElem?_toList, h.drifts, List.getElem?_map, hstep, Option.map_some]
  · exact hz

theorem Flat.foldlM_move (hflat : m.Flat vol) (h : m.Laid vol steps) {draws : Array ℝ}
    (hdraws : steps.length ≤ draws.size) {length : ℝ} (hlength : 0 ≤ length) {k n : Nat}
    (hsteps : ∀ i < n, ∃ start, steps[k + i]? = some (start, length)) (x : ℝ) :
    ((List.range' k n).foldlM (m.move draws) x : Modelling ℝ Unit ℝ) = pure (x +
      (n * ((m.rate - m.div) * length - vol * vol * (1 / 2) * length) +
        vol * Real.sqrt length * ((draws.toList.drop k).take n).sum)) := by
  -- over the number of steps, the first one taken off
  induction n generalizing k x with
  | zero => simp
  | succ n ih =>
    obtain ⟨start, hstep⟩ := hsteps 0 (Nat.succ_pos n)
    rw [Nat.add_zero] at hstep
    have hk : k < draws.size := ((List.getElem?_eq_some_iff.1 hstep).1).trans_le hdraws
    have hdrop : draws.toList.drop k = draws[k] :: draws.toList.drop (k + 1) := by
      rw [List.drop_eq_getElem_cons (by simpa using hk), Array.getElem_toList]
    have hlater : ∀ i < n, ∃ start, steps[k + 1 + i]? = some (start, length) := by
      intro i hi
      rw [show k + 1 + i = k + (i + 1) by omega]
      exact hsteps (i + 1) (Nat.succ_lt_succ hi)
    rw [List.range'_succ, List.foldlM_cons, hflat.move_laid h hstep (Array.getElem?_eq_getElem hk), pure_bind,
      ih hlater, hdrop, List.take_succ_cons, List.sum_cons]
    congr 1
    push_cast
    linear_combination (-(1 / 2) * vol * vol) * Real.mul_self_sqrt hlength

/-- Over a gap, both models come to the same spot. -/
theorem Flat.exists_next (hflat : m.Flat vol) (h : m.Laid vol steps) {driftRate : ℝ}
    (hrate : driftRate = m.rate - m.div - vol * vol * (1 / 2)) {draws : Array ℝ} (hdraws : steps.length ≤ draws.size)
    {previous gap : ℝ} (hgap : 0 ≤ gap) {k : Nat}
    (hsteps : ∀ i < (m.cut previous gap).length, steps[k + i]? = (m.cut previous gap)[i]?) {z : ℝ}
    (hz : 0 < (m.cut previous gap).length → z = ((draws.toList.drop k).take (m.cut previous gap).length).sum /
      Real.sqrt (m.cut previous gap).length) {spot : ℝ} (hspot : 0 < spot) : ∃ next, 0 < next ∧
    ((List.range' k (m.cut previous gap).length).foldlM (m.move draws) (Real.log spot) : Modelling ℝ Unit ℝ) =
      pure (Real.log next) ∧
    (if decide (0 < gap) then Quantity.lognormalStep spot (driftRate * gap) (vol * Real.sqrt gap) z else pure spot :
      StateM Unit ℝ) = pure next := by
  rcases hgap.eq_or_lt with rfl | hpos
  · -- no step is taken, and no draw is used
    refine ⟨spot, hspot, ?_, ?_⟩
    · rw [cut_eq_nil]
      rfl
    · rw [if_neg (by simp)]
  · have hlength : (m.cut previous gap).length = m.stepCount gap := by
      rw [cut_eq_range m previous hpos, List.length_map, List.length_range]
    have hcount : 0 < m.stepCount gap := m.one_le_stepCount gap
    have hcount' : (0 : ℝ) < m.stepCount gap := Nat.cast_pos.2 hcount
    have heven : ∀ i < m.stepCount gap, ∃ start, steps[k + i]? = some (start, gap / m.stepCount gap) := by
      intro i hi
      rw [← hlength] at hi
      refine ⟨(m.cut previous gap)[i].1, ?_⟩
      rw [hsteps i hi, List.getElem?_eq_getElem hi, ← m.eq_of_mem_cut hpos.le _ (List.getElem_mem hi)]
    have hmoves := hflat.foldlM_move h hdraws (div_nonneg hpos.le hcount'.le) heven (Real.log spot)
    rw [hlength] at hz ⊢
    have hexp := exp_log_add_steps hspot hrate hcount (gap / m.stepCount gap) (hz hcount)
    rw [mul_div_cancel₀ gap hcount'.ne'] at hexp
    refine ⟨_, mul_pos hspot (Real.exp_pos (driftRate * gap + vol * Real.sqrt gap * z)), ?_, ?_⟩
    · rw [hmoves, ← hexp, Real.log_exp]
    · rw [if_pos (decide_eq_true hpos)]
      rfl

theorem Flat.follow_aggregates (hflat : m.Flat vol) (h : m.Laid vol steps) {driftRate : ℝ}
    (hrate : driftRate = m.rate - m.div - vol * vol * (1 / 2)) {draws : Array ℝ} (hdraws : steps.length ≤ draws.size)
    {previous : ℝ} {times : List ℝ} (hchain : (previous :: times).IsChain (· ≤ ·)) {k : Nat}
    (hsteps : steps.drop k = m.stepsFrom previous times) {reach : Nat → Nat}
    (hreach : ∀ j ≤ times.length, reach j = k + (m.stepsFrom previous (times.take j)).length) {gapDraws : List ℝ}
    (haggregated : Aggregated reach draws.toList gapDraws) (hgapDraws : times.length ≤ gapDraws.length)
    {os : List (Observables ℝ)} (hos : os.length = times.length) {spot : ℝ} (hspot : 0 < spot)
    (samples : List (Sample ℝ)) :
    (m.follow draws (Real.log spot) k (m.fixturesFrom k previous times os) samples : Modelling ℝ Unit _) =
      Modelling.record (BlackScholes.follow spot
        ((BlackScholes.exactSteps driftRate vol previous times os).zip gapDraws) samples) := by
  -- over the events; `k` steps are taken before the first gap, where both models have come to `spot`
  induction times generalizing previous k reach gapDraws os spot samples with
  | nil => cases samples <;> rfl
  | cons time times ih =>
    obtain ⟨o, os, rfl⟩ := List.exists_cons_of_length_eq_add_one hos
    obtain ⟨z, gapDraws, rfl⟩ := List.exists_cons_of_length_pos ((Nat.succ_pos _).trans_le hgapDraws)
    cases samples with
    | nil => rfl
    | cons sample samples =>
      obtain ⟨hle, hchain⟩ := List.isChain_cons_cons.1 hchain
      obtain ⟨n, hn⟩ : ∃ n, n = (m.cut previous (time - previous)).length := ⟨_, rfl⟩
      rw [stepsFrom] at hsteps
      -- the steps of the gap come first
      have hgap : ∀ i < n, steps[k + i]? = (m.cut previous (time - previous))[i]? := by
        intro i hi
        rw [← List.getElem?_drop, hsteps, List.getElem?_append_left (hn ▸ hi)]
      have hfirst : reach 0 = k := hreach 0 (Nat.zero_le _)
      have hsecond : reach (0 + 1) = k + n := by
        rw [hreach 1 (Nat.succ_le_succ (Nat.zero_le _)), hn]
        simp [stepsFrom]
      have hz : 0 < n → z = ((draws.toList.drop k).take n).sum / Real.sqrt n := by
        intro hpos
        have hsum := haggregated 0 z rfl (by omega)
        rw [hfirst, hsecond, Nat.add_sub_cancel_left] at hsum
        exact hsum
      obtain ⟨next, hpos, hmoves, hstep⟩ :=
        hflat.exists_next h hrate hdraws (sub_nonneg.2 hle) (hn ▸ hgap) (hn ▸ hz) hspot
      rw [← hn] at hmoves
      have hrest : steps.drop (k + n) = m.stepsFrom time times := by
        rw [← List.drop_drop, hsteps, hn, List.drop_left]
      have hreach' : ∀ j ≤ times.length, reach (j + 1) = k + n + (m.stepsFrom time (times.take j)).length := by
        intro j hj
        rw [hreach (j + 1) (Nat.succ_le_succ hj), List.take_succ_cons, stepsFrom, List.length_append, hn, Nat.add_assoc]
      have hlater := ih hchain hrest hreach' haggregated.tail (Nat.le_of_succ_le_succ hgapDraws) (Nat.succ.inj hos) hpos
        samples
      have hexp : (Quantity.exp (Real.log next) : StateM Unit ℝ) = pure next := congrArg pure (Real.exp_log hpos)
      rw [fixturesFrom, BlackScholes.exactSteps, List.zip_cons_cons, ← hn, BlackScholes.follow_cons]
      dsimp only
      rw [hstep]
      simp only [LocalVol.follow, Nat.add_sub_cancel_left, hmoves, pure_bind, hexp,
        Nat.max_eq_right (Nat.le_add_right k n), hlater, record_pure, record_bind]

theorem Surface.flat (h : m.Surface) (hvols : ∀ v ∈ m.vols, v = vol) : m.Flat vol where
  spots := h.size_spots
  times := h.size_times
  logSpots := h.gridded.logSpots
  size := h.size_vols
  vols := hvols

section Filled

variable {times : List ℝ} {os : List (Observables ℝ)}

theorem laid_filledFlat (m : LocalVol ℝ ℝ) (vol : ℝ) (times : List ℝ) (os : List (Observables ℝ)) :
    (m.filledFlat vol times os).Laid vol (m.stepsFrom 0 times) := by
  constructor
  · simp [filledFlat, filled, Function.comp_def]
  · simp [filledFlat, filled, Function.comp_def]

theorem Flat.filledFlat (hflat : m.Flat vol) (times : List ℝ) (os : List (Observables ℝ)) :
    (m.filledFlat vol times os).Flat vol :=
  ⟨hflat.spots, hflat.times, hflat.logSpots, hflat.size, hflat.vols⟩

theorem stepsFrom_filledFlat (m : LocalVol ℝ ℝ) (vol previous : ℝ) (times : List ℝ) (os : List (Observables ℝ))
    (times' : List ℝ) : (m.filledFlat vol times os).stepsFrom previous times' = m.stepsFrom previous times' := by
  have hcut : (m.filledFlat vol times os).cut = m.cut := rfl
  exact stepsFrom_congr hcut previous times'

theorem fixtures_filledFlat (m : LocalVol ℝ ℝ) (vol : ℝ) (times : List ℝ) (os : List (Observables ℝ)) :
    (m.filledFlat vol times os).fixtures = (m.filledFlat vol times os).fixturesFrom 0 0 times os := by
  have hcut : (m.filledFlat vol times os).cut = m.cut := rfl
  rw [fixturesFrom_congr hcut, ← scalar_zero]
  rfl

theorem length_fixtures_filledFlat (m : LocalVol ℝ ℝ) (vol : ℝ) (h : os.length = times.length) :
    (m.filledFlat vol times os).fixtures.length = times.length := by
  rw [fixtures_filledFlat, length_fixturesFrom _ _ _ h]

theorem dimension_filledFlat (m : LocalVol ℝ ℝ) (vol : ℝ) (times : List ℝ) (os : List (Observables ℝ)) :
    (m.filledFlat vol times os).dimension = (m.stepsFrom 0 times).length := by
  rw [← scalar_zero, dimension, LocalVol.filledFlat, filled, List.size_toArray, List.length_map]

theorem Flat.generate_filledFlat (hflat : m.Flat vol) {driftRate : ℝ}
    (hrate : driftRate = m.rate - m.div - vol * vol * (1 / 2)) (hspot : 0 < m.spot)
    (hchain : ((0 : ℝ) :: times).IsChain (· ≤ ·)) (hos : os.length = times.length) (bs : BlackScholes ℝ)
    (hbs : bs.spot = m.spot) (hsteps : bs.steps = BlackScholes.exactSteps driftRate vol 0 times os)
    (hready : bs.isReady = true) {draws gapDraws : Array ℝ} {scenario : Scenario ℝ}
    (hdraws : (m.filledFlat vol times os).dimension ≤ draws.size) (hgapDraws : times.length ≤ gapDraws.size)
    (hscenario : scenario.size = times.length)
    (haggregated : Aggregated (m.filledFlat vol times os).reach draws.toList gapDraws.toList) :
    ∃ path : Scenario ℝ, ((m.filledFlat vol times os).generate draws scenario : Modelling ℝ Unit _) = pure path ∧
      (bs.generate gapDraws scenario : Modelling ℝ Unit _) = pure path := by
  have hdimension : bs.dimension = times.length := by
    rw [BlackScholes.dimension, hsteps, BlackScholes.length_exactSteps driftRate vol 0 hos]
  have hreach : ∀ j ≤ times.length, (m.filledFlat vol times os).reach j =
      0 + ((m.filledFlat vol times os).stepsFrom 0 (times.take j)).length := by
    intro j hj
    rw [stepsFrom_filledFlat, Nat.zero_add]
    exact m.reach_filled_real hos _ hj
  have hlaid := laid_filledFlat m vol times os
  have hsame : (m.stepsFrom 0 times).drop 0 = (m.filledFlat vol times os).stepsFrom 0 times :=
    (stepsFrom_filledFlat m vol 0 times os times).symm
  have hfollow := (hflat.filledFlat times os).follow_aggregates hlaid hrate
    (m.dimension_filledFlat vol times os ▸ hdraws) hchain hsame hreach haggregated hgapDraws hos hspot scenario.toList
  obtain ⟨samples, hsamples⟩ := exists_eq_pure (BlackScholes.follow m.spot
    ((BlackScholes.exactSteps driftRate vol 0 times os).zip gapDraws.toList) scenario.toList : StateM Unit _)
  rw [hsamples, record_pure] at hfollow
  have hlog : (Quantity.log m.spot : StateM Unit ℝ) = pure (Real.log m.spot) := rfl
  have hready' : (m.filledFlat vol times os).isReady = true := rfl
  have hspot' : (m.filledFlat vol times os).spot = m.spot := rfl
  have hfixtures := length_fixtures_filledFlat m vol hos
  refine ⟨samples.toArray, ?_, ?_⟩
  · rw [LocalVol.generate, hready', if_neg (by simp), if_neg (not_lt.2 hdraws), if_neg (by omega), hspot', hlog,
      fixtures_filledFlat, record_pure, pure_bind, hfollow, pure_bind]
  · rw [BlackScholes.generate, hready, if_neg (by simp), if_neg (by omega), if_neg (by omega), hsteps, hbs, hsamples,
      record_pure, pure_bind]

end Filled

end LocalVol

/-- A flat surface makes the paths of the model with its volatility. Both accept the same timelines, and when a draw
for a gap is the sum of the draws for the steps over it, divided by the root of their number, both models fill a
scenario with the same samples. -/
theorem LocalVol.flat_surface_aggregates {vol : ℝ} {bs : BlackScholes ℝ} {lv lv' : LocalVol ℝ ℝ} (hlv : lv.Accepted Unit)
    (hvols : ∀ v ∈ lv.vols, v = vol) (hbs : (bs.spot, bs.vol, bs.rate, bs.div) = (lv.spot, vol, lv.rate, lv.div))
    {times : List ℝ} {requests : List (Request ℝ)}
    (h : ((LocalVol.init times requests : Preparing ℝ Unit (LocalVol ℝ ℝ) Unit).run.run lv).run () =
      ((.ok (), lv'), ())) :
    ∃ bs', ((BlackScholes.init times requests : Preparing ℝ Unit (BlackScholes ℝ) Unit).run.run bs).run () =
        ((.ok (), bs'), ()) ∧ bs'.dimension = times.length ∧
      ∀ (draws gapDraws : Array ℝ) (scenario : Scenario ℝ), lv'.dimension ≤ draws.size → bs'.dimension ≤ gapDraws.size →
        scenario.size = times.length → Aggregated lv'.reach draws.toList gapDraws.toList →
          ∃ path : Scenario ℝ, (lv'.generate draws scenario : Modelling ℝ Unit _) = pure path ∧
            (bs'.generate gapDraws scenario : Modelling ℝ Unit _) = pure path := by
  simp only [Prod.mk.injEq] at hbs
  obtain ⟨hspot, rfl, hrate, hdiv⟩ := hbs
  have hflat := hlv.surface.flat hvols
  obtain ⟨hcount, hrefusal, -⟩ := exists_of_init_ok lv h
  obtain ⟨os, hos, hlength, hrun⟩ := hflat.run_init hcount (scalar_zero (R := ℝ) ▸ hrefusal)
  obtain rfl : lv.filledFlat bs.vol times os = lv' := by
    rw [hrun] at h
    exact congrArg (fun r => r.1.2) h
  obtain ⟨driftRate, hdrift⟩ : ∃ d, d = lv.rate - lv.div - bs.vol * bs.vol * (1 / 2) := ⟨_, rfl⟩
  let bs' : BlackScholes ℝ := { bs with steps := BlackScholes.exactSteps driftRate bs.vol 0 times os, isReady := true }
  have hinit : (BlackScholes.init times requests : Preparing ℝ Unit (BlackScholes ℝ) Unit).run.run bs =
      pure (.ok (), bs') := by
    have hrates : (bs.driftRates : StateM Unit (ℝ × ℝ)) = pure (lv.rate - lv.div, driftRate) := by
      rw [hdrift, ← ExactScalar.half_eq, ← hrate, ← hdiv]
      rfl
    have hsteps := bs.stepsFrom_eq hrate driftRate 0 hos
    rw [List.map_fst_zip (Nat.le_of_eq hcount), ← scalar_zero] at hsteps
    rw [bs.run_init_of_accepted hcount hrefusal, hrates, pure_bind]
    dsimp only
    rw [hsteps, pure_bind, scalar_zero]
  have hchain := isChain_of_accepted hcount (scalar_zero (R := ℝ) ▸ hrefusal)
  have hdimension : bs'.dimension = times.length := BlackScholes.length_exactSteps driftRate bs.vol 0 hlength
  refine ⟨bs', congrArg (fun a => a.run ()) hinit, hdimension, ?_⟩
  intro draws gapDraws scenario hdraws hgapDraws hscenario haggregated
  rw [hdimension] at hgapDraws
  exact hflat.generate_filledFlat hdrift hlv.spot_pos hchain hlength bs' hspot rfl rfl hdraws hgapDraws hscenario
    haggregated

theorem LocalVol.flat_surface_aggregates_quarterly : ∃ (lv lv' : LocalVol ℝ ℝ) (bs' : BlackScholes ℝ),
    (ofGrid (100 : ℝ) (3 / 100) (1 / 100) #[80, 125] #[0] #[1 / 4, 1 / 4] >>= fun m => m.withMaxStep (1 / 4)) = .ok lv ∧
      ((init [1] [⟨true, #[2], #[3]⟩] : Preparing ℝ Unit (LocalVol ℝ ℝ) Unit).run.run lv).run () = ((.ok (), lv'), ()) ∧
      ((BlackScholes.init [1] [⟨true, #[2], #[3]⟩] : Preparing ℝ Unit (BlackScholes ℝ) Unit).run.run
        ⟨100, 1 / 4, 3 / 100, 1 / 100, [], false⟩).run () = ((.ok (), bs'), ()) ∧
      ∃ path : Scenario ℝ,
        (lv'.generate #[2 / 5, 2 / 5, 2 / 5, 2 / 5] #[⟨0, 0, #[0], #[0]⟩] : Modelling ℝ Unit _) = pure path ∧
        (bs'.generate #[4 / 5] #[⟨0, 0, #[0], #[0]⟩] : Modelling ℝ Unit _) = pure path := by
  obtain ⟨lv, hlv⟩ : ∃ lv, (ofGrid (100 : ℝ) (3 / 100) (1 / 100) #[80, 125] #[0] #[1 / 4, 1 / 4] >>=
      fun m => m.withMaxStep (1 / 4)) = .ok lv := by
    have hgrid : (80 : ℝ) < 125 := by norm_num
    simp only [ofGrid, checkGrid, isIncreasing, withMaxStep, scalar_zero]
    simp [hgrid]
    exact ⟨_, rfl⟩
  have haccepted : lv.Accepted Unit := by
    obtain ⟨surface, hgrid, hmax⟩ := bind_eq_ok_iff.1 hlv
    exact (Made.withMaxStep (.ofGrid hgrid) hmax).accepted
  obtain ⟨hflat, -, -, hfields⟩ := flat_of_ofGrid hlv (by simp : ∀ v ∈ #[(1 / 4 : ℝ), 1 / 4], v = 1 / 4)
  simp only [Prod.mk.injEq] at hfields
  obtain ⟨hspot, hrate, hdiv, hmax⟩ := hfields
  have hrefusal : refusal 0 ([(1 : ℝ)].zip [⟨true, #[2], #[3]⟩]) = none := by
    simp only [List.zip_cons_cons, List.zip_nil_left, refusal, checkEvent, Request.validate]
    norm_num
  obtain ⟨os, hos, hlength, hrun⟩ := hflat.run_init rfl hrefusal
  have h := congrArg (fun a => a.run ()) hrun
  obtain ⟨bs', hinit, hdimension, hpaths⟩ := flat_surface_aggregates haccepted hflat.vols
    (by rw [hspot, hrate, hdiv] : ((⟨100, 1 / 4, 3 / 100, 1 / 100, [], false⟩ : BlackScholes ℝ).spot, _, _, _) = _) h
  -- the only gap is cut into four steps
  have hcount : lv.stepCount 1 = 4 := by
    rw [stepCount, hmax]
    change max 1 ⌈(1 : ℝ) / (1 / 4)⌉₊ = 4
    rw [show (1 : ℝ) / (1 / 4) = (4 : ℕ) by norm_num, Nat.ceil_natCast]
    rfl
  have hsteps : (lv.stepsFrom 0 [1]).length = 4 := by
    rw [stepsFrom, stepsFrom, List.append_nil, sub_zero, cut_eq_range lv 0 one_pos, List.length_map, List.length_range,
      hcount]
  have hreach {j : Nat} (hj : j ≤ 1) : (lv.filledFlat (1 / 4) [1] os).reach j = (lv.stepsFrom 0 ([1].take j)).length :=
    lv.reach_filled_real hlength _ hj
  refine ⟨lv, _, bs', hlv, h, hinit, hpaths _ _ _ ?_ hdimension.le rfl ?_⟩
  · exact (lv.dimension_filledFlat _ _ os).trans hsteps |>.le
  · intro j z hz _
    obtain ⟨rfl, rfl⟩ : j = 0 ∧ z = 4 / 5 := by
      cases j with
      | zero => exact ⟨rfl, (Option.some.inj hz).symm⟩
      | succ j => cases hz
    have hfirst : (lv.filledFlat (1 / 4) [1] os).reach 0 = 0 := hreach (Nat.zero_le 1)
    have hsecond : (lv.filledFlat (1 / 4) [1] os).reach (0 + 1) = 4 := (hreach le_rfl).trans hsteps
    simp only [hfirst, hsecond]
    have hroot : Real.sqrt ((4 - 0 : ℕ) : ℝ) = 2 := by
      rw [show ((4 - 0 : ℕ) : ℝ) = 2 * 2 by norm_num, Real.sqrt_mul_self zero_le_two]
    rw [hroot]
    norm_num

end PayoffPricing
