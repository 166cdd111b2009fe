import PayoffPricing.Proofs.Model.Grid
import PayoffPricing.Proofs.Model.Prototype
/-!
What a model holds after a timeline was prepared. A timeline is refused for its first event that is out of order or
asks for an earlier maturity; otherwise everything that is read along a path is made anew.
-/

namespace PayoffPricing

def refusal {R : Type} [Scalar R] (previous : R) : List (R × Request R) → Option (ModelError R)
  | [] => none
  | (time, request) :: events =>
    match checkEvent previous time request with
    | .error e => some e
    | .ok _ => refusal time events

open Modelling

namespace LocalVol

variable {R S T : Type} [Scalar R]

/-- The starts and the lengths of the steps over all gaps. -/
def stepsFrom (m : LocalVol R T) (previous : R) : List R → List (R × R)
  | [] => []
  | time :: times => m.cut previous (time - previous) ++ m.stepsFrom time times

/-- The fixtures for observables, when `k` steps are taken before the first gap. -/
def fixturesFrom (m : LocalVol R T) (k : Nat) (previous : R) : List R → List (Observables T) → List (Fixture T)
  | time :: times, o :: os =>
    ⟨k + (m.cut previous (time - previous)).length, o⟩ ::
      m.fixturesFrom (k + (m.cut previous (time - previous)).length) time times os
  | _, _ => []

theorem stepsFrom_congr {m m' : LocalVol R T} (h : m.cut = m'.cut) (previous : R) (times : List R) :
    m.stepsFrom previous times = m'.stepsFrom previous times := by
  induction times generalizing previous with
  | nil => rfl
  | cons time times ih => rw [stepsFrom, stepsFrom, h, ih]

theorem fixturesFrom_congr {m m' : LocalVol R T} (h : m.cut = m'.cut) (k : Nat) (previous : R) (times : List R)
    (os : List (Observables T)) : m.fixturesFrom k previous times os = m'.fixturesFrom k previous times os := by
  induction times generalizing k previous os with
  | nil => rfl
  | cons time times ih =>
    cases os with
    | nil => rfl
    | cons o os => rw [fixturesFrom, fixturesFrom, h, ih]

theorem stepsFrom_append (m : LocalVol R T) (previous : R) (times later : List R) :
    m.stepsFrom previous (times ++ later) =
      m.stepsFrom previous times ++ m.stepsFrom (times.getLastD previous) later := by
  induction times generalizing previous with
  | nil => rfl
  | cons time times ih => rw [List.cons_append, stepsFrom, stepsFrom, ih, List.append_assoc, List.getLastD_cons]

theorem steps_fixturesFrom (m : LocalVol R T) (k : Nat) (previous : R) {times : List R} {os : List (Observables T)}
    (h : os.length = times.length) : (m.fixturesFrom k previous times os).map Fixture.step =
      (List.range times.length).map fun j => k + (m.stepsFrom previous (times.take (j + 1))).length := by
  induction times generalizing k previous os with
  | nil => rfl
  | cons time times ih =>
    obtain ⟨o, os, rfl⟩ := List.exists_cons_of_length_eq_add_one h
    rw [fixturesFrom, List.map_cons, ih _ _ (Nat.succ.inj h), List.length_cons, List.range_succ_eq_map, List.map_cons,
      List.map_map]
    simp [stepsFrom, Function.comp_def, Nat.add_assoc]

theorem length_fixturesFrom (m : LocalVol R T) (k : Nat) (previous : R) {times : List R} {os : List (Observables T)}
    (h : os.length = times.length) : (m.fixturesFrom k previous times os).length = times.length := by
  have hsteps := congrArg List.length (m.steps_fixturesFrom k previous h)
  rw [List.length_map, List.length_map, List.length_range] at hsteps
  exact hsteps

def withRoom [Valued R T] (m : LocalVol R T) (times : List R) (requests : List (Request R)) : LocalVol R T :=
  if m.fixtures.length = times.length then m else m.allocate times requests

/-- The model with all that is prepared for a timeline. -/
def filled (m : LocalVol R T) (times : List R) (os : List (Observables T)) (rows : List (Array T × T)) : LocalVol R T :=
  { m with
    lengths := ((m.stepsFrom 0 times).map Prod.snd).toArray
    fixtures := m.fixturesFrom 0 0 times os
    deviations := (rows.map Prod.fst).toArray
    drifts := (rows.map Prod.snd).toArray
    isReady := true }

/-- How many steps are taken up to the first `j` events. -/
def reach (m : LocalVol R T) (j : Nat) : Nat := (0 :: m.fixtures.map Fixture.step).getD j 0

theorem reach_filled (m : LocalVol R T) {times : List R} {os : List (Observables T)} (h : os.length = times.length)
    (rows : List (Array T × T)) {j : Nat} (hj : j ≤ times.length) :
    (m.filled times os rows).reach j = (m.stepsFrom 0 (times.take j)).length := by
  rw [reach, filled, m.steps_fixturesFrom 0 0 h]
  cases j with
  | zero => rfl
  | succ j => simp [List.getD_eq_getElem?_getD, show j < times.length from hj]

section Room

variable [Valued R T] (m : LocalVol R T) {times : List R} {requests : List (Request R)}

theorem length_fixtures_withRoom (h : times.length = requests.length) :
    (m.withRoom times requests).fixtures.length = times.length := by
  unfold withRoom
  split
  · assumption
  · simp [allocate, h]

theorem stepsFrom_withRoom : (m.withRoom times requests).stepsFrom 0 times = m.stepsFrom 0 times := by
  have hcut : (m.allocate times requests).cut = m.cut := rfl
  unfold withRoom
  split
  · rfl
  · exact stepsFrom_congr hcut 0 times

theorem fixturesFrom_withRoom (os : List (Observables T)) :
    (m.withRoom times requests).fixturesFrom 0 0 times os = m.fixturesFrom 0 0 times os := by
  have hcut : (m.allocate times requests).cut = m.cut := rfl
  unfold withRoom
  split
  · rfl
  · exact fixturesFrom_congr hcut 0 0 times os

theorem filled_withRoom (os : List (Observables T)) (rows : List (Array T × T)) :
    (m.withRoom times requests).filled times os rows = m.filled times os rows := by
  unfold filled
  rw [stepsFrom_withRoom, fixturesFrom_withRoom]
  unfold withRoom
  split <;> rfl

end Room

/-- Tables of the sizes that the grid asks for. -/
structure Gridded (m : LocalVol R T) : Prop where
  spots : 0 < m.spots.size
  times : 0 < m.times.size
  logSpots : m.logSpots.size = m.spots.size
  vols : m.vols.size = m.spots.size * m.times.size

omit [Scalar R] in
theorem Gridded.size_row {m : LocalVol R T} (h : m.Gridded) {i : Nat} (hi : i < m.spots.size) :
    (m.row i).size = m.times.size := by
  have hle : (i + 1) * m.times.size ≤ m.vols.size := by
    rw [h.vols]
    exact Nat.mul_le_mul_right _ hi
  rw [row, Array.size_extract, Nat.min_eq_left hle, Nat.add_one_mul, Nat.add_sub_cancel_left]

/-- Models that come from checked parameters. -/
inductive Made : LocalVol R R → Prop
  | ofGrid {spot rate div : R} {spots times vols : Array R} {m : LocalVol R R}
      (h : LocalVol.ofGrid spot rate div spots times vols = .ok m) : Made m
  | withMaxStep {m m' : LocalVol R R} {maxStep : R} (hm : Made m) (h : m.withMaxStep maxStep = .ok m') : Made m'

structure Checked (m : LocalVol R R) : Prop where
  spot : m.spot > 0
  spots : checkGrid "spots" m.spots.toList (fun s => !decide (s ≤ 0)) .positiveIncreasing = .ok ()
  times : checkGrid "times" m.times.toList (fun t => !decide (t < 0)) .nonNegativeIncreasing = .ok ()
  vols : m.vols.size = m.spots.size * m.times.size
  logSpots : m.logSpots = m.spots.map Scalar.log
  maxStep : m.maxStep = defaultMaxStep ∨ m.maxStep > 0

theorem Made.checked {m : LocalVol R R} (h : Made m) : m.Checked := by
  induction h with
  | @ofGrid spot rate div spots times vols m h =>
    unfold LocalVol.ofGrid at h
    simp only [check_eq_ok_iff, bind_eq_ok_iff] at h
    obtain ⟨hspot, -, -, ⟨⟩, hspots, ⟨⟩, htimes, hsize, h⟩ := h
    simp only [Bool.not_eq_true', Bool.not_eq_false, Bool.and_eq_true, decide_eq_true_eq] at hspot
    split at h
    · cases h
    · cases h
      exact ⟨hspot.1, hspots, htimes, not_not.1 hsize, rfl, .inl rfl⟩
  | withMaxStep hm h ih =>
    unfold LocalVol.withMaxStep at h
    split at h
    · next hstep =>
      cases h
      rw [Bool.and_eq_true, decide_eq_true_eq] at hstep
      exact ⟨ih.spot, ih.spots, ih.times, ih.vols, ih.logSpots, .inr hstep.1⟩
    · cases h

theorem checkGrid_ne_nil {name : String} {grid : List R} {starts : R → Bool} {rule : ParameterRule} {u : Unit}
    (h : checkGrid name grid starts rule = .ok u) : grid ≠ [] := by
  rintro rfl
  cases h

theorem Made.gridded {m : LocalVol R R} (h : Made m) : m.Gridded where
  spots := List.length_pos_iff.2 (checkGrid_ne_nil h.checked.spots)
  times := List.length_pos_iff.2 (checkGrid_ne_nil h.checked.times)
  logSpots := by rw [h.checked.logSpots, Array.size_map]
  vols := h.checked.vols

theorem Made.gridded_lift {m : LocalVol R R} (h : Made m) (f : R → StateM S T) (s : S) :
    ((m.lift f).run s).1.Gridded := by
  have hsize : ((m.lift f).run s).1.vols.size = m.vols.size := by
    unfold lift
    rw [Array.mapM_eq_mapM_toList]
    exact List.size_toArray.trans (length_of_mapM f m.vols.toList _)
  exact ⟨h.gridded.spots, h.gridded.times, h.gridded.logSpots, hsize.trans h.gridded.vols⟩

variable [Quantity R S T]

def observe (m : LocalVol R T) (event : R × Request R) : StateM S (Observables T) := do
  let carry ← Quantity.sub m.rate m.div
  Observables.ofRates m.rate carry event.1 event.2

theorem prepare_eq_of_accepted (m : LocalVol R T) {previous : R} {events : List (R × Request R)}
    (h : refusal previous events = none) {fixtures : List (Fixture T)} (hlength : fixtures.length = events.length)
    (steps : List (R × R)) :
    (m.prepare previous steps events fixtures : StateM S _) = do
      let os ← events.mapM m.observe
      return (steps ++ m.stepsFrom previous (events.map Prod.fst),
        m.fixturesFrom steps.length previous (events.map Prod.fst) os, none) := by
  -- the steps of the gaps before are carried along, and shift the counts of the fixtures
  induction events generalizing previous steps fixtures with
  | nil =>
    obtain rfl := List.length_eq_zero_iff.1 hlength
    simp [prepare, stepsFrom, fixturesFrom]
  | cons event events ih =>
    obtain ⟨time, request⟩ := event
    obtain ⟨old, fixtures, rfl⟩ := List.exists_cons_of_length_eq_add_one hlength
    cases hcheck : checkEvent previous time request with
    | error e => simp [refusal, hcheck] at h
    | ok _ =>
      simp only [refusal, hcheck] at h
      simp only [prepare, hcheck, ih h (Nat.succ.inj hlength), List.mapM_cons, observe, bind_assoc, pure_bind,
        List.map_cons, stepsFrom, fixturesFrom, List.append_assoc, List.length_append]

/-- A preparation stops at the first event that is refused, and leaves as many fixtures as there were. -/
theorem stop_prepare (m : LocalVol R T) (previous : R) (steps : List (R × R)) (events : List (R × Request R))
    {fixtures : List (Fixture T)} (hlength : fixtures.length = events.length) (s : S) :
    ((m.prepare previous steps events fixtures).run s).1.2.2 = refusal previous events ∧
      ((m.prepare previous steps events fixtures).run s).1.2.1.length = fixtures.length := by
  induction events generalizing previous steps fixtures s with
  | nil =>
    obtain rfl := List.length_eq_zero_iff.1 hlength
    exact ⟨rfl, rfl⟩
  | cons event events ih =>
    obtain ⟨time, request⟩ := event
    obtain ⟨old, fixtures, rfl⟩ := List.exists_cons_of_length_eq_add_one hlength
    cases hcheck : checkEvent previous time request with
    | error e =>
      simp only [prepare, refusal, hcheck]
      exact ⟨rfl, rfl⟩
    | ok _ =>
      simp only [prepare, refusal, hcheck]
      obtain ⟨hstop, hfixtures⟩ := ih time (steps ++ m.cut previous (time - previous)) (Nat.succ.inj hlength)
        ((m.observe (time, request) : StateM S (Observables T)).run s).2
      exact ⟨hstop, congrArg (· + 1) hfixtures⟩

/-- Every step has its own row of deviations, one for each spot of the grid. -/
theorem forall₂_of_perStep_ok {m : LocalVol R T} {steps : List (R × R)} {rows : List (Array T × T)} {s t : S}
    (h : (m.perStep steps : Modelling R S _).run.run s = (.ok rows, t)) :
    List.Forall₂ (fun step row => ∃ s t,
      (m.stepDeviations step.1 step.2 : Modelling R S _).run.run s = (.ok row.1, t)) steps rows := by
  apply (Modelling.forall₂_of_mapM_ok h).imp
  rintro ⟨start, length⟩ row ⟨s, t, hrow⟩
  obtain ⟨deviations, u, hdeviations, hrow⟩ := Modelling.exists_of_bind_ok hrow
  obtain ⟨drift, v, -, hrow⟩ := Modelling.exists_of_bind_ok hrow
  cases hrow
  exact ⟨s, u, hdeviations⟩

theorem size_of_stepDeviations_ok {m : LocalVol R T} {start length : R} {deviations : Array T} {s t : S}
    (h : (m.stepDeviations start length : Modelling R S _).run.run s = (.ok deviations, t)) :
    deviations.size = m.spots.size := by
  obtain ⟨column, u, hcolumn, h⟩ := Modelling.exists_of_bind_ok h
  cases h
  rw [List.size_toArray, ← (Modelling.forall₂_of_mapM_ok hcolumn).length_eq, List.length_range]

theorem size_of_perStep_ok {m : LocalVol R T} {steps : List (R × R)} {rows : List (Array T × T)} {s t : S}
    (h : (m.perStep steps : Modelling R S _).run.run s = (.ok rows, t)) :
    rows.length = steps.length ∧ ∀ row ∈ rows, row.1.size = m.spots.size := by
  have hall := forall₂_of_perStep_ok h
  refine ⟨hall.length_eq.symm, ?_⟩
  intro row hrow
  obtain ⟨k, hk, rfl⟩ := List.getElem_of_mem hrow
  obtain ⟨u, v, hdeviations⟩ := hall.get (hall.length_eq.symm ▸ hk) hk
  exact size_of_stepDeviations_ok hdeviations

theorem Gridded.gives_perStep {m : LocalVol R T} (h : m.Gridded) (htotal : ∀ a b : R, a ≤ b ∨ b ≤ a)
    (steps : List (R × R)) : Gives (m.perStep steps : Modelling R S _) fun _ => True := by
  have hstep (step : R × R) : Gives (m.stepDeviations step.1 step.2 : Modelling R S _) fun _ => True := by
    have hspot (i : Nat) (hi : i ∈ List.range m.spots.size) : Gives (do
        let vol ← interpolate m.times (m.row i) (Valued.constant step.1)
        Modelling.record (Quantity.mulScalar vol (Scalar.sqrt step.2)) : Modelling R S T) fun _ => True := by
      apply (gives_interpolate h.times (h.size_row (List.mem_range.1 hi)) (htotal _ _)).bind
      intro vol _
      exact gives_record fun _ => trivial
    apply (gives_mapM hspot).bind
    intro column _
    exact gives_pure trivial
  have hrow (step : R × R) (_ : step ∈ steps) : Gives (do
      let deviations ← m.stepDeviations step.1 step.2
      return (deviations, ← m.stepDrift step.2) : Modelling R S (Array T × T)) fun _ => True := by
    apply (hstep step).bind
    intro deviations _
    apply (gives_record (P := fun _ => True) fun _ => trivial).bind
    intro drift _
    exact gives_pure trivial
  exact (gives_mapM hrow).imp fun _ _ => trivial

section Init

variable (m : LocalVol R T) {times : List R} {requests : List (Request R)}

theorem observe_withRoom : ((m.withRoom times requests).observe : _ → StateM S (Observables T)) = m.observe := by
  unfold withRoom
  split <;> rfl

theorem perStep_withRoom (steps : List (R × R)) :
    ((m.withRoom times requests).perStep steps : Modelling R S _) = m.perStep steps := by
  unfold withRoom
  split <;> rfl

theorem run_init_of_counts (h : times.length ≠ requests.length) :
    (init times requests : Preparing R S (LocalVol R T) Unit).run.run m =
      pure (.error (.error (.requestCount times.length requests.length)), m) := by
  unfold init
  simp only [h, ne_eq, not_false_eq_true, ↓reduceIte]
  rfl

theorem run_init_withRoom (h : times.length = requests.length) :
    (init times requests : Preparing R S (LocalVol R T) Unit).run.run (m.withRoom times requests) =
      (init times requests : Preparing R S (LocalVol R T) Unit).run.run m := by
  by_cases hroom : m.fixtures.length = times.length
  · rw [withRoom, if_pos hroom]
  · have hallocated : (m.allocate times requests).fixtures.length = times.length := by simp [allocate, h]
    rw [withRoom, if_neg hroom]
    unfold init
    simp only [h, ne_eq, not_true_eq_false, ↓reduceIte]
    rw [run_run_bind, run_run_bind (v := m), run_run_get, run_run_get, pure_bind, pure_bind]
    rw [h] at hroom hallocated
    simp only [hallocated, hroom, not_true_eq_false, not_false_eq_true, ↓reduceIte]
    conv_rhs => rw [run_run_bind, run_run_modify, pure_bind]

theorem run_init_of_accepted (hcount : times.length = requests.length) (h : refusal 0 (times.zip requests) = none) :
    (init times requests : Preparing R S (LocalVol R T) Unit).run.run m = (do
      let os ← (times.zip requests).mapM m.observe
      match ← (m.perStep (m.stepsFrom 0 times)).run with
      | .error e => return (.error e, { m.withRoom times requests with
          lengths := ((m.stepsFrom 0 times).map Prod.snd).toArray
          fixtures := m.fixturesFrom 0 0 times os })
      | .ok rows => return (.ok (), m.filled times os rows)) := by
  have hroom := m.length_fixtures_withRoom hcount
  have hevents : (m.withRoom times requests).fixtures.length = (times.zip requests).length := by
    rw [hroom, List.length_zip, ← hcount, Nat.min_self]
  have htimes : (times.zip requests).map Prod.fst = times := List.map_fst_zip (Nat.le_of_eq hcount)
  rw [← run_init_withRoom m hcount, run_init _ hcount hroom, prepare_eq_of_accepted _ h hevents, observe_withRoom,
    htimes, bind_assoc]
  refine congrArg _ (funext fun os => ?_)
  rw [pure_bind, List.nil_append, List.length_nil, stepsFrom_withRoom, fixturesFrom_withRoom]
  change ((m.withRoom times requests).perStep (m.stepsFrom 0 times)).run >>= _ = _
  rw [perStep_withRoom]
  refine congrArg _ (funext fun r => ?_)
  cases r with
  | error e => rfl
  | ok rows =>
    have hfilled : (m.withRoom times requests).filled times os rows = m.filled times os rows :=
      m.filled_withRoom os rows
    conv_lhs at hfilled => unfold filled
    rw [stepsFrom_withRoom, fixturesFrom_withRoom] at hfilled
    exact congrArg (fun m => (pure (Except.ok (), m) : StateM S _)) hfilled

theorem run_run_init_of_accepted (hcount : times.length = requests.length) (h : refusal 0 (times.zip requests) = none)
    (s : S) : ∃ os t, os.length = times.length ∧
      ((times.zip requests).mapM (m.observe : _ → StateM S _)).run s = (os, t) ∧
      ((init times requests : Preparing R S (LocalVol R T) Unit).run.run m).run s =
        match (m.perStep (m.stepsFrom 0 times) : Modelling R S _).run.run t with
        | (.error e, u) => ((.error e, { m.withRoom times requests with
            lengths := ((m.stepsFrom 0 times).map Prod.snd).toArray
            fixtures := m.fixturesFrom 0 0 times os }), u)
        | (.ok rows, u) => ((.ok (), m.filled times os rows), u) := by
  obtain ⟨os, t, hos⟩ : ∃ os t, ((times.zip requests).mapM m.observe : StateM S _).run s = (os, t) := ⟨_, _, rfl⟩
  have hlength := length_of_mapM m.observe (times.zip requests) s
  rw [hos, List.length_zip, ← hcount, Nat.min_self] at hlength
  refine ⟨os, t, hlength, hos, ?_⟩
  rw [m.run_init_of_accepted hcount h, StateT.run_bind, hos]
  change StateT.run ((m.perStep (m.stepsFrom 0 times) : Modelling R S _).run >>= _) t = _
  rw [StateT.run_bind]
  generalize (m.perStep (m.stepsFrom 0 times) : Modelling R S _).run.run t = r
  rcases r with ⟨_ | _, _⟩ <;> rfl

theorem run_init_of_refused (hcount : times.length = requests.length) {e : ModelError R}
    (h : refusal 0 (times.zip requests) = some e) (s : S) : ∃ lengths fixtures t,
      ((init times requests : Preparing R S (LocalVol R T) Unit).run.run m).run s = ((.error (.error e),
        { m.withRoom times requests with lengths := lengths, fixtures := fixtures }), t) ∧
      fixtures.length = times.length := by
  have hroom := m.length_fixtures_withRoom hcount
  have hevents : (m.withRoom times requests).fixtures.length = (times.zip requests).length := by
    rw [hroom, List.length_zip, ← hcount, Nat.min_self]
  obtain ⟨hstop, hlength⟩ := (m.withRoom times requests).stop_prepare 0 [] (times.zip requests) hevents s
  rw [← run_init_withRoom m hcount, run_init _ hcount hroom, StateT.run_bind]
  generalize ((m.withRoom times requests).prepare 0 [] (times.zip requests) (m.withRoom times requests).fixtures
    : StateM S _).run s = r at hstop hlength
  obtain ⟨⟨steps, fixtures, stop⟩, t⟩ := r
  obtain rfl : stop = some e := hstop.trans h
  exact ⟨_, fixtures, t, rfl, hlength.trans hroom⟩

/-- An accepted timeline has as many times as requests, none of its events is refused, and all that is prepared for
it follows from the parameters. -/
theorem exists_of_init_ok {s s' : S} {m' : LocalVol R T}
    (h : ((init times requests : Preparing R S (LocalVol R T) Unit).run.run m).run s = ((.ok (), m'), s')) :
    times.length = requests.length ∧ refusal 0 (times.zip requests) = none ∧ ∃ os t rows, os.length = times.length ∧
      ((times.zip requests).mapM (m.observe : _ → StateM S _)).run s = (os, t) ∧
      (m.perStep (m.stepsFrom 0 times) : Modelling R S _).run.run t = (.ok rows, s') ∧
      m' = m.filled times os rows := by
  by_cases hcount : times.length = requests.length
  · cases hrefusal : refusal 0 (times.zip requests) with
    | some e =>
      obtain ⟨_, _, t, hrun, -⟩ := m.run_init_of_refused (S := S) hcount hrefusal s
      rw [hrun] at h
      cases h
    | none =>
      refine ⟨hcount, rfl, ?_⟩
      obtain ⟨os, t, hlength, hos, hrun⟩ := m.run_run_init_of_accepted hcount hrefusal s
      rw [hrun] at h
      generalize hrows : (m.perStep (m.stepsFrom 0 times) : Modelling R S _).run.run t = r at h
      obtain ⟨_ | rows, u⟩ := r
      · cases h
      · cases h
        exact ⟨os, t, rows, hlength, hos, hrows, rfl⟩
  · rw [m.run_init_of_counts hcount] at h
    cases h

theorem Gridded.exists_init_ok {m : LocalVol R T} (h : m.Gridded) (htotal : ∀ a b : R, a ≤ b ∨ b ≤ a)
    (hcount : times.length = requests.length) (hrefusal : refusal 0 (times.zip requests) = none) (s : S) :
    ∃ m' s', ((init times requests : Preparing R S (LocalVol R T) Unit).run.run m).run s = ((.ok (), m'), s') := by
  obtain ⟨os, t, -, -, hrun⟩ := m.run_run_init_of_accepted hcount hrefusal s
  obtain ⟨rows, u, hrows, -⟩ := h.gives_perStep htotal (m.stepsFrom 0 times) t
  rw [hrows] at hrun
  exact ⟨_, u, hrun⟩

/-- A refused timeline leaves a model that has room for it, or the model as it was. -/
theorem exists_of_init_error {s s' : S} {m' : LocalVol R T} {e : Fault (ModelError R)}
    (h : ((init times requests : Preparing R S (LocalVol R T) Unit).run.run m).run s = ((.error e, m'), s')) :
    (times.length ≠ requests.length ∧ m' = m) ∨ (times.length = requests.length ∧ ∃ lengths fixtures,
      m' = { m.withRoom times requests with lengths := lengths, fixtures := fixtures }) := by
  by_cases hcount : times.length = requests.length
  · refine .inr ⟨hcount, ?_⟩
    cases hrefusal : refusal 0 (times.zip requests) with
    | some e =>
      obtain ⟨lengths, fixtures, t, hrun, -⟩ := m.run_init_of_refused hcount hrefusal s
      rw [hrun] at h
      cases h
      exact ⟨lengths, fixtures, rfl⟩
    | none =>
      obtain ⟨os, t, -, -, hrun⟩ := m.run_run_init_of_accepted hcount hrefusal s
      rw [hrun] at h
      generalize (m.perStep (m.stepsFrom 0 times) : Modelling R S _).run.run t = r at h
      obtain ⟨_ | rows, u⟩ := r
      · cases h
        exact ⟨_, _, rfl⟩
      · cases h
  · rw [m.run_init_of_counts hcount] at h
    cases h
    exact .inl ⟨hcount, rfl⟩

end Init

end LocalVol

namespace BlackScholes

variable {R S T : Type} [Scalar R]

def withRoom [Valued R T] (m : BlackScholes T) (times : List R) (requests : List (Request R)) : BlackScholes T :=
  if m.steps.length = times.length then m else m.allocate times requests

theorem length_steps_withRoom [Valued R T] (m : BlackScholes T) {times : List R} {requests : List (Request R)}
    (h : times.length = requests.length) : (m.withRoom times requests).steps.length = times.length := by
  unfold withRoom
  split
  · assumption
  · simp [allocate, h]

variable [Quantity R S T]

def stepsFrom (m : BlackScholes T) (carry driftRate : T) (previous : R) :
    List (R × Request R) → StateM S (List (Step T))
  | [] => return []
  | (time, request) :: events => do
    let new ← m.step carry driftRate (time - previous) time request
    return new :: (← stepsFrom m carry driftRate time events)

theorem stepsFrom_congr {m m' : BlackScholes T} (h : (m.vol, m.rate) = (m'.vol, m'.rate)) (carry driftRate : T)
    (previous : R) (events : List (R × Request R)) :
    (m.stepsFrom carry driftRate previous events : StateM S _) = m'.stepsFrom carry driftRate previous events := by
  rw [Prod.mk.injEq] at h
  induction events generalizing previous with
  | nil => rfl
  | cons event events ih =>
    obtain ⟨time, request⟩ := event
    rw [stepsFrom, stepsFrom, ih, step, step, h.1, h.2]

theorem prepare_eq_of_accepted (m : BlackScholes T) (carry driftRate : T) {previous : R} {events : List (R × Request R)}
    (h : refusal previous events = none) {steps : List (Step T)} (hlength : steps.length = events.length) :
    (m.prepare carry driftRate previous events steps : StateM S _) = do
      let steps ← m.stepsFrom carry driftRate previous events
      return (steps, none) := by
  induction events generalizing previous steps with
  | nil =>
    obtain rfl := List.length_eq_zero_iff.1 hlength
    rfl
  | cons event events ih =>
    obtain ⟨time, request⟩ := event
    obtain ⟨old, steps, rfl⟩ := List.exists_cons_of_length_eq_add_one hlength
    cases hcheck : checkEvent previous time request with
    | error e => simp [refusal, hcheck] at h
    | ok _ =>
      simp only [refusal, hcheck] at h
      simp only [prepare, hcheck, stepsFrom, ih h (Nat.succ.inj hlength), bind_assoc, pure_bind]

theorem stop_prepare (m : BlackScholes T) (carry driftRate : T) (previous : R) (events : List (R × Request R))
    {steps : List (Step T)} (hlength : steps.length = events.length) (s : S) :
    ((m.prepare carry driftRate previous events steps).run s).1.2 = refusal previous events := by
  induction events generalizing previous steps s with
  | nil =>
    obtain rfl := List.length_eq_zero_iff.1 hlength
    rfl
  | cons event events ih =>
    obtain ⟨time, request⟩ := event
    obtain ⟨old, steps, rfl⟩ := List.exists_cons_of_length_eq_add_one hlength
    cases hcheck : checkEvent previous time request with
    | error e =>
      simp only [prepare, refusal, hcheck]
      rfl
    | ok _ =>
      simp only [prepare, refusal, hcheck]
      exact ih time (Nat.succ.inj hlength) ((m.step carry driftRate (time - previous) time request : StateM S _).run s).2

/-- A preparation that is refused at its first event changes nothing. -/
theorem steps_prepare_of_first (m : BlackScholes T) (carry driftRate : T) (previous : R) (events : List (R × Request R))
    (h : refusal previous (events.take 1) ≠ none) (steps : List (Step T)) (s : S) :
    ((m.prepare carry driftRate previous events steps).run s).1.1 = steps := by
  cases events with
  | nil => exact absurd rfl h
  | cons event events =>
    obtain ⟨time, request⟩ := event
    cases steps with
    | nil => rfl
    | cons old steps =>
      cases hcheck : checkEvent previous time request with
      | error e =>
        simp only [prepare, hcheck]
        rfl
      | ok _ => simp [refusal, hcheck] at h

section Init

variable (m : BlackScholes T) {times : List R} {requests : List (Request R)}

theorem run_init_of_counts (h : times.length ≠ requests.length) :
    (init times requests : Preparing R S (BlackScholes T) Unit).run.run m =
      pure (.error (.error (.requestCount times.length requests.length)), m) := by
  unfold init
  simp only [h, ne_eq, not_false_eq_true, ↓reduceIte]
  rfl

theorem run_init_withRoom (h : times.length = requests.length) :
    (init times requests : Preparing R S (BlackScholes T) Unit).run.run (m.withRoom times requests) =
      (init times requests : Preparing R S (BlackScholes T) Unit).run.run m := by
  by_cases hroom : m.steps.length = times.length
  · rw [withRoom, if_pos hroom]
  · have hallocated : (m.allocate times requests).steps.length = times.length := by simp [allocate, h]
    rw [withRoom, if_neg hroom]
    unfold init
    simp only [h, ne_eq, not_true_eq_false, ↓reduceIte]
    rw [run_run_bind, run_run_bind (v := m), run_run_get, run_run_get, pure_bind, pure_bind]
    rw [h] at hroom hallocated
    simp only [hallocated, hroom, not_true_eq_false, not_false_eq_true, ↓reduceIte]
    conv_rhs => rw [run_run_bind, run_run_modify, pure_bind]

theorem run_init_of_accepted (hcount : times.length = requests.length) (h : refusal 0 (times.zip requests) = none) :
    (init times requests : Preparing R S (BlackScholes T) Unit).run.run m = (do
      let (carry, driftRate) ← m.driftRates
      let steps ← m.stepsFrom carry driftRate 0 (times.zip requests)
      return (.ok (), { m with steps := steps, isReady := true })) := by
  have hroom := m.length_steps_withRoom hcount
  have hevents : (m.withRoom times requests).steps.length = (times.zip requests).length := by
    rw [hroom, List.length_zip, ← hcount, Nat.min_self]
  have hparameters : ((m.withRoom times requests).driftRates : StateM S _) = m.driftRates := by
    unfold withRoom
    split <;> rfl
  have hstepsFrom (carry driftRate : T) :
      ((m.withRoom times requests).stepsFrom carry driftRate 0 (times.zip requests) : StateM S _) =
        m.stepsFrom carry driftRate 0 (times.zip requests) := by
    apply stepsFrom_congr
    unfold withRoom
    split <;> rfl
  have hready (steps : List (Step T)) :
      { m.withRoom times requests with steps := steps, isReady := true } =
        { m with steps := steps, isReady := true } := by
    unfold withRoom
    split <;> rfl
  rw [← run_init_withRoom m hcount, run_init _ hcount hroom, hparameters]
  refine congrArg _ (funext fun rates => ?_)
  obtain ⟨carry, driftRate⟩ := rates
  dsimp only
  rw [prepare_eq_of_accepted _ carry driftRate h hevents, bind_assoc, hstepsFrom]
  refine congrArg _ (funext fun steps => ?_)
  exact congrArg (fun m => (pure (Except.ok (), m) : StateM S _)) (hready steps)

/-- A timeline is refused when one of its events is; a refusal at the first event leaves the steps alone. -/
theorem run_run_init (hcount : times.length = requests.length) (s : S) : ∃ steps t,
    ((init times requests : Preparing R S (BlackScholes T) Unit).run.run m).run s =
      (match refusal 0 (times.zip requests) with
        | some e => (.error (.error e), { m.withRoom times requests with steps := steps })
        | none => (.ok (), { m.withRoom times requests with steps := steps, isReady := true }), t) ∧
    (refusal 0 ((times.zip requests).take 1) ≠ none → steps = (m.withRoom times requests).steps) := by
  have hroom := m.length_steps_withRoom hcount
  have hevents : (m.withRoom times requests).steps.length = (times.zip requests).length := by
    rw [hroom, List.length_zip, ← hcount, Nat.min_self]
  rw [← run_init_withRoom m hcount, run_init _ hcount hroom, StateT.run_bind]
  generalize ((m.withRoom times requests).driftRates : StateM S (T × T)).run s = rates
  obtain ⟨⟨carry, driftRate⟩, u⟩ := rates
  have hstop := (m.withRoom times requests).stop_prepare carry driftRate 0 (times.zip requests) hevents u
  obtain ⟨steps, stop, t, hrun⟩ : ∃ steps stop t, ((m.withRoom times requests).prepare carry driftRate 0
    (times.zip requests) (m.withRoom times requests).steps : StateM S _).run u = ((steps, stop), t) := ⟨_, _, _, rfl⟩
  rw [hrun] at hstop
  refine ⟨steps, t, ?_, ?_⟩
  · change StateT.run ((m.withRoom times requests).prepare carry driftRate 0 (times.zip requests)
      (m.withRoom times requests).steps >>= _) u = _
    rw [StateT.run_bind, hrun, ← hstop]
    cases stop <;> rfl
  · intro h
    have hsteps := (m.withRoom times requests).steps_prepare_of_first carry driftRate 0 _ h
      (m.withRoom times requests).steps u
    rw [hrun] at hsteps
    exact hsteps

end Init

end BlackScholes

end PayoffPricing
