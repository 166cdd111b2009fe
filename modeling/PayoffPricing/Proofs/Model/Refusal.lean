import PayoffPricing.Model.Basic
import PayoffPricing.Proofs.Model.BlackScholes
import PayoffPricing.Proofs.Model.Preparation
/-!
What a refused timeline leaves of a model. A refusal is harmless unless it finds the model ready, for as many events:
then the room is not made afresh, and what was prepared before the refused event takes the place of what was there.
-/

namespace PayoffPricing

open Modelling

variable {R S T : Type} [Scalar R]

namespace LocalVol

/-- Tables that belong together. -/
structure Consistent (m : LocalVol R T) : Prop where
  grid : m.Gridded
  deviations : m.deviations.size = m.dimension
  drifts : m.drifts.size = m.dimension
  rows : ∀ row ∈ m.deviations, row.size = m.spots.size
  steps : ∀ fixture ∈ m.fixtures, fixture.step ≤ m.dimension

theorem step_le_of_mem (m : LocalVol R T) {k : Nat} {previous : R} {times : List R} {os : List (Observables T)}
    {fixture : Fixture T} (h : fixture ∈ m.fixturesFrom k previous times os) :
    fixture.step ≤ k + (m.stepsFrom previous times).length := by
  induction times generalizing k previous os with
  | nil => cases h
  | cons time times ih =>
    cases os with
    | nil => cases h
    | cons o os =>
      rw [stepsFrom, List.length_append]
      rcases List.mem_cons.1 h with rfl | h
      · exact Nat.add_le_add_left (Nat.le_add_right _ _) k
      · have hlater := ih h
        omega

variable [Quantity R S T]

theorem consistent_of_init_ok {m m' : LocalVol R T} (hgrid : m.Gridded) {times : List R} {requests : List (Request R)}
    {s s' : S} (h : ((init times requests : Preparing R S (LocalVol R T) Unit).run.run m).run s = ((.ok (), m'), s')) :
    m'.Consistent := by
  obtain ⟨-, -, os, t, rows, -, -, hrows, rfl⟩ := exists_of_init_ok m h
  obtain ⟨hlength, hsizes⟩ := size_of_perStep_ok hrows
  have hdimension : (m.filled times os rows).dimension = (m.stepsFrom 0 times).length := by
    rw [dimension, filled, List.size_toArray, List.length_map]
  constructor
  case grid => exact ⟨hgrid.spots, hgrid.times, hgrid.logSpots, hgrid.vols⟩
  case deviations => rw [hdimension, ← hlength, filled, List.size_toArray, List.length_map]
  case drifts => rw [hdimension, ← hlength, filled, List.size_toArray, List.length_map]
  case rows =>
    intro row hrow
    obtain ⟨r, hr, rfl⟩ := List.mem_map.1 (List.mem_toArray.1 hrow)
    exact hsizes r hr
  case steps =>
    intro fixture hfixture
    have hle := m.step_le_of_mem hfixture
    rw [hdimension]
    omega

/-- A number that can be compared with the grid of spots. -/
def Placed (m : LocalVol R T) (v : R) : Prop := ∀ first ∈ m.logSpots[0]?, v ≤ first ∨ first ≤ v

/-- Draws that keep the logarithm of the spot among the numbers that can be compared with the grid. -/
structure Steady (S : Type) [Quantity R S T] (m : LocalVol R T) (draws : Array R) : Prop where
  start : ∀ s, m.Placed (Valued.value ((Quantity.log m.spot : StateM S T).run s).1)
  move : ∀ {k : Nat} {x y : T} {s t : S}, m.Placed (Valued.value x) →
    (m.move draws x k : Modelling R S T).run.run s = (.ok y, t) → m.Placed (Valued.value y)

/-- All draws are steady where any two numbers can be compared. -/
theorem steady_of_total (htotal : ∀ a b : R, a ≤ b ∨ b ≤ a) (m : LocalVol R T) (draws : Array R) : m.Steady S draws :=
  ⟨fun _ _ _ => htotal _ _, fun _ _ _ _ => htotal _ _⟩

theorem Consistent.ends_move {m : LocalVol R T} (h : m.Consistent) {draws : Array R} (hdraws : m.dimension ≤ draws.size)
    {k : Nat} (hk : k < m.dimension) (x : T) :
    Ends (Located m.logSpots (Valued.value x)) (m.move draws x k : Modelling R S T) fun _ => True := by
  have hdeviations : k < m.deviations.size := h.deviations.symm ▸ hk
  have hdrifts : k < m.drifts.size := h.drifts.symm ▸ hk
  have hsize : m.deviations[k].size = m.logSpots.size := by rw [h.grid.logSpots, h.rows _ (Array.getElem_mem _)]
  have hpos : 0 < m.logSpots.size := h.grid.logSpots.symm ▸ h.grid.spots
  apply (gives_read (P := fun row => row.size = m.logSpots.size) (Array.getElem?_eq_getElem hdeviations) hsize).bind_ends
  intro row hrow
  apply (ends_interpolate hpos hrow x).bind_gives
  intro vol _
  apply (gives_read (P := fun _ => True) (Array.getElem?_eq_getElem hdrifts) trivial).bind
  intro drift _
  apply (gives_read (P := fun _ => True) (Array.getElem?_eq_getElem (hk.trans_le hdraws)) trivial).bind
  intro z _
  exact gives_record fun _ => trivial

theorem Consistent.gives_move {m : LocalVol R T} (h : m.Consistent) {draws : Array R} (hsteady : m.Steady S draws)
    {k : Nat} (hk : k < m.dimension) (hdraws : m.dimension ≤ draws.size) {x : T} (hx : m.Placed (Valued.value x)) :
    Gives (m.move draws x k : Modelling R S T) fun y => m.Placed (Valued.value y) := by
  have hpos : 0 < m.logSpots.size := h.grid.logSpots.symm ▸ h.grid.spots
  have hfirst : m.logSpots[0]? = some m.logSpots[0] := Array.getElem?_eq_getElem hpos
  have hlocated : Located m.logSpots (Valued.value x) := .inl ⟨m.logSpots[0], hfirst, hx _ hfirst⟩
  intro s
  obtain ⟨y, t, hrun, -⟩ := (h.ends_move (S := S) hdraws hk x).gives hlocated s
  exact ⟨y, t, hrun, hsteady.move hx hrun⟩

theorem Consistent.gives_follow {m : LocalVol R T} (h : m.Consistent) {draws : Array R} (hsteady : m.Steady S draws)
    (hdraws : m.dimension ≤ draws.size) {x : T} (hx : m.Placed (Valued.value x)) (k : Nat) {fixtures : List (Fixture T)}
    (hfixtures : ∀ fixture ∈ fixtures, fixture.step ≤ m.dimension) (samples : List (Sample T)) :
    Gives (m.follow draws x k fixtures samples : Modelling R S _) fun _ => True := by
  -- the steps up to a fixture are inside of the tables, and keep the logarithm of the spot comparable
  induction fixtures generalizing x k samples with
  | nil => exact gives_pure trivial
  | cons fixture fixtures ih =>
    cases samples with
    | nil => exact gives_pure trivial
    | cons sample samples =>
      obtain ⟨hfixture, hfixtures⟩ := List.forall_mem_cons.1 hfixtures
      have hmoves (i : Nat) (hi : i ∈ List.range' k (fixture.step - k)) (x : T) (hx : m.Placed (Valued.value x)) :
          Gives (m.move draws x i : Modelling R S T) fun y => m.Placed (Valued.value y) := by
        have hlt := List.mem_range'_1.1 hi
        exact h.gives_move hsteady (by omega) hdraws hx
      apply (gives_foldlM hmoves hx).bind
      intro y hy
      apply (gives_record (P := fun _ => True) fun _ => trivial).bind
      intro spot _
      apply (gives_record (P := fun _ => True) fun _ => trivial).bind
      intro sample _
      apply (ih hy (max k fixture.step) hfixtures samples).bind
      intro rest _
      exact gives_pure trivial

end LocalVol

namespace Model

def isReady : Model R T → Bool
  | blackScholes m => m.isReady
  | localVol m => m.isReady

/-- Models with quantities for checked parameters, before any call. -/
inductive Fresh (S : Type) : Model R T → Prop
  | blackScholes {spot vol rate div : R} {made : BlackScholes R}
      (h : BlackScholes.ofParameters spot vol rate div = .ok made) (f : R → StateM S T) (s : S) :
      Fresh S (.blackScholes ((made.lift f).run s).1)
  | localVol {made : LocalVol R R} (h : LocalVol.Made made) (f : R → StateM S T) (s : S) :
      Fresh S (.localVol ((made.lift f).run s).1)

/-- A refused timeline takes the place of one for as many events that is still in use: the steps of one model are
overwritten up to the refused event, the lengths of the steps of the other one at once. -/
def Spoils (times : List R) (requests : List (Request R)) : Model R T → Prop
  | blackScholes m => m.isReady = true ∧ m.steps.length = times.length ∧ times.length = requests.length ∧
      refusal 0 ((times.zip requests).take 1) = none
  | localVol m => m.isReady = true ∧ m.fixtures.length = times.length ∧ times.length = requests.length

/-- Models after calls, with what the last accepted timeline left, when no refusal spoiled it. To fill a scenario
changes nothing, and all that is recorded between calls is left open. -/
inductive Reached (S : Type) [Quantity R S T] (start : Model R T) : Model R T → Option (Model R T) → Prop
  | start : Reached S start start none
  | allocate {m : Model R T} {last : Option (Model R T)} (h : Reached S start m last) (times : List R)
      (requests : List (Request R)) : Reached S start (m.allocate times requests) last
  | accepted {m m' : Model R T} {last : Option (Model R T)} (h : Reached S start m last) {times : List R}
      {requests : List (Request R)} {s s' : S}
      (hrun : ((init times requests : Preparing R S (Model R T) Unit).run.run m).run s = ((.ok (), m'), s')) :
      Reached S start m' (some m')
  | refused {m m' : Model R T} {last : Option (Model R T)} (h : Reached S start m last) {times : List R}
      {requests : List (Request R)} (hspared : ¬ m.Spoils times requests) {e : Fault (ModelError R)} {s s' : S}
      (hrun : ((init times requests : Preparing R S (Model R T) Unit).run.run m).run s = ((.error e, m'), s')) :
      Reached S start m' last

def Gridded : Model R T → Prop
  | blackScholes _ => True
  | localVol m => m.Gridded

def Consistent : Model R T → Prop
  | blackScholes _ => True
  | localVol m => m.Consistent

/-- Only an interpolation asks something of the draws. -/
def Steady (S : Type) [Quantity R S T] (draws : Array R) : Model R T → Prop
  | blackScholes _ => True
  | localVol m => m.Steady S draws

theorem Fresh.gridded {m : Model R T} (h : m.Fresh S) : m.Gridded := by
  cases h with
  | blackScholes => trivial
  | localVol h f s => exact h.gridded_lift f s

theorem Fresh.isReady_eq {m : Model R T} (h : m.Fresh S) : m.isReady = false := by
  cases h with
  | blackScholes => rfl
  | localVol => rfl

variable [Quantity R S T] {m m' : Model R T} {times : List R} {requests : List (Request R)}

theorem run_init_blackScholes {m bs : BlackScholes T} {r : Except (Fault (ModelError R)) Unit} {s s' : S}
    (h : ((BlackScholes.init times requests : Preparing R S (BlackScholes T) Unit).run.run m).run s = ((r, bs), s')) :
    ((init times requests : Preparing R S (Model R T) Unit).run.run (.blackScholes m)).run s =
      ((r, .blackScholes bs), s') := by
  change StateT.run ((BlackScholes.init times requests : Preparing R S (BlackScholes T) Unit).run.run m >>=
    fun x => pure (x.1, blackScholes x.2)) s = _
  rw [StateT.run_bind, h]
  rfl

theorem run_init_localVol {m lv : LocalVol R T} {r : Except (Fault (ModelError R)) Unit} {s s' : S}
    (h : ((LocalVol.init times requests : Preparing R S (LocalVol R T) Unit).run.run m).run s = ((r, lv), s')) :
    ((init times requests : Preparing R S (Model R T) Unit).run.run (.localVol m)).run s = ((r, .localVol lv), s') := by
  change StateT.run ((LocalVol.init times requests : Preparing R S (LocalVol R T) Unit).run.run m >>=
    fun x => pure (x.1, localVol x.2)) s = _
  rw [StateT.run_bind, h]
  rfl

theorem exists_of_run_blackScholes {m : BlackScholes T} {r : Except (Fault (ModelError R)) Unit} {s s' : S}
    (h : ((init times requests : Preparing R S (Model R T) Unit).run.run (.blackScholes m)).run s = ((r, m'), s')) :
    ∃ bs, m' = .blackScholes bs ∧
      ((BlackScholes.init times requests : Preparing R S (BlackScholes T) Unit).run.run m).run s = ((r, bs), s') := by
  obtain ⟨⟨r', bs⟩, t, hrun⟩ : ∃ x t,
    ((BlackScholes.init times requests : Preparing R S (BlackScholes T) Unit).run.run m).run s = (x, t) := ⟨_, _, rfl⟩
  rw [run_init_blackScholes hrun] at h
  cases h
  exact ⟨bs, rfl, hrun⟩

theorem exists_of_run_localVol {m : LocalVol R T} {r : Except (Fault (ModelError R)) Unit} {s s' : S}
    (h : ((init times requests : Preparing R S (Model R T) Unit).run.run (.localVol m)).run s = ((r, m'), s')) :
    ∃ lv, m' = .localVol lv ∧
      ((LocalVol.init times requests : Preparing R S (LocalVol R T) Unit).run.run m).run s = ((r, lv), s') := by
  obtain ⟨⟨r', lv⟩, t, hrun⟩ : ∃ x t,
    ((LocalVol.init times requests : Preparing R S (LocalVol R T) Unit).run.run m).run s = (x, t) := ⟨_, _, rfl⟩
  rw [run_init_localVol hrun] at h
  cases h
  exact ⟨lv, rfl, hrun⟩

theorem consistent_of_init_ok (hgrid : m.Gridded) {s s' : S}
    (h : ((init times requests : Preparing R S (Model R T) Unit).run.run m).run s = ((.ok (), m'), s')) :
    m'.Gridded ∧ m'.Consistent := by
  cases m with
  | blackScholes m =>
    obtain ⟨bs, rfl, -⟩ := exists_of_run_blackScholes h
    exact ⟨trivial, trivial⟩
  | localVol m =>
    obtain ⟨lv, rfl, hrun⟩ := exists_of_run_localVol h
    have hconsistent := LocalVol.consistent_of_init_ok hgrid hrun
    exact ⟨hconsistent.grid, hconsistent⟩

/-- A refused timeline that spoils nothing leaves the model as it was, or not ready. -/
theorem eq_or_not_ready_of_init_error (hspared : ¬ m.Spoils times requests) {e : Fault (ModelError R)} {s s' : S}
    (h : ((init times requests : Preparing R S (Model R T) Unit).run.run m).run s = ((.error e, m'), s')) :
    m' = m ∨ m'.isReady = false ∧ (m.Gridded → m'.Gridded) := by
  cases m with
  | blackScholes m =>
    obtain ⟨bs, rfl, hrun⟩ := exists_of_run_blackScholes h
    by_cases hcount : times.length = requests.length
    · obtain ⟨steps, t, hinit, hfirst⟩ := m.run_run_init (S := S) hcount s
      rw [hinit] at hrun
      cases hrefusal : refusal 0 (times.zip requests) with
      | none =>
        rw [hrefusal] at hrun
        cases hrun
      | some e' =>
        rw [hrefusal] at hrun
        cases hrun
        by_cases hroom : m.steps.length = times.length
        · rw [BlackScholes.withRoom, if_pos hroom] at hfirst ⊢
          cases hready : m.isReady with
          | false => exact .inr ⟨hready, fun _ => trivial⟩
          | true =>
            -- the first event is refused, and nothing is overwritten
            left
            rw [hfirst fun hnone => hspared ⟨hready, hroom, hcount, hnone⟩]
        · rw [BlackScholes.withRoom, if_neg hroom]
          exact .inr ⟨rfl, fun _ => trivial⟩
    · rw [m.run_init_of_counts hcount] at hrun
      cases hrun
      exact .inl rfl
  | localVol m =>
    -- the lengths of the steps are lost in any case
    obtain ⟨lv, rfl, hrun⟩ := exists_of_run_localVol h
    rcases m.exists_of_init_error hrun with ⟨-, rfl⟩ | ⟨hcount, lengths, fixtures, rfl⟩
    · exact .inl rfl
    · right
      by_cases hroom : m.fixtures.length = times.length
      · have hready : m.isReady = false := by
          apply Bool.eq_false_iff.2
          intro hready
          exact hspared ⟨hready, hroom, hcount⟩
        rw [LocalVol.withRoom, if_pos hroom]
        exact ⟨hready, fun hgrid => ⟨hgrid.spots, hgrid.times, hgrid.logSpots, hgrid.vols⟩⟩
      · rw [LocalVol.withRoom, if_neg hroom]
        exact ⟨rfl, fun hgrid => ⟨hgrid.spots, hgrid.times, hgrid.logSpots, hgrid.vols⟩⟩

/-- A model that is ready is what the last accepted timeline left. -/
theorem Reached.invariant {start : Model R T} {last : Option (Model R T)} (hstart : start.Fresh S)
    (h : Reached S start m last) : m.Gridded ∧ (m.isReady = true → last = some m ∧ m.Consistent) := by
  -- the last model that was accepted matters only as long as the flag is up
  induction h with
  | start =>
    refine ⟨hstart.gridded, ?_⟩
    intro hready
    rw [hstart.isReady_eq] at hready
    cases hready
  | @allocate m last _ times requests ih =>
    have hready : (m.allocate times requests).isReady = false := by cases m <;> rfl
    refine ⟨?_, ?_⟩
    · cases m with
      | blackScholes => trivial
      | localVol m => exact ⟨ih.1.spots, ih.1.times, ih.1.logSpots, ih.1.vols⟩
    · intro h
      rw [hready] at h
      cases h
  | @accepted m m' last _ times requests s s' hrun ih =>
    obtain ⟨hgrid, hconsistent⟩ := consistent_of_init_ok ih.1 hrun
    exact ⟨hgrid, fun _ => ⟨rfl, hconsistent⟩⟩
  | @refused m m' last _ times requests hspared e s s' hrun ih =>
    rcases eq_or_not_ready_of_init_error hspared hrun with rfl | ⟨hready, hgrid⟩
    · exact ih
    · refine ⟨hgrid ih.1, ?_⟩
      intro h
      rw [hready] at h
      cases h

theorem generate_of_not_ready (h : m.isReady = false) (draws : Array R) (scenario : Scenario T) :
    (m.generate draws scenario : Modelling R S _) = Modelling.fail .notInitialised := by
  cases m with
  | blackScholes m =>
    rw [isReady] at h
    rw [generate, BlackScholes.generate, h]
    rfl
  | localVol m =>
    rw [isReady] at h
    rw [generate, LocalVol.generate, h]
    rfl

/-- A consistent model refuses draws or a scenario of the wrong size, and fills the scenario otherwise. -/
theorem Consistent.generate_cases (h : m.Consistent) (draws : Array R) (scenario : Scenario T) :
    (∃ e, (m.generate draws scenario : Modelling R S _) = Modelling.fail e) ∨
      (m.Steady S draws → Gives (m.generate draws scenario : Modelling R S _) fun _ => True) := by
  cases m with
  | blackScholes m =>
    simp only [generate, BlackScholes.generate]
    split_ifs
    · exact .inl ⟨_, rfl⟩
    · exact .inl ⟨_, rfl⟩
    · exact .inl ⟨_, rfl⟩
    · refine .inr fun _ => ?_
      apply (gives_record (P := fun _ => True) fun _ => trivial).bind
      intro samples _
      exact gives_pure trivial
  | localVol m =>
    simp only [generate, LocalVol.generate]
    split_ifs with hready hdraws hsize
    · exact .inl ⟨_, rfl⟩
    · exact .inl ⟨_, rfl⟩
    · exact .inl ⟨_, rfl⟩
    · refine .inr fun hsteady => ?_
      apply (gives_record (P := fun logSpot => m.Placed (Valued.value logSpot)) hsteady.start).bind
      intro logSpot hplaced
      apply (LocalVol.Consistent.gives_follow h hsteady (not_lt.1 hdraws) hplaced 0 h.steps _).bind
      intro samples _
      exact gives_pure trivial

end Model

/-- A spot without noise that grows at the rate. -/
noncomputable def growing (steps : List (BlackScholes.Step ℝ)) (isReady : Bool) : BlackScholes ℝ :=
  ⟨100, 0, 1, 0, steps, isReady⟩

/-- Only the numeraire is observed. -/
def plainRequest : Request ℝ := ⟨true, #[], #[]⟩

theorem fresh_growing : (Model.blackScholes (growing [] false)).Fresh (R := ℝ) Unit := by
  have hmade : BlackScholes.ofParameters (100 : ℝ) 0 1 0 = .ok (growing [] false) := by
    simp only [BlackScholes.ofParameters, BlackScholes.checkParameter, scalar_zero]
    norm_num
    rfl
  exact .blackScholes hmade pure ()

theorem step_growing (steps : List (BlackScholes.Step ℝ)) (isReady : Bool) (carry driftRate gap time : ℝ) :
    ∃ step : BlackScholes.Step ℝ, step.observables.numeraire = Real.exp time ∧
      ((growing steps isReady).step carry driftRate gap time plainRequest : StateM Unit _) = pure step := by
  obtain ⟨step, hstep⟩ :=
    exists_eq_pure ((growing steps isReady).step carry driftRate gap time plainRequest : StateM Unit _)
  have hnumeraire := congrArg (fun a => (a.run ()).1.observables.numeraire) hstep
  exact ⟨step, hnumeraire.symm.trans (congrArg Real.exp (one_mul time)), hstep⟩

theorem checkEvent_plainRequest {previous time : ℝ} (h : previous ≤ time) :
    checkEvent previous time plainRequest = .ok () := by
  simp [checkEvent, plainRequest, Request.validate, h]

theorem init_growing : ∃ first second, first.observables.numeraire = Real.exp 1 ∧
    ((Model.init [1, 2] [plainRequest, plainRequest] : Preparing ℝ Unit (Model ℝ ℝ) Unit).run.run
      (.blackScholes (growing [] false))).run () = ((.ok (), .blackScholes (growing [first, second] true)), ()) := by
  have hrefusal : refusal (@OfNat.ofNat ℝ 0 (Scalar.instOfNat 0)) ([1, 2].zip [plainRequest, plainRequest]) = none := by
    simp only [List.zip_cons_cons, List.zip_nil_left, refusal, scalar_zero, checkEvent_plainRequest zero_le_one,
      checkEvent_plainRequest one_le_two]
  obtain ⟨⟨carry, driftRate⟩, hrates⟩ := exists_eq_pure ((growing [] false).driftRates : StateM Unit (ℝ × ℝ))
  obtain ⟨first, hnumeraire, hfirst⟩ := step_growing [] false carry driftRate (1 - 0) 1
  obtain ⟨second, -, hsecond⟩ := step_growing [] false carry driftRate (2 - 1) 2
  have hrun := (growing [] false).run_init_of_accepted (S := Unit) (show [(1 : ℝ), 2].length = 2 from rfl) hrefusal
  rw [hrates, pure_bind] at hrun
  simp only [List.zip_cons_cons, List.zip_nil_left, BlackScholes.stepsFrom, scalar_zero, hfirst, hsecond,
    pure_bind] at hrun
  exact ⟨first, second, hnumeraire, Model.run_init_blackScholes (congrArg (fun a => a.run ()) hrun)⟩

/-- The first step is made for the later time, the second one stays. -/
theorem refuse_growing (first second : BlackScholes.Step ℝ) : ∃ e other, other.observables.numeraire = Real.exp 3 ∧
    ((Model.init [3, 2] [plainRequest, plainRequest] : Preparing ℝ Unit (Model ℝ ℝ) Unit).run.run
      (.blackScholes (growing [first, second] true))).run () =
        ((.error (.error e), .blackScholes (growing [other, second] true)), ()) := by
  have hlate : checkEvent 3 2 plainRequest = .error (.timeOrder (2 : ℝ) 3) := by
    simp only [checkEvent]
    norm_num
  obtain ⟨⟨carry, driftRate⟩, hrates⟩ := exists_eq_pure ((growing [first, second] true).driftRates : StateM Unit (ℝ × ℝ))
  obtain ⟨other, hnumeraire, hother⟩ := step_growing [first, second] true carry driftRate (3 - 0) 3
  have hrun := (growing [first, second] true).run_init (S := Unit) (show [(3 : ℝ), 2].length =
    [plainRequest, plainRequest].length from rfl) rfl
  rw [hrates, pure_bind, List.zip_cons_cons, List.zip_cons_cons, List.zip_nil_left] at hrun
  have hsteps : (growing [first, second] true).steps = [first, second] := rfl
  simp only [hsteps, BlackScholes.prepare, scalar_zero, checkEvent_plainRequest (zero_le_three (α := ℝ)), hlate, hother,
    pure_bind] at hrun
  exact ⟨_, other, hnumeraire, Model.run_init_blackScholes (congrArg (fun a => a.run ()) hrun)⟩

theorem generate_growing (first second : BlackScholes.Step ℝ) (x : Sample ℝ) : ∃ path : Scenario ℝ,
    ((growing [first, second] true).generate #[0, 0] #[x, x] : Modelling ℝ Unit _) = pure path ∧
      path[0]?.map Sample.numeraire = some first.observables.numeraire := by
  obtain ⟨samples, hsamples⟩ := exists_eq_pure
    (BlackScholes.follow (100 : ℝ) [(first, (0 : ℝ)), (second, 0)] [x, x] : StateM Unit _)
  refine ⟨samples.toArray, ?_, ?_⟩
  · change (record (BlackScholes.follow (100 : ℝ) [(first, (0 : ℝ)), (second, 0)] [x, x]) >>= fun samples =>
      pure samples.toArray : Modelling ℝ Unit (Scenario ℝ)) = _
    rw [hsamples, record_pure, pure_bind]
  · have hhead := BlackScholes.numeraire_follow (100 : ℝ) first (0 : ℝ) [(second, 0)] x [x] ()
    rw [hsamples, List.head?_eq_getElem?] at hhead
    rw [List.getElem?_toArray]
    exact hhead

theorem refuse_growing_first (first second : BlackScholes.Step ℝ) : ∃ e : ModelError ℝ,
    ((Model.init [-1, 2] [plainRequest, plainRequest] : Preparing ℝ Unit (Model ℝ ℝ) Unit).run.run
      (.blackScholes (growing [first, second] true))).run () =
        ((.error (.error e), .blackScholes (growing [first, second] true)), ()) ∧
    ¬ (Model.blackScholes (growing [first, second] true)).Spoils [-1, 2] [plainRequest, plainRequest] := by
  have hearly : checkEvent 0 (-1) plainRequest = .error (.timeOrder (-1 : ℝ) 0) := by
    simp only [checkEvent]
    norm_num
  obtain ⟨⟨carry, driftRate⟩, hrates⟩ := exists_eq_pure ((growing [first, second] true).driftRates : StateM Unit (ℝ × ℝ))
  have hrun := (growing [first, second] true).run_init (S := Unit) (show [(-1 : ℝ), 2].length =
    [plainRequest, plainRequest].length from rfl) rfl
  rw [hrates, pure_bind, List.zip_cons_cons, List.zip_cons_cons, List.zip_nil_left] at hrun
  have hsteps : (growing [first, second] true).steps = [first, second] := rfl
  simp only [hsteps, BlackScholes.prepare, scalar_zero, hearly, pure_bind] at hrun
  refine ⟨_, Model.run_init_blackScholes (congrArg (fun a => a.run ()) hrun), ?_⟩
  rintro ⟨-, -, -, hnone⟩
  simp only [List.zip_cons_cons, List.take_succ_cons, refusal, scalar_zero, hearly] at hnone
  cases hnone

namespace Model

variable [Quantity R S T] {m : Model R T}

/-- Refused timelines never mix what is prepared. After any calls without a refusal that spoils a timeline in use, a
model either refuses to fill a scenario, or fills it as the last accepted timeline left it to do; and it comes to an
end unless the logarithm of the spot gets undefined on the way. -/
theorem refusals_keep_paths {start : Model R T} {last : Option (Model R T)} (hstart : start.Fresh S)
    (h : Reached S start m last) (draws : Array R) (scenario : Scenario T) :
    (∃ e, (m.generate draws scenario : Modelling R S _) = Modelling.fail e) ∨
      ∃ prepared, last = some prepared ∧
        (m.generate draws scenario : Modelling R S _) = prepared.generate draws scenario ∧
        (m.Steady S draws → Gives (m.generate draws scenario : Modelling R S _) fun _ => True) := by
  obtain ⟨-, hinvariant⟩ := h.invariant hstart
  cases hready : m.isReady with
  | false => exact .inl ⟨_, generate_of_not_ready hready draws scenario⟩
  | true =>
    obtain ⟨hlast, hconsistent⟩ := hinvariant hready
    rcases hconsistent.generate_cases (S := S) draws scenario with hfail | hgives
    · exact .inl hfail
    · exact .inr ⟨m, hlast, rfl, hgives⟩

/-- A refused timeline that takes the place of one in use mixes the two: the first event is seen at time 3, the second
one at time 2. -/
theorem refusal_mixes_timelines : ∃ (start accepted spoilt : Model ℝ ℝ) (e : ModelError ℝ) (sample : Sample ℝ)
    (path mixed : Scenario ℝ), start.Fresh Unit ∧
    ((init [1, 2] [plainRequest, plainRequest] : Preparing ℝ Unit (Model ℝ ℝ) Unit).run.run start).run () =
      ((.ok (), accepted), ()) ∧
    ((init [3, 2] [plainRequest, plainRequest] : Preparing ℝ Unit (Model ℝ ℝ) Unit).run.run accepted).run () =
      ((.error (.error e), spoilt), ()) ∧
    (accepted.generate #[0, 0] #[sample, sample] : Modelling ℝ Unit _) = pure path ∧
    (spoilt.generate #[0, 0] #[sample, sample] : Modelling ℝ Unit _) = pure mixed ∧ mixed ≠ path := by
  obtain ⟨first, second, hfirst, haccepted⟩ := init_growing
  obtain ⟨e, other, hother, hrefused⟩ := refuse_growing first second
  obtain ⟨path, hpath, hhead⟩ := generate_growing first second ⟨0, 0, #[], #[]⟩
  obtain ⟨mixed, hmixed, hmixedHead⟩ := generate_growing other second ⟨0, 0, #[], #[]⟩
  refine ⟨_, _, _, e, _, path, mixed, fresh_growing, haccepted, hrefused, hpath, hmixed, ?_⟩
  rintro rfl
  -- the numeraire of the first event tells the times apart
  rw [hhead, hfirst, hother, Option.some.injEq, Real.exp_eq_exp] at hmixedHead
  norm_num at hmixedHead

theorem refusals_keep_paths_first : ∃ (start accepted : Model ℝ ℝ) (e : ModelError ℝ) (sample : Sample ℝ),
    start.Fresh Unit ∧
    ((init [1, 2] [plainRequest, plainRequest] : Preparing ℝ Unit (Model ℝ ℝ) Unit).run.run start).run () =
      ((.ok (), accepted), ()) ∧
    ((init [-1, 2] [plainRequest, plainRequest] : Preparing ℝ Unit (Model ℝ ℝ) Unit).run.run accepted).run () =
      ((.error (.error e), accepted), ()) ∧
    Gives (accepted.generate #[0, 0] #[sample, sample] : Modelling ℝ Unit _) fun _ => True := by
  obtain ⟨first, second, -, haccepted⟩ := init_growing
  obtain ⟨e, hrefused, hspared⟩ := refuse_growing_first first second
  have hreached := Reached.refused (Reached.accepted (.start (S := Unit)) haccepted) hspared hrefused
  refine ⟨_, _, e, ⟨0, 0, #[], #[]⟩, fresh_growing, haccepted, hrefused, ?_⟩
  obtain ⟨path, hpath, -⟩ := generate_growing first second ⟨0, 0, #[], #[]⟩
  rcases refusals_keep_paths fresh_growing hreached #[0, 0] #[⟨0, 0, #[], #[]⟩, ⟨0, 0, #[], #[]⟩] with
    ⟨fault, hfail⟩ | ⟨_, _, _, hgives⟩
  · have hclash := congrArg (fun a => a.run.run ()) (hpath.symm.trans hfail)
    cases hclash
  · exact hgives trivial

end Model

end PayoffPricing
