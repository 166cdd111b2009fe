import PayoffPricing.Proofs.Double.Rounding
import PayoffPricing.Proofs.Model.Refusal
import PayoffPricing.Proofs.Model.Values
/-!
How paths end. A spot with a volatility surface is looked up in the grid at every step. A number that can
be compared with neither end of the grid has no place there, and the look-up is out of range; a path ends
well just where this does not happen at any step. Undefined draws lead there, at the step after them.
-/

namespace PayoffPricing

open Modelling

variable {R S T : Type} [Scalar R]

namespace LocalVol

theorem located_of_total (htotal : ∀ a b : R, a ≤ b ∨ b ≤ a) {grid : Array R} (hpos : 0 < grid.size) (v : R) :
    Located grid v :=
  .inl ⟨grid[0], Array.getElem?_eq_getElem hpos, htotal v grid[0]⟩

/-- The logarithm of the spot after a number of steps. -/
def walk (m : LocalVol R R) (draws : Array R) : Nat → Modelling R Unit R
  | 0 => pure (Scalar.log m.spot)
  | k + 1 => do m.move draws (← m.walk draws k) k

/-- The logarithm of the spot has a place in the grid after `k` steps, if it gets so far. -/
def LocatedAt [Valued R T] (m : LocalVol R T) (draws : Array R) (k : Nat) : Prop :=
  ∀ v, m.values.walk draws k = pure v → Located m.logSpots v

/-- The logarithm of the spot has a place in the grid before every step. -/
def Followable [Valued R T] (m : LocalVol R T) (draws : Array R) : Prop := ∀ k < m.dimension, m.LocatedAt draws k

theorem locatedAt_iff [Valued R T] {m : LocalVol R T} {draws : Array R} {k : Nat} {v : R}
    (h : m.values.walk draws k = pure v) : m.LocatedAt draws k ↔ Located m.logSpots v := by
  constructor
  · intro hlocated
    exact hlocated v h
  · intro hlocated w hw
    have hsame := congrArg (fun a => (a.run.run ()).1) (h.symm.trans hw)
    obtain rfl : v = w := Except.ok.inj hsame
    exact hlocated

theorem exists_fixture_of_lt (m : LocalVol R T) {j k : Nat} {previous : R} {times : List R} {os : List (Observables T)}
    (h : os.length = times.length) (hk : k < (m.stepsFrom previous times).length) :
    ∃ fixture ∈ m.fixturesFrom j previous times os, j + k < fixture.step := by
  induction times generalizing j k previous os with
  | nil => cases hk
  | cons time times ih =>
    obtain ⟨o, os, rfl⟩ := List.exists_cons_of_length_eq_add_one h
    rw [stepsFrom, List.length_append] at hk
    rw [fixturesFrom]
    by_cases hcut : k < (m.cut previous (time - previous)).length
    · exact ⟨_, List.mem_cons_self, Nat.add_lt_add_left hcut j⟩
    · have hrest : k - (m.cut previous (time - previous)).length < (m.stepsFrom time times).length := by omega
      obtain ⟨fixture, hmem, hlt⟩ := ih (j := j + (m.cut previous (time - previous)).length) (Nat.succ.inj h) hrest
      exact ⟨fixture, List.mem_cons_of_mem _ hmem, by omega⟩

/-- All steps from `k` on up to the last of the fixtures satisfy `c`. -/
def Throughout (c : Nat → Prop) (k : Nat) (fixtures : List (Fixture T)) : Prop :=
  ∀ i, k ≤ i → (∃ fixture ∈ fixtures, i < fixture.step) → c i

theorem throughout_cons {c : Nat → Prop} {k : Nat} {fixture : Fixture T} {fixtures : List (Fixture T)} :
    ((∀ i, k ≤ i → i < max k fixture.step → c i) ∧ Throughout c (max k fixture.step) fixtures) ↔
      Throughout c k (fixture :: fixtures) := by
  constructor
  · rintro ⟨hbefore, hafter⟩ i hle ⟨f, hf, hlt⟩
    by_cases hi : i < max k fixture.step
    · exact hbefore i hle hi
    · rcases List.mem_cons.1 hf with rfl | hf
      · omega
      · exact hafter i (by omega) ⟨f, hf, hlt⟩
  · intro hall
    constructor
    · intro i hle hlt
      exact hall i hle ⟨fixture, List.mem_cons_self, by omega⟩
    · rintro i hle ⟨f, hf, hlt⟩
      exact hall i (by omega) ⟨f, List.mem_cons_of_mem _ hf, hlt⟩

/-- Models that are ready for `n` events; all steps are taken before one of them. -/
structure Prepared (m : LocalVol R T) (n : Nat) : Prop extends m.Consistent where
  isReady : m.isReady = true
  length : m.fixtures.length = n
  reached : ∀ k < m.dimension, ∃ fixture ∈ m.fixtures, k < fixture.step

section Steps

variable [Quantity R S T]

theorem prepared_of_init_ok {m m' : LocalVol R T} (hgrid : m.Gridded) {times : List R} {requests : List (Request R)}
    {s s' : S} (h : ((init times requests : Preparing R S (LocalVol R T) Unit).run.run m).run s = ((.ok (), m'), s')) :
    m'.Prepared times.length := by
  have hconsistent := consistent_of_init_ok hgrid h
  obtain ⟨-, -, os, t, rows, hos, -, -, rfl⟩ := exists_of_init_ok m h
  refine ⟨hconsistent, rfl, m.length_fixturesFrom 0 0 hos, ?_⟩
  intro k hk
  rw [dimension, filled, List.size_toArray, List.length_map] at hk
  obtain ⟨fixture, hmem, hlt⟩ := m.exists_fixture_of_lt (j := 0) hos hk
  exact ⟨fixture, hmem, by omega⟩

variable {m : LocalVol R T} {draws : Array R} {k : Nat}

section Values

variable [FullyTransparent R S T]

theorem Consistent.ends_step (h : m.Consistent) (hdraws : m.dimension ≤ draws.size) (hk : k < m.dimension) {x : T}
    (hx : m.values.walk draws k = pure (Valued.value x)) :
    Ends (m.LocatedAt draws k) (m.move draws x k : Modelling R S T) fun y =>
      m.values.walk draws (k + 1) = pure (Valued.value y) := by
  apply ((h.ends_move hdraws hk x).congr (locatedAt_iff hx).symm).refine
  intro s y t hrun _
  rw [walk, hx, pure_bind]
  exact m.move_values draws hrun

theorem Consistent.ends_follow (h : m.Consistent) (hdraws : m.dimension ≤ draws.size) {fixtures : List (Fixture T)}
    (hfixtures : ∀ fixture ∈ fixtures, fixture.step ≤ m.dimension) {samples : List (Sample T)}
    (hlength : samples.length = fixtures.length) {x : T} (hx : m.values.walk draws k = pure (Valued.value x)) :
    Ends (Throughout (m.LocatedAt draws) k fixtures) (m.follow draws x k fixtures samples : Modelling R S _)
      fun l => l.length = samples.length := by
  -- up to the first fixture by steps, and from there on by induction
  induction fixtures generalizing k x samples with
  | nil =>
    obtain rfl := List.length_eq_zero_iff.1 hlength
    apply (gives_pure (P := fun l : List (Sample T) => l.length = 0) rfl).ends.congr
    apply iff_of_true trivial
    rintro i - ⟨fixture, hmem, -⟩
    cases hmem
  | cons fixture fixtures ih =>
    obtain ⟨sample, samples, rfl⟩ := List.exists_cons_of_length_eq_add_one hlength
    obtain ⟨hfixture, hfixtures⟩ := List.forall_mem_cons.1 hfixtures
    have hmoves := ends_foldlM_range' (S := S) (f := m.move draws) (n := fixture.step - k)
      (P := fun i x => m.values.walk draws i = pure (Valued.value x))
      (fun i _ hlt x hx => h.ends_step hdraws (by omega) hx) hx
    have hreach : k + (fixture.step - k) = max k fixture.step := by omega
    rw [hreach] at hmoves
    have hrest (y : T) (hy : m.values.walk draws (max k fixture.step) = pure (Valued.value y)) :
        Ends (Throughout (m.LocatedAt draws) (max k fixture.step) fixtures) (do
          let spot ← Modelling.record (Quantity.exp y)
          let sample ← Modelling.record (fixture.observables.writeSample spot sample)
          return sample :: (← m.follow draws y (max k fixture.step) fixtures samples) : Modelling R S _)
          fun l => l.length = (sample :: samples).length := by
      apply (gives_record (P := fun _ => True) fun _ => trivial).bind_ends
      intro spot _
      apply (gives_record (P := fun _ => True) fun _ => trivial).bind_ends
      intro sample _
      apply (ih hfixtures (Nat.succ.inj hlength) hy).bind_gives
      intro l hl
      exact gives_pure (congrArg (· + 1) hl)
    exact (hmoves.bind hrest).congr throughout_cons

theorem Prepared.ends_generate {n : Nat} (h : m.Prepared n) (hdraws : m.dimension ≤ draws.size) {scenario : Scenario T}
    (hsize : scenario.size = n) :
    Ends (m.Followable draws) (m.generate draws scenario : Modelling R S _) fun path => path.size = n := by
  have hsamples : scenario.size = m.fixtures.length := hsize.trans h.length.symm
  unfold generate
  rw [h.isReady, if_neg (by simp), if_neg (not_lt.2 hdraws), if_neg (not_not.2 hsamples)]
  have hstart : Gives (Modelling.record (Quantity.log m.spot) : Modelling R S T) fun x =>
      m.values.walk draws 0 = pure (Valued.value x) := by
    apply gives_record
    intro s
    rw [FullyTransparent.value_log]
    rfl
  apply Ends.congr (c := Throughout (m.LocatedAt draws) 0 m.fixtures)
  · apply hstart.bind_ends
    intro x hx
    apply (h.ends_follow hdraws h.steps (Array.length_toList.trans hsamples) hx).bind_gives
    intro l hl
    apply gives_pure
    rw [List.size_toArray, hl, Array.length_toList, hsize]
  · constructor
    · intro hall k hk
      exact hall k (Nat.zero_le k) (h.reached k hk)
    · rintro hall i - ⟨fixture, hmem, hlt⟩
      exact hall i (hlt.trans_le (h.steps fixture hmem))

end Values

end Steps

section Undefined

variable [Valued R T] {m : LocalVol R T} {draws : Array R} {k : Nat}

omit [Scalar R] in
theorem Consistent.values (h : m.Consistent) : m.values.Consistent where
  grid := ⟨h.grid.spots, h.grid.times, h.grid.logSpots, Array.size_map.trans h.grid.vols⟩
  deviations := Array.size_map.trans h.deviations
  drifts := Array.size_map.trans h.drifts
  rows := by
    intro row hrow
    obtain ⟨row, hmem, rfl⟩ := Array.mem_map.1 hrow
    exact Array.size_map.trans (h.rows row hmem)
  steps := by
    intro fixture hfixture
    obtain ⟨fixture, hmem, rfl⟩ := List.mem_map.1 hfixture
    exact h.steps fixture hmem

theorem Consistent.exists_walk (h : m.Consistent) (hdraws : m.dimension ≤ draws.size)
    (hfollowable : m.Followable draws) (hk : k ≤ m.dimension) : ∃ v, m.values.walk draws k = pure v := by
  induction k with
  | zero => exact ⟨_, rfl⟩
  | succ k ih =>
    obtain ⟨v, hv⟩ := ih (Nat.le_of_succ_le hk)
    have hmove := h.values.ends_move (S := Unit) hdraws hk v
    obtain ⟨w, _, hw, -⟩ := hmove.gives (hfollowable k hk v hv) ()
    refine ⟨w, ?_⟩
    rw [walk, hv, pure_bind]
    exact eq_pure_of_run hw

theorem undefined_of_move {m : LocalVol Float Float} {draws : Array Float} {x y z : Float} (hz : draws[k]? = some z)
    (hundefined : Scalar.isUndefined z = true) (h : (m.move draws x k : Modelling Float Unit Float) = pure y) :
    Scalar.isUndefined y = true := by
  have hrun : (m.move draws x k : Modelling Float Unit Float).run.run () = (.ok y, ()) := by rw [h]; rfl
  obtain ⟨row, _, -, hrun⟩ := exists_of_bind_ok hrun
  obtain ⟨vol, _, -, hrun⟩ := exists_of_bind_ok hrun
  obtain ⟨drift, _, -, hrun⟩ := exists_of_bind_ok hrun
  obtain ⟨draw, _, hdraw, hrun⟩ := exists_of_bind_ok hrun
  rw [hz] at hdraw
  cases hdraw
  obtain rfl : x + (drift + vol * (vol * (-0.5) + z)) = y := Except.ok.inj (congrArg Prod.fst hrun)
  exact Double.undefined_add x (Double.undefined_add drift (Double.undefined_mul vol (Double.undefined_add _ hundefined)))

theorem not_located_of_undefined {grid : Array Float} {v : Float} (h : Scalar.isUndefined v = true) :
    ¬ Located grid v := by
  rintro (⟨first, -, hle | hle⟩ | ⟨last, -, hle⟩)
  · exact Double.not_le_of_undefined (.inl h) hle
  · exact Double.not_le_of_undefined (.inr h) hle
  · exact Double.not_le_of_undefined (.inr h) hle

/-- Only an undefined double has no place in a grid that starts with another one. -/
theorem located_iff {grid : Array Float} (hpos : 0 < grid.size) (hfirst : Scalar.isUndefined grid[0] = false) (v : Float) :
    Located grid v ↔ Scalar.isUndefined v = false := by
  constructor
  · intro hlocated
    by_contra hv
    exact not_located_of_undefined (Bool.not_eq_false _ ▸ hv) hlocated
  · intro hv
    refine .inl ⟨grid[0], Array.getElem?_eq_getElem hpos, ?_⟩
    rw [Double.le_iff hv hfirst, Double.le_iff hfirst hv]
    exact le_total _ _

theorem Consistent.not_followable [Valued Float T] {m : LocalVol Float T} {draws : Array Float} {z : Float}
    (h : m.Consistent) (hdraws : m.dimension ≤ draws.size) (hk : k + 1 < m.dimension) (hz : draws[k]? = some z)
    (hundefined : Scalar.isUndefined z = true) : ¬ m.Followable draws := by
  intro hfollowable
  obtain ⟨x, hx⟩ := h.exists_walk hdraws hfollowable (k := k) (by omega)
  obtain ⟨y, hy⟩ := h.exists_walk hdraws hfollowable hk.le
  have hlocated := hfollowable (k + 1) hk y hy
  rw [walk, hx, pure_bind] at hy
  exact not_located_of_undefined (undefined_of_move hz hundefined hy) hlocated

/-- Doubles: an undefined draw anywhere but in the last step takes every path out of range. -/
theorem out_of_range_of_undefined [Quantity Float S T] [FullyTransparent Float S T] {m m' : LocalVol Float T}
    (hgrid : m.Gridded) {times : List Float} {requests : List (Request Float)} {s s' : S}
    (hrun : ((init times requests : Preparing Float S (LocalVol Float T) Unit).run.run m).run s = ((.ok (), m'), s'))
    {draws : Array Float} (hdraws : m'.dimension ≤ draws.size) {scenario : Scenario T}
    (hsize : scenario.size = times.length) (hk : k + 1 < m'.dimension) {z : Float} (hz : draws[k]? = some z)
    (hundefined : Scalar.isUndefined z = true) (t : S) :
    ∃ u, (m'.generate draws scenario : Modelling Float S _).run.run t = (.error (.misuse .outOfRange), u) := by
  have hprepared := prepared_of_init_ok hgrid hrun
  obtain ⟨hfollowable, -⟩ | ⟨-, hout⟩ := hprepared.ends_generate hdraws hsize t
  · exact absurd hfollowable (hprepared.not_followable hdraws hk hz hundefined)
  · exact hout

end Undefined

end LocalVol

namespace BlackScholes

variable [Quantity R S T]

theorem length_stepsFrom (m : BlackScholes T) (carry driftRate : T) (previous : R) (events : List (R × Request R))
    (s : S) : ((m.stepsFrom carry driftRate previous events).run s).1.length = events.length := by
  induction events generalizing previous s with
  | nil => rfl
  | cons event events ih =>
    obtain ⟨time, request⟩ := event
    exact congrArg (· + 1) (ih time ((m.step carry driftRate (time - previous) time request).run s).2)

omit [Scalar R] in
theorem length_follow (spot : T) (steps : List (Step T × R)) (samples : List (Sample T)) (s : S) :
    ((follow spot steps samples).run s).1.length = samples.length := by
  induction samples generalizing spot steps s with
  | nil => cases steps <;> rfl
  | cons sample samples ih =>
    cases steps with
    | nil => rfl
    | cons step steps =>
      obtain ⟨step, z⟩ := step
      rw [follow_cons, StateT.run_bind]
      exact congrArg (· + 1) (ih _ steps _)

theorem gives_generate {m m' : BlackScholes T} {times : List R} {requests : List (Request R)} {s s' : S}
    (h : ((init times requests : Preparing R S (BlackScholes T) Unit).run.run m).run s = ((.ok (), m'), s'))
    {draws : Array R} (hdraws : m'.dimension ≤ draws.size) {scenario : Scenario T}
    (hsize : scenario.size = times.length) :
    Gives (m'.generate draws scenario : Modelling R S _) fun path => path.size = times.length := by
  have hprepared : m'.isReady = true ∧ m'.dimension = times.length := by
    by_cases hcount : times.length = requests.length
    · obtain ⟨steps, t, hrun, -⟩ := m.run_run_init (S := S) hcount s
      cases hrefusal : refusal 0 (times.zip requests) with
      | some e =>
        rw [hrun, hrefusal] at h
        cases h
      | none =>
        rw [m.run_init_of_accepted hcount hrefusal, StateT.run_bind] at h
        cases h
        refine ⟨rfl, ?_⟩
        rw [dimension]
        refine (m.length_stepsFrom _ _ _ _ _).trans ?_
        rw [List.length_zip, hcount, Nat.min_self]
    · rw [m.run_init_of_counts hcount] at h
      cases h
  obtain ⟨hready, hdimension⟩ := hprepared
  unfold generate
  rw [hready, if_neg (by simp), if_neg (not_lt.2 hdraws), if_neg (not_not.2 (hsize.trans hdimension.symm))]
  apply (gives_record (P := fun l => l.length = times.length) ?_).bind
  · intro l hl
    exact gives_pure (List.size_toArray.trans hl)
  · intro s
    rw [length_follow, Array.length_toList, hsize]

end BlackScholes

namespace Model

/-- Models after calls that may end in any way. -/
inductive Called (S : Type) [Quantity R S T] (start : Model R T) : Model R T → Prop
  | start : Called S start start
  | allocate {m : Model R T} (h : Called S start m) (times : List R) (requests : List (Request R)) :
      Called S start (m.allocate times requests)
  | init {m m' : Model R T} (h : Called S start m) {times : List R} {requests : List (Request R)}
      {r : Except (Fault (ModelError R)) Unit} {s s' : S}
      (hrun : ((init times requests : Preparing R S (Model R T) Unit).run.run m).run s = ((r, m'), s')) :
      Called S start m'

/-- The logarithm of the spot has a place in the grid before every step, where there is a grid. -/
def Followable [Valued R T] (draws : Array R) : Model R T → Prop
  | blackScholes _ => True
  | localVol m => m.Followable draws

variable [Quantity R S T] {m m' : Model R T} {times : List R} {requests : List (Request R)}

theorem gridded_of_init (h : m.Gridded) {r : Except (Fault (ModelError R)) Unit} {s s' : S}
    (hrun : ((init times requests : Preparing R S (Model R T) Unit).run.run m).run s = ((r, m'), s')) : m'.Gridded := by
  cases r with
  | ok u => exact (consistent_of_init_ok h hrun).1
  | error e =>
    cases m with
    | blackScholes m =>
      obtain ⟨bs, rfl, -⟩ := exists_of_run_blackScholes hrun
      trivial
    | localVol m =>
      obtain ⟨lv, rfl, hinit⟩ := exists_of_run_localVol hrun
      obtain ⟨-, rfl⟩ | ⟨-, lengths, fixtures, rfl⟩ := m.exists_of_init_error hinit
      · exact h
      · rw [LocalVol.withRoom]
        split
        · exact ⟨h.spots, h.times, h.logSpots, h.vols⟩
        · exact ⟨h.spots, h.times, h.logSpots, h.vols⟩

theorem Called.gridded {start : Model R T} (hstart : start.Fresh S) (h : Called S start m) : m.Gridded := by
  induction h with
  | start => exact hstart.gridded
  | @allocate m _ times requests ih =>
    cases m with
    | blackScholes m => trivial
    | localVol m => exact ⟨ih.spots, ih.times, ih.logSpots, ih.vols⟩
  | init _ hrun ih => exact gridded_of_init ih hrun

theorem followable_of_total (htotal : ∀ a b : R, a ≤ b ∨ b ≤ a) (h : m.Gridded) (draws : Array R) :
    m.Followable draws := by
  cases m with
  | blackScholes m => trivial
  | localVol m =>
    intro k _ v _
    exact LocalVol.located_of_total htotal (h.logSpots.symm ▸ h.spots) v

theorem ends_generate [FullyTransparent R S T] (h : m.Gridded) {s s' : S}
    (hrun : ((init times requests : Preparing R S (Model R T) Unit).run.run m).run s = ((.ok (), m'), s'))
    {draws : Array R} (hdraws : m'.dimension ≤ draws.size) {scenario : Scenario T}
    (hsize : scenario.size = times.length) :
    Ends (m'.Followable draws) (m'.generate draws scenario : Modelling R S _) fun path => path.size = times.length := by
  cases m with
  | blackScholes m =>
    obtain ⟨bs, rfl, hinit⟩ := exists_of_run_blackScholes hrun
    exact (BlackScholes.gives_generate hinit hdraws hsize).ends
  | localVol m =>
    obtain ⟨lv, rfl, hinit⟩ := exists_of_run_localVol hrun
    exact (LocalVol.prepared_of_init_ok h hinit).ends_generate hdraws hsize

/-- A path of a prepared model ends well just where the logarithm of the spot has a place in the grid before every
step, and is out of range otherwise; it ends well in any case where all numbers can be compared. -/
theorem paths_end_where_followable [FullyTransparent R S T] {start : Model R T} (hstart : start.Fresh S)
    (hcalled : Called S start m) {s s' : S}
    (hrun : ((init times requests : Preparing R S (Model R T) Unit).run.run m).run s = ((.ok (), m'), s'))
    {draws : Array R} (hdraws : m'.dimension ≤ draws.size) {scenario : Scenario T}
    (hsize : scenario.size = times.length) :
    (∀ t, (m'.Followable draws ∧ ∃ path u,
        (m'.generate draws scenario : Modelling R S _).run.run t = (.ok path, u) ∧ path.size = times.length) ∨
      (¬ m'.Followable draws ∧ ∃ u,
        (m'.generate draws scenario : Modelling R S _).run.run t = (.error (.misuse .outOfRange), u))) ∧
      ((∀ a b : R, a ≤ b ∨ b ≤ a) → m'.Followable draws) := by
  have hgrid := hcalled.gridded hstart
  constructor
  · exact ends_generate hgrid hrun hdraws hsize
  · intro htotal
    exact followable_of_total htotal (gridded_of_init hgrid hrun) draws

theorem paths_end_where_followable_real : ∃ (start m : Model ℝ ℝ) (requests : List (Request ℝ)) (draws : Array ℝ)
    (scenario : Scenario ℝ), start.Fresh Unit ∧
      ((init [1, 1 + 1] requests : Preparing ℝ Unit (Model ℝ ℝ) Unit).run.run start).run () = ((.ok (), m), ()) ∧
      m.dimension ≤ draws.size ∧ scenario.size = 2 ∧ ∃ path u,
        (m.generate draws scenario : Modelling ℝ Unit _).run.run () = (.ok path, u) ∧ path.size = 2 := by
  obtain ⟨made, hmade⟩ : ∃ made, LocalVol.ofGrid (1 : ℝ) 0 0 #[1, 1 + 1] #[0] #[1, 1] = .ok made := by
    simp only [LocalVol.ofGrid, LocalVol.checkGrid, LocalVol.isIncreasing, scalar_zero]
    simp
    exact ⟨_, rfl⟩
  have hgrid := (LocalVol.Made.ofGrid hmade).gridded_lift pure ()
  have hfresh : (localVol ((made.lift pure).run ()).1).Fresh Unit := .localVol (.ofGrid hmade) pure ()
  have hrefusal : refusal (@OfNat.ofNat ℝ 0 (Scalar.instOfNat 0)) ([1, 1 + 1].zip [plainRequest, plainRequest]) =
      none := by
    simp only [List.zip_cons_cons, List.zip_nil_left, refusal, scalar_zero, checkEvent_plainRequest zero_le_one,
      checkEvent_plainRequest (le_add_of_nonneg_left zero_le_one)]
  obtain ⟨lv, _, hinit⟩ := hgrid.exists_init_ok le_total rfl hrefusal ()
  let draws : Array ℝ := Array.replicate lv.dimension 1
  have hdraws : (localVol lv).dimension ≤ draws.size := Array.size_replicate.ge
  let scenario : Scenario ℝ := #[⟨0, 0, #[], #[]⟩, ⟨0, 0, #[], #[]⟩]
  have hsize : scenario.size = [(1 : ℝ), 1 + 1].length := rfl
  obtain ⟨hends, htotal⟩ := paths_end_where_followable hfresh .start (run_init_localVol hinit) hdraws hsize
  obtain ⟨-, hok⟩ | ⟨hnot, -⟩ := hends ()
  · exact ⟨_, _, _, draws, scenario, hfresh, run_init_localVol hinit, hdraws, rfl, hok⟩
  · exact absurd (htotal le_total) hnot

end Model

end PayoffPricing
