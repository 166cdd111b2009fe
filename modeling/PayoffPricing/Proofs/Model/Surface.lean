import PayoffPricing.Proofs.Model.Grid
import PayoffPricing.Proofs.Model.Prototype
import PayoffPricing.Proofs.Model.Timeline
/-!
The volatility surface in exact arithmetic. What is prepared for a step interpolates over time first and is scaled
before it is interpolated over spots; the volatility is the same as if it were read off the surface when it is needed.
-/

namespace PayoffPricing

open Modelling

theorem Tiles.start_eq {a b : ℝ} {xs : List (ℝ × ℝ)} (h : Tiles a xs b) {k : Nat} {step : ℝ × ℝ}
    (hstep : xs[k]? = some step) : step.1 = a + ((xs.map Prod.snd).take k).sum := by
  induction h generalizing k with
  | nil => cases hstep
  | cons hpos h ih =>
    cases k with
    | zero =>
      cases hstep
      simp
    | succ k =>
      rw [ih hstep, List.map_cons, List.take_succ_cons, List.sum_cons, add_assoc]

theorem reads_of_forall₂ {T : Type} [Valued ℝ T] {n : Nat} {f : Nat → ℝ} {ys : List T}
    (h : List.Forall₂ (fun i y => Valued.value y = f i) (List.range n) ys) : Reads ys.toArray n f := by
  have hlength := h.length_eq
  rw [List.length_range] at hlength
  constructor
  · rw [List.size_toArray, hlength]
  · intro i y hy
    rw [List.getElem?_toArray] at hy
    obtain ⟨hi, rfl⟩ := List.getElem?_eq_some_iff.1 hy
    have hvalue := h.get (by simpa [hlength] using hi) hi
    simpa using hvalue

namespace LocalVol

/-- A model with quantities for checked parameters, whatever it was prepared for before. -/
def Accepted (S : Type) {T : Type} [Quantity ℝ S T] (m : LocalVol ℝ T) : Prop :=
  ∃ made, Made made ∧ ∃ (f : ℝ → StateM S T) (s : S), (∀ c t, Valued.value ((f c).run t).1 = c) ∧
    (Model.localVol m).fresh = .localVol ((made.lift f).run s).1

structure Surface {T : Type} (m : LocalVol ℝ T) : Prop where
  spots : m.spots.toList.Pairwise (· < ·)
  positive : ∀ spot ∈ m.spots, 0 < spot
  size_spots : 0 < m.spots.size
  logSpots : m.logSpots = m.spots.map Real.log
  times : m.times.toList.Pairwise (· < ·)
  size_times : 0 < m.times.size
  size_vols : m.vols.size = m.spots.size * m.times.size

section Acceptance

variable {S T T' : Type}

theorem Surface.of_same {m : LocalVol ℝ T} {m' : LocalVol ℝ T'} (h : m.Surface)
    (hsame : (m'.spots, m'.logSpots, m'.times, m'.vols.size) = (m.spots, m.logSpots, m.times, m.vols.size)) :
    m'.Surface := by
  simp only [Prod.mk.injEq] at hsame
  obtain ⟨hspots, hlogs, htimes, hvols⟩ := hsame
  constructor
  · exact hspots ▸ h.spots
  · exact hspots ▸ h.positive
  · exact hspots ▸ h.size_spots
  · rw [hlogs, hspots, h.logSpots]
  · exact htimes ▸ h.times
  · exact htimes ▸ h.size_times
  · rw [hvols, hspots, htimes, h.size_vols]

theorem Surface.gridded {m : LocalVol ℝ T} (h : m.Surface) : m.Gridded where
  spots := h.size_spots
  times := h.size_times
  logSpots := by rw [h.logSpots, Array.size_map]
  vols := h.size_vols

theorem pairwise_of_isIncreasing {grid : List ℝ} (h : isIncreasing grid = true) : grid.Pairwise (· < ·) := by
  apply List.IsChain.pairwise
  induction grid with
  | nil => exact List.isChain_nil
  | cons a rest ih =>
    cases rest with
    | nil => exact List.isChain_singleton a
    | cons b rest =>
      simp only [isIncreasing, Bool.and_eq_true, decide_eq_true_eq] at h
      exact List.isChain_cons_cons.2 ⟨h.1, ih h.2⟩

theorem increasing_of_checkGrid {name : String} {grid : List ℝ} {starts : ℝ → Bool} {rule : ParameterRule} {u : Unit}
    (h : checkGrid name grid starts rule = .ok u) :
    0 < grid.length ∧ grid.Pairwise (· < ·) ∧ ∀ first ∈ grid.head?, starts first = true := by
  cases grid with
  | nil => cases h
  | cons first rest =>
    simp only [checkGrid] at h
    split at h
    · next hcheck =>
      simp only [Bool.and_eq_true] at hcheck
      exact ⟨Nat.succ_pos _, pairwise_of_isIncreasing hcheck.1.1, by simpa using hcheck.2⟩
    · cases h

theorem Made.surface {m : LocalVol ℝ ℝ} (h : Made m) : m.Surface := by
  obtain ⟨hpos, hincreasing, hfirst⟩ := increasing_of_checkGrid h.checked.spots
  obtain ⟨hpos', hincreasing', -⟩ := increasing_of_checkGrid h.checked.times
  refine ⟨hincreasing, ?_, hpos, h.checked.logSpots, hincreasing', hpos', h.checked.vols⟩
  -- all spots are above the first one
  intro spot hspot
  obtain ⟨first, rest, hlist⟩ := List.exists_cons_of_length_pos hpos
  rw [hlist] at hfirst hincreasing
  have hstarts : 0 < first := by simpa [scalar_zero] using hfirst
  have hmem : spot ∈ first :: rest := hlist ▸ Array.mem_toList_iff.2 hspot
  rcases List.mem_cons.1 hmem with rfl | hmem
  · exact hstarts
  · exact hstarts.trans (List.rel_of_pairwise_cons hincreasing hmem)

theorem Made.maxStep_pos {m : LocalVol ℝ ℝ} (h : Made m) : 0 < m.maxStep := by
  rcases h.checked.maxStep with hstep | hstep
  · rw [hstep]
    change (0 : ℝ) < (25 : ℕ) * 10 ^ (-2 : ℤ)
    positivity
  · exact scalar_zero (R := ℝ) ▸ hstep

theorem Made.spot_pos {m : LocalVol ℝ ℝ} (h : Made m) : 0 < m.spot := scalar_zero (R := ℝ) ▸ h.checked.spot

theorem Accepted.surface [Quantity ℝ S T] {m : LocalVol ℝ T} (h : m.Accepted S) : m.Surface := by
  obtain ⟨made, hmade, f, s, -, hm⟩ := h
  have hfresh := Model.localVol.inj hm
  have hlift : ((made.lift f).run s).1.vols.size = made.vols.size := by
    rw [(hmade.gridded_lift f s).vols, hmade.gridded.vols]
    rfl
  have hgrid : (m.spots, m.logSpots, m.times) = (made.spots, made.logSpots, made.times) :=
    congrArg (fun m => (m.spots, m.logSpots, m.times)) hfresh
  have hsize : m.vols.size = made.vols.size := (congrArg (fun m => m.vols.size) hfresh).trans hlift
  simp only [Prod.mk.injEq] at hgrid
  apply hmade.surface.of_same
  rw [hgrid.1, hgrid.2.1, hgrid.2.2, hsize]

theorem Accepted.maxStep_pos [Quantity ℝ S T] {m : LocalVol ℝ T} (h : m.Accepted S) : 0 < m.maxStep := by
  obtain ⟨made, hmade, f, s, -, hm⟩ := h
  have hstep : m.maxStep = made.maxStep := congrArg LocalVol.maxStep (Model.localVol.inj hm)
  rw [hstep]
  exact hmade.maxStep_pos

theorem Accepted.spot_pos [Quantity ℝ S T] {m : LocalVol ℝ T} (h : m.Accepted S) : 0 < (Valued.value m.spot : ℝ) := by
  obtain ⟨made, hmade, f, s, hf, hm⟩ := h
  have hspot : m.spot = ((f made.spot).run s).1 := congrArg LocalVol.spot (Model.localVol.inj hm)
  rw [hspot, hf]
  exact hmade.spot_pos

theorem Made.accepted {m : LocalVol ℝ ℝ} (h : Made m) : m.Accepted Unit :=
  ⟨m, h, pure, (), fun _ _ => rfl, (congrArg (fun a => (a.run ()).1) (Model.lift_pure (S := Unit) (.localVol m))).symm⟩

end Acceptance

noncomputable def entry {T : Type} [Valued ℝ T] (m : LocalVol ℝ T) (i j : Nat) : ℝ :=
  ((m.vols[i * m.times.size + j]?).map Valued.value).getD 0

section Readings

variable {S T : Type} {m : LocalVol ℝ T}

theorem Surface.reads_row [Valued ℝ T] (h : m.Surface) {i : Nat} (hi : i < m.spots.size) :
    Reads (m.row i) m.times.size (m.entry i) := by
  have hsize := h.gridded.size_row hi
  refine ⟨hsize, ?_⟩
  intro j y hy
  obtain ⟨hj, rfl⟩ := Array.getElem?_eq_some_iff.1 hy
  have hplace : i * m.times.size + j < m.vols.size := by
    have hle := Nat.mul_le_mul_right m.times.size hi
    rw [hsize] at hj
    rw [Nat.succ_mul, ← h.size_vols] at hle
    omega
  simp only [row, Array.getElem_extract, entry, Array.getElem?_eq_getElem hplace, Option.map_some, Option.getD_some]

variable [Quantity ℝ S T] [Transparent ℝ S T]

/-- The stand of a time serves the columns of the surface, and what is prepared for a step that starts then. -/
theorem Surface.exists_stand_time (h : m.Surface) (time : ℝ) : ∃ q : Stand m.times.size, Suits m.times time q ∧
    Gives (m.column time : Modelling ℝ S (List T))
      (fun column => Reads column.toArray m.spots.size fun i => q.mix (m.entry i)) ∧
    ∀ length, Gives (m.stepDeviations time length : Modelling ℝ S (Array T)) fun deviations =>
      Reads deviations m.spots.size fun i => q.mix (m.entry i) * Real.sqrt length := by
  obtain ⟨q, hsuits, hgives⟩ := exists_stand h.times h.size_times time
  have hrow {i : Nat} (hi : i ∈ List.range m.spots.size) :
      Gives (interpolate m.times (m.row i) (Valued.constant time) : Modelling ℝ S T) fun y =>
        Valued.value y = q.mix (m.entry i) :=
    hgives (h.reads_row (List.mem_range.1 hi)) (Transparent.value_constant (S := S) time)
  refine ⟨q, hsuits, ?_, ?_⟩
  · apply (gives_mapM fun i hi => hrow hi).imp
    intro column hcolumn
    exact reads_of_forall₂ hcolumn
  · intro length
    have hscaled (i : Nat) (hi : i ∈ List.range m.spots.size) : Gives (do
        let vol ← interpolate m.times (m.row i) (Valued.constant time)
        Modelling.record (Quantity.mulScalar vol (Scalar.sqrt length)) : Modelling ℝ S T)
          fun y => Valued.value y = q.mix (m.entry i) * Real.sqrt length := by
      apply (hrow hi).bind
      intro vol hvol
      apply gives_record
      intro s
      rw [Transparent.value_mulScalar, hvol]
      rfl
    apply (gives_mapM hscaled).bind
    intro column hcolumn
    exact gives_pure (reads_of_forall₂ hcolumn)

/-- The stand of a spot serves whatever is tabulated over the spots. -/
theorem Surface.exists_stand_spot (h : m.Surface) (spot : ℝ) : ∃ p : Stand m.logSpots.size,
    Suits m.logSpots (Real.log spot) p ∧ ∀ {values : Array T} {f : Nat → ℝ} {x : T}, Reads values m.spots.size f →
      Valued.value x = Real.log spot →
        Gives (interpolate m.logSpots values x : Modelling ℝ S T) fun y => Valued.value y = p.mix f := by
  have hsize : m.logSpots.size = m.spots.size := by rw [h.logSpots, Array.size_map]
  have hincreasing : m.logSpots.toList.Pairwise (· < ·) := by
    rw [h.logSpots, Array.toList_map, List.pairwise_map]
    apply h.spots.imp_of_mem
    intro a b ha _ hlt
    exact Real.log_lt_log (h.positive a (Array.mem_toList_iff.1 ha)) hlt
  obtain ⟨p, hsuits, hgives⟩ := exists_stand hincreasing (hsize ▸ h.size_spots) (Real.log spot)
  refine ⟨p, hsuits, ?_⟩
  intro values f x hreads hx
  exact hgives (hsize ▸ hreads) hx

end Readings

/-- A function of spot and time is the surface: at nodes it is what is given there, and it is constant beyond the
edges of the grid. -/
structure Extends {T : Type} [Valued ℝ T] (m : LocalVol ℝ T) (σ : ℝ → ℝ → ℝ) : Prop where
  bounds : ∀ low high, (∀ vol ∈ m.vols, low ≤ Valued.value vol ∧ Valued.value vol ≤ high) →
    ∀ spot time, low ≤ σ spot time ∧ σ spot time ≤ high
  nodes : ∀ i j, ∀ hi : i < m.spots.size, ∀ hj : j < m.times.size,
    ∃ vol, m.vols[i * m.times.size + j]? = some vol ∧ σ m.spots[i] m.times[j] = Valued.value vol
  below : ∀ first ∈ m.spots[0]?, ∀ spot time, 0 < spot → spot ≤ first → σ spot time = σ first time
  above : ∀ last ∈ m.spots.back?, ∀ spot time, last ≤ spot → σ spot time = σ last time
  before : ∀ first ∈ m.times[0]?, ∀ spot time, time ≤ first → σ spot time = σ spot first
  after : ∀ last ∈ m.times.back?, ∀ spot time, last ≤ time → σ spot time = σ spot last

theorem Surface.extends {T : Type} [Valued ℝ T] {m : LocalVol ℝ T} (h : m.Surface) {p : ℝ → Stand m.logSpots.size}
    (hp : ∀ spot, Suits m.logSpots (Real.log spot) (p spot)) {q : ℝ → Stand m.times.size}
    (hq : ∀ time, Suits m.times time (q time)) :
    m.Extends fun spot time => (p spot).mix fun i => (q time).mix (m.entry i) := by
  have hsize : m.logSpots.size = m.spots.size := by rw [h.logSpots, Array.size_map]
  have hentry {i j : Nat} (hi : i < m.spots.size) (hj : j < m.times.size) :
      ∃ vol, m.vols[i * m.times.size + j]? = some vol ∧ m.entry i j = Valued.value vol := by
    have hplace : i * m.times.size + j < m.vols.size := by
      rw [h.size_vols]
      have hle := Nat.mul_le_mul_right m.times.size (Nat.succ_le_of_lt hi)
      rw [Nat.succ_mul] at hle
      omega
    refine ⟨m.vols[i * m.times.size + j], Array.getElem?_eq_getElem hplace, ?_⟩
    simp only [entry, Array.getElem?_eq_getElem hplace, Option.map_some, Option.getD_some]
  constructor
  case bounds =>
    intro low high hvols spot time
    apply (p spot).mix_mem
    intro i hi
    apply (q time).mix_mem
    intro j hj
    obtain ⟨vol, hvol, heq⟩ := hentry (hsize ▸ hi) hj
    rw [heq]
    exact hvols vol (Array.mem_of_getElem? hvol)
  case nodes =>
    intro i j hi hj
    obtain ⟨vol, hvol, heq⟩ := hentry hi hj
    refine ⟨vol, hvol, ?_⟩
    have hplace : i < m.logSpots.size := hsize ▸ hi
    have hlog : m.logSpots[i] = Real.log m.spots[i] := by simp only [h.logSpots, Array.getElem_map]
    rw [(hp m.spots[i]).node i hplace hlog, (hq m.times[j]).node j hj rfl, heq]
  case below =>
    intro first hfirst spot time hpos hle
    have hedge : Real.log first ∈ m.logSpots[0]? := by
      rw [h.logSpots, Array.getElem?_map, hfirst]
      rfl
    rw [(hp spot).below _ hedge (Real.log_le_log hpos hle), (hp first).below _ hedge le_rfl]
  case above =>
    intro last hlast spot time hle
    have hedge : Real.log last ∈ m.logSpots.back? := by
      rw [h.logSpots, Array.back?_map, hlast]
      rfl
    have hpos := h.positive last (Array.mem_of_back? hlast)
    rw [(hp spot).above _ hedge (Real.log_le_log hpos hle), (hp last).above _ hedge le_rfl]
  case before =>
    intro first hfirst spot time hle
    congr 1
    funext i
    rw [(hq time).below first hfirst hle, (hq first).below first hfirst le_rfl]
  case after =>
    intro last hlast spot time hle
    congr 1
    funext i
    rw [(hq time).above last hlast hle, (hq last).above last hlast le_rfl]

theorem eq_of_getElem?_lengths {T : Type} {m : LocalVol ℝ T} {times : List ℝ} {steps : List (ℝ × ℝ)}
    (h : m.Refines times steps) {k : Nat} {length : ℝ} (hlength : m.lengths[k]? = some length) :
    steps[k]? = some ((m.lengths.toList.take k).sum, length) := by
  rw [← Array.getElem?_toList, h.lengths, List.getElem?_map, Option.map_eq_some_iff] at hlength
  obtain ⟨step, hstep, rfl⟩ := hlength
  have hstart := h.tiles.start_eq hstep
  rw [zero_add, ← h.lengths] at hstart
  rw [hstep, ← hstart]

/-- What is prepared for a step is the surface at its start. At any spot, the deviation interpolated from it is the
volatility there, scaled by the root of the length of the step; and the volatility is between those of the grid,
takes them at its nodes, and is constant beyond its edges. -/
theorem prepared_rows_are_surface {S T : Type} [Quantity ℝ S T] [Transparent ℝ S T] {m m' : LocalVol ℝ T}
    (hm : m.Accepted S) {times : List ℝ} {requests : List (Request ℝ)} {s s' : S}
    (h : ((init times requests : Preparing ℝ S (LocalVol ℝ T) Unit).run.run m).run s = ((.ok (), m'), s')) :
    ∃ σ : ℝ → ℝ → ℝ, m'.Extends σ ∧
      (∀ spot time, 0 < spot →
        Gives (m'.volAt spot time : Modelling ℝ S T) fun vol => Valued.value vol = σ spot time) ∧
      ∀ k length, m'.lengths[k]? = some length → ∃ row, m'.deviations[k]? = some row ∧
        ∀ spot, 0 < spot → ∀ x, Valued.value x = Real.log spot →
          Gives (interpolate m'.logSpots row x : Modelling ℝ S T) fun deviation =>
            Valued.value deviation = σ spot (m'.lengths.toList.take k).sum * Real.sqrt length := by
  obtain ⟨hcount, hrefusal, os, t, rows, hos, -, hrows, rfl⟩ := exists_of_init_ok m h
  rw [scalar_zero] at hrefusal hrows
  obtain ⟨hlength, hsizes⟩ := size_of_perStep_ok hrows
  have hrefines := m.refines_filled hm.maxStep_pos (isChain_of_accepted hcount hrefusal) hos hlength hsizes
  have hsurface : (m.filled times os rows).Surface := hm.surface.of_same rfl
  choose p hp hspot using hsurface.exists_stand_spot (S := S)
  choose q hq hcolumn hdeviations using hsurface.exists_stand_time (S := S)
  refine ⟨fun spot time => (p spot).mix fun i => (q time).mix ((m.filled times os rows).entry i), ?_, ?_, ?_⟩
  · exact hsurface.extends hp hq
  · intro spot time _
    apply (hcolumn time).bind
    intro column hreads
    exact hspot spot hreads (Transparent.value_constant (S := S) _)
  · intro k length hstep
    -- the row and the step that it was made for
    obtain ⟨hk, hstep⟩ := List.getElem?_eq_some_iff.1 (eq_of_getElem?_lengths hrefines hstep)
    have hall := forall₂_of_perStep_ok hrows
    have hk' : k < rows.length := hall.length_eq ▸ hk
    obtain ⟨u, v, hrow⟩ := hall.get hk hk'
    rw [List.get_eq_getElem, List.get_eq_getElem, hstep] at hrow
    have hreads := (hdeviations _ length).of_ok hrow
    refine ⟨rows[k].1, ?_, ?_⟩
    · rw [← Array.getElem?_toList, filled, List.getElem?_map, List.getElem?_eq_getElem hk', Option.map_some]
    · intro spot _ x hx
      apply (hspot spot hreads hx).imp
      intro deviation hdeviation
      rw [hdeviation, Stand.mix_mul]

theorem prepared_rows_are_surface_bilinear : ∃ (m m' : LocalVol ℝ ℝ) (requests : List (Request ℝ)), m.Accepted Unit ∧
    ((init [0, 1 / 2, 2] requests : Preparing ℝ Unit (LocalVol ℝ ℝ) Unit).run.run m).run () = ((.ok (), m'), ()) ∧
    ∃ σ : ℝ → ℝ → ℝ, m'.Extends σ ∧
      (∀ spot time, 0 < spot → Gives (m'.volAt spot time : Modelling ℝ Unit ℝ) fun vol => vol = σ spot time) ∧
      ∀ k length, m'.lengths[k]? = some length → ∃ row, m'.deviations[k]? = some row ∧
        ∀ spot, 0 < spot → ∀ x, x = Real.log spot →
          Gives (interpolate m'.logSpots row x : Modelling ℝ Unit ℝ) fun deviation =>
            deviation = σ spot (m'.lengths.toList.take k).sum * Real.sqrt length := by
  obtain ⟨m, hm⟩ : ∃ m, ofGrid (100 : ℝ) 0 0 #[80, 125] #[0, 1] #[1 / 10, 3 / 10, 2 / 10, 4 / 10] = .ok m := by
    have hspots : (80 : ℝ) < 125 := by norm_num
    have htimes : (0 : ℝ) < 1 := by norm_num
    simp only [ofGrid, checkGrid, isIncreasing, scalar_zero]
    norm_num
    exact ⟨_, rfl⟩
  have haccepted : m.Accepted Unit := (Made.ofGrid hm).accepted
  let requests : List (Request ℝ) := [⟨true, #[], #[]⟩, ⟨true, #[1], #[]⟩, ⟨true, #[], #[2]⟩]
  have hrefusal : refusal (@OfNat.ofNat ℝ 0 (Scalar.instOfNat 0)) ([0, 1 / 2, 2].zip requests) = none := by
    simp only [requests, List.zip_cons_cons, List.zip_nil_left, refusal, checkEvent, Request.validate, scalar_zero]
    norm_num
  obtain ⟨m', s', h⟩ := haccepted.surface.gridded.exists_init_ok (S := Unit) le_total rfl hrefusal ()
  exact ⟨m, m', requests, haccepted, h, prepared_rows_are_surface haccepted h⟩

end LocalVol

end PayoffPricing
