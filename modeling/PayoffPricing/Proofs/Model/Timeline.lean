import PayoffPricing.Proofs.Model.FlatSurface
/-!
The steps of a timeline in exact arithmetic. Every gap between two events is cut into equal steps, and the steps of
all gaps cover the time up to the last event.
-/

namespace PayoffPricing

/-- Steps, with starts and lengths, each of which starts where the one before ends. -/
inductive Tiles : ℝ → List (ℝ × ℝ) → ℝ → Prop
  | nil (time : ℝ) : Tiles time [] time
  | cons {start length stop : ℝ} {steps : List (ℝ × ℝ)} (hpos : 0 < length)
      (h : Tiles (start + length) steps stop) : Tiles start ((start, length) :: steps) stop

namespace Tiles

variable {a b c : ℝ} {xs ys : List (ℝ × ℝ)}

theorem append (hx : Tiles a xs b) (hy : Tiles b ys c) : Tiles a (xs ++ ys) c := by
  induction hx with
  | nil => exact hy
  | cons hpos _ ih => exact cons hpos (ih hy)

theorem sum_lengths (h : Tiles a xs b) : a + (xs.map Prod.snd).sum = b := by
  induction h with
  | nil time => rw [List.map_nil, List.sum_nil, add_zero]
  | cons _ _ ih => rw [List.map_cons, List.sum_cons, ← add_assoc, ih]

theorem pos (h : Tiles a xs b) : ∀ step ∈ xs, 0 < step.2 := by
  induction h with
  | nil => simp
  | cons hpos _ ih => exact List.forall_mem_cons.2 ⟨hpos, ih⟩

theorem le (h : Tiles a xs b) : a ≤ b := by
  induction h with
  | nil => exact le_rfl
  | cons hpos _ ih => linarith

theorem lt_end (h : Tiles a xs b) : ∀ step ∈ xs, a < step.1 + step.2 := by
  induction h with
  | nil => simp
  | @cons start length stop steps hpos h ih =>
    refine List.forall_mem_cons.2 ⟨?_, ?_⟩
    · exact lt_add_of_pos_right start hpos
    · intro step hstep
      exact (lt_add_of_pos_right start hpos).trans (ih step hstep)

theorem end_le (h : Tiles a xs b) : ∀ step ∈ xs, step.1 + step.2 ≤ b := by
  induction h with
  | nil => simp
  | cons _ h ih => exact List.forall_mem_cons.2 ⟨h.le, ih⟩

/-- The steps that end before a time, when it is between two steps. -/
theorem countP_append (hx : Tiles a xs b) (hy : Tiles b ys c) :
    (xs ++ ys).countP (fun step => step.1 + step.2 ≤ b) = xs.length := by
  have hbefore : xs.countP (fun step => decide (step.1 + step.2 ≤ b)) = xs.length := by
    apply List.countP_eq_length.2
    intro step hstep
    exact decide_eq_true (hx.end_le step hstep)
  have hafter : ys.countP (fun step => decide (step.1 + step.2 ≤ b)) = 0 := by
    apply List.countP_eq_zero.2
    intro step hstep
    simpa using hy.lt_end step hstep
  rw [List.countP_append, hbefore, hafter, add_zero]

theorem range {length : ℝ} (hpos : 0 < length) (start : ℝ) (n : Nat) :
    Tiles start ((List.range n).map fun k : Nat => (start + k * length, length)) (start + n * length) := by
  induction n with
  | zero => simpa using nil start
  | succ n ih =>
    have hlast : Tiles (start + n * length) [(start + n * length, length)] (start + n * length + length) :=
      cons hpos (nil _)
    have hend : start + ((n + 1 : Nat) : ℝ) * length = start + n * length + length := by
      push_cast
      ring
    rw [List.range_succ, List.map_append, hend]
    exact ih.append hlast

end Tiles

theorem isChain_of_refusal {previous : ℝ} {events : List (ℝ × Request ℝ)} (h : refusal previous events = none) :
    (previous :: events.map Prod.fst).IsChain (· ≤ ·) := by
  induction events generalizing previous with
  | nil => exact List.isChain_singleton previous
  | cons event events ih =>
    obtain ⟨time, request⟩ := event
    cases hcheck : checkEvent previous time request with
    | error e => simp [refusal, hcheck] at h
    | ok _ =>
      simp only [refusal, hcheck] at h
      rw [List.map_cons, List.isChain_cons_cons]
      exact ⟨checkEvent_le hcheck, ih h⟩

theorem isChain_of_accepted {times : List ℝ} {requests : List (Request ℝ)} (hcount : times.length = requests.length)
    (h : refusal 0 (times.zip requests) = none) : (0 :: times).IsChain (· ≤ ·) := by
  have hchain := isChain_of_refusal h
  rw [List.map_fst_zip (Nat.le_of_eq hcount)] at hchain
  exact hchain

namespace LocalVol

section Cut

variable {T : Type} (m : LocalVol ℝ T)

theorem cut_eq_range (previous : ℝ) {gap : ℝ} (hgap : 0 < gap) : m.cut previous gap =
    (List.range (m.stepCount gap)).map fun k : Nat =>
      (previous + k * (gap / m.stepCount gap), gap / m.stepCount gap) := by
  rw [← scalar_zero] at hgap
  rw [cut, if_pos hgap]
  rfl

theorem cut_eq_nil (previous : ℝ) : m.cut previous 0 = [] := by
  rw [← scalar_zero, cut, if_neg (lt_irrefl _)]

theorem one_le_stepCount (gap : ℝ) : 1 ≤ m.stepCount gap := le_max_left _ _

theorem div_stepCount_le (hmax : 0 < m.maxStep) (gap : ℝ) : gap / m.stepCount gap ≤ m.maxStep := by
  have hcount : gap / m.maxStep ≤ m.stepCount gap := by
    apply (Nat.le_ceil (gap / m.maxStep)).trans
    exact Nat.cast_le.2 (le_max_right _ _)
  have hpos : (0 : ℝ) < m.stepCount gap := Nat.cast_pos.2 (m.one_le_stepCount gap)
  rw [div_le_iff₀ hpos, mul_comm]
  exact (div_le_iff₀ hmax).1 hcount

theorem tiles_cut (previous : ℝ) {gap : ℝ} (hgap : 0 ≤ gap) : Tiles previous (m.cut previous gap) (previous + gap) := by
  rcases hgap.eq_or_lt with rfl | hgap
  · rw [cut_eq_nil, add_zero]
    exact Tiles.nil previous
  · have hpos : (0 : ℝ) < m.stepCount gap := Nat.cast_pos.2 (m.one_le_stepCount gap)
    have htiles := Tiles.range (div_pos hgap hpos) previous (m.stepCount gap)
    rw [mul_div_cancel₀ gap hpos.ne'] at htiles
    rw [cut_eq_range m previous hgap]
    exact htiles

theorem eq_of_mem_cut {previous gap : ℝ} (hgap : 0 ≤ gap) :
    ∀ step ∈ m.cut previous gap, step.2 = gap / m.stepCount gap := by
  rcases hgap.eq_or_lt with rfl | hgap
  · simp [cut_eq_nil]
  · rw [cut_eq_range m previous hgap]
    simp

theorem tiles_stepsFrom {previous : ℝ} {times : List ℝ} (h : (previous :: times).IsChain (· ≤ ·)) :
    Tiles previous (m.stepsFrom previous times) (times.getLastD previous) := by
  induction times generalizing previous with
  | nil => exact Tiles.nil previous
  | cons time times ih =>
    obtain ⟨hle, h⟩ := List.isChain_cons_cons.1 h
    have hcut := m.tiles_cut previous (sub_nonneg.2 hle)
    rw [add_sub_cancel] at hcut
    rw [stepsFrom, List.getLastD_cons]
    exact hcut.append (ih h)

theorem le_maxStep_of_mem (hmax : 0 < m.maxStep) {previous : ℝ} {times : List ℝ}
    (h : (previous :: times).IsChain (· ≤ ·)) : ∀ step ∈ m.stepsFrom previous times, step.2 ≤ m.maxStep := by
  induction times generalizing previous with
  | nil => simp [stepsFrom]
  | cons time times ih =>
    obtain ⟨hle, h⟩ := List.isChain_cons_cons.1 h
    rw [stepsFrom, List.forall_mem_append]
    constructor
    · intro step hstep
      rw [m.eq_of_mem_cut (sub_nonneg.2 hle) step hstep]
      exact m.div_stepCount_le hmax _
    · exact ih h

theorem reach_filled_real {times : List ℝ} {os : List (Observables T)} (h : os.length = times.length)
    (rows : List (Array T × T)) {j : Nat} (hj : j ≤ times.length) :
    (m.filled times os rows).reach j = (m.stepsFrom 0 (times.take j)).length := by
  rw [m.reach_filled h rows hj, scalar_zero]

end Cut

structure Refines {T : Type} (m : LocalVol ℝ T) (times : List ℝ) (steps : List (ℝ × ℝ)) : Prop where
  lengths : m.lengths.toList = steps.map Prod.snd
  tiles : Tiles 0 steps (times.getLastD 0)
  bounds : ∀ step ∈ steps, 0 < step.2 ∧ step.2 ≤ m.maxStep
  fixtures : m.fixtures.length = times.length
  even : ∀ j < times.length, ∃ length, ∀ k, m.reach j ≤ k → k < m.reach (j + 1) → m.lengths[k]? = some length
  counts : ∀ j, ∀ hj : j < times.length, m.reach (j + 1) = steps.countP fun step => step.1 + step.2 ≤ times[j]
  sums : ∀ j, ∀ hj : j < times.length, (m.lengths.toList.take (m.reach (j + 1))).sum = times[j]
  monotone : ∀ j < times.length, m.reach j ≤ m.reach (j + 1)
  dimension : m.dimension = steps.length
  deviations : m.deviations.size = m.dimension
  rows : ∀ row ∈ m.deviations, row.size = m.spots.size
  drifts : m.drifts.size = m.dimension

section Refines

variable {T : Type} {m : LocalVol ℝ T}

theorem stepsFrom_concat (m : LocalVol ℝ T) (previous : ℝ) (before : List ℝ) (time : ℝ) :
    m.stepsFrom previous (before ++ [time]) = m.stepsFrom previous before ++
      m.cut (before.getLastD previous) (time - before.getLastD previous) := by
  rw [stepsFrom_append, stepsFrom, stepsFrom, List.append_nil]

theorem stepsFrom_split (m : LocalVol ℝ T) (previous : ℝ) (before : List ℝ) (time : ℝ) (after : List ℝ) :
    m.stepsFrom previous (before ++ time :: after) =
      m.stepsFrom previous (before ++ [time]) ++ m.stepsFrom time after := by
  rw [List.append_cons, stepsFrom_append, List.getLastD_concat]

/-- The steps up to an event end at its time, and the other ones start there. -/
theorem tiles_split {before after : List ℝ} {time : ℝ} (h : (0 :: (before ++ time :: after)).IsChain (· ≤ ·)) :
    Tiles 0 (m.stepsFrom 0 (before ++ [time])) time ∧ 0 ≤ time - before.getLastD 0 ∧
      Tiles time (m.stepsFrom time after) (after.getLastD time) := by
  rw [← List.cons_append, List.isChain_split] at h
  obtain ⟨hbefore, hafter⟩ := h
  refine ⟨?_, ?_, m.tiles_stepsFrom hafter⟩
  · rw [List.cons_append] at hbefore
    have htiles := m.tiles_stepsFrom hbefore
    rw [List.getLastD_concat] at htiles
    exact htiles
  · rw [sub_nonneg, List.getLastD_eq_getLast?]
    simpa [List.getLast?_cons] using (List.isChain_append.1 hbefore).2.2

theorem countP_stepsFrom {before after : List ℝ} {time : ℝ} (h : (0 :: (before ++ time :: after)).IsChain (· ≤ ·)) :
    (m.stepsFrom 0 (before ++ time :: after)).countP (fun step => step.1 + step.2 ≤ time) =
      (m.stepsFrom 0 (before ++ [time])).length := by
  obtain ⟨htiles, -, hlater⟩ := m.tiles_split h
  rw [stepsFrom_split]
  exact htiles.countP_append hlater

theorem sum_take_stepsFrom {before after : List ℝ} {time : ℝ} (h : (0 :: (before ++ time :: after)).IsChain (· ≤ ·)) :
    (((m.stepsFrom 0 (before ++ time :: after)).map Prod.snd).take (m.stepsFrom 0 (before ++ [time])).length).sum =
      time := by
  obtain ⟨htiles, -, -⟩ := m.tiles_split h
  -- tiles that start at 0 add up to where they end
  have hsum := htiles.sum_lengths
  rw [zero_add] at hsum
  rw [m.stepsFrom_split 0 before time after, ← List.map_take, List.take_left, hsum]

theorem getElem?_stepsFrom {before after : List ℝ} {time : ℝ} (h : (0 :: (before ++ time :: after)).IsChain (· ≤ ·))
    {k : Nat} (hle : (m.stepsFrom 0 before).length ≤ k) (hlt : k < (m.stepsFrom 0 (before ++ [time])).length) :
    ((m.stepsFrom 0 (before ++ time :: after)).map Prod.snd)[k]? =
      some ((time - before.getLastD 0) / m.stepCount (time - before.getLastD 0)) := by
  obtain ⟨-, hgap, -⟩ := m.tiles_split h
  rw [stepsFrom_split, List.getElem?_map, List.getElem?_append_left hlt]
  rw [stepsFrom_concat, List.length_append] at hlt
  have hk : k - (m.stepsFrom 0 before).length < (m.cut (before.getLastD 0) (time - before.getLastD 0)).length := by
    omega
  rw [stepsFrom_concat, List.getElem?_append_right hle, List.getElem?_eq_getElem hk, Option.map_some,
    m.eq_of_mem_cut hgap _ (List.getElem_mem hk)]

theorem refines_filled (hmax : 0 < m.maxStep) {times : List ℝ} (hchain : (0 :: times).IsChain (· ≤ ·))
    {os : List (Observables T)} (hos : os.length = times.length) {rows : List (Array T × T)}
    (hrows : rows.length = (m.stepsFrom 0 times).length) (hsizes : ∀ row ∈ rows, row.1.size = m.spots.size) :
    (m.filled times os rows).Refines times (m.stepsFrom 0 times) := by
  have hlengths : (m.filled times os rows).lengths.toList = (m.stepsFrom 0 times).map Prod.snd := by
    rw [← scalar_zero]
    rfl
  have hdimension : (m.filled times os rows).dimension = (m.stepsFrom 0 times).length := by
    rw [dimension, ← Array.length_toList, hlengths, List.length_map]
  -- the timeline around an event
  have hsplit {j : Nat} (hj : j < times.length) : times.take j ++ times[j] :: times.drop (j + 1) = times := by
    rw [← List.drop_eq_getElem_cons, List.take_append_drop]
  have haround {j : Nat} (hj : j < times.length) :
      (0 :: (times.take j ++ times[j] :: times.drop (j + 1))).IsChain (· ≤ ·) := by
    rw [hsplit hj]
    exact hchain
  have hreach {j : Nat} (hj : j < times.length) :
      (m.filled times os rows).reach j = (m.stepsFrom 0 (times.take j)).length := m.reach_filled_real hos rows hj.le
  have hpast {j : Nat} (hj : j < times.length) :
      (m.filled times os rows).reach (j + 1) = (m.stepsFrom 0 (times.take j ++ [times[j]])).length := by
    rw [m.reach_filled_real hos rows hj, List.take_append_getElem]
  constructor
  case lengths => exact hlengths
  case tiles => exact m.tiles_stepsFrom hchain
  case bounds =>
    intro step hstep
    exact ⟨(m.tiles_stepsFrom hchain).pos step hstep, m.le_maxStep_of_mem hmax hchain step hstep⟩
  case fixtures =>
    rw [← m.length_fixturesFrom 0 0 hos, ← scalar_zero]
    rfl
  case even =>
    intro j hj
    let gap := times[j] - (times.take j).getLastD 0
    refine ⟨gap / m.stepCount gap, ?_⟩
    intro k hle hlt
    rw [hreach hj] at hle
    rw [hpast hj] at hlt
    have hlength := getElem?_stepsFrom (haround hj) hle hlt
    rw [hsplit hj, ← hlengths, Array.getElem?_toList] at hlength
    exact hlength
  case counts =>
    intro j hj
    have hcount := countP_stepsFrom (m := m) (haround hj)
    rw [hsplit hj] at hcount
    rw [hpast hj, hcount]
  case sums =>
    intro j hj
    have hsum := sum_take_stepsFrom (m := m) (haround hj)
    rw [hsplit hj] at hsum
    rw [hpast hj, hlengths, hsum]
  case monotone =>
    intro j hj
    rw [hreach hj, hpast hj, stepsFrom_concat, List.length_append]
    exact Nat.le_add_right _ _
  case dimension => exact hdimension
  case deviations => rw [hdimension, ← hrows, filled, List.size_toArray, List.length_map]
  case drifts => rw [hdimension, ← hrows, filled, List.size_toArray, List.length_map]
  case rows =>
    intro row hrow
    obtain ⟨r, hr, rfl⟩ := List.mem_map.1 (List.mem_toArray.1 hrow)
    exact hsizes r hr

end Refines

/-- The steps that a model prepares for an accepted timeline refine the timeline, and the deviations and the drifts
are those of these steps. -/
theorem prepared_steps_refine {S T : Type} [Quantity ℝ S T] {m m' : LocalVol ℝ T} (hmax : 0 < m.maxStep)
    {times : List ℝ} {requests : List (Request ℝ)} {s s' : S}
    (h : ((init times requests : Preparing ℝ S (LocalVol ℝ T) Unit).run.run m).run s = ((.ok (), m'), s')) :
    ∃ steps, m'.Refines times steps ∧ ∃ t rows, (m.perStep steps : Modelling ℝ S _).run.run t = (.ok rows, s') ∧
      (m'.deviations.toList, m'.drifts.toList) = rows.unzip := by
  obtain ⟨hcount, hrefusal, os, t, rows, hos, -, hrows, rfl⟩ := exists_of_init_ok m h
  rw [scalar_zero] at hrefusal hrows
  obtain ⟨hlength, hsizes⟩ := size_of_perStep_ok hrows
  have hrefines := m.refines_filled hmax (isChain_of_accepted hcount hrefusal) hos hlength hsizes
  refine ⟨m.stepsFrom 0 times, hrefines, t, rows, hrows, ?_⟩
  rw [List.unzip_eq_map]
  rfl

theorem prepared_steps_refine_quarterly : ∃ (m m' : LocalVol ℝ ℝ) (requests : List (Request ℝ)),
    (ofGrid (100 : ℝ) 0 0 #[50, 150] #[0] #[1 / 5, 1 / 5] >>= fun m => m.withMaxStep (1 / 4)) = .ok m ∧
      ((init [0, 1 / 10, 1] requests : Preparing ℝ Unit (LocalVol ℝ ℝ) Unit).run.run m).run () = ((.ok (), m'), ()) ∧
      ∃ steps, m'.Refines [0, 1 / 10, 1] steps ∧ ∃ t rows,
        (m.perStep steps : Modelling ℝ Unit _).run.run t = (.ok rows, ()) ∧
        (m'.deviations.toList, m'.drifts.toList) = rows.unzip := by
  obtain ⟨m, hm⟩ : ∃ m, (ofGrid (100 : ℝ) 0 0 #[50, 150] #[0] #[1 / 5, 1 / 5] >>=
      fun m => m.withMaxStep (1 / 4)) = .ok m := by
    have hgrid : (50 : ℝ) < 150 := by norm_num
    simp only [ofGrid, checkGrid, isIncreasing, withMaxStep, scalar_zero]
    simp [hgrid]
    exact ⟨_, rfl⟩
  obtain ⟨hflat, -, hmax, -⟩ := flat_of_ofGrid hm (by simp : ∀ v ∈ #[(1 / 5 : ℝ), 1 / 5], v = 1 / 5)
  let requests : List (Request ℝ) := [⟨true, #[], #[]⟩, ⟨true, #[1], #[]⟩, ⟨true, #[], #[2]⟩]
  have hrefusal : refusal 0 ([0, 1 / 10, 1].zip requests) = none := by
    simp only [requests, List.zip_cons_cons, List.zip_nil_left, refusal, checkEvent, Request.validate]
    norm_num
  obtain ⟨os, -, -, hrun⟩ := hflat.run_init rfl hrefusal
  have h := congrArg (fun a => a.run ()) hrun
  exact ⟨m, _, requests, hm, h, prepared_steps_refine hmax h⟩

end LocalVol

end PayoffPricing
