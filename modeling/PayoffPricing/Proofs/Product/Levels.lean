import PayoffPricing.Proofs.Product.Reuse
/-!
Levels of nesting. Smoothed runs set values aside at as many levels as conditional statements are nested, and analysis
makes the nesting no greater, so that the levels that an evaluator of a product is made with are enough for good.
-/

namespace PayoffPricing.Script

namespace Fuzzy

variable {R S T α β : Type} {n d d' d'' : Nat}

/-- What a run leaves of the levels at which values are set aside: those that there were, and others only up to `n`. -/
structure Stays (n : Nat) (s after : State T) : Prop where
  kept : s.levels.size ≤ after.levels.size
  levels : after.levels.size ≤ max s.levels.size n
  depth : after.depth ≤ n

/-- A run from the depth `d` enters no level but the first `n`, since all that are entered are there afterwards, by
`levels_enter`. If it finishes, the depth is `d'`. -/
def Within (n d d' : Nat) (process : Process R S (State T) α) : Prop :=
  ∀ s r, s.depth = d → Stays n s (process.exec s r).1.2 ∧
    ∀ a, (process.exec s r).1.1 = .ok a → (process.exec s r).1.2.depth = d'

theorem Within.bind {process : Process R S (State T) α} {next : α → Process R S (State T) β}
    (h : Within n d d' process) (hn : ∀ a, Within n d' d'' (next a)) : Within n d d'' (process >>= next) := by
  intro s r hs
  obtain ⟨hstays, hdepth⟩ := h s r hs
  rw [Process.exec_bind]
  generalize process.exec s r = result at hstays hdepth ⊢
  obtain ⟨⟨_ | a, between⟩, r'⟩ := result
  · exact ⟨hstays, fun _ h => by cases h⟩
  · obtain ⟨hstays', hdepth'⟩ := hn a between r' (hdepth a rfl)
    refine ⟨⟨hstays.kept.trans hstays'.kept, hstays'.levels.trans ?_, hstays'.depth⟩, hdepth'⟩
    exact max_le hstays.levels (le_max_right _ _)

theorem within_of_step {process : Process R S (State T) α} (hd : d' ≤ n)
    (h : ∀ s r, s.depth = d → (process.exec s r).1.2.depth = d' ∧
      s.levels.size ≤ (process.exec s r).1.2.levels.size ∧
      (process.exec s r).1.2.levels.size ≤ max s.levels.size n) : Within n d d' process := by
  intro s r hs
  obtain ⟨hdepth, hkept, hlevels⟩ := h s r hs
  exact ⟨⟨hkept, hlevels, hdepth.trans_le hd⟩, fun _ _ => hdepth⟩

/-- A step that leaves the levels and the depth alone. -/
theorem within_of_eq {process : Process R S (State T) α}
    (h : ∀ s r, (process.exec s r).1.2.levels = s.levels ∧ (process.exec s r).1.2.depth = s.depth) (hd : d ≤ n) :
    Within n d d process := by
  refine within_of_step hd fun s r hs => ?_
  obtain ⟨hlevels, hdepth⟩ := h s r
  rw [hlevels, hdepth]
  exact ⟨hs, le_rfl, le_max_left _ _⟩

theorem within_pure (a : α) (hd : d ≤ n) : Within n d d (pure a : Process R S (State T) α) :=
  within_of_eq (fun _ _ => ⟨rfl, rfl⟩) hd

theorem within_get (hd : d ≤ n) : Within n d d (get : Process R S (State T) (State T)) :=
  within_of_eq (fun _ _ => ⟨rfl, rfl⟩) hd

theorem within_ofEvaluation (action : Evaluation R S α) (hd : d ≤ n) :
    Within n d d (Process.ofEvaluation action : Process R S (State T) α) :=
  within_of_eq (fun _ _ => ⟨rfl, rfl⟩) hd

theorem within_onVariables (step : Variables T → Evaluation R S (Variables T)) (hd : d ≤ n) :
    Within n d d (onVariables step : Process R S (State T) Unit) := by
  refine within_of_eq (fun s r => ?_) hd
  simp only [onVariables, Process.exec_bind, Process.exec_get, Process.exec_ofEvaluation, Process.exec_set]
  generalize (step s.values).exec r = result
  obtain ⟨_ | values, r'⟩ := result
  · exact ⟨rfl, rfl⟩
  · exact ⟨rfl, rfl⟩

/-- A level that is entered is there from then on. -/
theorem levels_enter (s : State T) (r : S) :
    ((enter : Process R S (State T) Nat).exec s r).1.2.levels.size = max s.levels.size (s.depth + 1) := by
  simp only [enter, Process.exec_bind, Process.exec_get, Process.exec_set, Process.exec_pure,
    Array.size_setIfInBounds, Array.size_append, Array.size_replicate]
  omega

theorem within_enter (hd : d < n) : Within n d (d + 1) (enter : Process R S (State T) Nat) := by
  apply within_of_step hd
  rintro s r rfl
  rw [levels_enter]
  exact ⟨rfl, le_max_left _ _, max_le_max le_rfl hd⟩

theorem within_leave (level : Nat) (before after : List T) (hd : d < n) :
    Within n (d + 1) d (leave level before after : Process R S (State T) Unit) := by
  refine within_of_step hd.le fun s r hs => ?_
  simp only [leave, Process.exec_modify, Array.size_setIfInBounds, hs, Nat.add_sub_cancel]
  exact ⟨trivial, le_rfl, le_max_left _ _⟩

variable [Scalar R] [Quantity R S T] {width : R} {sample : Sample T}

mutual

theorem within_run : (s : Statement R) → {d : Nat} → d + s.nesting ≤ n →
    Within n d d (run width sample s : Process R S (State T) Unit)
  | .assign v e, d, h => by
    simp only [run]
    exact within_onVariables _ (by omega)
  | .pays v e, d, h => by
    simp only [run]
    exact within_onVariables _ (by omega)
  | .branch c body otherwise affected, d, h => by
    rw [Statement.nesting] at h
    have hd : d < n := by omega
    simp only [run]
    refine (within_get hd.le).bind fun _ => (within_ofEvaluation _ hd.le).bind fun degree => ?_
    split
    · exact within_runBlock body (by omega)
    split
    · exact within_runBlock otherwise (by omega)
    -- Between entering and leaving, both branches run one level further in.
    have hbody : Within n (d + 1) (d + 1) (runBlock width sample body : Process R S (State T) Unit) :=
      within_runBlock body (by omega)
    have hother : Within n (d + 1) (d + 1) (runBlock width sample otherwise : Process R S (State T) Unit) :=
      within_runBlock otherwise (by omega)
    refine (within_enter hd).bind fun level => (within_get hd).bind fun _ => ?_
    refine (within_ofEvaluation _ hd).bind fun before => hbody.bind fun _ => (within_get hd).bind fun _ => ?_
    refine (within_ofEvaluation _ hd).bind fun after => ?_
    refine (within_onVariables _ hd).bind fun _ => hother.bind fun _ => ?_
    exact (within_onVariables _ hd).bind fun _ => within_leave level before after hd
  | .sequence body, d, h => by
    simp only [run]
    exact within_runBlock body h

theorem within_runBlock : (body : List (Statement R)) → {d : Nat} → d + Statement.blockNesting body ≤ n →
    Within n d d (runBlock width sample body : Process R S (State T) Unit)
  | [], d, h => by
    simp only [runBlock]
    exact within_pure () h
  | s :: rest, d, h => by
    rw [Statement.blockNesting] at h
    simp only [runBlock]
    exact (within_run s (by omega)).bind fun _ => within_runBlock rest (by omega)

end

theorem within_runEvents {events : List (Event R)} (h : ∀ event ∈ events, Statement.blockNesting event ≤ n)
    (scenario : Scenario T) :
    Within n 0 0 (Evaluator.runEvents (fun event sample => runBlock width sample event) events scenario :
      Process R S (State T) Unit) := by
  obtain ⟨samples⟩ := scenario
  induction events generalizing samples with
  | nil => exact within_pure () (Nat.zero_le n)
  | cons event events ih =>
    rw [List.forall_mem_cons] at h
    cases samples with
    | nil => exact within_pure () (Nat.zero_le n)
    | cons sample samples =>
      rw [Evaluator.runEvents_cons]
      refine (within_runBlock event ?_).bind fun _ => ih h.2 samples
      rw [Nat.zero_add]
      exact h.1

/-- Where levels have been made for all depths of nesting, none is added. -/
theorem levels_runEvents {events : List (Event R)} (h : ∀ event ∈ events, Statement.blockNesting event ≤ n)
    (scenario : Scenario T) (s : State T) (r : S) (hdepth : s.depth = 0) (hlevels : n ≤ s.levels.size) :
    ((Evaluator.runEvents (fun event sample => runBlock width sample event) events scenario :
      Process R S (State T) Unit).exec s r).1.2.levels.size = s.levels.size := by
  have hwithin : Within n 0 0 (Evaluator.runEvents (fun event sample => runBlock width sample event) events scenario :
      Process R S (State T) Unit) := within_runEvents h scenario
  obtain ⟨hstays, -⟩ := hwithin s r hdepth
  apply Nat.le_antisymm
  · exact hstays.levels.trans_eq (Nat.max_eq_left hlevels)
  · exact hstays.kept

end Fuzzy

section Analysed

variable {R : Type}

namespace Statement

mutual

theorem nesting_markAffected : (s : Statement R) → s.markAffected.nesting = s.nesting
  | assign _ _ => rfl
  | pays _ _ => rfl
  | branch _ body otherwise _ => by
    simp only [markAffected, nesting, blockNesting_markAffectedBlock body, blockNesting_markAffectedBlock otherwise]
  | sequence body => by simp only [markAffected, nesting, blockNesting_markAffectedBlock body]

theorem blockNesting_markAffectedBlock : (block : List (Statement R)) →
    blockNesting (markAffectedBlock block) = blockNesting block
  | [] => rfl
  | s :: rest => by
    simp only [markAffectedBlock, blockNesting, nesting_markAffected s, blockNesting_markAffectedBlock rest]

end

mutual

theorem nesting_bare : (s : Statement R) → s.bare.nesting = s.nesting
  | assign _ _ => rfl
  | pays _ _ => rfl
  | branch _ body otherwise _ => by
    simp only [bare, nesting, blockNesting_bareBlock body, blockNesting_bareBlock otherwise]
  | sequence body => by simp only [bare, nesting, blockNesting_bareBlock body]

theorem blockNesting_bareBlock : (body : List (Statement R)) → blockNesting (bareBlock body) = blockNesting body
  | [] => rfl
  | s :: rest => by simp only [bareBlock, blockNesting, nesting_bare s, blockNesting_bareBlock rest]

end

mutual

theorem nesting_collapse : (s : Statement R) → s.collapse.1.nesting ≤ s.nesting
  | assign _ _ => le_rfl
  | pays _ _ => le_rfl
  | branch c body otherwise affected => by
    have hbody := blockNesting_collapseBlock body
    have hother := blockNesting_collapseBlock otherwise
    simp only [collapse]
    split
    · simp only [nesting]
      omega
    · simp only [nesting]
      omega
    · simp only [nesting]
      omega
  | sequence body => blockNesting_collapseBlock body

theorem blockNesting_collapseBlock : (body : List (Statement R)) →
    blockNesting (collapseBlock body).1 ≤ blockNesting body
  | [] => le_rfl
  | s :: rest => max_le_max (nesting_collapse s) (blockNesting_collapseBlock rest)

end

variable [Scalar R] {fuzzy : Bool}

mutual

theorem nesting_rebuilt : {s s' : Statement R} → Rebuilt fuzzy s s' → s'.nesting = s.nesting
  | _, _, .same _ => rfl
  | _, _, .branch _ _ _ hbody hother => by simp only [nesting, blockNesting_rebuilt hbody, blockNesting_rebuilt hother]
  | _, _, .sequence hbody => blockNesting_rebuilt hbody

theorem blockNesting_rebuilt : {body body' : List (Statement R)} → RebuiltBlock fuzzy body body' →
    blockNesting body' = blockNesting body
  | _, _, .same _ => rfl
  | _, _, .cons hs hr => by simp only [blockNesting, nesting_rebuilt hs, blockNesting_rebuilt hr]

end

end Statement

theorem blockNesting_le {events : List (Event R)} {event : Event R} (h : event ∈ (markAffected events).1) :
    Statement.blockNesting event ≤ (markAffected events).2 := by
  obtain ⟨event, he, rfl⟩ := List.mem_map.1 h
  rw [Statement.blockNesting_markAffectedBlock]
  rw [markAffected, List.foldl_eq_foldr]
  exact List.le_max_of_le' 0 (List.mem_map_of_mem he) le_rfl

variable [Scalar R] {fuzzy : Bool}

theorem blockNesting_analyse {events : List (Event R)} {a : Analysis R} (h : analyse fuzzy events = .ok a) :
    ∀ event ∈ a.events, Statement.blockNesting event ≤ a.nesting := by
  rw [nesting_analyse h]
  refine forall_analyse h (fun event he => blockNesting_le he) (Statement.forall_inferEvents ?_) ?_ ?_
  · exact fun hrebuilt hle => (Statement.blockNesting_rebuilt hrebuilt).trans_le hle
  · exact fun event hle => (Statement.blockNesting_collapseBlock event).trans hle
  · intro event
    rw [Statement.blockNesting_bareBlock]

end Analysed

end PayoffPricing.Script

namespace PayoffPricing

open Script

variable {R S T : Type} [Scalar R] [Quantity R S T] {plan : Plan R} {p : Product R} {width : R}

namespace Evaluator

/-- The smoothing evaluator has a level for every depth of nesting in the product. -/
def HasLevels (p : Product R) : Evaluator R T → Prop
  | exact _ => True
  | fuzzy _ state => state.levels.size = p.nesting
  | compiled _ => True

theorem hasLevels_ofMethod {method : Method R} {e : Evaluator R T} (h : ofMethod p method = .ok e) :
    e.HasLevels p := by
  cases method with
  | exact | compiled =>
    cases h
    trivial
  | fuzzy width =>
    simp only [ofMethod] at h
    split at h
    · cases h
      exact Array.size_replicate
    · cases h

theorem HasLevels.evaluate {e : Evaluator R T} (hp : ∀ event ∈ p.events, Statement.blockNesting event ≤ p.nesting)
    (h : e.HasLevels p) (scenario : Scenario T) (s : S) :
    ((evaluate p scenario).exec e s).1.2.HasLevels p := by
  unfold Evaluator.evaluate
  split
  · exact h
  · rw [Process.exec_bind, Process.exec_modify]
    cases e with
    | exact | compiled => trivial
    | fuzzy width state =>
      refine Eq.trans ?_ h
      exact Fuzzy.levels_runEvents hp scenario _ s rfl h.ge

/-- Whatever scenarios a smoothing evaluator of a built product has seen, it has as many levels as it was made with. -/
theorem hasLevels_afterAll (h : plan.build = .ok p) {method : Method R} {new : Evaluator R T}
    (hnew : ofMethod p method = .ok new) (history : List (Scenario T × S)) : (new.afterAll p history).HasLevels p := by
  have hp : ∀ event ∈ p.events, Statement.blockNesting event ≤ p.nesting := by
    obtain ⟨parsed, a, -, ha, hevents, -, -, -, hnesting⟩ := Plan.exists_analysed h
    rw [hevents, hnesting]
    exact blockNesting_analyse ha
  have hlevels := hasLevels_ofMethod hnew
  clear hnew
  induction history generalizing new with
  | nil => exact hlevels
  | cons first history ih => exact ih (hlevels.evaluate hp first.1 first.2)

end Evaluator

end PayoffPricing
