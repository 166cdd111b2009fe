import PayoffPricing.Model.BlackScholes
import PayoffPricing.Proofs.Model.Observables
/-!
The model with constant volatility preserves likeness of quantities, from its parameters to the samples
of a path.
-/

namespace PayoffPricing

open Worlds Likeness

namespace BlackScholes

variable {S S' T T' : Type} {r q : T → T' → Prop}

/-- Steps with their quantities in a relation. -/
structure Step.Alike (r : T → T' → Prop) (a : Step T) (a' : Step T') : Prop where
  isNoisy : a.isNoisy = a'.isNoisy
  drift : r a.drift a'.drift
  deviation : r a.deviation a'.deviation
  observables : Observables.Alike r a.observables a'.observables

theorem Step.Alike.imp {a : Step T} {a' : Step T'} (h : Step.Alike r a a') (hi : ∀ x x', r x x' → q x x') :
    Step.Alike q a a' := ⟨h.isNoisy, hi _ _ h.drift, hi _ _ h.deviation, h.observables.imp hi⟩

/-- Models with their quantities in a relation. -/
structure Alike (r : T → T' → Prop) (m : BlackScholes T) (m' : BlackScholes T') : Prop where
  spot : r m.spot m'.spot
  vol : r m.vol m'.vol
  rate : r m.rate m'.rate
  div : r m.div m'.div
  steps : List.Forall₂ (Step.Alike r) m.steps m'.steps
  isReady : m.isReady = m'.isReady

variable {m : BlackScholes T} {m' : BlackScholes T'}

theorem Alike.imp (h : Alike r m m') (hi : ∀ x x', r x x' → q x x') : Alike q m m' :=
  ⟨hi _ _ h.spot, hi _ _ h.vol, hi _ _ h.rate, hi _ _ h.div, h.steps.imp fun _ _ ha => ha.imp hi, h.isReady⟩

theorem Alike.parameters (h : Alike r m m') : List.Forall₂ r m.parameters m'.parameters :=
  .cons h.spot (.cons h.vol (.cons h.rate (.cons h.div .nil)))

theorem Alike.dimension_eq (h : Alike r m m') : m.dimension = m'.dimension := h.steps.length_eq

section Lifting

variable {R : Type} {W : Worlds S S'} {w : S × S'} {rel : S × S' → T → T' → Prop}

theorem agree_lift {f : R → StateM S T} {f' : R → StateM S' T'} (hf : ∀ v c, W.Agree v (f c) (f' c) rel)
    (hmono : ∀ {v v' x x'}, W.Later v v' → rel v x x' → rel v' x x') (m : BlackScholes R) :
    W.Agree w (m.lift f) (m.lift f') fun v => Alike (rel v) := by
  refine (hf w m.spot).bind fun v₁ _ _ h₁ hspot => ?_
  refine (hf v₁ m.vol).bind fun v₂ _ _ h₂ hvol => ?_
  refine (hf v₂ m.rate).bind fun v₃ _ _ h₃ hrate => ?_
  refine (hf v₃ m.div).bind fun v₄ _ _ h₄ hdiv => ?_
  have h₂₄ := W.trans h₂ (W.trans h₃ h₄)
  exact Agree.pure ⟨hmono h₂₄ hspot, hmono (W.trans h₃ h₄) hvol, hmono h₄ hrate, hdiv, List.Forall₂.nil, rfl⟩

end Lifting

variable {R : Type} [Scalar R] [Quantity R S T] [Quantity R S' T'] {L : Likeness R S S' T T'} {w : S × S'}

theorem Alike.mono {v : S × S'} (hl : L.Later w v) (h : Alike (L.Like w) m m') : Alike (L.Like v) m m' :=
  h.imp fun _ _ => L.mono hl

theorem Alike.allocate (h : Alike (L.Like w) m m') (times : List R) (requests : List (Request R)) :
    Alike (L.Like w) (m.allocate times requests) (m'.allocate times requests) where
  spot := h.spot
  vol := h.vol
  rate := h.rate
  div := h.div
  steps := by
    refine List.forall₂_map_left_iff.2 (List.forall₂_map_right_iff.2 (List.forall₂_same.2 fun request _ => ?_))
    exact ⟨rfl, L.zero w, L.zero w, alike_initial w request⟩
  isReady := rfl

theorem agree_step (h : Alike (L.Like w) m m') {carry driftRate : T} {carry' driftRate' : T'}
    (hc : L.Like w carry carry') (hd : L.Like w driftRate driftRate') (gap time : R) (request : Request R) :
    L.toWorlds.Agree w (m.step carry driftRate gap time request) (m'.step carry' driftRate' gap time request)
      fun v => Step.Alike (L.Like v) := by
  refine (L.mulScalar gap hd).bind fun v₁ _ _ h₁ hdrift => ?_
  refine (L.mulScalar _ (L.mono h₁ h.vol)).bind fun v₂ _ _ h₂ hdeviation => ?_
  have h₁₂ := L.trans h₁ h₂
  refine (agree_ofRates (L.mono h₁₂ h.rate) (L.mono h₁₂ hc) time request).bind fun v₃ _ _ h₃ ho => ?_
  exact Agree.pure ⟨rfl, L.mono (L.trans h₂ h₃) hdrift, L.mono h₃ hdeviation, ho⟩

/-- Both preparations stop at the same event. -/
theorem agree_prepare {carry driftRate : T} {carry' driftRate' : T'} (h : Alike (L.Like w) m m')
    (hc : L.Like w carry carry') (hd : L.Like w driftRate driftRate') (previous : R)
    (events : List (R × Request R)) {steps : List (Step T)} {steps' : List (Step T')}
    (hsteps : List.Forall₂ (Step.Alike (L.Like w)) steps steps') :
    L.toWorlds.Agree w (m.prepare carry driftRate previous events steps)
      (m'.prepare carry' driftRate' previous events steps') fun v r r' =>
        List.Forall₂ (Step.Alike (L.Like v)) r.1 r'.1 ∧ r.2 = r'.2 := by
  induction events generalizing w previous steps steps' with
  | nil => exact Agree.pure ⟨hsteps, rfl⟩
  | cons event events ih =>
    obtain ⟨time, request⟩ := event
    cases hsteps with
    | nil => exact Agree.pure ⟨List.Forall₂.nil, rfl⟩
    | cons hold hrest =>
      simp only [prepare]
      split
      · exact Agree.pure ⟨List.Forall₂.cons hold hrest, rfl⟩
      · refine (agree_step h hc hd (time - previous) time request).bind fun v _ _ hv hnew => ?_
        refine (ih (h.mono hv) (L.mono hv hc) (L.mono hv hd) time
          (hrest.imp fun _ _ ha => ha.imp fun _ _ => L.mono hv)).bind fun u r r' hu hr => Agree.pure ?_
        exact ⟨List.Forall₂.cons (hnew.imp fun _ _ => L.mono hu) hr.1, hr.2⟩

theorem agree_driftRates (h : Alike (L.Like w) m m') :
    L.toWorlds.Agree w m.driftRates m'.driftRates fun v r r' => L.Like v r.1 r'.1 ∧ L.Like v r.2 r'.2 := by
  refine (L.sub h.rate h.div).bind fun v₁ _ _ h₁ hcarry => ?_
  refine (L.mul (L.mono h₁ h.vol) (L.mono h₁ h.vol)).bind fun v₂ _ _ h₂ hvariance => ?_
  refine (L.mulScalar _ hvariance).bind fun v₃ _ _ h₃ hhalf => ?_
  have hcarry := L.mono (L.trans h₂ h₃) hcarry
  exact (L.sub hcarry hhalf).bind fun v₄ _ _ h₄ hdrift => Agree.pure ⟨L.mono h₄ hcarry, hdrift⟩

theorem tracks_prepare {α α' : Type} {rel : S × S' → α → α' → Prop} {a : StateM S α} {a' : StateM S' α'}
    (h : L.toWorlds.Agree w a a' rel) :
    L.toWorlds.Tracks w (fun v => Alike (L.Like v))
      (Modelling.prepare (.record a) : Preparing R S (BlackScholes T) α)
      (Modelling.prepare (.record a') : Preparing R S' (BlackScholes T') α') rel :=
  Tracks.keeping _ (fun hl h => h.mono hl) (Alike.lift h)

/-- The steps of a timeline that there is room for. -/
def prepareSteps (times : List R) (requests : List (Request R)) : Preparing R S (BlackScholes T) Unit := do
  let m ← get
  let (carry, driftRate) ← Modelling.prepare (.record m.driftRates)
  let (steps, stop) ←
    Modelling.prepare (.record (m.prepare carry driftRate 0 (times.zip requests) m.steps))
  set { m with steps := steps }
  match stop with
  | some e => throw (.error e)
  | none => modify fun m => { m with isReady := true }

theorem tracks_prepareSteps (times : List R) (requests : List (Request R)) :
    L.toWorlds.Tracks w (fun v => Alike (L.Like v))
      (prepareSteps times requests : Preparing R S (BlackScholes T) Unit)
      (prepareSteps times requests : Preparing R S' (BlackScholes T') Unit) fun _ _ _ => True := by
  refine Tracks.get.bind fun v₁ m m' h₁ hm => ?_
  refine (tracks_prepare (agree_driftRates hm)).bind fun v₂ r r' h₂ hrates => ?_
  obtain ⟨carry, driftRate⟩ := r
  obtain ⟨carry', driftRate'⟩ := r'
  have hm := hm.mono h₂
  refine (tracks_prepare (agree_prepare hm hrates.1 hrates.2 0 (times.zip requests) hm.steps)).bind
    fun v₃ r r' h₃ hprepared => ?_
  obtain ⟨steps, stop⟩ := r
  obtain ⟨steps', _⟩ := r'
  obtain ⟨hsteps, rfl⟩ := hprepared
  have hm := hm.mono h₃
  refine Tracks.bind (Tracks.set ⟨hm.spot, hm.vol, hm.rate, hm.div, hsteps, hm.isReady⟩) fun v₄ _ _ h₄ _ => ?_
  cases stop with
  | some e => exact Tracks.throw _
  | none => exact Tracks.modify fun h => ⟨h.spot, h.vol, h.rate, h.div, h.steps, rfl⟩

theorem tracks_init (times : List R) (requests : List (Request R)) :
    L.toWorlds.Tracks w (fun v => Alike (L.Like v)) (init times requests : Preparing R S (BlackScholes T) Unit)
      (init times requests : Preparing R S' (BlackScholes T') Unit) fun _ _ _ => True := by
  unfold init
  dsimp only
  split
  · exact Tracks.throw _
  refine Tracks.get.bind fun v₁ m m' h₁ hm => ?_
  rw [hm.steps.length_eq]
  split
  · exact Tracks.bind (Tracks.modify fun h => h.allocate times requests) fun v₂ _ _ _ _ => tracks_prepareSteps times requests
  · exact tracks_prepareSteps times requests

/-- Samples along a path are alike, whatever samples they overwrite. -/
theorem agree_follow {spot : T} {spot' : T'} (hspot : L.Like w spot spot') {steps : List (Step T)}
    {steps' : List (Step T')} (hsteps : List.Forall₂ (Step.Alike (L.Like w)) steps steps') (draws : List R)
    {samples : List (Sample T)} {samples' : List (Sample T')} (hshape : shape samples = shape samples')
    (hlength : samples.length ≤ (steps.zip draws).length) :
    L.toWorlds.Agree w (follow spot (steps.zip draws) samples) (follow spot' (steps'.zip draws) samples')
      (L.LikeSamples (shape samples) (List.Forall₂ (L.LikeCurves w) samples samples')) := by
  induction samples generalizing w spot spot' steps steps' draws samples' with
  | nil =>
    obtain rfl := List.map_eq_nil_iff.1 hshape.symm
    cases hsteps with
    | nil => exact Agree.pure ⟨List.Forall₂.nil, rfl, rfl, fun h => h⟩
    | cons _ _ =>
      cases draws with
      | nil => exact Agree.pure ⟨List.Forall₂.nil, rfl, rfl, fun h => h⟩
      | cons _ _ => exact Agree.pure ⟨List.Forall₂.nil, rfl, rfl, fun h => h⟩
  | cons s samples ih =>
    cases samples' with
    | nil => cases hshape
    | cons s' samples' =>
      obtain ⟨hsize, hshape⟩ := List.cons_eq_cons.1 hshape
      cases hsteps with
      | nil => simp at hlength
      | @cons a a' rest rest' ha hrest =>
        cases draws with
        | nil => simp at hlength
        | cons z draws =>
          have htail (v) (x : T) (x' : T') (hv : L.Later w v) (hx : L.Like v x x') : L.toWorlds.Agree v
              (do
                let sample ← a.observables.writeSample x s
                return sample :: (← follow x (rest.zip draws) samples))
              (do
                let sample ← a'.observables.writeSample x' s'
                return sample :: (← follow x' (rest'.zip draws) samples'))
              (L.LikeSamples (shape (s :: samples)) (List.Forall₂ (L.LikeCurves w) (s :: samples) (s' :: samples'))) := by
            refine (agree_writeSample (ha.observables.imp fun _ _ => L.mono hv) hx hsize).bind
              fun v₁ y y' h₁ hy => ?_
            obtain ⟨hlike, hleft, hright, hcurves⟩ := hy
            refine (ih (L.mono h₁ hx) (hrest.imp fun _ _ ha => ha.imp fun _ _ => L.mono (L.trans hv h₁)) draws
              hshape (by simpa using hlength)).bind fun v₂ l l' h₂ hl => Agree.pure ?_
            refine ⟨List.Forall₂.cons (hlike.mono h₂) hl.like, congrArg₂ List.cons hleft hl.shape_left,
              congrArg₂ List.cons hright hl.shape_right, fun h => ?_⟩
            cases h with
            | cons hfirst hlater =>
              exact .cons ((hcurves (hfirst.mono hv)).mono h₂)
                (hl.curves (hlater.imp fun _ _ h => h.mono (L.trans hv h₁)))
          simp only [List.zip_cons_cons, follow, ha.isNoisy]
          split
          · refine (L.lognormalStep z hspot ha.drift ha.deviation).bind fun v x x' hv hx => ?_
            exact htail v x x' hv hx
          · exact htail w _ _ (L.refl w) hspot

/-- Scenarios of a path are alike, whatever scenarios of one shape they overwrite. -/
theorem alike_generate (h : Alike (L.Like w) m m') (draws : Array R) {s : Scenario T} {s' : Scenario T'}
    (hshape : shape s.toList = shape s'.toList) :
    L.toWorlds.Alike w (m.generate draws s : Modelling R S (Scenario T))
      (m'.generate draws s' : Modelling R S' (Scenario T')) fun v x x' =>
        L.LikeSamples (shape s.toList) (List.Forall₂ (L.LikeCurves w) s.toList s'.toList) v x.toList x'.toList := by
  have hsize : s.size = s'.size := by simpa [shape] using congrArg List.length hshape
  simp only [generate, h.isReady, h.dimension_eq, hsize]
  split
  · exact Alike.throw _
  split
  · exact Alike.throw _
  split
  · exact Alike.throw _
  · next hdraws hscenario =>
    refine (Alike.lift (agree_follow h.spot h.steps draws.toList hshape ?_)).bind fun v l l' _ hl =>
      Alike.pure hl
    have hsteps := h.steps.length_eq
    simp only [dimension] at hdraws hscenario
    simp only [Array.length_toList, List.length_zip]
    omega

section Path

variable {R : Type} [Quantity R S T]

theorem follow_cons (spot : T) (step : Step T) (z : R)
    (steps : List (Step T × R)) (sample : Sample T) (samples : List (Sample T)) :
    (follow spot ((step, z) :: steps) (sample :: samples) : StateM S _) =
      (if step.isNoisy then Quantity.lognormalStep spot step.drift step.deviation z else pure spot) >>= fun next => do
        let sample ← step.observables.writeSample next sample
        return sample :: (← follow next steps samples) := by
  cases hnoisy : step.isNoisy <;> simp [follow, hnoisy]

/-- The first event sees the numeraire that was prepared for it. -/
theorem numeraire_follow (spot : T) (step : Step T) (z : R) (steps : List (Step T × R)) (sample : Sample T)
    (samples : List (Sample T)) (s : S) :
    ((follow spot ((step, z) :: steps) (sample :: samples) : StateM S _).run s).1.head?.map Sample.numeraire =
      some step.observables.numeraire := by
  rw [follow_cons, StateT.run_bind]
  rfl

end Path

end BlackScholes

end PayoffPricing
