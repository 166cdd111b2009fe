import PayoffPricing.Model.LocalVol
import PayoffPricing.Proofs.Model.Observables
/-!
The model with a volatility surface preserves likeness of quantities, from its parameters to the samples
of a path.
-/

namespace PayoffPricing

open Worlds Likeness

namespace LocalVol

variable {R S S' T T' : Type} {r q : T → T' → Prop}

/-- Fixtures with their quantities in a relation. -/
structure Fixture.Alike (r : T → T' → Prop) (a : Fixture T) (a' : Fixture T') : Prop where
  step : a.step = a'.step
  observables : Observables.Alike r a.observables a'.observables

theorem Fixture.Alike.imp {a : Fixture T} {a' : Fixture T'} (h : Fixture.Alike r a a')
    (hi : ∀ x x', r x x' → q x x') : Fixture.Alike q a a' := ⟨h.step, h.observables.imp hi⟩

/-- Tables of a surface with their quantities in a relation. -/
abbrev Row (r : T → T' → Prop) (xs : Array T) (xs' : Array T') : Prop := List.Forall₂ r xs.toList xs'.toList

/-- Models on one grid, of `n` volatilities, with their quantities in a relation. -/
structure Alike (r : T → T' → Prop) (n : Nat) (m : LocalVol R T) (m' : LocalVol R T') : Prop where
  spot : r m.spot m'.spot
  rate : r m.rate m'.rate
  div : r m.div m'.div
  grid : (m.spots, m.logSpots, m.times, m.maxStep) = (m'.spots, m'.logSpots, m'.times, m'.maxStep)
  size_vols : m.vols.size = n
  vols : Row r m.vols m'.vols
  lengths : m.lengths = m'.lengths
  deviations : List.Forall₂ (Row r) m.deviations.toList m'.deviations.toList
  drifts : Row r m.drifts m'.drifts
  fixtures : List.Forall₂ (Fixture.Alike r) m.fixtures m'.fixtures
  isReady : m.isReady = m'.isReady

variable {n : Nat} {m : LocalVol R T} {m' : LocalVol R T'}

namespace Alike

theorem imp (h : Alike r n m m') (hi : ∀ x x', r x x' → q x x') : Alike q n m m' where
  spot := hi _ _ h.spot
  rate := hi _ _ h.rate
  div := hi _ _ h.div
  grid := h.grid
  size_vols := h.size_vols
  vols := h.vols.imp hi
  lengths := h.lengths
  deviations := h.deviations.imp fun _ _ hd => hd.imp hi
  drifts := h.drifts.imp hi
  fixtures := h.fixtures.imp fun _ _ hf => hf.imp hi
  isReady := h.isReady

theorem spots (h : Alike r n m m') : m.spots = m'.spots := congrArg (·.1) h.grid

theorem logSpots (h : Alike r n m m') : m.logSpots = m'.logSpots := congrArg (·.2.1) h.grid

theorem times (h : Alike r n m m') : m.times = m'.times := congrArg (·.2.2.1) h.grid

theorem maxStep (h : Alike r n m m') : m.maxStep = m'.maxStep := congrArg (·.2.2.2) h.grid

theorem parameters (h : Alike r n m m') : List.Forall₂ r m.parameters m'.parameters :=
  .cons h.spot (.cons h.rate (.cons h.div h.vols))

theorem dimension_eq (h : Alike r n m m') : m.dimension = m'.dimension := congrArg Array.size h.lengths

theorem row (h : Alike r n m m') (i : Nat) : Row r (m.row i) (m'.row i) := by
  unfold LocalVol.row Row
  rw [Array.toList_extract, Array.toList_extract, h.times, List.extract_eq_take_drop, List.extract_eq_take_drop]
  exact List.forall₂_take _ (List.forall₂_drop _ h.vols)

end Alike

section Lifting

variable {W : Worlds S S'} {w : S × S'} {rel : S × S' → T → T' → Prop}

theorem agree_lift {f : R → StateM S T} {f' : R → StateM S' T'} (hf : ∀ v c, W.Agree v (f c) (f' c) rel)
    (hmono : ∀ {v v' x x'}, W.Later v v' → rel v x x' → rel v' x x') (m : LocalVol R R) :
    W.Agree w (m.lift f) (m.lift f') fun v => Alike (rel v) m.vols.size := by
  unfold lift
  rw [Array.mapM_eq_mapM_toList, Array.mapM_eq_mapM_toList]
  refine (hf w m.spot).bind fun v₁ _ _ h₁ hspot => ?_
  refine (hf v₁ m.rate).bind fun v₂ _ _ h₂ hrate => ?_
  refine (hf v₂ m.div).bind fun v₃ _ _ h₃ hdiv => ?_
  have hvols : W.Agree v₃ (List.toArray <$> m.vols.toList.mapM f) (List.toArray <$> m.vols.toList.mapM f')
      fun v xs xs' => xs.size = m.vols.size ∧ Row (rel v) xs xs' :=
    (Agree.mapM (fun v _ c => hf v c) hmono (W.refl v₃) m.vols.toList).map fun _ _ _ _ h => h
  refine hvols.bind fun v₄ xs xs' h₄ hxs => ?_
  have h₃₄ := W.trans h₃ h₄
  exact Agree.pure ⟨hmono (W.trans h₂ h₃₄) hspot, hmono h₃₄ hrate, hmono h₄ hdiv, rfl, hxs.1, hxs.2, rfl,
    List.Forall₂.nil, List.Forall₂.nil, List.Forall₂.nil, rfl⟩

end Lifting

variable [Scalar R] [Quantity R S T] [Quantity R S' T'] {L : Likeness R S S' T T'} {w : S × S'}

theorem Alike.mono {v : S × S'} (hl : L.Later w v) (h : Alike (L.Like w) n m m') :
    Alike (L.Like v) n m m' := h.imp fun _ _ => L.mono hl

theorem Alike.allocate (h : Alike (L.Like w) n m m') (times : List R) (requests : List (Request R)) :
    Alike (L.Like w) n (m.allocate times requests) (m'.allocate times requests) := by
  refine { h with fixtures := ?_, isReady := rfl }
  refine List.forall₂_map_left_iff.2 (List.forall₂_map_right_iff.2 (List.forall₂_same.2 fun request _ => ?_))
  exact ⟨rfl, alike_initial w request⟩

/-- Steps of a model on quantities. -/
abbrev AlikeModelling {α α' : Type} (L : Likeness R S S' T T') (w : S × S') (a : Modelling R S α)
    (a' : Modelling R S' α') (rel : S × S' → α → α' → Prop) : Prop := L.toWorlds.Alike w a a' rel

theorem alike_read {α α' : Type} (rel : S × S' → α → α' → Prop) {o : Option α} {o' : Option α'}
    (h : Option.Rel (rel w) o o') : AlikeModelling L w (Modelling.read o) (Modelling.read o') rel := by
  cases h with
  | none => exact Alike.throw _
  | some hx => exact Alike.pure hx

theorem alike_readSame {α : Type} (o : Option α) :
    AlikeModelling L w (Modelling.read o) (Modelling.read o) fun _ => Eq := by
  refine alike_read _ ?_
  cases o with
  | none => exact Option.Rel.none
  | some x => exact Option.Rel.some rfl

theorem alike_interpolate (grid : Array R) {values : Array T} {values' : Array T'}
    (hvalues : Row (L.Like w) values values') {x : T} {x' : T'} (hx : L.Like w x x') :
    AlikeModelling L w (interpolate grid values x) (interpolate grid values' x') L.Like := by
  have hread (v) (hv : L.Later w v) (i : Nat) :
      AlikeModelling L v (Modelling.read values[i]?) (Modelling.read values'[i]?) L.Like :=
    alike_read L.Like (rel_getElem? (hvalues.imp fun _ _ => L.mono hv) i)
  unfold interpolate
  rw [L.value hx]
  refine (alike_readSame _).bind fun v₁ first _ h₁ hfirst => ?_
  subst hfirst
  refine (alike_readSame _).bind fun v₂ last _ h₂ hlast => ?_
  subst hlast
  have hv := L.trans h₁ h₂
  split
  · exact hread v₂ hv 0
  split
  · exact hread v₂ hv _
  split
  · exact Alike.throw _
  · refine (alike_readSame _).bind fun v₃ left _ h₃ hleft => ?_
    subst hleft
    refine (alike_readSame _).bind fun v₄ right _ h₄ hright => ?_
    subst hright
    have hv := L.trans hv (L.trans h₃ h₄)
    refine (hread v₄ hv _).bind fun v₅ a a' h₅ ha => ?_
    have hv := L.trans hv h₅
    refine (hread v₅ hv _).bind fun v₆ b b' h₆ hb => ?_
    have hv := L.trans hv h₆
    refine Alike.lift ((L.sub hb (L.mono h₆ ha)).bind fun v₇ _ _ h₇ hrise => ?_)
    refine (L.subScalar left (L.mono (L.trans hv h₇) hx)).bind fun v₈ _ _ h₈ hoffset => ?_
    refine (L.divScalar _ hoffset).bind fun v₉ _ _ h₉ hshare => ?_
    refine (L.mul (L.mono (L.trans h₈ h₉) hrise) hshare).bind fun v₁₀ _ _ h₁₀ hpart => ?_
    exact L.add (L.mono (L.trans h₆ (L.trans h₇ (L.trans h₈ (L.trans h₉ h₁₀)))) ha) hpart

/-- Both preparations stop at the same event. -/
theorem agree_prepare (h : Alike (L.Like w) n m m') (previous : R) (steps : List (R × R))
    (events : List (R × Request R)) {fixtures : List (Fixture T)} {fixtures' : List (Fixture T')}
    (hfixtures : List.Forall₂ (Fixture.Alike (L.Like w)) fixtures fixtures') :
    L.toWorlds.Agree w (m.prepare previous steps events fixtures)
      (m'.prepare previous steps events fixtures') fun v r r' =>
        r.1 = r'.1 ∧ List.Forall₂ (Fixture.Alike (L.Like v)) r.2.1 r'.2.1 ∧ r.2.2 = r'.2.2 := by
  induction events generalizing w previous steps fixtures fixtures' with
  | nil => exact Agree.pure ⟨rfl, hfixtures, rfl⟩
  | cons event events ih =>
    obtain ⟨time, request⟩ := event
    cases hfixtures with
    | nil => exact Agree.pure ⟨rfl, List.Forall₂.nil, rfl⟩
    | cons hold hrest =>
      simp only [prepare]
      split
      · exact Agree.pure ⟨rfl, List.Forall₂.cons hold hrest, rfl⟩
      · have hcut : m.cut = m'.cut := by
          unfold cut stepCount
          rw [h.maxStep]
        rw [hcut]
        refine (L.sub h.rate h.div).bind fun v₁ _ _ h₁ hcarry => ?_
        refine (agree_ofRates (L.mono h₁ h.rate) hcarry time request).bind fun v₂ _ _ h₂ ho => ?_
        have h₁₂ := L.trans h₁ h₂
        refine (ih (h.mono h₁₂) time _ (hrest.imp fun _ _ hf => hf.imp fun _ _ => L.mono h₁₂)).bind
          fun v₃ r r' h₃ hr => Agree.pure ?_
        exact ⟨hr.1, List.Forall₂.cons ⟨rfl, ho.imp fun _ _ => L.mono h₃⟩ hr.2.1, hr.2.2⟩

theorem alike_stepDeviations (h : Alike (L.Like w) n m m') (start length : R) :
    AlikeModelling L w (m.stepDeviations start length) (m'.stepDeviations start length)
      fun v => Row (L.Like v) := by
  have hdeviation (v) (hv : L.Later w v) (i : Nat) : AlikeModelling L v
      (do
        let vol ← interpolate m'.times (m.row i) (Valued.constant start)
        Modelling.record (Quantity.mulScalar vol (Scalar.sqrt length)))
      (do
        let vol ← interpolate m'.times (m'.row i) (Valued.constant start)
        Modelling.record (Quantity.mulScalar vol (Scalar.sqrt length))) L.Like :=
    (alike_interpolate _ ((h.row i).imp fun _ _ => L.mono hv) (L.constant v start)).bind
      fun _ _ _ _ hvol => Alike.lift (L.mulScalar _ hvol)
  unfold stepDeviations
  rw [h.spots, h.times]
  exact (Alike.mapM hdeviation L.mono (L.refl w) _).bind fun v _ _ _ hcolumn => Alike.pure hcolumn

theorem alike_stepDrift (h : Alike (L.Like w) n m m') (length : R) :
    AlikeModelling L w (m.stepDrift length) (m'.stepDrift length) L.Like :=
  Alike.lift ((L.sub h.rate h.div).bind fun _ _ _ _ hcarry => L.mulScalar length hcarry)

theorem alike_perStep (h : Alike (L.Like w) n m m') (steps : List (R × R)) :
    AlikeModelling L w (m.perStep steps) (m'.perStep steps) fun v =>
      List.Forall₂ fun p p' => Row (L.Like v) p.1 p'.1 ∧ L.Like v p.2 p'.2 := by
  unfold perStep
  refine Alike.mapM (fun v hv step => ?_) (fun hl hp => ⟨hp.1.imp fun _ _ => L.mono hl, L.mono hl hp.2⟩)
    (L.refl w) steps
  have h := h.mono hv
  refine (alike_stepDeviations h step.1 step.2).bind fun v₁ _ _ h₁ hdeviations => ?_
  refine (alike_stepDrift (h.mono h₁) step.2).bind fun v₂ _ _ h₂ hdrift => Alike.pure ?_
  exact ⟨hdeviations.imp fun _ _ => L.mono h₂, hdrift⟩

theorem tracks_prepare {α α' : Type} {rel : S × S' → α → α' → Prop} {a : Modelling R S α}
    {a' : Modelling R S' α'} (h : AlikeModelling L w a a' rel) :
    L.toWorlds.Tracks w (fun v => Alike (L.Like v) n)
      (Modelling.prepare a : Preparing R S (LocalVol R T) α)
      (Modelling.prepare a' : Preparing R S' (LocalVol R T') α') rel :=
  Tracks.keeping _ (fun hl h => h.mono hl) h

/-- The steps and fixtures of a timeline that there is room for. -/
def prepareSteps (times : List R) (requests : List (Request R)) : Preparing R S (LocalVol R T) Unit := do
  let m ← get
  let (steps, fixtures, stop) ←
    Modelling.prepare (.record (m.prepare 0 [] (times.zip requests) m.fixtures))
  set { m with lengths := (steps.map Prod.snd).toArray, fixtures := fixtures }
  match stop with
  | some e => throw (.error e)
  | none =>
    let prepared ← Modelling.prepare (m.perStep steps)
    modify fun m => { m with
      deviations := (prepared.map Prod.fst).toArray
      drifts := (prepared.map Prod.snd).toArray
      isReady := true }

theorem tracks_prepareSteps (times : List R) (requests : List (Request R)) :
    L.toWorlds.Tracks w (fun v => Alike (L.Like v) n)
      (prepareSteps times requests : Preparing R S (LocalVol R T) Unit)
      (prepareSteps times requests : Preparing R S' (LocalVol R T') Unit) fun _ _ _ => True := by
  refine Tracks.get.bind fun v₁ m m' h₁ hm => ?_
  refine (tracks_prepare (Alike.lift (agree_prepare hm 0 [] (times.zip requests) hm.fixtures))).bind
    fun v₂ r r' h₂ hprepared => ?_
  obtain ⟨steps, fixtures, stop⟩ := r
  obtain ⟨_, fixtures', _⟩ := r'
  obtain ⟨rfl, hfixtures, rfl⟩ := hprepared
  have hm := hm.mono h₂
  refine Tracks.bind (Tracks.set { hm with lengths := rfl, fixtures := hfixtures }) fun v₃ _ _ h₃ _ => ?_
  cases stop with
  | some e => exact Tracks.throw _
  | none =>
    refine (tracks_prepare (alike_perStep (hm.mono h₃) steps)).bind fun v₄ r r' h₄ hr => ?_
    refine Tracks.modify fun h => { h with deviations := ?_, drifts := ?_, isReady := rfl }
    · exact List.forall₂_map_left_iff.2 (List.forall₂_map_right_iff.2 (hr.imp fun _ _ => And.left))
    · exact List.forall₂_map_left_iff.2 (List.forall₂_map_right_iff.2 (hr.imp fun _ _ => And.right))

theorem tracks_init (times : List R) (requests : List (Request R)) :
    L.toWorlds.Tracks w (fun v => Alike (L.Like v) n) (init times requests : Preparing R S (LocalVol R T) Unit)
      (init times requests : Preparing R S' (LocalVol R T') Unit) fun _ _ _ => True := by
  unfold init
  dsimp only
  split
  · exact Tracks.throw _
  refine Tracks.get.bind fun v₁ m m' h₁ hm => ?_
  rw [hm.fixtures.length_eq]
  split
  · exact Tracks.bind (Tracks.modify fun h => h.allocate times requests) fun v₂ _ _ _ _ => tracks_prepareSteps times requests
  · exact tracks_prepareSteps times requests

/-- Moves of like logarithms. -/
theorem alike_move (h : Alike (L.Like w) n m m') (draws : Array R) {x : T} {x' : T'} (hx : L.Like w x x')
    (step : Nat) : AlikeModelling L w (m.move draws x step) (m'.move draws x' step) L.Like := by
  unfold move
  rw [h.logSpots]
  refine (alike_read (fun v => Row (L.Like v)) (rel_getElem? h.deviations step)).bind
    fun v₁ _ _ h₁ hrow => ?_
  refine (alike_interpolate _ hrow (L.mono h₁ hx)).bind fun v₂ _ _ h₂ hvol => ?_
  have h₁₂ := L.trans h₁ h₂
  refine (alike_read L.Like (rel_getElem? (h.drifts.imp fun _ _ => L.mono h₁₂) step)).bind fun v₃ _ _ h₃ hdrift => ?_
  refine (alike_readSame _).bind fun v₄ z _ h₄ hz => ?_
  subst hz
  have h₃₄ := L.trans h₃ h₄
  refine Alike.lift ((L.mulScalar _ (L.mono h₃₄ hvol)).bind fun v₅ _ _ h₅ hhalf => ?_)
  refine (L.addScalar z hhalf).bind fun v₆ _ _ h₆ hshock => ?_
  have h₅₆ := L.trans h₅ h₆
  refine (L.mul (L.mono (L.trans h₃₄ h₅₆) hvol) hshock).bind fun v₇ _ _ h₇ hnoise => ?_
  have h₄₇ := L.trans h₄ (L.trans h₅₆ h₇)
  refine (L.add (L.mono h₄₇ hdrift) hnoise).bind fun v₈ _ _ h₈ hchange => ?_
  exact L.add (L.mono (L.trans h₁₂ (L.trans h₃ (L.trans h₄₇ h₈))) hx) hchange

/-- Samples along a path are alike, whatever samples they overwrite. -/
theorem alike_follow (h : Alike (L.Like w) n m m') (draws : Array R) {x : T} {x' : T'} (hx : L.Like w x x')
    (step : Nat) {fixtures : List (Fixture T)} {fixtures' : List (Fixture T')}
    (hfixtures : List.Forall₂ (Fixture.Alike (L.Like w)) fixtures fixtures') {samples : List (Sample T)}
    {samples' : List (Sample T')} (hshape : shape samples = shape samples')
    (hlength : samples.length ≤ fixtures.length) :
    AlikeModelling L w (m.follow draws x step fixtures samples) (m'.follow draws x' step fixtures' samples')
      (L.LikeSamples (shape samples) (List.Forall₂ (L.LikeCurves w) samples samples')) := by
  induction samples generalizing w x x' step fixtures fixtures' samples' with
  | nil =>
    obtain rfl := List.map_eq_nil_iff.1 hshape.symm
    cases hfixtures with
    | nil => exact Alike.pure ⟨List.Forall₂.nil, rfl, rfl, fun h => h⟩
    | cons _ _ => exact Alike.pure ⟨List.Forall₂.nil, rfl, rfl, fun h => h⟩
  | cons s samples ih =>
    cases samples' with
    | nil => cases hshape
    | cons s' samples' =>
      obtain ⟨hsize, hshape⟩ := List.cons_eq_cons.1 hshape
      cases hfixtures with
      | nil => simp at hlength
      | cons hf hrest =>
        simp only [follow, hf.step]
        refine Alike.bind (Alike.foldlM (r := fun _ => Eq) (fun _ h => h) (fun v y y' k k' hv hy hk => ?_)
          (L.refl w) (List.forall₂_same.2 fun _ _ => rfl) hx) fun v₁ y y' h₁ hy => ?_
        · subst hk
          exact alike_move (h.mono hv) draws hy k
        refine Alike.bind (Alike.lift (L.exp hy)) fun v₂ z z' h₂ hz => ?_
        have h₁₂ := L.trans h₁ h₂
        refine Alike.bind (Alike.lift (agree_writeSample (hf.observables.imp fun _ _ => L.mono h₁₂) hz hsize))
          fun v₃ t t' h₃ ht => ?_
        obtain ⟨hlike, hleft, hright, hcurves⟩ := ht
        have h₁₃ := L.trans h₁₂ h₃
        refine Alike.bind (ih (h.mono h₁₃) (L.mono (L.trans h₂ h₃) hy) _
          (hrest.imp fun _ _ hf => hf.imp fun _ _ => L.mono h₁₃) hshape (by simpa using hlength))
          fun v₄ l l' h₄ hl => Alike.pure ?_
        refine ⟨List.Forall₂.cons (hlike.mono h₄) hl.like, congrArg₂ List.cons hleft hl.shape_left,
          congrArg₂ List.cons hright hl.shape_right, fun h => ?_⟩
        cases h with
        | cons hfirst hlater =>
          exact .cons ((hcurves (hfirst.mono h₁₂)).mono h₄)
            (hl.curves (hlater.imp fun _ _ h => h.mono h₁₃))

/-- Scenarios of a path are alike, whatever scenarios of one shape they overwrite. -/
theorem alike_generate (h : Alike (L.Like w) n m m') (draws : Array R) {s : Scenario T} {s' : Scenario T'}
    (hshape : shape s.toList = shape s'.toList) :
    AlikeModelling L w (m.generate draws s) (m'.generate draws s') fun v x x' =>
      L.LikeSamples (shape s.toList) (List.Forall₂ (L.LikeCurves w) s.toList s'.toList) v x.toList x'.toList := by
  have hsize : s.size = s'.size := by simpa [shape] using congrArg List.length hshape
  simp only [generate, h.isReady, h.dimension_eq, hsize, h.fixtures.length_eq]
  split
  · exact Alike.throw _
  split
  · exact Alike.throw _
  split
  · exact Alike.throw _
  · next hdraws hscenario =>
    refine Alike.bind (Alike.lift (L.log h.spot)) fun v₁ x x' h₁ hx => ?_
    have hfixtures := h.fixtures.length_eq
    have hlength : s.toList.length ≤ m.fixtures.length := by
      simp only [Array.length_toList]
      omega
    refine Alike.bind (alike_follow (h.mono h₁) draws hx 0 (h.fixtures.imp fun _ _ hf => hf.imp fun _ _ => L.mono h₁)
      hshape hlength) fun v₂ l l' _ hl => Alike.pure ?_
    exact { hl with curves := fun hcurves => hl.curves (hcurves.imp fun _ _ hc => hc.mono h₁) }

end LocalVol

end PayoffPricing
