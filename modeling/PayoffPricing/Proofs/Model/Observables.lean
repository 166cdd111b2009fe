import PayoffPricing.Model.Observables
import PayoffPricing.Proofs.Script.Likeness
/-!
Observables that follow from the spot preserve likeness of quantities. A model overwrites the spot and the
numeraire of a sample, so samples come out alike there that only had room for the same forwards.
-/

namespace PayoffPricing

open Worlds Likeness

variable {R S S' T T' : Type}

/-- Observables with their quantities in a relation. -/
structure Observables.Alike (r : T → T' → Prop) (o : Observables T) (o' : Observables T') : Prop where
  numeraire : r o.numeraire o'.numeraire
  forwardFactors : List.Forall₂ r o.forwardFactors o'.forwardFactors
  discounts : List.Forall₂ r o.discounts o'.discounts

theorem Observables.Alike.imp {r q : T → T' → Prop} {o : Observables T} {o' : Observables T'}
    (h : Observables.Alike r o o') (hi : ∀ x x', r x x' → q x x') : Observables.Alike q o o' :=
  ⟨hi _ _ h.numeraire, h.forwardFactors.imp hi, h.discounts.imp hi⟩

/-- How many forwards there are in each sample. -/
def shape (samples : List (Sample T)) : List Nat := samples.map fun s => s.forwards.size

variable [Scalar R] [Quantity R S T] [Quantity R S' T'] {L : Likeness R S S' T T'} {w : S × S'}

namespace Likeness

theorem alike_initial (w : S × S') (request : Request R) :
    Observables.Alike (L.Like w) (.initial request) (.initial request) :=
  ⟨L.one w, likeList_replicate _ (L.one w), likeList_replicate _ (L.one w)⟩

theorem agree_ofRates {rate carry : T} {rate' carry' : T'} (hrate : L.Like w rate rate')
    (hcarry : L.Like w carry carry') (time : R) (request : Request R) :
    L.toWorlds.Agree w (Observables.ofRates rate carry time request)
      (Observables.ofRates rate' carry' time request) fun v => Observables.Alike (L.Like v) := by
  have hgrowth (v) (hv : L.Later w v) (maturity : R) : L.toWorlds.Agree v
      (do Quantity.exp (← Quantity.mulScalar carry (maturity - time)))
      (do Quantity.exp (← Quantity.mulScalar carry' (maturity - time))) L.Like :=
    (L.mulScalar _ (L.mono hv hcarry)).bind fun _ _ _ _ hx => L.exp hx
  have hdiscount (v) (hv : L.Later w v) (maturity : R) : L.toWorlds.Agree v
      (do Quantity.exp (← Quantity.neg (← Quantity.mulScalar rate (maturity - time))))
      (do Quantity.exp (← Quantity.neg (← Quantity.mulScalar rate' (maturity - time)))) L.Like :=
    (L.mulScalar _ (L.mono hv hrate)).bind fun _ _ _ _ hx => (L.neg hx).bind fun _ _ _ _ hneg => L.exp hneg
  have hrest (v) (x : T) (x' : T') (hv : L.Later w v) (hx : L.Like v x x') : L.toWorlds.Agree v
      (do
        let forwardFactors ← request.forwards.toList.mapM fun maturity => do
          Quantity.exp (← Quantity.mulScalar carry (maturity - time))
        let discounts ← request.discounts.toList.mapM fun maturity => do
          Quantity.exp (← Quantity.neg (← Quantity.mulScalar rate (maturity - time)))
        return ⟨x, forwardFactors, discounts⟩)
      (do
        let forwardFactors ← request.forwards.toList.mapM fun maturity => do
          Quantity.exp (← Quantity.mulScalar carry' (maturity - time))
        let discounts ← request.discounts.toList.mapM fun maturity => do
          Quantity.exp (← Quantity.neg (← Quantity.mulScalar rate' (maturity - time)))
        return ⟨x', forwardFactors, discounts⟩) fun u => Observables.Alike (L.Like u) := by
    refine (Agree.mapM hgrowth L.mono hv _).bind fun v₁ _ _ h₁ hfactors => ?_
    refine (Agree.mapM hdiscount L.mono (L.trans hv h₁) _).bind fun v₂ _ _ h₂ hdiscounts => ?_
    exact Agree.pure ⟨L.mono (L.trans h₁ h₂) hx, hfactors.2.imp fun _ _ => L.mono h₂, hdiscounts.2⟩
  unfold Observables.ofRates
  dsimp only
  split
  · refine (L.mulScalar time hrate).bind fun v₁ _ _ h₁ hgrown => ?_
    exact (L.exp hgrown).bind fun v₂ x x' h₂ hx => hrest v₂ x x' (L.trans h₁ h₂) hx
  · exact hrest w _ _ (L.refl w) (L.one w)

/-- Samples that show the same forwards and the same discounts. -/
structure LikeCurves (L : Likeness R S S' T T') (w : S × S') (s : Sample T) (s' : Sample T') : Prop where
  forwards : L.LikeList w s.forwards.toList s'.forwards.toList
  discounts : L.LikeList w s.discounts.toList s'.discounts.toList

theorem LikeCurves.mono {v : S × S'} {s : Sample T} {s' : Sample T'} (h : L.LikeCurves w s s')
    (hl : L.Later w v) : L.LikeCurves v s s' := ⟨h.forwards.mono hl, h.discounts.mono hl⟩

variable {spot : T} {spot' : T'}

/-- Forwards come in the same number; they are alike where the old ones are. -/
theorem agree_writeForwards (hspot : L.Like w spot spot') {factors : List T} {factors' : List T'}
    (hfactors : List.Forall₂ (L.Like w) factors factors') {forwards : List T} {forwards' : List T'}
    (hlength : forwards.length = forwards'.length) :
    L.toWorlds.Agree w (Observables.writeForwards spot forwards factors)
      (Observables.writeForwards spot' forwards' factors')
      fun v l l' => l.length = forwards.length ∧ l'.length = forwards.length ∧
        (L.LikeList w forwards forwards' → L.LikeList v l l') := by
  induction forwards generalizing w forwards' factors factors' with
  | nil =>
    obtain rfl := List.length_eq_zero_iff.1 hlength.symm
    exact Agree.pure ⟨rfl, rfl, fun h => h⟩
  | cons x forwards ih =>
    cases forwards' with
    | nil => cases hlength
    | cons x' forwards' =>
      cases hfactors with
      | nil => exact Agree.pure ⟨rfl, hlength.symm, fun h => h⟩
      | cons hfactor hrest =>
        refine (L.mul hspot hfactor).bind fun v _ _ hv hforward => ?_
        refine (ih (L.mono hv hspot) (hrest.imp fun _ _ => L.mono hv) (Nat.succ.inj hlength)).bind
          fun u l l' hu hl => Agree.pure ?_
        refine ⟨by simp [hl.1], by simp [hl.2.1], fun h => ?_⟩
        cases h with
        | cons _ hforwards => exact .cons (L.mono hu hforward) (hl.2.2 (hforwards.imp fun _ _ => L.mono hv))

theorem likeList_overwrite {old new : List T} {old' new' : List T'} (hold : L.LikeList w old old')
    (hnew : L.LikeList w new new') :
    L.LikeList w (Observables.overwrite old new) (Observables.overwrite old' new') := by
  induction hold generalizing new new' with
  | nil =>
    cases hnew with
    | nil => exact .nil
    | cons _ _ => exact .nil
  | cons hx hrest ih =>
    cases hnew with
    | nil => exact .cons hx hrest
    | cons hy hnew => exact .cons hy (ih hnew)

theorem agree_writeSample {o : Observables T} {o' : Observables T'} (ho : Observables.Alike (L.Like w) o o')
    (hspot : L.Like w spot spot') {s : Sample T} {s' : Sample T'} (hs : s.forwards.size = s'.forwards.size) :
    L.toWorlds.Agree w (o.writeSample spot s) (o'.writeSample spot' s') fun v x x' =>
      L.LikeSample v x x' ∧ x.forwards.size = s.forwards.size ∧ x'.forwards.size = s.forwards.size ∧
        (L.LikeCurves w s s' → L.LikeCurves v x x') := by
  refine (agree_writeForwards hspot ho.forwardFactors (by simpa using hs)).bind fun v l l' hv hl => ?_
  obtain ⟨hleft, hright, hcurves⟩ := hl
  refine Agree.pure ⟨⟨L.mono hv hspot, L.mono hv ho.numeraire⟩, by simpa using hleft, by simpa using hright,
    fun h => ⟨by simpa using hcurves h.forwards, ?_⟩⟩
  simpa using likeList_overwrite (h.discounts.mono hv) (ho.discounts.imp fun _ _ => L.mono hv)

/-- Samples alike one by one, with the given shape; where `q` holds, in all that they show. -/
structure LikeSamples (L : Likeness R S S' T T') (sizes : List Nat) (q : Prop) (w : S × S') (l : List (Sample T))
    (l' : List (Sample T')) : Prop where
  like : List.Forall₂ (L.LikeSample w) l l'
  shape_left : shape l = sizes
  shape_right : shape l' = sizes
  curves : q → List.Forall₂ (L.LikeCurves w) l l'

theorem LikeSamples.mono {sizes : List Nat} {q : Prop} {v : S × S'} {l : List (Sample T)} {l' : List (Sample T')}
    (h : L.LikeSamples sizes q w l l') (hl : L.Later w v) : L.LikeSamples sizes q v l l' :=
  ⟨h.like.imp fun _ _ hs => hs.mono hl, h.shape_left, h.shape_right,
    fun hq => (h.curves hq).imp fun _ _ hc => hc.mono hl⟩

end Likeness

end PayoffPricing
