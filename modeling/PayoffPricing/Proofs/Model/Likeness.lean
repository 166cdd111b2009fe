import PayoffPricing.Model.Basic
import PayoffPricing.Proofs.Model.BlackScholes
import PayoffPricing.Proofs.Model.LocalVol
/-!
Models preserve likeness of quantities.
-/

namespace PayoffPricing

open Worlds Likeness

namespace Model

variable {R S S' T T' : Type} {r q : T → T' → Prop} {n : Nat}

/-- Models of one kind, with `n` parameters and with their quantities in a relation. -/
def Alike (r : T → T' → Prop) (n : Nat) : Model R T → Model R T' → Prop
  | blackScholes m, blackScholes m' => BlackScholes.Alike r m m' ∧ n = 4
  | localVol m, localVol m' => ∃ k, LocalVol.Alike r k m m' ∧ n = k + 3
  | _, _ => False

variable {m : Model R T} {m' : Model R T'}

theorem Alike.imp (h : Alike r n m m') (hi : ∀ x x', r x x' → q x x') : Alike q n m m' := by
  cases m with
  | blackScholes m =>
    cases m' with
    | blackScholes m' => exact ⟨h.1.imp hi, h.2⟩
    | localVol m' => exact h.elim
  | localVol m =>
    cases m' with
    | blackScholes m' => exact h.elim
    | localVol m' =>
      obtain ⟨k, h, hn⟩ := h
      exact ⟨k, h.imp hi, hn⟩

theorem Alike.dimension_eq (h : Alike r n m m') : m.dimension = m'.dimension := by
  cases m with
  | blackScholes m =>
    cases m' with
    | blackScholes m' => exact h.1.dimension_eq
    | localVol m' => exact h.elim
  | localVol m =>
    cases m' with
    | blackScholes m' => exact h.elim
    | localVol m' =>
      obtain ⟨k, h, -⟩ := h
      exact h.dimension_eq

theorem Alike.parameters (h : Alike r n m m') :
    m.parameters.length = n ∧ List.Forall₂ r m.parameters m'.parameters := by
  cases m with
  | blackScholes m =>
    cases m' with
    | blackScholes m' => exact ⟨h.2.symm, h.1.parameters⟩
    | localVol m' => exact h.elim
  | localVol m =>
    cases m' with
    | blackScholes m' => exact h.elim
    | localVol m' =>
      obtain ⟨k, h, rfl⟩ := h
      refine ⟨?_, h.parameters⟩
      simp [Model.parameters, LocalVol.parameters, h.size_vols]

section Lifting

variable {W : Worlds S S'} {w : S × S'} {rel : S × S' → T → T' → Prop}

theorem agree_lift {f : R → StateM S T} {f' : R → StateM S' T'} (hf : ∀ v c, W.Agree v (f c) (f' c) rel)
    (hmono : ∀ {v v' x x'}, W.Later v v' → rel v x x' → rel v' x x') (m : Model R R) :
    W.Agree w (m.lift f) (m.lift f') fun v => Alike (rel v) m.parameters.length := by
  cases m with
  | blackScholes m =>
    exact (BlackScholes.agree_lift hf hmono m).bind fun v _ _ _ h => Agree.pure ⟨h, rfl⟩
  | localVol m =>
    refine (LocalVol.agree_lift hf hmono m).bind fun v _ _ _ h => Agree.pure ⟨_, h, ?_⟩
    simp [parameters, LocalVol.parameters]

end Lifting

variable [Scalar R] [Quantity R S T] [Quantity R S' T'] {L : Likeness R S S' T T'} {w : S × S'}

theorem Alike.allocate (h : Alike (L.Like w) n m m') (times : List R) (requests : List (Request R)) :
    Alike (L.Like w) n (m.allocate times requests) (m'.allocate times requests) := by
  cases m with
  | blackScholes m =>
    cases m' with
    | blackScholes m' => exact ⟨h.1.allocate times requests, h.2⟩
    | localVol m' => exact h.elim
  | localVol m =>
    cases m' with
    | blackScholes m' => exact h.elim
    | localVol m' =>
      obtain ⟨k, h, hn⟩ := h
      exact ⟨k, h.allocate times requests, hn⟩

theorem tracks_init (times : List R) (requests : List (Request R)) :
    L.toWorlds.Tracks w (fun v => Alike (L.Like v) n) (init times requests : Preparing R S (Model R T) Unit)
      (init times requests : Preparing R S' (Model R T') Unit) fun _ _ _ => True := by
  intro m m' h
  cases m with
  | blackScholes m =>
    cases m' with
    | blackScholes m' =>
      refine (BlackScholes.tracks_init times requests m m' h.1).bind fun v r r' _ hr => Agree.pure ?_
      rcases r with ⟨_ | _, _⟩ <;> rcases r' with ⟨_ | _, _⟩
      · exact hr
      · exact hr
      · exact hr
      · exact ⟨trivial, hr.2, h.2⟩
    | localVol m' => exact h.elim
  | localVol m =>
    cases m' with
    | blackScholes m' => exact h.elim
    | localVol m' =>
      obtain ⟨k, h, hn⟩ := h
      refine (LocalVol.tracks_init times requests m m' h).bind fun v r r' _ hr => Agree.pure ?_
      rcases r with ⟨_ | _, _⟩ <;> rcases r' with ⟨_ | _, _⟩
      · exact hr
      · exact hr
      · exact hr
      · exact ⟨trivial, k, hr.2, hn⟩

/-- Scenarios of a path are alike, whatever scenarios of one shape they overwrite. -/
theorem Alike.alike_generate (h : Alike (L.Like w) n m m') (draws : Array R) {s : Scenario T} {s' : Scenario T'}
    (hshape : shape s.toList = shape s'.toList) :
    L.toWorlds.Alike w (m.generate draws s : Modelling R S (Scenario T))
      (m'.generate draws s' : Modelling R S' (Scenario T')) fun v x x' =>
        L.LikeSamples (shape s.toList) (List.Forall₂ (L.LikeCurves w) s.toList s'.toList) v x.toList x'.toList := by
  cases m with
  | blackScholes m =>
    cases m' with
    | blackScholes m' => exact BlackScholes.alike_generate h.1 draws hshape
    | localVol m' => exact h.elim
  | localVol m =>
    cases m' with
    | blackScholes m' => exact h.elim
    | localVol m' =>
      obtain ⟨k, h, -⟩ := h
      exact LocalVol.alike_generate h draws hshape

end Model

end PayoffPricing
