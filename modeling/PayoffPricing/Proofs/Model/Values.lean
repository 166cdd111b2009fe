import PayoffPricing.Proofs.Model.Grid
import PayoffPricing.Proofs.Model.LocalVol
/-!
The values of a computation with quantities are those of the same computation with plain scalars, whatever
is recorded. So what is known about a path of plain scalars holds of every path with the same values.
-/

namespace PayoffPricing

/-- Quantities all of whose operations have the values of plain scalars. -/
class FullyTransparent (R S T : Type) [Scalar R] [Quantity R S T] : Prop extends Transparent R S T where
  value_div (x y : T) (s : S) :
    (Valued.value ((Quantity.div x y : StateM S T).run s).1 : R) = Valued.value x / Valued.value y
  value_pow (x y : T) (s : S) :
    (Valued.value ((Quantity.pow x y : StateM S T).run s).1 : R) = Scalar.pow (Valued.value x) (Valued.value y)
  value_neg (x : T) (s : S) : (Valued.value ((Quantity.neg x : StateM S T).run s).1 : R) = -Valued.value x
  value_addScalar (x : T) (c : R) (s : S) :
    (Valued.value ((Quantity.addScalar x c : StateM S T).run s).1 : R) = Valued.value x + c
  value_exp (x : T) (s : S) :
    (Valued.value ((Quantity.exp x : StateM S T).run s).1 : R) = Scalar.exp (Valued.value x)
  value_log (x : T) (s : S) :
    (Valued.value ((Quantity.log x : StateM S T).run s).1 : R) = Scalar.log (Valued.value x)
  value_sqrt (x : T) (s : S) :
    (Valued.value ((Quantity.sqrt x : StateM S T).run s).1 : R) = Scalar.sqrt (Valued.value x)
  value_abs (x : T) (s : S) :
    (Valued.value ((Quantity.abs x : StateM S T).run s).1 : R) = Scalar.abs (Valued.value x)
  value_lognormalStep (x y z : T) (c : R) (s : S) :
    (Valued.value ((Quantity.lognormalStep x y z c : StateM S T).run s).1 : R) =
      Valued.value x * Scalar.exp (Valued.value y + Valued.value z * c)

section Instances

variable {R : Type} [Scalar R]

instance : FullyTransparent R Unit R where
  value_div _ _ _ := rfl
  value_pow _ _ _ := rfl
  value_neg _ _ := rfl
  value_addScalar _ _ _ := rfl
  value_exp _ _ := rfl
  value_log _ _ := rfl
  value_sqrt _ _ := rfl
  value_abs _ _ := rfl
  value_lognormalStep _ _ _ _ _ := rfl

theorem Folded.value_record (e : Folded R) (t : Tape R) : (e.record.run t).1.value = e.value := by
  change (e.record t).1.value = e.value
  unfold Folded.record
  split <;> rfl

instance : FullyTransparent R (Tape R) (Number R) where
  value_div _ _ := Number.value_result _ _
  value_pow _ _ := Number.value_result _ _
  value_neg _ := Number.value_result _ _
  value_addScalar _ _ := Number.value_result _ _
  value_exp _ := Number.value_result _ _
  value_log _ := Number.value_result _ _
  value_sqrt _ := Number.value_result _ _
  value_abs _ := Number.value_result _ _
  value_lognormalStep _ _ _ _ := Folded.value_record _

end Instances

section Likeness

variable (R S T : Type) [Scalar R] [Quantity R S T] [FullyTransparent R S T]

/-- Plain scalars beside the quantities of which they are the values. -/
def valueLikeness : Likeness R Unit S R T where
  Valid _ := True
  Later _ _ := True
  refl _ := trivial
  trans _ _ := trivial
  Like _ x x' := x = Valued.value x'
  mono _ h := h
  constant _ c := (Transparent.value_constant (S := S) c).symm
  value h := h
  add := by
    rintro w _ _ x y rfl rfl -
    exact ⟨trivial, trivial, (Transparent.value_add x y w.2).symm⟩
  sub := by
    rintro w _ _ x y rfl rfl -
    exact ⟨trivial, trivial, (Transparent.value_sub x y w.2).symm⟩
  mul := by
    rintro w _ _ x y rfl rfl -
    exact ⟨trivial, trivial, (Transparent.value_mul x y w.2).symm⟩
  div := by
    rintro w _ _ x y rfl rfl -
    exact ⟨trivial, trivial, (FullyTransparent.value_div x y w.2).symm⟩
  pow := by
    rintro w _ _ x y rfl rfl -
    exact ⟨trivial, trivial, (FullyTransparent.value_pow x y w.2).symm⟩
  neg := by
    rintro w _ x rfl -
    exact ⟨trivial, trivial, (FullyTransparent.value_neg x w.2).symm⟩
  addScalar := by
    rintro w _ x c rfl -
    exact ⟨trivial, trivial, (FullyTransparent.value_addScalar x c w.2).symm⟩
  subScalar := by
    rintro w _ x c rfl -
    exact ⟨trivial, trivial, (Transparent.value_subScalar x c w.2).symm⟩
  mulScalar := by
    rintro w _ x c rfl -
    exact ⟨trivial, trivial, (Transparent.value_mulScalar x c w.2).symm⟩
  divScalar := by
    rintro w _ x c rfl -
    exact ⟨trivial, trivial, (Transparent.value_divScalar x c w.2).symm⟩
  exp := by
    rintro w _ x rfl -
    exact ⟨trivial, trivial, (FullyTransparent.value_exp x w.2).symm⟩
  log := by
    rintro w _ x rfl -
    exact ⟨trivial, trivial, (FullyTransparent.value_log x w.2).symm⟩
  sqrt := by
    rintro w _ x rfl -
    exact ⟨trivial, trivial, (FullyTransparent.value_sqrt x w.2).symm⟩
  abs := by
    rintro w _ x rfl -
    exact ⟨trivial, trivial, (FullyTransparent.value_abs x w.2).symm⟩
  lognormalStep := by
    rintro w _ _ _ x y z c rfl rfl rfl -
    exact ⟨trivial, trivial, (FullyTransparent.value_lognormalStep x y z c w.2).symm⟩

end Likeness

variable {R S T : Type}

section Plain

variable [Valued R T]

def Observables.values (o : Observables T) : Observables R :=
  ⟨Valued.value o.numeraire, o.forwardFactors.map Valued.value, o.discounts.map Valued.value⟩

namespace LocalVol

def Fixture.values (fixture : Fixture T) : Fixture R := ⟨fixture.step, fixture.observables.values⟩

/-- The model on plain scalars. -/
def values (m : LocalVol R T) : LocalVol R R where
  spot := Valued.value m.spot
  rate := Valued.value m.rate
  div := Valued.value m.div
  spots := m.spots
  logSpots := m.logSpots
  times := m.times
  vols := m.vols.map Valued.value
  maxStep := m.maxStep
  lengths := m.lengths
  deviations := m.deviations.map fun row => row.map Valued.value
  drifts := m.drifts.map Valued.value
  fixtures := m.fixtures.map Fixture.values
  isReady := m.isReady

end LocalVol

end Plain

namespace LocalVol

variable [Scalar R] [Quantity R S T] [FullyTransparent R S T]

theorem alike_values (m : LocalVol R T) (w : Unit × S) :
    Alike ((valueLikeness R S T).Like w) m.vols.size m.values m := by
  have hmap (xs : List T) : List.Forall₂ ((valueLikeness R S T).Like w) (xs.map Valued.value) xs :=
    List.forall₂_map_left_iff.2 (List.forall₂_same.2 fun _ _ => rfl)
  have hrow (xs : Array T) : Row ((valueLikeness R S T).Like w) (xs.map Valued.value) xs := by
    rw [Row, Array.toList_map]
    exact hmap xs.toList
  refine ⟨rfl, rfl, rfl, rfl, Array.size_map, hrow m.vols, rfl, ?_, hrow m.drifts, ?_, rfl⟩
  · rw [values, Array.toList_map]
    exact List.forall₂_map_left_iff.2 (List.forall₂_same.2 fun row _ => hrow row)
  · apply List.forall₂_map_left_iff.2
    apply List.forall₂_same.2
    intro fixture _
    exact ⟨rfl, rfl, hmap _, hmap _⟩

/-- A move has the value of the move of the value. -/
theorem move_values (m : LocalVol R T) (draws : Array R) {x y : T} {k : Nat} {s t : S}
    (h : (m.move draws x k : Modelling R S T).run.run s = (.ok y, t)) :
    (m.values.move draws (Valued.value x) k : Modelling R Unit R) = pure (Valued.value y) := by
  have hx : (valueLikeness R S T).Like ((), s) (Valued.value x) x := rfl
  obtain ⟨-, -, hvalue⟩ := alike_move (m.alike_values ((), s)) draws hx k trivial
  change Worlds.Outcome _ _ ((m.move draws x k : Modelling R S T).run.run s).1 at hvalue
  rw [h] at hvalue
  cases hplain : (m.values.move draws (Valued.value x) k : Modelling R Unit R).run.run () with
  | mk r u =>
    change Worlds.Outcome _ ((m.values.move draws (Valued.value x) k : Modelling R Unit R).run.run ()).1 _ at hvalue
    rw [hplain] at hvalue
    cases r with
    | error e => exact hvalue.elim
    | ok z =>
      obtain rfl : z = Valued.value y := hvalue
      exact Modelling.eq_pure_of_run hplain

end LocalVol

end PayoffPricing
