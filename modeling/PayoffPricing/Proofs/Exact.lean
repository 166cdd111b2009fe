import Mathlib.Algebra.Order.Floor.Semiring
import Mathlib.Analysis.SpecialFunctions.Pow.Real
import PayoffPricing.Proofs.Scalar
/-!
Exact arithmetic: scalars that form a linearly ordered field. The real numbers are the model.
-/

namespace PayoffPricing

/-- Scalars whose arithmetic and order are exact; every number is finite, equality, sameness and the
total order are those of the field, and exponentials and roots are not negative. -/
class ExactScalar (R : Type) extends Scalar R, Field R, LinearOrder R, IsStrictOrderedRing R where
  ofNat_eq (n : Nat) : Scalar.ofNat n = (n : R)
  ofDecimal_eq (m : Nat) (e : Int) : Scalar.ofDecimal m e = (m : R) * 10 ^ e
  abs_eq (a : R) : Scalar.abs a = |a|
  isFinite_eq (a : R) : Scalar.isFinite a = true
  beq_iff (a b : R) : (a == b) = true ↔ a = b
  identical_iff (a b : R) : Scalar.identical a b = true ↔ a = b
  precedes_iff (a b : R) : Scalar.precedes a b = true ↔ a ≤ b
  exp_nonneg (a : R) : 0 ≤ Scalar.exp a
  sqrt_nonneg (a : R) : 0 ≤ Scalar.sqrt a

namespace ExactScalar

variable {R : Type} [ExactScalar R]

attribute [simp] isFinite_eq beq_iff identical_iff precedes_iff

/-- A literal of the library, as a literal of the field. -/
theorem literal_eq (n : Nat) : @OfNat.ofNat R n (Scalar.instOfNat n) = (n : R) := ofNat_eq n

theorem half_eq :
    @OfScientific.ofScientific R Scalar.instOfScientific 5 true 1 = 1 / 2 := by
  change Scalar.ofDecimal 5 (-1) = _
  rw [ofDecimal_eq]
  norm_num

instance : FaithfulScalar R where
  add_comm := add_comm
  mul_comm := mul_comm
  eq_of_identical a b := (identical_iff a b).1

end ExactScalar

section Literals

variable {R : Type} [ExactScalar R]

theorem scalar_zero : @OfNat.ofNat R 0 (Scalar.instOfNat 0) = 0 := by
  rw [ExactScalar.literal_eq, Nat.cast_zero]

theorem scalar_one : @OfNat.ofNat R 1 (Scalar.instOfNat 1) = 1 := by
  rw [ExactScalar.literal_eq, Nat.cast_one]

end Literals

noncomputable instance : Scalar ℝ where
  ofDecimal m e := m * 10 ^ e
  ofNat n := n
  exp := Real.exp
  log := Real.log
  sqrt := Real.sqrt
  pow x y := x ^ y
  abs x := |x|
  isFinite _ := true
  ceilNat x := ⌈x⌉₊
  beq x y := decide (x = y)
  identical x y := decide (x = y)
  precedes x y := decide (x ≤ y)
  decLt := inferInstance
  decLe := inferInstance

noncomputable instance : ExactScalar ℝ where
  toScalar := inferInstance
  __ := (inferInstance : Field ℝ)
  __ := (inferInstance : LinearOrder ℝ)
  __ := (inferInstance : IsStrictOrderedRing ℝ)
  ofNat_eq _ := rfl
  ofDecimal_eq _ _ := rfl
  abs_eq _ := rfl
  isFinite_eq _ := rfl
  beq_iff x y := by simp [BEq.beq]
  identical_iff x y := by simp [Scalar.identical]
  precedes_iff x y := by simp [Scalar.precedes]
  exp_nonneg := Real.exp_nonneg
  sqrt_nonneg := Real.sqrt_nonneg

end PayoffPricing
