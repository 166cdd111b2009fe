import PayoffPricing.Quantity
/-!
Laws of scalars and quantities that hold of doubles as well as of exact numbers.
-/

namespace PayoffPricing

/-- Only a number itself has its representation. -/
class RepresentedScalar (R : Type) [Scalar R] : Prop where
  eq_of_identical (a b : R) : Scalar.identical a b = true → a = b

instance : RepresentedScalar Float where
  eq_of_identical a b h := by
    obtain ⟨⟨x, hx⟩⟩ := a
    obtain ⟨⟨y, hy⟩⟩ := b
    obtain rfl : x = y := eq_of_beq h
    rfl

/-- Sums and products do not depend on the order of their two operands, and only a number itself has
its representation. -/
class FaithfulScalar (R : Type) [Scalar R] : Prop where
  add_comm (a b : R) : a + b = b + a
  mul_comm (a b : R) : a * b = b * a
  eq_of_identical (a b : R) : Scalar.identical a b = true → a = b

/-- Constants keep their value, and a sum or a product with a constant is recorded alike on either
side. -/
class FaithfulQuantity (R S T : Type) [Quantity R S T] : Prop where
  value_constant (c : R) : Valued.value (Valued.constant c : T) = c
  add_constant (c : R) (x : T) :
    (Quantity.add (Valued.constant c) x : StateM S T) = Quantity.add x (Valued.constant c)
  mul_constant (c : R) (x : T) :
    (Quantity.mul (Valued.constant c) x : StateM S T) = Quantity.mul x (Valued.constant c)

/-- Constants keep their value. -/
class SteadyQuantity (R S T : Type) [Quantity R S T] : Prop where
  value_constant (c : R) : Valued.value (Valued.constant c : T) = c

variable {R : Type} [Scalar R]

instance : SteadyQuantity R Unit R := ⟨fun _ => rfl⟩

instance : SteadyQuantity R (Tape R) (Number R) := ⟨fun _ => rfl⟩

variable [FaithfulScalar R]

instance : RepresentedScalar R := ⟨FaithfulScalar.eq_of_identical⟩

instance : FaithfulQuantity R Unit R where
  value_constant _ := rfl
  add_constant c x := congrArg pure (FaithfulScalar.add_comm c x)
  mul_constant c x := congrArg pure (FaithfulScalar.mul_comm c x)

namespace Number

omit [FaithfulScalar R] in
/-- Constants among the inputs leave no trace. -/
theorem result_eq_of_filter_eq (v : R) {es ds : List (Edge R)}
    (h : es.filter Edge.isActive = ds.filter Edge.isActive) : result v es = result v ds := by
  have hany : es.any Edge.isActive = ds.any Edge.isActive := by
    simpa [List.any_filter] using congrArg (·.any Edge.isActive) h
  funext t
  simp only [result, Tape.record, hany, h]

omit [FaithfulScalar R] in
theorem binary_constant (x : Number R) (c v w u : R) :
    binary (constant c) x v w u = binary x (constant c) v u w := by
  apply result_eq_of_filter_eq
  cases h : x.node <;> rfl

end Number

instance : FaithfulQuantity R (Tape R) (Number R) where
  value_constant _ := rfl
  add_constant c x := by
    change Number.binary (.constant c) x (c + x.value) 1 1 = Number.binary x (.constant c) (x.value + c) 1 1
    rw [Number.binary_constant, FaithfulScalar.add_comm]
  mul_constant c x := by
    change Number.binary (.constant c) x (c * x.value) x.value c =
      Number.binary x (.constant c) (x.value * c) c x.value
    rw [Number.binary_constant, FaithfulScalar.mul_comm]

end PayoffPricing
