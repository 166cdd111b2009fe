import PayoffPricing.Proofs.Exact
import PayoffPricing.Proofs.Likeness
/-!
Plain scalars with a record of whether every divisor was other than zero. A field has a quotient by
zero as well, so without the record an exact run would not show that a price is undefined.
-/

namespace PayoffPricing

variable {R : Type} [ExactScalar R]

/-- Plain scalars; the record says that no divisor was zero. -/
instance (priority := 10) : Quantity R Prop R where
  toValued := inferInstance
  add x y := pure (x + y)
  sub x y := pure (x - y)
  mul x y := pure (x * y)
  div x y := fun nonzero => (x / y, nonzero ∧ y ≠ 0)
  neg x := pure (-x)
  addScalar x c := pure (x + c)
  subScalar x c := pure (x - c)
  mulScalar x c := pure (x * c)
  divScalar x c := pure (x / c)
  exp x := pure (Scalar.exp x)
  log x := pure (Scalar.log x)
  sqrt x := pure (Scalar.sqrt x)
  abs x := pure (Scalar.abs x)
  pow x y := pure (Scalar.pow x y)
  lognormalStep x drift deviation z := pure (x * Scalar.exp (drift + deviation * z))

variable (R) in
/-- Scalars compute the same with the record as without; what was zero before stays noted. -/
def divisorLikeness : Likeness R Prop Unit R R where
  Valid _ := True
  Later w v := v.1 → w.1
  refl _ := id
  trans h h' := h ∘ h'
  Like _ x x' := x = x'
  mono _ h := h
  constant _ _ := rfl
  value h := h
  add hx hy _ := by subst hx hy; exact ⟨trivial, id, rfl⟩
  sub hx hy _ := by subst hx hy; exact ⟨trivial, id, rfl⟩
  mul hx hy _ := by subst hx hy; exact ⟨trivial, id, rfl⟩
  div hx hy _ := by subst hx hy; exact ⟨trivial, And.left, rfl⟩
  pow hx hy _ := by subst hx hy; exact ⟨trivial, id, rfl⟩
  neg hx _ := by subst hx; exact ⟨trivial, id, rfl⟩
  addScalar _ hx _ := by subst hx; exact ⟨trivial, id, rfl⟩
  subScalar _ hx _ := by subst hx; exact ⟨trivial, id, rfl⟩
  mulScalar _ hx _ := by subst hx; exact ⟨trivial, id, rfl⟩
  divScalar _ hx _ := by subst hx; exact ⟨trivial, id, rfl⟩
  exp hx _ := by subst hx; exact ⟨trivial, id, rfl⟩
  log hx _ := by subst hx; exact ⟨trivial, id, rfl⟩
  sqrt hx _ := by subst hx; exact ⟨trivial, id, rfl⟩
  abs hx _ := by subst hx; exact ⟨trivial, id, rfl⟩
  lognormalStep _ hx hy hz _ := by subst hx hy hz; exact ⟨trivial, id, rfl⟩

end PayoffPricing
