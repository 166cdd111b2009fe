import Mathlib.Tactic.Linarith
import PayoffPricing.Proofs.Exact
import PayoffPricing.Script.Bound
/-!
Ends of intervals in exact arithmetic. Ends that are equal or further apart than the tolerance are
compared as the numbers they are.
-/

namespace PayoffPricing.Script.Bound

variable {R : Type} [ExactScalar R] {a b : Bound R} {x y : R}

theorem tolerance_pos : (0 : R) < tolerance := by
  have h : (tolerance : R) = (1 : ℕ) * 10 ^ (-(12 : ℤ)) := ExactScalar.ofDecimal_eq 1 (-12)
  rw [h]
  positivity

theorem tolerance_lt_one : (tolerance : R) < 1 := by
  have h : (tolerance : R) = (1 : ℕ) * 10 ^ (-(12 : ℤ)) := ExactScalar.ofDecimal_eq 1 (-12)
  rw [h]
  norm_num

theorem large_pos : (0 : R) < large := by
  have h : (large : R) = (1 : ℕ) * 10 ^ (12 : ℤ) := ExactScalar.ofDecimal_eq 1 12
  rw [h]
  positivity

/-- The number is not below the end. -/
def IsLower : Bound R → R → Prop
  | minusInfinity, _ => True
  | finite v, x => v ≤ x
  | plusInfinity, _ => False

/-- The number is not above the end. -/
def IsUpper : Bound R → R → Prop
  | minusInfinity, _ => False
  | finite v, x => x ≤ v
  | plusInfinity, _ => True

/-- The exact order of ends. -/
def Below : Bound R → Bound R → Prop
  | plusInfinity, _ => False
  | _, minusInfinity => False
  | minusInfinity, _ => True
  | finite _, plusInfinity => True
  | finite v, finite w => v < w

/-- Equal ends, or ends that the tolerance tells apart. -/
def Apart : Bound R → Bound R → Prop
  | finite v, finite w => v = w ∨ tolerance < |v - w|
  | _, _ => True

theorem Apart.symm (h : Apart a b) : Apart b a := by
  cases a <;> cases b <;> try trivial
  rename_i v w
  exact h.imp Eq.symm fun h => abs_sub_comm v w ▸ h

theorem apart_self (a : Bound R) : Apart a a := by
  cases a
  · trivial
  · exact .inl rfl
  · trivial

theorem Apart.neg (h : Apart a b) : Apart a.neg b.neg := by
  cases a <;> cases b <;> try trivial
  rename_i v w
  refine h.imp (congrArg _) fun h => ?_
  rwa [neg_sub_neg, abs_sub_comm]

theorem isBelow_iff (h : Apart a b) : a.isBelow b = true ↔ Below a b := by
  cases a <;> cases b <;> simp only [isBelow, Below, Bool.false_eq_true, decide_eq_true_eq]
  rename_i v w
  have hpos : (0 : R) < tolerance := tolerance_pos
  refine ⟨fun hlt => by linarith, fun hlt => ?_⟩
  rcases h with rfl | h
  · exact absurd hlt (lt_irrefl v)
  · rw [abs_of_neg (by linarith)] at h
    linarith

theorem not_below_of_isBelow (h : a.isBelow b = false) (hab : Apart a b) : ¬ Below a b := by
  rw [← isBelow_iff hab, h]
  exact Bool.false_ne_true

theorem IsLower.mono (h : b.IsLower x) (hab : ¬ Below b a) : a.IsLower x := by
  cases a <;> cases b <;> simp_all [IsLower, Below]
  linarith

theorem IsUpper.mono (h : b.IsUpper x) (hab : ¬ Below a b) : a.IsUpper x := by
  cases a <;> cases b <;> simp_all [IsUpper, Below]
  linarith

theorem IsLower.monotone (h : a.IsLower x) (hxy : x ≤ y) : a.IsLower y := by
  cases a
  · trivial
  · exact le_trans h hxy
  · exact h

theorem IsUpper.antitone (h : a.IsUpper x) (hxy : y ≤ x) : a.IsUpper y := by
  cases a
  · exact h
  · exact le_trans hxy h
  · trivial

theorem Below.not_below (h : Below a b) : ¬ Below b a := by
  cases a <;> cases b <;> simp_all [Below]
  exact h.le

theorem Below.trans_le {c : Bound R} (hab : Below a b) (hbc : ¬ Below c b) : Below a c := by
  cases a <;> cases b <;> cases c <;> simp_all [Below]
  linarith

theorem Below.of_le_trans {c : Bound R} (hab : ¬ Below b a) (hbc : Below b c) : Below a c := by
  cases a <;> cases b <;> cases c <;> simp_all [Below]
  linarith

theorem min_eq (a b : Bound R) : a.min b = a ∨ a.min b = b := by
  unfold min
  split
  · exact .inr rfl
  · exact .inl rfl

theorem max_eq (a b : Bound R) : a.max b = a ∨ a.max b = b := by
  unfold max
  split
  · exact .inr rfl
  · exact .inl rfl

theorem minusInfinity_min (a : Bound R) : minusInfinity.min a = minusInfinity := by
  cases a <;> rfl

theorem min_minusInfinity (a : Bound R) : a.min minusInfinity = minusInfinity := by
  cases a <;> rfl

theorem plusInfinity_max (a : Bound R) : plusInfinity.max a = plusInfinity := by
  cases a <;> rfl

theorem max_plusInfinity (a : Bound R) : a.max plusInfinity = plusInfinity := by
  cases a <;> rfl

theorem isLower_min_left (hab : Apart a b) (h : a.IsLower x) : (a.min b).IsLower x := by
  unfold min
  split
  · next hlt => exact h.mono ((isBelow_iff hab.symm).1 hlt).not_below
  · exact h

theorem isLower_min_right (hab : Apart a b) (h : b.IsLower x) : (a.min b).IsLower x := by
  unfold min
  split
  · exact h
  · next hlt => exact h.mono (not_below_of_isBelow (Bool.not_eq_true _ ▸ hlt) hab.symm)

theorem isUpper_max_left (hab : Apart a b) (h : a.IsUpper x) : (a.max b).IsUpper x := by
  unfold max
  split
  · next hlt => exact h.mono ((isBelow_iff hab).1 hlt).not_below
  · exact h

theorem isUpper_max_right (hab : Apart a b) (h : b.IsUpper x) : (a.max b).IsUpper x := by
  unfold max
  split
  · exact h
  · next hlt => exact h.mono (not_below_of_isBelow (Bool.not_eq_true _ ▸ hlt) hab)

theorem isLower_foldl_min {l : List (Bound R)} (hd : ∀ b ∈ a :: l, ∀ c ∈ a :: l, b.Apart c)
    (hb : b ∈ a :: l) (h : b.IsLower x) : (l.foldl min a).IsLower x := by
  induction l generalizing a b with
  | nil => rwa [List.mem_singleton.1 hb] at h
  | cons c l ih =>
    have hac : a.Apart c := hd a List.mem_cons_self c (by simp)
    have hsub : a.min c :: l ⊆ a :: c :: l := by
      rcases min_eq a c with h | h <;> rw [h] <;> simp [List.cons_subset]
    have hd' : ∀ b ∈ a.min c :: l, ∀ e ∈ a.min c :: l, b.Apart e :=
      fun b hb e he => hd b (hsub hb) e (hsub he)
    rcases List.mem_cons.1 hb with rfl | hb
    · exact ih hd' List.mem_cons_self (isLower_min_left hac h)
    · rcases List.mem_cons.1 hb with rfl | hb
      · exact ih hd' List.mem_cons_self (isLower_min_right hac h)
      · exact ih hd' (List.mem_cons_of_mem _ hb) h

theorem isUpper_foldl_max {l : List (Bound R)} (hd : ∀ b ∈ a :: l, ∀ c ∈ a :: l, b.Apart c)
    (hb : b ∈ a :: l) (h : b.IsUpper x) : (l.foldl max a).IsUpper x := by
  induction l generalizing a b with
  | nil => rwa [List.mem_singleton.1 hb] at h
  | cons c l ih =>
    have hac : a.Apart c := hd a List.mem_cons_self c (by simp)
    have hsub : a.max c :: l ⊆ a :: c :: l := by
      rcases max_eq a c with h | h <;> rw [h] <;> simp [List.cons_subset]
    have hd' : ∀ b ∈ a.max c :: l, ∀ e ∈ a.max c :: l, b.Apart e :=
      fun b hb e he => hd b (hsub hb) e (hsub he)
    rcases List.mem_cons.1 hb with rfl | hb
    · exact ih hd' List.mem_cons_self (isUpper_max_left hac h)
    · rcases List.mem_cons.1 hb with rfl | hb
      · exact ih hd' List.mem_cons_self (isUpper_max_right hac h)
      · exact ih hd' (List.mem_cons_of_mem _ hb) h

end PayoffPricing.Script.Bound
