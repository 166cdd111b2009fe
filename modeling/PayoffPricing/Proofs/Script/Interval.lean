import Mathlib.Tactic.Positivity
import PayoffPricing.Proofs.Script.Bound
import PayoffPricing.Script.Interval
/-!
Interval arithmetic in exact arithmetic: an operation on intervals contains the results of the
operation on their elements, as far as the tolerance tells their ends from zero.
-/

namespace PayoffPricing.Script

variable {R : Type} [ExactScalar R]

namespace Bound

variable {a b : Bound R} {x y v : R}

/-- The tolerance tells the end from zero, unless it is zero. -/
def Clear (a : Bound R) : Prop := Apart (.finite 0) a

theorem clear_finite_iff : Clear (finite v) ↔ v = 0 ∨ tolerance < |v| := by
  simp [Clear, Apart, eq_comm]

theorem isPositive_finite (h : Clear (finite v)) : (finite v).isPositive true = true ↔ 0 < v := by
  have hpos : (0 : R) < tolerance := tolerance_pos
  simp only [isPositive, if_true, gt_iff_lt, decide_eq_true_eq]
  refine ⟨fun h => by linarith, fun hv => ?_⟩
  have := (clear_finite_iff.1 h).resolve_left hv.ne'
  rwa [abs_of_pos hv] at this

theorem isPositive_false_finite (h : Clear (finite v)) :
    (finite v).isPositive false = true ↔ 0 ≤ v := by
  have hpos : (0 : R) < tolerance := tolerance_pos
  simp only [isPositive, Bool.false_eq_true, if_false, gt_iff_lt, decide_eq_true_eq]
  refine ⟨fun hv => ?_, fun hv => by linarith⟩
  by_contra hn
  have := (clear_finite_iff.1 h).resolve_left (not_le.1 hn).ne
  rw [abs_of_neg (not_le.1 hn)] at this
  linarith

theorem isNegative_finite (h : Clear (finite v)) : (finite v).isNegative true = true ↔ v < 0 := by
  have hpos : (0 : R) < tolerance := tolerance_pos
  simp only [isNegative, if_true, decide_eq_true_eq]
  refine ⟨fun h => by linarith, fun hv => ?_⟩
  have := (clear_finite_iff.1 h).resolve_left hv.ne
  rw [abs_of_neg hv] at this
  linarith

theorem isZero_finite (h : Clear (finite v)) : (finite v).isZero = true ↔ v = 0 := by
  have hpos : (0 : R) < tolerance := tolerance_pos
  simp only [isZero, ExactScalar.abs_eq, decide_eq_true_eq]
  refine ⟨fun hv => ?_, fun hv => by rwa [hv, abs_zero]⟩
  exact (clear_finite_iff.1 h).resolve_right (lt_asymm hv)

theorem reciprocal_finite (v : R) : (finite v).reciprocal = finite v⁻¹ := by
  rw [reciprocal, scalar_one, one_div]
  rfl

theorem finite_zero : (finite (@OfNat.ofNat R 0 (Scalar.instOfNat 0))) = finite 0 := by
  rw [scalar_zero]

@[simp]
theorem sign_plusInfinity : (plusInfinity : Bound R).isPositive true = true ∧
    (plusInfinity : Bound R).isNegative true = false ∧ (plusInfinity : Bound R).isZero = false :=
  ⟨rfl, rfl, rfl⟩

@[simp]
theorem sign_minusInfinity : (minusInfinity : Bound R).isPositive true = false ∧
    (minusInfinity : Bound R).isNegative true = true ∧ (minusInfinity : Bound R).isZero = false :=
  ⟨rfl, rfl, rfl⟩

theorem mul_swap (a b : Bound R) : a.mul b = b.mul a := by
  cases a with
  | finite v =>
    cases b with
    | finite w => exact congrArg finite (mul_comm v w)
    | minusInfinity => simp [mul]
    | plusInfinity => simp [mul]
  | minusInfinity => cases b <;> simp [mul]
  | plusInfinity => cases b <;> simp [mul]

/-- Zero or above. -/
def NonNegative : Bound R → Prop
  | minusInfinity => False
  | finite v => 0 ≤ v
  | plusInfinity => True

theorem mul_plusInfinity (ha : Clear a) :
    (NonNegative a → a.mul plusInfinity = plusInfinity) ∧
      (¬ NonNegative a → a.mul plusInfinity = minusInfinity) := by
  cases a with
  | minusInfinity => simp [NonNegative, mul]
  | plusInfinity => simp [NonNegative, mul]
  | finite v =>
    rcases lt_trichotomy v 0 with hv | rfl | hv
    · have hp : (finite v).isPositive true = false := by
        rw [Bool.eq_false_iff, ne_eq, isPositive_finite ha]
        exact hv.not_gt
      have hz : (finite v).isZero = false := by
        rw [Bool.eq_false_iff, ne_eq, isZero_finite ha]
        exact hv.ne
      simp [NonNegative, mul, hp, hz, hv.not_ge]
    · have hz := (isZero_finite ha).2 rfl
      simp [NonNegative, mul, hz]
    · have hp := (isPositive_finite ha).2 hv
      simp [NonNegative, mul, hp, hv.le]

theorem mul_minusInfinity (ha : Clear a) :
    (NonNegative a → a.mul minusInfinity = minusInfinity) ∧
      (¬ NonNegative a → a.mul minusInfinity = plusInfinity) := by
  cases a with
  | minusInfinity => simp [NonNegative, mul]
  | plusInfinity => simp [NonNegative, mul]
  | finite v =>
    rcases lt_trichotomy v 0 with hv | rfl | hv
    · have hn := (isNegative_finite ha).2 hv
      simp [NonNegative, mul, hn, hv.not_ge]
    · have hn : (finite (0 : R)).isNegative true = false := by
        rw [Bool.eq_false_iff, ne_eq, isNegative_finite ha]
        exact lt_irrefl 0
      have hz := (isZero_finite ha).2 rfl
      simp [NonNegative, mul, hn, hz]
    · have hn : (finite v).isNegative true = false := by
        rw [Bool.eq_false_iff, ne_eq, isNegative_finite ha]
        exact hv.not_gt
      have hz : (finite v).isZero = false := by
        rw [Bool.eq_false_iff, ne_eq, isZero_finite ha]
        exact hv.ne'
      simp [NonNegative, mul, hn, hz, hv.le]

section Corners

/-! Which corner bounds a product depends on the signs of the second factor and of the end of the
first one. -/

theorem isLower_mul_lower_of_nonneg (hca : Clear a) (hcb : Clear b) (hx : a.IsLower x) (hy : b.IsLower y)
    (ha : NonNegative a) (hyn : 0 ≤ y) : (a.mul b).IsLower (x * y) := by
  cases b with
  | plusInfinity => exact hy.elim
  | minusInfinity =>
    rw [(mul_minusInfinity hca).1 ha]
    trivial
  | finite w =>
    cases a with
    | plusInfinity => exact hx.elim
    | minusInfinity => exact ha.elim
    | finite v =>
      simp only [IsLower, mul, NonNegative] at *
      nlinarith

theorem isLower_mul_upper_of_nonneg (hca : Clear a) (hcb : Clear b) (hx : a.IsLower x) (hy : b.IsUpper y)
    (ha : ¬ NonNegative a) (hyn : 0 ≤ y) : (a.mul b).IsLower (x * y) := by
  cases b with
  | minusInfinity => exact hy.elim
  | plusInfinity =>
    rw [(mul_plusInfinity hca).2 ha]
    trivial
  | finite w =>
    cases a with
    | plusInfinity => exact hx.elim
    | minusInfinity =>
      have hw : NonNegative (finite w) := by
        simp only [IsUpper, NonNegative] at *
        linarith
      rw [mul_swap, (mul_minusInfinity hcb).1 hw]
      trivial
    | finite v =>
      simp only [IsLower, IsUpper, mul, NonNegative, not_le] at *
      nlinarith

theorem isLower_mul_lower_of_neg (hca : Clear a) (hcb : Clear b) (hx : a.IsUpper x) (hy : b.IsLower y)
    (ha : NonNegative a) (hyn : y < 0) : (a.mul b).IsLower (x * y) := by
  cases b with
  | plusInfinity => exact hy.elim
  | minusInfinity =>
    rw [(mul_minusInfinity hca).1 ha]
    trivial
  | finite w =>
    cases a with
    | minusInfinity => exact hx.elim
    | plusInfinity =>
      have hw : ¬ NonNegative (finite w) := by
        simp only [IsLower, NonNegative] at *
        linarith
      rw [mul_swap, (mul_plusInfinity hcb).2 hw]
      trivial
    | finite v =>
      simp only [IsLower, IsUpper, mul, NonNegative] at *
      nlinarith

theorem isLower_mul_upper_of_neg (hca : Clear a) (hcb : Clear b) (hx : a.IsUpper x) (hy : b.IsUpper y)
    (ha : ¬ NonNegative a) (hyn : y < 0) : (a.mul b).IsLower (x * y) := by
  cases b with
  | minusInfinity => exact hy.elim
  | plusInfinity =>
    rw [(mul_plusInfinity hca).2 ha]
    trivial
  | finite w =>
    cases a with
    | minusInfinity => exact hx.elim
    | plusInfinity => exact absurd trivial ha
    | finite v =>
      simp only [IsLower, IsUpper, mul, NonNegative, not_le] at *
      nlinarith

theorem isUpper_mul_upper_of_nonneg (hca : Clear a) (hcb : Clear b) (hx : a.IsUpper x) (hy : b.IsUpper y)
    (ha : NonNegative a) (hyn : 0 ≤ y) : (a.mul b).IsUpper (x * y) := by
  cases b with
  | minusInfinity => exact hy.elim
  | plusInfinity =>
    rw [(mul_plusInfinity hca).1 ha]
    trivial
  | finite w =>
    cases a with
    | minusInfinity => exact hx.elim
    | plusInfinity =>
      have hw : NonNegative (finite w) := by
        simp only [IsUpper, NonNegative] at *
        linarith
      rw [mul_swap, (mul_plusInfinity hcb).1 hw]
      trivial
    | finite v =>
      simp only [IsUpper, mul, NonNegative] at *
      nlinarith

theorem isUpper_mul_lower_of_nonneg (hca : Clear a) (hcb : Clear b) (hx : a.IsUpper x) (hy : b.IsLower y)
    (ha : ¬ NonNegative a) (hyn : 0 ≤ y) : (a.mul b).IsUpper (x * y) := by
  cases b with
  | plusInfinity => exact hy.elim
  | minusInfinity =>
    rw [(mul_minusInfinity hca).2 ha]
    trivial
  | finite w =>
    cases a with
    | minusInfinity => exact hx.elim
    | plusInfinity => exact absurd trivial ha
    | finite v =>
      simp only [IsLower, IsUpper, mul, NonNegative, not_le] at *
      nlinarith

theorem isUpper_mul_upper_of_neg (hca : Clear a) (hcb : Clear b) (hx : a.IsLower x) (hy : b.IsUpper y)
    (ha : NonNegative a) (hyn : y < 0) : (a.mul b).IsUpper (x * y) := by
  cases b with
  | minusInfinity => exact hy.elim
  | plusInfinity =>
    rw [(mul_plusInfinity hca).1 ha]
    trivial
  | finite w =>
    cases a with
    | plusInfinity => exact hx.elim
    | minusInfinity => exact ha.elim
    | finite v =>
      simp only [IsLower, IsUpper, mul, NonNegative] at *
      nlinarith

theorem isUpper_mul_lower_of_neg (hca : Clear a) (hcb : Clear b) (hx : a.IsLower x) (hy : b.IsLower y)
    (ha : ¬ NonNegative a) (hyn : y < 0) : (a.mul b).IsUpper (x * y) := by
  cases b with
  | plusInfinity => exact hy.elim
  | minusInfinity =>
    rw [(mul_minusInfinity hca).2 ha]
    trivial
  | finite w =>
    cases a with
    | plusInfinity => exact hx.elim
    | minusInfinity =>
      have hw : ¬ NonNegative (finite w) := by
        simp only [IsLower, NonNegative] at *
        linarith
      rw [mul_swap, (mul_minusInfinity hcb).2 hw]
      trivial
    | finite v =>
      simp only [IsLower, IsUpper, mul, NonNegative, not_le] at *
      nlinarith

end Corners

end Bound

/-- Ends that the tolerance tells apart from each other and from zero, unless they are equal. -/
def Resolved (ends : List (Bound R)) : Prop :=
  ∀ a ∈ Bound.finite 0 :: ends, ∀ b ∈ Bound.finite 0 :: ends, a.Apart b

theorem Resolved.mono {ends more : List (Bound R)} (h : Resolved more) (hsub : ends ⊆ more) :
    Resolved ends :=
  fun a ha b hb => h a (List.cons_subset_cons _ hsub ha) b (List.cons_subset_cons _ hsub hb)

theorem Resolved.apart {ends : List (Bound R)} (h : Resolved ends) {a b : Bound R} (ha : a ∈ ends)
    (hb : b ∈ ends) : a.Apart b := h a (List.mem_cons_of_mem _ ha) b (List.mem_cons_of_mem _ hb)

theorem Resolved.clear {ends : List (Bound R)} (h : Resolved ends) {a : Bound R} (ha : a ∈ ends) :
    a.Clear := h _ List.mem_cons_self a (List.mem_cons_of_mem _ ha)

namespace Interval

variable {a b i : Interval R} {x y : R}

/-- The number is an element of the interval. -/
def Has (a : Interval R) (x : R) : Prop := a.left.IsLower x ∧ a.right.IsUpper x

def ends (a : Interval R) : List (Bound R) := [a.left, a.right]

/-- All ends of several intervals. -/
def endsOf (l : List (Interval R)) : List (Bound R) := l.flatMap ends

omit [ExactScalar R] in
theorem left_mem_ends (a : Interval R) : a.left ∈ a.ends := List.mem_cons_self

omit [ExactScalar R] in
theorem right_mem_ends (a : Interval R) : a.right ∈ a.ends := List.mem_cons_of_mem _ List.mem_cons_self

omit [ExactScalar R] in
theorem mem_endsOf {l : List (Interval R)} {e : Bound R} (ha : a ∈ l) (he : e ∈ a.ends) : e ∈ endsOf l :=
  List.mem_flatMap.2 ⟨a, ha, he⟩

omit [ExactScalar R] in
theorem endsOf_mono {l m : List (Interval R)} (h : l ⊆ m) : endsOf l ⊆ endsOf m := by
  intro e he
  obtain ⟨a, ha, he⟩ := List.mem_flatMap.1 he
  exact mem_endsOf (h ha) he

theorem has_singleton (x : R) : (singleton x).Has x := ⟨le_refl x, le_refl x⟩

theorem has_realLine (x : R) : (realLine : Interval R).Has x := ⟨trivial, trivial⟩

theorem has_nonNegative (hx : 0 ≤ x) : (nonNegative : Interval R).Has x := by
  rw [nonNegative, Bound.finite_zero]
  exact ⟨hx, trivial⟩

theorem has_neg (h : a.Has x) : a.neg.Has (-x) := by
  obtain ⟨hl, hr⟩ := h
  constructor
  · revert hr
    simp only [neg]
    cases a.right <;> simp [Bound.IsUpper, Bound.IsLower, Bound.neg]
  · revert hl
    simp only [neg]
    cases a.left <;> simp [Bound.IsUpper, Bound.IsLower, Bound.neg]

theorem has_add (ha : a.Has x) (hb : b.Has y) : (a.add b).Has (x + y) := by
  obtain ⟨hal, har⟩ := ha
  obtain ⟨hbl, hbr⟩ := hb
  constructor
  · revert hal hbl
    simp only [add]
    cases a.left <;> cases b.left <;> simp [Bound.IsLower, Bound.value]
    exact add_le_add
  · revert har hbr
    simp only [add]
    cases a.right <;> cases b.right <;> simp [Bound.IsUpper, Bound.value]
    exact add_le_add

theorem has_sub (ha : a.Has x) (hb : b.Has y) : (a.sub b).Has (x - y) := by
  rw [sub_eq_add_neg]
  exact has_add ha (has_neg hb)

/-- The ends of two intervals are told apart. -/
abbrev Distinct (a b : Interval R) : Prop := Resolved (a.ends ++ b.ends)

theorem has_merge_left (hd : a.Distinct b) (h : a.Has x) : (a.merge b).Has x :=
  ⟨Bound.isLower_min_left (hd.apart (by simp [ends]) (by simp [ends])) h.1,
    Bound.isUpper_max_left (hd.apart (by simp [ends]) (by simp [ends])) h.2⟩

theorem has_merge_right (hd : a.Distinct b) (h : b.Has x) : (a.merge b).Has x :=
  ⟨Bound.isLower_min_right (hd.apart (by simp [ends]) (by simp [ends])) h.1,
    Bound.isUpper_max_right (hd.apart (by simp [ends]) (by simp [ends])) h.2⟩

theorem has_min (hd : a.Distinct b) (ha : a.Has x) (hb : b.Has y) :
    (a.min b).Has (Quantity.min x y) := by
  have hle : Quantity.min x y ≤ x ∧ Quantity.min x y ≤ y := by
    unfold Quantity.min
    split
    · next h => exact ⟨le_refl x, h.le⟩
    · next h => exact ⟨not_lt.1 h, le_refl y⟩
  constructor
  · have hl : a.left.Apart b.left := hd.apart (by simp [ends]) (by simp [ends])
    unfold Quantity.min
    split
    · exact Bound.isLower_min_left hl ha.1
    · exact Bound.isLower_min_right hl hb.1
  · rcases Bound.min_eq a.right b.right with h | h <;> simp only [min, h]
    · exact ha.2.antitone hle.1
    · exact hb.2.antitone hle.2

theorem has_max (hd : a.Distinct b) (ha : a.Has x) (hb : b.Has y) :
    (a.max b).Has (Quantity.max x y) := by
  have hle : x ≤ Quantity.max x y ∧ y ≤ Quantity.max x y := by
    unfold Quantity.max
    split
    · next h => exact ⟨le_refl x, (gt_iff_lt.1 h).le⟩
    · next h => exact ⟨not_lt.1 h, le_refl y⟩
  constructor
  · rcases Bound.max_eq a.left b.left with h | h <;> simp only [max, h]
    · exact ha.1.monotone hle.1
    · exact hb.1.monotone hle.2
  · have hr : a.right.Apart b.right := hd.apart (by simp [ends]) (by simp [ends])
    unfold Quantity.max
    split
    · exact Bound.isUpper_max_left hr ha.2
    · exact Bound.isUpper_max_right hr hb.2

/-- The products of the ends of two intervals. -/
def corners (a b : Interval R) : List (Bound R) :=
  [a.left.mul b.left, a.left.mul b.right, a.right.mul b.left, a.right.mul b.right]

theorem eq_of_isSingleton (hd : Resolved a.ends) (hs : a.isSingleton = true) :
    ∃ v, a = singleton v := by
  obtain ⟨l, r⟩ := a
  have hlr : l.Apart r := hd.apart (by simp [ends]) (by simp [ends])
  cases l <;> cases r <;>
    simp only [isSingleton, isUnbounded, Bound.isInfinite, Bound.isNear, Bool.not_or, Bool.not_true,
      Bool.not_false, Bool.and_true, Bool.true_and, Bool.and_false, Bool.false_eq_true,
      decide_eq_true_eq, ExactScalar.abs_eq] at hs
  rename_i v w
  rcases hlr with rfl | h
  · exact ⟨v, rfl⟩
  · exact absurd hs (lt_asymm h)

theorem isSingleton_singleton (v : R) : (singleton v).isSingleton = true := by
  have hpos : (0 : R) < Bound.tolerance := Bound.tolerance_pos
  simpa [singleton, isSingleton, isUnbounded, Bound.isInfinite, Bound.isNear, ExactScalar.abs_eq]

theorem eq_zero_of_isZero (hd : Resolved a.ends) (hz : a.isZero = true) : a = singleton 0 := by
  simp only [isZero, Bool.and_eq_true] at hz
  obtain ⟨v, rfl⟩ := eq_of_isSingleton hd hz.1
  rw [(Bound.isZero_finite (hd.clear (left_mem_ends _))).1 hz.2]

theorem eq_of_has_singleton {v : R} (h : (singleton v).Has x) : x = v := le_antisymm h.2 h.1

theorem exists_corner_isLower (hda : Resolved a.ends) (hdb : Resolved b.ends) (ha : a.Has x)
    (hb : b.Has y) : ∃ e ∈ corners a b, e.IsLower (x * y) := by
  have hal : a.left.Clear := hda.clear (left_mem_ends a)
  have har : a.right.Clear := hda.clear (right_mem_ends a)
  have hbl : b.left.Clear := hdb.clear (left_mem_ends b)
  have hbr : b.right.Clear := hdb.clear (right_mem_ends b)
  rcases le_or_gt 0 y with hy | hy
  · by_cases hn : a.left.NonNegative
    · exact ⟨_, by simp [corners], Bound.isLower_mul_lower_of_nonneg hal hbl ha.1 hb.1 hn hy⟩
    · exact ⟨_, by simp [corners], Bound.isLower_mul_upper_of_nonneg hal hbr ha.1 hb.2 hn hy⟩
  · by_cases hn : a.right.NonNegative
    · exact ⟨_, by simp [corners], Bound.isLower_mul_lower_of_neg har hbl ha.2 hb.1 hn hy⟩
    · exact ⟨_, by simp [corners], Bound.isLower_mul_upper_of_neg har hbr ha.2 hb.2 hn hy⟩

theorem exists_corner_isUpper (hda : Resolved a.ends) (hdb : Resolved b.ends) (ha : a.Has x)
    (hb : b.Has y) : ∃ e ∈ corners a b, e.IsUpper (x * y) := by
  have hal : a.left.Clear := hda.clear (left_mem_ends a)
  have har : a.right.Clear := hda.clear (right_mem_ends a)
  have hbl : b.left.Clear := hdb.clear (left_mem_ends b)
  have hbr : b.right.Clear := hdb.clear (right_mem_ends b)
  rcases le_or_gt 0 y with hy | hy
  · by_cases hn : a.right.NonNegative
    · exact ⟨_, by simp [corners], Bound.isUpper_mul_upper_of_nonneg har hbr ha.2 hb.2 hn hy⟩
    · exact ⟨_, by simp [corners], Bound.isUpper_mul_lower_of_nonneg har hbl ha.2 hb.1 hn hy⟩
  · by_cases hn : a.left.NonNegative
    · exact ⟨_, by simp [corners], Bound.isUpper_mul_upper_of_neg hal hbr ha.1 hb.2 hn hy⟩
    · exact ⟨_, by simp [corners], Bound.isUpper_mul_lower_of_neg hal hbl ha.1 hb.1 hn hy⟩

theorem has_mul (hda : Resolved a.ends) (hdb : Resolved b.ends) (hc : Resolved (corners a b))
    (ha : a.Has x) (hb : b.Has y) : (a.mul b).Has (x * y) := by
  unfold mul
  split
  · next hz =>
    have hxy : x * y = 0 := by
      rcases Bool.or_eq_true _ _ ▸ hz with h | h
      · have hx : x = 0 := eq_of_has_singleton (eq_zero_of_isZero hda h ▸ ha)
        rw [hx, zero_mul]
      · have hy : y = 0 := eq_of_has_singleton (eq_zero_of_isZero hdb h ▸ hb)
        rw [hy, mul_zero]
    rw [hxy, scalar_zero]
    exact has_singleton 0
  · obtain ⟨e, he, hl⟩ := exists_corner_isLower hda hdb ha hb
    obtain ⟨f, hf, hr⟩ := exists_corner_isUpper hda hdb ha hb
    exact ⟨Bound.isLower_foldl_min (fun _ hb _ hc' => hc.apart hb hc') he hl,
      Bound.isUpper_foldl_max (fun _ hb _ hc' => hc.apart hb hc') hf hr⟩

/-- An interval other than zero alone has other elements. -/
theorem exists_has_ne_zero (h : a.Has x) (hd : Resolved a.ends) (hz : a.isZero = false) :
    ∃ y, a.Has y ∧ y ≠ 0 := by
  by_cases hx : x = 0
  · subst hx
    obtain ⟨l, r⟩ := a
    cases l with
    | plusInfinity => exact h.1.elim
    | minusInfinity => exact ⟨-1, ⟨trivial, h.2.antitone (by simp)⟩, by simp⟩
    | finite v =>
      rcases (show v ≤ 0 from h.1).lt_or_eq with hv | rfl
      · exact ⟨v, ⟨le_refl v, h.2.antitone hv.le⟩, hv.ne⟩
      · cases r with
        | minusInfinity => exact h.2.elim
        | plusInfinity => exact ⟨1, ⟨zero_le_one, trivial⟩, one_ne_zero⟩
        | finite w =>
          rcases (show 0 ≤ w from h.2).lt_or_eq with hw | rfl
          · exact ⟨w, ⟨hw.le, le_refl w⟩, hw.ne'⟩
          · have hs := isSingleton_singleton (0 : R)
            have h0 := (Bound.isZero_finite (hd.clear (left_mem_ends _))).2 (rfl : (0 : R) = 0)
            simp only [isZero, singleton] at hz hs
            rw [hs, h0] at hz
            contradiction
  · exact ⟨x, h, hx⟩

theorem has_inverse_left_infinite {w : R} (hd : Resolved (Interval.ends ⟨.minusInfinity, .finite w⟩))
    (hy : y ≤ w) (hi : inverse ⟨.minusInfinity, .finite w⟩ = .ok i) : i.Has y⁻¹ := by
  have hn := Bound.isNegative_finite (hd.clear (right_mem_ends _))
  have hz := Bound.isZero_finite (hd.clear (right_mem_ends _))
  simp only [inverse, isZero, isSingleton, isUnbounded, isPositive, isNegative, Bound.isInfinite,
    Bound.reciprocal_finite, Bound.finite_zero, Bool.true_or, Bool.not_true, Bool.false_and,
    Bool.false_or, Bool.false_eq_true, if_false, Bound.sign_minusInfinity, hn, hz] at hi
  split_ifs at hi with hw hw <;> cases hi
  · exact ⟨(inv_le_inv_of_neg hw (hy.trans_lt hw)).2 hy, inv_nonpos.2 (hy.trans hw.le)⟩
  · exact ⟨trivial, inv_nonpos.2 (hy.trans hw.le)⟩
  · exact has_realLine _

theorem has_inverse_right_infinite {v : R} (hd : Resolved (Interval.ends ⟨.finite v, .plusInfinity⟩))
    (hy : v ≤ y) (hi : inverse ⟨.finite v, .plusInfinity⟩ = .ok i) : i.Has y⁻¹ := by
  have hp := Bound.isPositive_finite (hd.clear (left_mem_ends _))
  have hp' := Bound.isPositive_false_finite (hd.clear (left_mem_ends _))
  have hz := Bound.isZero_finite (hd.clear (left_mem_ends _))
  simp only [inverse, isZero, isSingleton, isUnbounded, isPositive, isNegative, Bound.isInfinite,
    Bound.reciprocal_finite, Bound.finite_zero, Bool.or_true, Bool.not_true, Bool.false_and,
    Bool.or_false, Bool.false_eq_true, if_false, Bound.sign_plusInfinity, hp, hz] at hi
  split_ifs at hi with hv hv <;> cases hi
  · rw [hp'.2 hv.le]
    exact ⟨inv_nonneg.2 (hv.le.trans hy), (inv_le_inv₀ (hv.trans_le hy) hv).2 hy⟩
  · rw [hp'.2 hv.ge]
    exact has_nonNegative (inv_nonneg.2 (hv ▸ hy))
  · exact has_realLine _

theorem has_inverse_bounded {v w : R} (hd : Resolved (Interval.ends ⟨.finite v, .finite w⟩))
    (hv : v ≤ y) (hw : y ≤ w) (h0 : y ≠ 0) (hi : inverse ⟨.finite v, .finite w⟩ = .ok i) :
    i.Has y⁻¹ := by
  unfold inverse at hi
  have hp := Bound.isPositive_finite (hd.clear (left_mem_ends _))
  have hp' := Bound.isPositive_false_finite (hd.clear (left_mem_ends _))
  have hn := Bound.isNegative_finite (hd.clear (right_mem_ends _))
  have hzl := Bound.isZero_finite (hd.clear (left_mem_ends _))
  have hzr := Bound.isZero_finite (hd.clear (right_mem_ends _))
  by_cases hz : (isZero ⟨.finite v, .finite w⟩) = true
  · rw [if_pos hz] at hi
    contradiction
  rw [if_neg hz] at hi
  by_cases hs : (isSingleton ⟨.finite v, .finite w⟩) = true
  · rw [if_pos hs] at hi
    cases hi
    obtain ⟨u, hu⟩ := eq_of_isSingleton hd hs
    cases hu
    rw [le_antisymm hw hv, scalar_one, one_div]
    exact has_singleton _
  rw [if_neg hs] at hi
  simp only [isUnbounded, isPositive, isNegative, Bound.isInfinite, Bound.reciprocal_finite,
    Bool.or_false, Bool.or_eq_true, hp, hn, hzl, hzr] at hi
  split_ifs at hi with hsign hzero <;> cases hi
  · rcases hsign with hpos | hneg
    · exact ⟨(inv_le_inv₀ (hpos.trans_le (hv.trans hw)) (hpos.trans_le hv)).2 hw,
        (inv_le_inv₀ (hpos.trans_le hv) hpos).2 hv⟩
    · have hyneg : y < 0 := hw.trans_lt hneg
      exact ⟨(inv_le_inv_of_neg hneg hyneg).2 hw, (inv_le_inv_of_neg hyneg (hv.trans_lt hyneg)).2 hv⟩
  · by_cases hnn : 0 ≤ v
    · rw [hp'.2 hnn]
      have hypos : 0 < y := (hnn.trans hv).lt_of_ne h0.symm
      exact ⟨(inv_le_inv₀ (hypos.trans_le hw) hypos).2 hw, trivial⟩
    · rw [Bool.eq_false_iff.2 (mt hp'.1 hnn)]
      have hw0 : w = 0 := hzero.resolve_left fun h => hnn h.ge
      have hyneg : y < 0 := (hw0 ▸ hw).lt_of_ne h0
      exact ⟨trivial, (inv_le_inv_of_neg hyneg (not_le.1 hnn)).2 hv⟩
  · exact has_realLine _

/-- Reciprocals of the elements other than zero are elements of the inverse. -/
theorem has_inverse (hd : Resolved a.ends) (ha : a.Has y) (h0 : y ≠ 0) (hi : a.inverse = .ok i) :
    i.Has y⁻¹ := by
  obtain ⟨l, r⟩ := a
  cases l with
  | plusInfinity => exact ha.1.elim
  | minusInfinity =>
    cases r with
    | minusInfinity => exact ha.2.elim
    | finite w => exact has_inverse_left_infinite hd ha.2 hi
    | plusInfinity =>
      cases hi
      exact has_realLine _
  | finite v =>
    cases r with
    | minusInfinity => exact ha.2.elim
    | finite w => exact has_inverse_bounded hd ha.1 ha.2 h0 hi
    | plusInfinity => exact has_inverse_right_infinite hd ha.1 hi

end Interval

end PayoffPricing.Script
