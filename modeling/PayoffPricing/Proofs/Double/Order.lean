import Mathlib
import PayoffPricing.Scalar
/-!
The order of doubles. Counted in units of the least positive double, every double that is not undefined
is an integer, with the infinite ones beyond all others, and comparisons of doubles are those of the counts.
-/

namespace PayoffPricing.Double

open Float.Model Float.Model.UnpackedFloat

/-- A mantissa of 53 bits, or of fewer at the least exponent. -/
structure Regular (m : ℕ) (e : ℤ) : Prop where
  lt : m < 2 ^ 53
  least : -1074 ≤ e
  full : 2 ^ 52 ≤ m ∨ e = -1074

/-- The mantissa and the exponent of a double. -/
structure InRange (m : ℕ) (e : ℤ) : Prop extends Regular m e where
  greatest : e ≤ 971

def Canonical : UnpackedFloat → Prop
  | .finite _ m e _ => InRange m e
  | _ => True

theorem toNat_one_append {w : ℕ} (v : BitVec w) : (1#1 ++ v).toNat = 2 ^ w + v.toNat := by
  rw [BitVec.toNat_append, ← Nat.shiftLeft_add_eq_or_of_lt v.isLt]
  simp [Nat.shiftLeft_eq]

theorem canonical_unpack (x : Float.Model) : Canonical x.unpack := by
  let b : BitVec Format.binary64.numBits := x.toBits.toBitVec
  have hmantissa : (unpackMantissa b).toNat < 2 ^ 52 := (unpackMantissa b).isLt
  have hexponent : (unpackExponent b).toNat < 2 ^ 11 := (unpackExponent b).isLt
  have hbias : (Format.binary64.exponentBias : ℤ) = 1023 := rfl
  have hbits : (Format.binary64.mantissaBitsWithoutImplicit : ℤ) = 52 := rfl
  change Canonical (UnpackedFloat.unpack Format.binary64 b)
  unfold UnpackedFloat.unpack
  dsimp only
  rw [hbias, hbits]
  split_ifs with hlast hinfinite hfirst hzero
  · trivial
  · trivial
  · trivial
  · have hnone : (unpackExponent b).toNat = 0 := by rw [hfirst]; rfl
    refine ⟨⟨?_, ?_, ?_⟩, ?_⟩ <;> omega
  · have hsome : (unpackExponent b).toNat ≠ 0 := fun h => hfirst (BitVec.eq_of_toNat_eq h)
    have hnot : (unpackExponent b).toNat ≠ 2 ^ 11 - 1 := fun h => hlast (BitVec.eq_of_toNat_eq h)
    have hvalue : (1#1 ++ unpackMantissa b).toNat = 2 ^ 52 + (unpackMantissa b).toNat := toNat_one_append _
    refine ⟨⟨?_, ?_, ?_⟩, ?_⟩ <;> omega

/-- A positive double in units of the least one. -/
def magnitude (m : ℕ) (e : ℤ) : ℕ := m * 2 ^ (e + 1074).toNat

/-- The number of exponents above the least one. -/
@[irreducible] def exponents : ℕ := 2045

/-- What infinite doubles count as: the least power of two beyond all others. -/
def limit : ℕ := 2 ^ 53 * 2 ^ exponents

/-- A double in units of the least positive one. -/
def level : UnpackedFloat → ℤ
  | .infinity s => s.apply limit
  | .finite s m e _ => s.apply (magnitude m e)
  | _ => 0

section Magnitudes

variable {m n : ℕ} {e f : ℤ}

theorem magnitude_pos (hm : 0 < m) : 0 < magnitude m e := Nat.mul_pos hm (Nat.two_pow_pos _)

theorem InRange.magnitude_lt_limit (h : InRange m e) : magnitude m e < limit := by
  have hexponent : (e + 1074).toNat ≤ exponents := by
    have hgreatest := h.greatest
    unfold exponents
    omega
  calc magnitude m e < 2 ^ 53 * 2 ^ (e + 1074).toNat := Nat.mul_lt_mul_of_pos_right h.lt (Nat.two_pow_pos _)
    _ ≤ limit := Nat.mul_le_mul_left _ (Nat.pow_le_pow_right (by decide) hexponent)

theorem InRange.magnitude_lt (h : InRange m e) (h' : InRange n f) (hlt : e < f) :
    magnitude m e < magnitude n f := by
  have hleast := h.least
  -- The larger exponent comes with a full mantissa.
  have hfull : 2 ^ 52 ≤ n := h'.full.resolve_right (by omega)
  have hexponents : (e + 1074).toNat + 1 ≤ (f + 1074).toNat := by omega
  calc magnitude m e < 2 ^ 53 * 2 ^ (e + 1074).toNat := Nat.mul_lt_mul_of_pos_right h.lt (Nat.two_pow_pos _)
    _ = 2 ^ 52 * 2 ^ ((e + 1074).toNat + 1) := by ring
    _ ≤ 2 ^ 52 * 2 ^ (f + 1074).toNat := Nat.mul_le_mul_left _ (Nat.pow_le_pow_right (by decide) hexponents)
    _ ≤ magnitude n f := Nat.mul_le_mul_right _ hfull

theorem compare_magnitude (h : InRange m e) (h' : InRange n f) :
    (compare e f).then (compare m n) = compare (magnitude m e) (magnitude n f) := by
  have hsame {k l : ℕ} (hlt : k < l) : magnitude k e < magnitude l e :=
    Nat.mul_lt_mul_of_pos_right hlt (Nat.two_pow_pos _)
  rcases lt_trichotomy e f with hlt | rfl | hlt
  · rw [compare_lt_iff_lt.2 hlt, compare_lt_iff_lt.2 (h.magnitude_lt h' hlt)]
    rfl
  · rw [compare_eq_iff_eq.2 (rfl : e = e)]
    change compare m n = _
    rcases lt_trichotomy m n with hmn | rfl | hmn
    · rw [compare_lt_iff_lt.2 hmn, compare_lt_iff_lt.2 (hsame hmn)]
    · rw [compare_eq_iff_eq.2 rfl, compare_eq_iff_eq.2 rfl]
    · rw [compare_gt_iff_gt.2 hmn, compare_gt_iff_gt.2 (hsame hmn)]
  · rw [compare_gt_iff_gt.2 hlt, compare_gt_iff_gt.2 (h'.magnitude_lt h hlt)]
    rfl

end Magnitudes

section Levels

variable {a b : UnpackedFloat}

theorem limit_pos : 0 < limit := Nat.mul_pos (by decide) (Nat.two_pow_pos _)

theorem level_bounds_of_ne_infinity (h : Canonical a) (hne : ∀ s, a ≠ .infinity s) :
    -limit < level a ∧ level a < limit := by
  have hpos := limit_pos
  cases a with
  | notANumber => constructor <;> dsimp only [level] <;> omega
  | infinity s => exact absurd rfl (hne s)
  | zero s => constructor <;> dsimp only [level] <;> omega
  | finite s m e hm =>
    have hlt : magnitude m e < limit := InRange.magnitude_lt_limit h
    cases s <;> constructor <;> dsimp only [level, Sign.apply] <;> omega

theorem level_bounds (h : Canonical a) : -limit ≤ level a ∧ level a ≤ limit := by
  have hpos := limit_pos
  by_cases hinfinite : ∃ s, a = .infinity s
  · obtain ⟨s, rfl⟩ := hinfinite
    cases s <;> constructor <;> dsimp only [level, Sign.apply] <;> omega
  · have hbounds := level_bounds_of_ne_infinity h fun s hs => hinfinite ⟨s, hs⟩
    omega

theorem compare_natCast (k l : ℕ) : compare (k : ℤ) (l : ℤ) = compare k l := by
  rcases lt_trichotomy k l with h | rfl | h
  · rw [compare_lt_iff_lt.2 h, compare_lt_iff_lt.2 (by omega)]
  · rw [compare_eq_iff_eq.2 rfl, compare_eq_iff_eq.2 rfl]
  · rw [compare_gt_iff_gt.2 h, compare_gt_iff_gt.2 (by omega)]

theorem compare_neg_natCast (k l : ℕ) : compare (-(k : ℤ)) (-(l : ℤ)) = (compare k l).swap := by
  rcases lt_trichotomy k l with h | rfl | h
  · rw [compare_lt_iff_lt.2 h, compare_gt_iff_gt.2 (by omega)]
    rfl
  · rw [compare_eq_iff_eq.2 rfl, compare_eq_iff_eq.2 rfl]
    rfl
  · rw [compare_gt_iff_gt.2 h, compare_lt_iff_lt.2 (by omega)]
    rfl

theorem compare_level (ha : Canonical a) (hb : Canonical b) (hna : a.isNaN = false) (hnb : b.isNaN = false) :
    a.compare b = some (compare (level a) (level b)) := by
  have hpos := limit_pos
  have hlt {x y : ℤ} (h : x < y) : some Ordering.lt = some (compare x y) := by rw [compare_lt_iff_lt.2 h]
  have hgt {x y : ℤ} (h : y < x) : some Ordering.gt = some (compare x y) := by rw [compare_gt_iff_gt.2 h]
  -- The cases are those of the comparison: undefined, infinite, zero and finite numbers, by sign.
  fun_cases UnpackedFloat.compare a b with
  | case1 => contradiction
  | case2 => contradiction
  | case3 s t =>
    cases s <;> cases t
    · exact congrArg some (compare_eq_iff_eq.2 rfl).symm
    · exact hlt (by dsimp only [level, Sign.apply]; omega)
    · exact hgt (by dsimp only [level, Sign.apply]; omega)
    · exact congrArg some (compare_eq_iff_eq.2 rfl).symm
  | case4 b _ hne => exact hgt (level_bounds_of_ne_infinity hb hne).2
  | case5 b _ hne => exact hlt (level_bounds_of_ne_infinity hb hne).1
  | case6 a _ hne => exact hlt (level_bounds_of_ne_infinity ha hne).2
  | case7 a _ hne => exact hgt (level_bounds_of_ne_infinity ha hne).1
  | case8 m e hm => exact hgt (by have := magnitude_pos hm (e := e); dsimp only [level, Sign.apply]; omega)
  | case9 m e hm => exact hlt (by have := magnitude_pos hm (e := e); dsimp only [level, Sign.apply]; omega)
  | case10 _ m e hm => exact hlt (by have := magnitude_pos hm (e := e); dsimp only [level, Sign.apply]; omega)
  | case11 _ m e hm => exact hgt (by have := magnitude_pos hm (e := e); dsimp only [level, Sign.apply]; omega)
  | case12 => exact congrArg some (compare_eq_iff_eq.2 rfl).symm
  | case13 => rw [compare_magnitude ha hb, ← compare_neg_natCast]; rfl
  | case14 m e hm n f hn =>
    have := magnitude_pos hm (e := e)
    exact hlt (by dsimp only [level, Sign.apply]; omega)
  | case15 m e hm n f hn =>
    have := magnitude_pos hm (e := e)
    exact hgt (by dsimp only [level, Sign.apply]; omega)
  | case16 => rw [compare_magnitude ha hb, ← compare_natCast]; rfl

end Levels

/-- A double in units of the least positive one. -/
def count (x : Float) : ℤ := level x.toModel.unpack

section Doubles

variable {x y : Float}

theorem lt_iff_compare : x < y ↔ (x.toModel.unpack.compare y.toModel.unpack == some .lt) = true :=
  (decide_eq_true_iff : Float.lt x y = true ↔ x.toModel < y.toModel)

theorem le_iff_compare : x ≤ y ↔ (x.toModel.unpack.compare y.toModel.unpack).any (·.isLE) = true :=
  (decide_eq_true_iff : Float.le x y = true ↔ x.toModel ≤ y.toModel)

theorem compare_count (hx : x.toModel.unpack.isNaN = false) (hy : y.toModel.unpack.isNaN = false) :
    x.toModel.unpack.compare y.toModel.unpack = some (compare (count x) (count y)) :=
  compare_level (canonical_unpack _) (canonical_unpack _) hx hy

theorem isUndefined_eq (x : Float) : Scalar.isUndefined x = x.toModel.unpack.isNaN := by
  change (!(x.toModel.unpack.compare x.toModel.unpack == some .eq)) = _
  cases h : x.toModel.unpack.isNaN with
  | true =>
    cases hu : x.toModel.unpack with
    | notANumber => rfl
    | _ => rw [hu] at h; contradiction
  | false =>
    rw [compare_count h h, compare_eq_iff_eq.2 rfl]
    rfl

theorem defined_of_compare {o : Ordering} (h : x.toModel.unpack.compare y.toModel.unpack = some o) :
    Scalar.isUndefined x = false ∧ Scalar.isUndefined y = false := by
  rw [isUndefined_eq, isUndefined_eq]
  constructor
  · cases hx : x.toModel.unpack with
    | notANumber =>
      rw [hx] at h
      contradiction
    | _ => rfl
  · cases hy : y.toModel.unpack with
    | notANumber =>
      rw [hy] at h
      cases hx : x.toModel.unpack <;> rw [hx] at h <;> contradiction
    | _ => rfl

theorem defined_of_lt (h : x < y) : Scalar.isUndefined x = false ∧ Scalar.isUndefined y = false :=
  defined_of_compare (eq_of_beq (lt_iff_compare.1 h))

theorem defined_of_le (h : x ≤ y) : Scalar.isUndefined x = false ∧ Scalar.isUndefined y = false := by
  rw [le_iff_compare] at h
  cases ho : x.toModel.unpack.compare y.toModel.unpack with
  | none =>
    rw [ho] at h
    contradiction
  | some o => exact defined_of_compare ho

theorem not_lt_of_undefined (h : Scalar.isUndefined x = true ∨ Scalar.isUndefined y = true) : ¬ x < y := by
  intro hlt
  obtain ⟨hx, hy⟩ := defined_of_lt hlt
  rw [hx, hy] at h
  exact h.elim nofun nofun

theorem not_le_of_undefined (h : Scalar.isUndefined x = true ∨ Scalar.isUndefined y = true) : ¬ x ≤ y := by
  intro hle
  obtain ⟨hx, hy⟩ := defined_of_le hle
  rw [hx, hy] at h
  exact h.elim nofun nofun

theorem lt_iff (hx : Scalar.isUndefined x = false) (hy : Scalar.isUndefined y = false) :
    x < y ↔ count x < count y := by
  rw [isUndefined_eq] at hx hy
  rw [lt_iff_compare, compare_count hx hy, beq_iff_eq, Option.some.injEq, compare_lt_iff_lt]

theorem le_iff (hx : Scalar.isUndefined x = false) (hy : Scalar.isUndefined y = false) :
    x ≤ y ↔ count x ≤ count y := by
  rw [isUndefined_eq] at hx hy
  rw [le_iff_compare, compare_count hx hy, Option.any_some, Ordering.isLE_iff_ne_gt, compare_gt_iff_gt, not_lt]

end Doubles

end PayoffPricing.Double
