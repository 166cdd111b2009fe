import PayoffPricing.Proofs.Script.Domain
import PayoffPricing.Script.Inference
/-!
Verdicts of the domain analysis on comparisons, in exact arithmetic.
-/

namespace PayoffPricing.Script

variable {R : Type} [ExactScalar R]

namespace Bound

variable {v x : R}

theorem isNegative_false_finite (h : Clear (finite v)) :
    (finite v).isNegative false = true ↔ v ≤ 0 := by
  have hpos : (0 : R) < tolerance := tolerance_pos
  simp only [isNegative, Bool.false_eq_true, if_false, decide_eq_true_eq]
  refine ⟨fun hv => ?_, fun hv => by linarith⟩
  by_contra hn
  have := (clear_finite_iff.1 h).resolve_left (not_le.1 hn).ne'
  rw [abs_of_pos (not_le.1 hn)] at this
  linarith

/-- An element above an end that is not negative, not even weakly, is above the tolerance. -/
theorem IsLower.tolerance_lt {a : Bound R} (h : a.IsLower x) (hc : Clear a) (hn : a.isNegative false = false) :
    tolerance < x := by
  cases a with
  | minusInfinity => contradiction
  | plusInfinity => exact h.elim
  | finite v =>
    rw [Bool.eq_false_iff, ne_eq, isNegative_false_finite hc, not_le] at hn
    have := (clear_finite_iff.1 hc).resolve_left hn.ne'
    rw [abs_of_pos hn] at this
    exact this.trans_le h

theorem IsLower.nonneg {a : Bound R} (h : a.IsLower x) (hc : Clear a) (hn : a.isNegative true = false) :
    0 ≤ x := by
  cases a with
  | minusInfinity => contradiction
  | plusInfinity => exact h.elim
  | finite v =>
    rw [Bool.eq_false_iff, ne_eq, isNegative_finite hc, not_lt] at hn
    exact hn.trans h

theorem IsUpper.lt_neg_tolerance {a : Bound R} (h : a.IsUpper x) (hc : Clear a)
    (hp : a.isPositive false = false) : x < -tolerance := by
  cases a with
  | plusInfinity => contradiction
  | minusInfinity => exact h.elim
  | finite v =>
    rw [Bool.eq_false_iff, ne_eq, isPositive_false_finite hc, not_le] at hp
    have := (clear_finite_iff.1 hc).resolve_left hp.ne
    rw [abs_of_neg hp] at this
    exact lt_of_le_of_lt h (by linarith)

theorem IsUpper.nonpos {a : Bound R} (h : a.IsUpper x) (hc : Clear a) (hp : a.isPositive true = false) :
    x ≤ 0 := by
  cases a with
  | plusInfinity => contradiction
  | minusInfinity => exact h.elim
  | finite v =>
    rw [Bool.eq_false_iff, ne_eq, isPositive_finite hc, not_lt] at hp
    exact le_trans h hp

end Bound

namespace Domain

variable {d : Domain R} {x : R}

theorem nonpos_of_canBePositive (hd : d.Sharp) (hx : d.Has x) (h : d.canBePositive true = false) : x ≤ 0 := by
  obtain ⟨a, hmem, ha, hr⟩ := exists_last_isUpper hd hx
  refine hr.nonpos ((hd.ends hmem).clear (Interval.right_mem_ends a)) ?_
  simpa [canBePositive, ha] using h

theorem lt_of_canBePositive (hd : d.Sharp) (hx : d.Has x) (h : d.canBePositive false = false) :
    x < -Bound.tolerance := by
  obtain ⟨a, hmem, ha, hr⟩ := exists_last_isUpper hd hx
  refine hr.lt_neg_tolerance ((hd.ends hmem).clear (Interval.right_mem_ends a)) ?_
  simpa [canBePositive, ha] using h

theorem nonneg_of_canBeNegative (hd : d.Sharp) (hx : d.Has x) (h : d.canBeNegative true = false) :
    0 ≤ x := by
  obtain ⟨a, hmem, ha, hl⟩ := exists_head_isLower hd hx
  refine hl.nonneg ((hd.ends hmem).clear (Interval.left_mem_ends a)) ?_
  simpa [canBeNegative, ha] using h

theorem tolerance_lt_of_canBeNegative (hd : d.Sharp) (hx : d.Has x) (h : d.canBeNegative false = false) :
    Bound.tolerance < x := by
  obtain ⟨a, hmem, ha, hl⟩ := exists_head_isLower hd hx
  refine hl.tolerance_lt ((hd.ends hmem).clear (Interval.left_mem_ends a)) ?_
  simpa [canBeNegative, ha] using h

/-- Without zero in the domain, the tolerance tells its elements from zero. -/
theorem tolerance_lt_abs (hx : d.Has x) (h : d.canBeZero = false) : Bound.tolerance < |x| := by
  obtain ⟨⟨l, r⟩, ha, hl, hr⟩ := hx
  have hinc : Interval.includes ⟨l, r⟩ (0 : R) = false := by
    simp only [canBeZero, includes, List.any_eq_false] at h
    have h0 := h _ ha
    rwa [ExactScalar.literal_eq, Nat.cast_zero, Bool.not_eq_true] at h0
  simp only [Interval.includes, Bool.and_eq_false_iff, Bool.not_eq_false'] at hinc
  rcases hinc with hlow | hhigh
  · cases l with
    | minusInfinity => contradiction
    | plusInfinity => exact hl.elim
    | finite v =>
      simp only [Bound.isBelow, decide_eq_true_eq] at hlow
      have hv : v ≤ x := hl
      exact lt_of_lt_of_le (by linarith) (le_abs_self x)
  · cases r with
    | plusInfinity => contradiction
    | minusInfinity => exact hr.elim
    | finite w =>
      simp only [Bound.isBelow, decide_eq_true_eq] at hhigh
      have hw : x ≤ w := hr
      exact lt_of_lt_of_le (by linarith) (neg_le_abs x)

theorem eq_zero_of_canBeNonZero (hd : d.Sharp) (hx : d.Has x) (h : d.canBeNonZero = false) : x = 0 := by
  obtain ⟨a, ha, hx⟩ := hx
  unfold canBeNonZero at h
  split at h
  · next hl => simp [hl] at ha
  · next b hl =>
    have hb : a = b := by simpa [hl] using ha
    subst hb
    have hz : a = .singleton 0 := Interval.eq_zero_of_isZero (hd.ends ha) (by simpa using h)
    exact Interval.eq_of_has_singleton (hz ▸ hx)
  · contradiction

end Domain

namespace Comparison

variable {d : Domain R} {x : R} {relation : Relation} {b : Bool}

/-- A verdict on a domain is the outcome for all its elements, at the tolerance of the analysis. -/
theorem holds_of_outcome (hd : d.Sharp) (hx : d.Has x) (h : outcome relation d = some b) :
    Intrinsic.holds relation x Bound.tolerance = b := by
  have hpos : (0 : R) < Bound.tolerance := Bound.tolerance_pos
  cases relation with
  | equal =>
    simp only [outcome] at h
    split_ifs at h with h1 h2 <;> cases h
    · have := Domain.tolerance_lt_abs hx (by simpa using h1)
      simpa [Intrinsic.holds, ExactScalar.abs_eq] using this.le
    · have := Domain.eq_zero_of_canBeNonZero hd hx (by simpa using h2)
      simpa [Intrinsic.holds, ExactScalar.abs_eq, this] using hpos
  | above =>
    simp only [outcome] at h
    split_ifs at h with h1 h2 <;> cases h
    · have := Domain.nonpos_of_canBePositive hd hx (by simpa using h1)
      simpa [Intrinsic.holds] using this.trans hpos.le
    · have := Domain.tolerance_lt_of_canBeNegative hd hx (by simpa using h2)
      simpa [Intrinsic.holds] using this
  | aboveOrEqual =>
    simp only [outcome] at h
    split_ifs at h with h1 h2 <;> cases h
    · have := Domain.lt_of_canBePositive hd hx (by simpa using h1)
      simpa [Intrinsic.holds] using this.le
    · have := Domain.nonneg_of_canBeNegative hd hx (by simpa using h2)
      simp only [Intrinsic.holds, gt_iff_lt, decide_eq_true_eq]
      linarith

end Comparison

end PayoffPricing.Script
