import PayoffPricing.Proofs.Double.Representation
import PayoffPricing.Proofs.Double.Rounding
/-!
Rounding to the nearest double. Products and quotients are rounded to a double that no other one is nearer to, and to
the one with an even mantissa halfway between two doubles, so that a number determines what it is rounded to.
-/

namespace PayoffPricing.Double

open Float.Model Float.Model.UnpackedFloat

/-- In units of the least positive double, a number lies between the midpoints to the doubles before and after the one
with a representation, and on a midpoint only if the representation is even. -/
structure Nearest (v : ℚ) (bits : ℕ) : Prop where
  low : (worth (bits - 1) + worth bits : ℚ) ≤ 2 * v
  high : 2 * v ≤ worth bits + worth (bits + 1)
  even_of_low : (worth (bits - 1) + worth bits : ℚ) = 2 * v → bits % 2 = 0
  even_of_high : 2 * v = worth bits + worth (bits + 1) → bits % 2 = 0

theorem Nearest.le {v : ℚ} {m n : ℕ} (hm : Nearest v m) (hn : Nearest v n) : m ≤ n := by
  by_contra hlt
  have hgap : (worth n : ℚ) ≤ worth (m - 1) := by exact_mod_cast strictMono_worth.monotone (by omega)
  have hnext : (worth (n + 1) : ℚ) ≤ worth m := by exact_mod_cast strictMono_worth.monotone (by omega)
  have hlow := hm.low
  have hhigh := hn.high
  -- The number is on the midpoint between neighbours, one of which is odd.
  have hsame : (worth n : ℚ) = worth (m - 1) := by linarith
  have hneighbour : n = m - 1 := strictMono_worth.injective (by exact_mod_cast hsame)
  have heven := hm.even_of_low (by linarith)
  have heven' := hn.even_of_high (by linarith)
  omega

theorem Nearest.unique {v : ℚ} {m n : ℕ} (hm : Nearest v m) (hn : Nearest v n) : m = n :=
  le_antisymm (hm.le hn) (hn.le hm)

theorem nearest_of_between {v : ℚ} {bits : ℕ} (hlow : (worth (bits - 1) + worth bits : ℚ) < 2 * v)
    (hhigh : 2 * v < worth bits + worth (bits + 1)) : Nearest v bits where
  low := hlow.le
  high := hhigh.le
  even_of_low heq := absurd heq hlow.ne
  even_of_high heq := absurd heq hhigh.ne

section Mantissas

/-- The mantissa of a number, and where the number is between this mantissa and the next. -/
def Approximates (em : ExtendedMantissa) (v : ℚ) : Prop :=
  match em.roundBit, em.stickyBit with
  | false, false => v = em.mantissa
  | false, true => em.mantissa < v ∧ 2 * v < 2 * em.mantissa + 1
  | true, false => 2 * v = 2 * em.mantissa + 1
  | true, true => 2 * em.mantissa + 1 < 2 * v ∧ v < em.mantissa + 1

variable {em : ExtendedMantissa} {v : ℚ}

theorem Approximates.bounds (h : Approximates em v) : em.mantissa ≤ v ∧ v < em.mantissa + 1 := by
  obtain ⟨m, round, sticky⟩ := em
  cases round <;> cases sticky <;> simp only [Approximates] at h ⊢ <;> constructor <;> linarith

theorem Approximates.shiftRightOne (h : Approximates em v) : Approximates em.shiftRightOne (v / 2) := by
  obtain ⟨m, round, sticky⟩ := em
  have hdivision : (m : ℚ) = 2 * (m / 2 : ℕ) + (m % 2 : ℕ) := by exact_mod_cast (Nat.div_add_mod m 2).symm
  rcases Nat.mod_two_eq_zero_or_one m with hparity | hparity <;> rw [hparity] at hdivision <;>
    cases round <;> cases sticky <;>
    simp [Approximates, ExtendedMantissa.shiftRightOne, hparity] at h ⊢ hdivision <;>
    first | linarith | (constructor <;> linarith)

theorem Approximates.shiftRight (h : Approximates em v) (n : ℕ) : Approximates (em >>> n) (v / 2 ^ n) := by
  induction n with
  | zero => simpa [HShiftRight.hShiftRight, Nat.repeat] using h
  | succ n ih =>
    rw [pow_succ, ← div_div]
    exact ih.shiftRightOne

/-- The rounded mantissa is the nearer one, and the even one of two that are as near. -/
theorem Approximates.rounded (h : Approximates em v) :
    em.roundedMantissa = em.mantissa ∧ 2 * v ≤ 2 * em.mantissa + 1 ∧
        (2 * v = 2 * em.mantissa + 1 → em.mantissa % 2 = 0) ∨
      em.roundedMantissa = em.mantissa + 1 ∧ 2 * em.mantissa + 1 ≤ 2 * v ∧
        (2 * v = 2 * em.mantissa + 1 → em.mantissa % 2 = 1) := by
  obtain ⟨m, round, sticky⟩ := em
  have hparity := Nat.mod_two_eq_zero_or_one m
  cases round <;> cases sticky <;>
    simp only [Approximates, ExtendedMantissa.roundedMantissa, ExtendedMantissa.accuracy,
      Accuracy.roundToNearestEven] at h ⊢
  · exact .inl ⟨trivial, by linarith, fun _ => by linarith⟩
  · exact .inl ⟨trivial, by linarith, fun _ => by linarith⟩
  · rcases hparity with hparity | hparity
    · exact .inl ⟨by omega, h.le, fun _ => hparity⟩
    · exact .inr ⟨by omega, h.ge, fun _ => hparity⟩
  · exact .inr ⟨trivial, by linarith, fun _ => by linarith⟩

theorem approximates_exact (m : ℕ) : Approximates (.ofMantissaAndAccuracy m .exact) m := rfl

/-- The quotient of two numbers, and where the remainder puts it. -/
theorem approximates_quotient (a : ℕ) {b : ℕ} (hb : 0 < b) :
    Approximates (.ofMantissaAndAccuracy (a / b) (accuracyOfFraction (a % b) b)) (a / b : ℚ) := by
  have hb' : (0 : ℚ) < b := by exact_mod_cast hb
  have hvalue : (a / b : ℚ) = (a / b : ℕ) + (a % b : ℕ) / b := by
    have hdivision : (a : ℚ) = b * (a / b : ℕ) + (a % b : ℕ) := by exact_mod_cast (Nat.div_add_mod a b).symm
    rw [div_eq_iff hb'.ne', add_mul, div_mul_cancel₀ _ hb'.ne']
    linarith
  have hrest : ((a % b : ℕ) : ℚ) / b < 1 := (div_lt_one hb').2 (by exact_mod_cast Nat.mod_lt a hb)
  rw [hvalue]
  unfold accuracyOfFraction
  by_cases hexact : a % b = 0
  · rw [if_pos hexact, hexact]
    simp [Approximates, ExtendedMantissa.ofMantissaAndAccuracy]
  have hpos : (0 : ℚ) < (a % b : ℕ) / b := div_pos (by exact_mod_cast Nat.pos_of_ne_zero hexact) hb'
  have hhalf : (2 * ((a % b : ℕ) / b) : ℚ) = (2 * (a % b) : ℕ) / b := by
    push_cast
    ring
  rw [if_neg hexact]
  rcases lt_trichotomy (2 * (a % b)) b with hlt | heq | hgt
  · have hbelow : ((2 * (a % b) : ℕ) : ℚ) / b < 1 := (div_lt_one hb').2 (by exact_mod_cast hlt)
    rw [compare_lt_iff_lt.2 hlt]
    simp only [Approximates, ExtendedMantissa.ofMantissaAndAccuracy]
    constructor <;> linarith
  · have hsame : ((2 * (a % b) : ℕ) : ℚ) / b = 1 := by rw [heq, div_self hb'.ne']
    rw [compare_eq_iff_eq.2 heq]
    simp only [Approximates, ExtendedMantissa.ofMantissaAndAccuracy]
    linarith
  · have habove : 1 < ((2 * (a % b) : ℕ) : ℚ) / b := (one_lt_div hb').2 (by exact_mod_cast hgt)
    rw [compare_gt_iff_gt.2 hgt]
    simp only [Approximates, ExtendedMantissa.ofMantissaAndAccuracy]
    constructor <;> linarith

end Mantissas

section Representations

variable {q k : ℕ}

/-- The representation of a mantissa with an exponent so far above the least one. -/
def packed (q k : ℕ) : ℕ := k * 2 ^ 52 + q

theorem packed_succ (q k : ℕ) : packed (q + 1) k = packed q k + 1 := (Nat.add_assoc _ q 1).symm

theorem fields_packed (hq : q < 2 ^ 53) (hfull : 2 ^ 52 ≤ q ∨ k = 0) :
    mantissa (packed q k) = q ∧ excess (packed q k) = k := by
  unfold packed mantissa excess
  rcases Nat.lt_or_ge q (2 ^ 52) with hsmall | hlarge
  · obtain rfl : k = 0 := hfull.resolve_left (by omega)
    rw [if_pos (by omega)]
    omega
  · rw [if_neg (by omega)]
    omega

/-- A mantissa with one bit too many moves the exponent. -/
theorem fields_packed_carry (k : ℕ) :
    mantissa (packed (2 ^ 53) k) = 2 ^ 52 ∧ excess (packed (2 ^ 53) k) = k + 1 := by
  unfold packed mantissa excess
  rw [if_neg (by omega)]
  omega

theorem worth_packed (hq : q < 2 ^ 53) (hfull : 2 ^ 52 ≤ q ∨ k = 0) : worth (packed q k) = q * 2 ^ k := by
  obtain ⟨hmantissa, hexcess⟩ := fields_packed hq hfull
  rw [worth, hmantissa, hexcess]

theorem worth_packed_succ (hq : q < 2 ^ 53) (hfull : 2 ^ 52 ≤ q ∨ k = 0) :
    worth (packed (q + 1) k) = (q + 1) * 2 ^ k := by
  rw [packed_succ, worth_succ, worth_packed hq hfull, (fields_packed hq hfull).2]
  ring

/-- Rounding the mantissa of a number rounds the number. -/
theorem nearest_packed {em : ExtendedMantissa} {v : ℚ} (h : Approximates em v) (hq : em.mantissa < 2 ^ 53)
    (hfull : 2 ^ 52 ≤ em.mantissa ∨ k = 0) : Nearest (v * 2 ^ k) (packed em.roundedMantissa k) := by
  obtain ⟨hle, hlt⟩ := h.bounds
  have hscale : (0 : ℚ) < 2 ^ k := by positivity
  have hworth : (worth (packed em.mantissa k) : ℚ) = em.mantissa * 2 ^ k := by
    rw [worth_packed hq hfull]
    push_cast
    ring
  have hnext : (worth (packed em.mantissa k + 1) : ℚ) = (em.mantissa + 1) * 2 ^ k := by
    rw [← packed_succ, worth_packed_succ hq hfull]
    push_cast
    ring
  have hparity : packed em.mantissa k % 2 = em.mantissa % 2 := by
    unfold packed
    omega
  have hlow : (worth (packed em.mantissa k) : ℚ) ≤ v * 2 ^ k := hworth ▸ mul_le_mul_of_nonneg_right hle hscale.le
  have hhigh : v * 2 ^ k < worth (packed em.mantissa k + 1) := hnext ▸ mul_lt_mul_of_pos_right hlt hscale
  have hmiddle : (worth (packed em.mantissa k) + worth (packed em.mantissa k + 1) : ℚ) =
      (2 * em.mantissa + 1) * 2 ^ k := by
    rw [hworth, hnext]
    ring
  have hdouble : 2 * (v * 2 ^ k) = 2 * v * 2 ^ k := by ring
  rcases h.rounded with ⟨hround, hhalf, htie⟩ | ⟨hround, hhalf, htie⟩
  · have hbefore : (worth (packed em.mantissa k - 1) : ℚ) ≤ worth (packed em.mantissa k) := by
      exact_mod_cast strictMono_worth.monotone (Nat.sub_le _ 1)
    rw [hround]
    refine ⟨by linarith, ?_, fun heq => ?_, fun heq => ?_⟩
    · rw [hdouble, hmiddle]
      exact mul_le_mul_of_nonneg_right hhalf hscale.le
    · have hfirst : (worth (packed em.mantissa k - 1) : ℚ) = worth (packed em.mantissa k) := by linarith
      have := strictMono_worth.injective (by exact_mod_cast hfirst)
      omega
    · rw [hparity]
      exact htie (mul_right_cancel₀ hscale.ne' (by rw [← hmiddle, ← heq, hdouble]))
  · have hafter : (worth (packed em.mantissa k + 1) : ℚ) ≤ worth (packed em.mantissa k + 1 + 1) := by
      exact_mod_cast strictMono_worth.monotone (Nat.le_succ _)
    rw [hround, packed_succ]
    refine ⟨?_, by linarith, fun heq => ?_, fun heq => ?_⟩
    · rw [Nat.add_sub_cancel, hdouble, hmiddle]
      exact mul_le_mul_of_nonneg_right hhalf hscale.le
    · rw [Nat.add_sub_cancel] at heq
      have := htie (mul_right_cancel₀ hscale.ne' (by rw [← hmiddle, heq, hdouble]))
      omega
    · linarith

end Representations

section Operations

variable {s : Sign} {m : ℕ} {e : ℤ}

/-- A mantissa with at least 53 bits, or one at an exponent that is not above the least one, loses no bits before
rounding. -/
theorem le_targetExponent (h : 2 ^ 52 ≤ m ∨ e ≤ -1074) : e ≤ Format.binary64.targetExponent (totalExponent m e) := by
  rw [targetExponent_eq]
  rcases h with h | h
  · have := (Nat.le_log2 (by omega)).2 h
    omega
  · omega

theorem mantissa_shiftRight (em : ExtendedMantissa) (n : ℕ) : (em >>> n).mantissa = em.mantissa / 2 ^ n := by
  induction n with
  | zero => simp [HShiftRight.hShiftRight, Nat.repeat]
  | succ n ih =>
    change (em >>> n).shiftRightOne.mantissa = _
    rw [ExtendedMantissa.shiftRightOne, ih, Nat.div_div_eq_div_mul, pow_succ]

theorem mantissa_ofMantissaAndAccuracy (m : ℕ) (acc : Accuracy) :
    (ExtendedMantissa.ofMantissaAndAccuracy m acc).mantissa = m := by
  rcases acc with _ | (_ | _ | _) <;> rfl

theorem shiftToTargetExponent_zero (he : -1074 ≤ e) :
    shiftToTargetExponent Format.binary64 0 e .exact = (⟨0, false, false⟩, e) := by
  have hnone : (Format.binary64.targetExponent (totalExponent 0 e) - e).toNat = 0 := by
    rw [targetExponent_eq, Nat.log2_zero]
    omega
  unfold shiftToTargetExponent shiftToExponent
  dsimp only
  rw [hnone]
  simp [ExtendedMantissa.ofMantissaAndAccuracy, HShiftRight.hShiftRight, Nat.repeat]

/-- What is left to do with a rounded mantissa puts it together with its exponent. -/
theorem finished_eq {r : ℕ} (hr : r ≤ 2 ^ 53) (he : -1074 ≤ e) (hfull : 2 ^ 52 ≤ r ∨ e = -1074) :
    (if h : (shiftToTargetExponent Format.binary64 r e .exact).1.mantissa = 0 then .zero s
      else .finite s _ (shiftToTargetExponent Format.binary64 r e .exact).2 (Nat.pos_of_ne_zero h)) =
      finiteParts s (packed r (e + 1074).toNat) := by
  have hexponent : ((e + 1074).toNat : ℤ) - 1074 = e := by omega
  have hfull' : 2 ^ 52 ≤ r ∨ (e + 1074).toNat = 0 := hfull.imp_right fun h => by omega
  unfold finiteParts
  rcases Nat.eq_zero_or_pos r with rfl | hpos
  · have hmantissa := (fields_packed (by decide) hfull').1
    rw [shiftToTargetExponent_zero he, dif_pos rfl, dif_neg (by omega)]
  rcases hr.lt_or_eq with hlt | rfl
  · obtain ⟨hmantissa, hexcess⟩ := fields_packed hlt hfull'
    rw [shiftToTargetExponent_eq hpos.ne' hlt he, dif_neg hpos.ne', dif_pos (by omega)]
    simp only [hmantissa, hexcess, hexponent]
  · obtain ⟨hmantissa, hexcess⟩ := fields_packed_carry (e + 1074).toNat
    rw [shiftToTargetExponent_carry he, dif_neg (show ¬(2 ^ 52 : ℕ) = 0 by decide), dif_pos (by omega)]
    simp only [finite.injEq, true_and, hmantissa, hexcess]
    omega

/-- Rounding a mantissa to 53 bits, or to fewer at the least exponent, gives the nearest double. -/
theorem nearest_roundWithAccuracy {acc : Accuracy} {v : ℚ} (h : Approximates (.ofMantissaAndAccuracy m acc) v)
    (ht : 2 ^ 52 ≤ m ∨ e ≤ -1074) : ∃ bits, roundWithAccuracy Format.binary64 s m e acc = finiteParts s bits ∧
      Nearest (v * 2 ^ (e + 1074)) bits := by
  obtain ⟨n, hn⟩ := Int.le.dest (le_targetExponent ht)
  have hshift : shiftToTargetExponent Format.binary64 m e acc =
      (ExtendedMantissa.ofMantissaAndAccuracy m acc >>> n, e + n) := by
    have hamount : (Format.binary64.targetExponent (totalExponent m e) - e).toNat = n := by omega
    unfold shiftToTargetExponent shiftToExponent
    dsimp only
    rw [hamount]
  rw [targetExponent_eq] at hn
  have hmantissa : (ExtendedMantissa.ofMantissaAndAccuracy m acc >>> n).mantissa = m / 2 ^ n := by
    rw [mantissa_shiftRight, mantissa_ofMantissaAndAccuracy]
  have happrox := h.shiftRight n
  generalize ExtendedMantissa.ofMantissaAndAccuracy m acc >>> n = em at hshift hmantissa happrox
  have hbits : em.mantissa < 2 ^ 53 ∧ (2 ^ 52 ≤ em.mantissa ∨ e + n = -1074) := by
    rw [hmantissa]
    rcases Nat.eq_zero_or_pos m with rfl | hpos
    · rw [Nat.log2_zero] at hn
      rw [Nat.zero_div]
      omega
    · exact shifted_bits hpos hn
  obtain ⟨hlt, hfull⟩ := hbits
  have hrounded : em.roundedMantissa = em.mantissa ∨ em.roundedMantissa = em.mantissa + 1 :=
    (roundedMantissa_eq em).imp_right And.left
  have hfull' : 2 ^ 52 ≤ em.mantissa ∨ (e + n + 1074).toNat = 0 := hfull.imp_right fun h => by omega
  refine ⟨packed em.roundedMantissa (e + n + 1074).toNat, ?_, ?_⟩
  · unfold roundWithAccuracy
    rw [hshift]
    exact finished_eq (by omega) (by omega) (hfull.imp_left fun h => by omega)
  · have hunit : v * 2 ^ (e + 1074) = v / 2 ^ n * 2 ^ (e + n + 1074).toNat := by
      have htwo : (2 : ℚ) ≠ 0 := by norm_num
      rw [div_mul_eq_mul_div, eq_div_iff (by positivity), mul_assoc, ← zpow_natCast, ← zpow_natCast,
        ← zpow_add₀ htwo]
      congr 2
      omega
    rw [hunit]
    exact nearest_packed happrox hlt hfull'

variable {m₁ m₂ : ℕ} (e₁ e₂ : ℤ) (h₁ : 0 < m₁) (h₂ : 0 < m₂)

/-- A product of at least 53 bits is rounded to the nearest double. -/
theorem nearest_mul (hbits : 2 ^ 52 ≤ m₁ * m₂) :
    ∃ bits, UnpackedFloat.mul Format.binary64 (.finite .positive m₁ e₁ h₁) (.finite .positive m₂ e₂ h₂) =
      finiteParts .positive bits ∧ Nearest (m₁ * m₂ * 2 ^ (e₁ + e₂ + 1074)) bits := by
  have h := nearest_roundWithAccuracy (s := .positive) (e := e₁ + e₂) (approximates_exact (m₁ * m₂)) (.inl hbits)
  rw [Nat.cast_mul] at h
  exact h

theorem nearest_div :
    ∃ bits, UnpackedFloat.div Format.binary64 (.finite .positive m₁ e₁ h₁) (.finite .positive m₂ e₂ h₂) =
      finiteParts .positive bits ∧ Nearest (m₁ / m₂ * 2 ^ (e₁ - e₂ + 1074)) bits := by
  have htarget : Format.binary64.targetExponent (totalExponent m₁ e₁ - totalExponent m₂ e₂) =
      max (m₁.log2 + 1 + e₁ - (m₂.log2 + 1 + e₂) - 53) (-1074) := rfl
  have hdiv : UnpackedFloat.div Format.binary64 (.finite .positive m₁ e₁ h₁) (.finite .positive m₂ e₂ h₂) =
      roundWithAccuracy Format.binary64 .positive (divCore Format.binary64 m₁ e₁ m₂ e₂).1
        (divCore Format.binary64 m₁ e₁ m₂ e₂).2.1 (divCore Format.binary64 m₁ e₁ m₂ e₂).2.2 := rfl
  unfold divCore at hdiv
  dsimp only at hdiv
  rw [htarget, Nat.shiftLeft_eq] at hdiv
  generalize ht : min (e₁ - e₂) (max (m₁.log2 + 1 + e₁ - (m₂.log2 + 1 + e₂) - 53) (-1074)) = t at hdiv
  obtain ⟨n, hn⟩ := Int.le.dest (show t ≤ e₁ - e₂ by omega)
  have hamount : (e₁ - e₂ - t).toNat = n := by omega
  rw [hamount] at hdiv
  have hbits : 2 ^ 52 ≤ m₁ * 2 ^ n / m₂ ∨ t ≤ -1074 := by
    by_cases hleast : t ≤ -1074
    · exact .inr hleast
    · have hlogs : m₂.log2 + 53 ≤ m₁.log2 + n := by omega
      left
      rw [Nat.le_div_iff_mul_le h₂]
      calc 2 ^ 52 * m₂ ≤ 2 ^ 52 * 2 ^ (m₂.log2 + 1) := Nat.mul_le_mul_left _ Nat.lt_log2_self.le
        _ = 2 ^ (m₂.log2 + 53) := by rw [← pow_add]; congr 1; omega
        _ ≤ 2 ^ (m₁.log2 + n) := Nat.pow_le_pow_right (by decide) hlogs
        _ = 2 ^ m₁.log2 * 2 ^ n := pow_add _ _ _
        _ ≤ m₁ * 2 ^ n := Nat.mul_le_mul_right _ (Nat.log2_self_le h₁.ne')
  obtain ⟨bits, hround, hnear⟩ := nearest_roundWithAccuracy (s := .positive)
    (approximates_quotient (m₁ * 2 ^ n) h₂) hbits
  refine ⟨bits, hdiv.trans hround, ?_⟩
  have hvalue : (m₁ / m₂ * 2 ^ (e₁ - e₂ + 1074) : ℚ) = ((m₁ * 2 ^ n : ℕ) / m₂) * 2 ^ (t + 1074) := by
    have htwo : (2 : ℚ) ≠ 0 := by norm_num
    rw [show e₁ - e₂ + 1074 = n + (t + 1074) by omega, zpow_add₀ htwo, zpow_natCast]
    push_cast
    ring
  rwa [hvalue]

end Operations

end PayoffPricing.Double
