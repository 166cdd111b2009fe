import PayoffPricing.Proofs.Double.Nearest
/-!
Reading decimals. A decimal is read as the double that is nearest to it: small ones through one exact product or
quotient of doubles, the others through exact integers.
-/

namespace PayoffPricing.Double

open Float.Model Float.Model.UnpackedFloat

/-- The positive double with a representation, or infinity beyond the greatest one. -/
def ofPositive (bits : ℕ) : Float := .ofModel (Float.Model.pack (finiteParts .positive bits))

section Representations

theorem ext_of_unpack {x y : Float} (h : x.toModel.unpack = y.toModel.unpack) : x = y := by
  obtain ⟨⟨a, ha⟩⟩ := x
  obtain ⟨⟨b, hb⟩⟩ := y
  have hbits : a.toBitVec = b.toBitVec := (unpack_inj_of_valid ha hb).1 h
  obtain rfl : a = b := UInt64.eq_of_toBitVec_eq hbits
  rfl

theorem unpack_pack_finiteParts (s : Sign) {bits : ℕ} (h : bits < infinityBits) :
    (Float.Model.pack (finiteParts s bits)).unpack = finiteParts s bits := by
  unfold finiteParts
  by_cases hpos : 0 < mantissa bits
  · rw [dif_pos hpos]
    apply unpack_pack_finite
    unfold infinityBits at h
    unfold mantissa excess
    refine ⟨⟨?_, ?_, ?_⟩, ?_⟩
    · split <;> omega
    · omega
    · split <;> omega
    · omega
  · rw [dif_neg hpos, unpack_pack_zero]

theorem eq_ofPositive {x : Float} (h : bits x < infinityBits) : x = ofPositive (bits x) := by
  have hsign : signOf (bits x) = .positive := if_pos (by unfold infinityBits at h; omega)
  have hmod : bits x % 2 ^ 63 = bits x := Nat.mod_eq_of_lt (by unfold infinityBits at h; omega)
  refine ext_of_unpack ?_
  rw [unpack_toModel, unpacked, hsign, hmod, if_neg (by unfold infinityBits at h; omega)]
  exact (unpack_pack_finiteParts .positive h).symm

def sign? : UnpackedFloat → Option Sign
  | .infinity s => some s
  | .notANumber => none
  | .zero s => some s
  | .finite s _ _ _ => some s

theorem sign?_finiteParts (s : Sign) (bits : ℕ) : sign? (finiteParts s bits) = some s := by
  unfold finiteParts
  split <;> rfl

theorem bits_lt_of_positive {x : Float} (h : sign? x.toModel.unpack = some .positive) : bits x < 2 ^ 63 := by
  rw [unpack_toModel] at h
  have hsign : signOf (bits x) = .positive := by
    unfold unpacked at h
    split at h
    · split at h
      · exact Option.some.inj h
      · cases h
    · rw [sign?_finiteParts] at h
      exact Option.some.inj h
  unfold signOf at hsign
  split at hsign
  · assumption
  · cases hsign

theorem bits_ofPositive_lt (n : ℕ) : bits (ofPositive n) < 2 ^ 63 := by
  refine bits_lt_of_positive ?_
  change sign? (Float.Model.pack (finiteParts .positive n)).unpack = _
  by_cases h : n < infinityBits
  · rw [unpack_pack_finiteParts .positive h, sign?_finiteParts]
  · unfold infinityBits at h
    have hpos : 0 < mantissa n := by
      rw [mantissa, if_neg (by omega)]
      omega
    rw [finiteParts, dif_pos hpos, unpack_pack_overflow .positive hpos (by unfold excess; omega)]
    rfl

end Representations

section Operands

variable {m : ℕ}

theorem roundWithAccuracy_eq {e : ℤ} (s : Sign) (hm : 0 < m) (hlt : m < 2 ^ 53) (he : -1074 ≤ e) :
    roundWithAccuracy Format.binary64 s m e .exact = .finite s m e hm := by
  unfold roundWithAccuracy
  have hrounded : (⟨m, false, false⟩ : ExtendedMantissa).roundedMantissa = m := rfl
  rw [shiftToTargetExponent_eq hm.ne' hlt he]
  dsimp only
  rw [hrounded, shiftToTargetExponent_eq hm.ne' hlt he]
  dsimp only
  rw [dif_neg hm.ne']

/-- A whole number below `2 ^ 53` is a double, here with a full mantissa. -/
theorem unpack_toFloat (hpos : 0 < m) (hlt : m < 2 ^ 53) :
    ∃ n e, ∃ hn : 0 < n, m.toUInt64.toFloat.toModel.unpack = .finite .positive n e hn ∧
      2 ^ 52 ≤ n ∧ (n * 2 ^ e : ℚ) = m := by
  have hlog : m.log2 < 53 := (Nat.log2_lt hpos.ne').2 hlt
  have hvalue : m.toUInt64.toNat = m := by
    rw [Nat.toUInt64, UInt64.toNat_ofNat', Nat.mod_eq_of_lt (by omega)]
  have hconversion :
      m.toUInt64.toFloat.toModel = Float.Model.pack (UnpackedFloat.normalize Format.binary64 m 0 .positive) := by
    conv_rhs => rw [← hvalue]
    rfl
  have htarget : (0 - Format.binary64.targetExponent (totalExponent m 0)).toNat = 52 - m.log2 := by
    rw [targetExponent_eq]
    omega
  have hpower : 0 < 2 ^ (52 - m.log2) := Nat.two_pow_pos _
  have hn : 0 < m * 2 ^ (52 - m.log2) := Nat.mul_pos hpos hpower
  have hfull : (m * 2 ^ (52 - m.log2)).log2 = 52 := by
    rw [log2_mul_two_pow hpos]
    omega
  obtain ⟨hlow, hhigh⟩ := (Nat.log2_eq_iff hn.ne').1 hfull
  have hround : UnpackedFloat.normalize Format.binary64 m 0 .positive =
      .finite .positive (m * 2 ^ (52 - m.log2)) (0 - (52 - m.log2 : ℕ)) hn := by
    unfold UnpackedFloat.normalize
    rw [compare_gt_iff_gt.2 (by omega : (m : ℤ) > 0)]
    dsimp only
    rw [Int.toNat_natCast]
    unfold UnpackedFloat.round decreaseExponent
    dsimp only
    rw [htarget, Nat.shiftLeft_eq]
    exact roundWithAccuracy_eq .positive hn hhigh (by omega)
  refine ⟨m * 2 ^ (52 - m.log2), 0 - (52 - m.log2 : ℕ), hn, ?_, hlow, ?_⟩
  · rw [hconversion, hround]
    exact unpack_pack_finite .positive hn ⟨⟨hhigh, by omega, .inl hlow⟩, by omega⟩
  · push_cast
    rw [zero_sub, zpow_neg, zpow_natCast, mul_assoc, mul_inv_cancel₀ (by positivity), mul_one]

/-- Whether a double is a power of ten with a full mantissa. -/
def isPowerOfTen (e : ℕ) (x : Float) : Bool :=
  match x.toModel.unpack with
  | .finite .positive m f _ =>
    decide (2 ^ 52 ≤ m) && decide (-52 ≤ f) && decide (m * 2 ^ (f + 52).toNat = 10 ^ e * 2 ^ 52)
  | _ => false

theorem size_powersOfTen : Float.exactlyRepresentablePowersOfTen.size = 23 := rfl

theorem isPowerOfTen_table :
    ∀ e : Fin Float.exactlyRepresentablePowersOfTen.size,
      isPowerOfTen e Float.exactlyRepresentablePowersOfTen[e] = true := by
  decide +kernel

theorem unpack_powerOfTen {e : ℕ} (he : e < Float.exactlyRepresentablePowersOfTen.size) :
    ∃ n f, ∃ hn : 0 < n, (Float.exactlyRepresentablePowersOfTen[e]).toModel.unpack = .finite .positive n f hn ∧
      2 ^ 52 ≤ n ∧ (n * 2 ^ f : ℚ) = 10 ^ e := by
  have htable := isPowerOfTen_table ⟨e, he⟩
  unfold isPowerOfTen at htable
  split at htable
  · next n f hn hunpack =>
    simp only [Bool.and_eq_true, decide_eq_true_eq] at htable
    obtain ⟨⟨hfull, hf⟩, hvalue⟩ := htable
    obtain ⟨k, hk⟩ := Int.le.dest hf
    obtain rfl : f = k - 52 := by omega
    rw [show ((k : ℤ) - 52 + 52).toNat = k by omega] at hvalue
    refine ⟨n, k - 52, hn, hunpack, hfull, ?_⟩
    rw [zpow_sub₀ (by norm_num), zpow_natCast, ← mul_div_assoc, div_eq_iff (by positivity)]
    exact_mod_cast hvalue
  · cases htable

end Operands

section Decimals

variable {m : ℕ} {e : ℤ}

/-- One in units of the least positive double. -/
@[irreducible] def oneCount : ℚ := 2 ^ (1074 : ℤ)

theorem oneCount_pos : 0 < oneCount := by
  unfold oneCount
  positivity

theorem two_zpow_add (e : ℤ) : (2 : ℚ) ^ (e + 1074) = 2 ^ e * oneCount := by
  rw [oneCount, zpow_add₀ two_ne_zero]

/-- A decimal in units of the least positive double. -/
def decimalCount (m : ℕ) (e : ℤ) : ℚ := m * 10 ^ e * oneCount

/-- Small decimals are read through a product or a quotient of two doubles that are exact. -/
theorem nearest_fast (hpos : 0 < m) (hm : m < 2 ^ 53) {k : ℕ} (hk : k ≤ 22) (negative : Bool) :
    ∃ n, Float.ofScientific m negative k = ofPositive n ∧
      Nearest (decimalCount m (if negative then -k else k)) n := by
  have hsize : k < Float.exactlyRepresentablePowersOfTen.size := by
    rw [size_powersOfTen]
    omega
  obtain ⟨a, f, ha, hunpack, hfull, hvalue⟩ := unpack_toFloat hpos hm
  obtain ⟨b, g, hb, hunpack', hfull', hvalue'⟩ := unpack_powerOfTen hsize
  unfold Float.ofScientific
  rw [dif_pos ⟨hm, hk⟩]
  cases negative with
  | true =>
    obtain ⟨n, hdiv, hnear⟩ := nearest_div f g ha hb
    refine ⟨n, ?_, ?_⟩
    · change Float.ofModel (Float.Model.pack (UnpackedFloat.div Format.binary64 m.toUInt64.toFloat.toModel.unpack
        (Float.exactlyRepresentablePowersOfTen[k]).toModel.unpack)) = _
      rw [hunpack, hunpack', hdiv]
      rfl
    · have hunits : (a / b * 2 ^ (f - g + 1074) : ℚ) = decimalCount m (-k) := by
        rw [decimalCount, two_zpow_add, zpow_sub₀ two_ne_zero, zpow_neg, zpow_natCast, ← hvalue, ← hvalue']
        field_simp
      rw [hunits] at hnear
      exact hnear
  | false =>
    obtain ⟨n, hmul, hnear⟩ := nearest_mul f g ha hb (hfull.trans (Nat.le_mul_of_pos_right a hb))
    refine ⟨n, ?_, ?_⟩
    · change Float.ofModel (Float.Model.pack (UnpackedFloat.mul Format.binary64 m.toUInt64.toFloat.toModel.unpack
        (Float.exactlyRepresentablePowersOfTen[k]).toModel.unpack)) = _
      rw [hunpack, hunpack', hmul]
      rfl
    · have hunits : (a * b * 2 ^ (f + g + 1074) : ℚ) = decimalCount m k := by
        rw [decimalCount, two_zpow_add, zpow_add₀ two_ne_zero, zpow_natCast, ← hvalue, ← hvalue']
        ring
      rw [hunits] at hnear
      exact hnear

/-- All other decimals are read through exact integers. -/
theorem nearest_slow (hpos : 0 < m) (hhigh : e ≤ 2 ^ 11) (hlow : -(2 ^ 11 + m.log2 : ℤ) ≤ e) :
    ∃ n, Float.Model.ofScientific m e = Float.Model.pack (finiteParts .positive n) ∧
      Nearest (decimalCount m e) n := by
  change ∃ n, Float.Model.pack (UnpackedFloat.ofScientific Format.binary64 m e) = _ ∧ _
  have hexponents : (2 : ℤ) ^ Format.binary64.exponentBits = 2 ^ 11 := rfl
  have hmantissa : Format.binary64.mantissaBits = 53 := rfl
  unfold UnpackedFloat.ofScientific
  rw [dif_neg hpos.ne', hexponents, if_neg (by omega), if_neg (by omega)]
  by_cases he : 0 ≤ e
  · obtain ⟨k, rfl⟩ := Int.eq_ofNat_of_zero_le he
    have hshift : 0 < m <<< Format.binary64.mantissaBits := by
      rw [Nat.shiftLeft_eq]
      positivity
    have hbits : 2 ^ 52 ≤ m <<< Format.binary64.mantissaBits * 10 ^ (k : ℤ).toNat := by
      rw [hmantissa, Nat.shiftLeft_eq]
      have := Nat.mul_le_mul (Nat.mul_le_mul hpos (le_refl (2 ^ 53))) (Nat.one_le_pow (k : ℤ).toNat 10 (by decide))
      omega
    obtain ⟨n, hmul, hnear⟩ := nearest_mul (-(Format.binary64.mantissaBits : ℤ)) 0 hshift
      (Nat.pow_pos (by decide)) hbits
    have hunits : ((m <<< Format.binary64.mantissaBits : ℕ) * (10 ^ (k : ℤ).toNat : ℕ) *
        2 ^ (-(Format.binary64.mantissaBits : ℤ) + 0 + 1074) : ℚ) = decimalCount m k := by
      rw [decimalCount, two_zpow_add, Nat.shiftLeft_eq, Int.toNat_natCast, add_zero, zpow_neg, zpow_natCast,
        zpow_natCast]
      push_cast
      field_simp
    rw [hunits] at hnear
    rw [if_pos he]
    exact ⟨n, congrArg _ hmul, hnear⟩
  · obtain ⟨k, hk⟩ := Int.eq_ofNat_of_zero_le (show 0 ≤ -e by omega)
    obtain rfl : e = -k := by omega
    have hpower : 0 < 10 ^ (- -(k : ℤ)).toNat := Nat.pow_pos (by decide)
    obtain ⟨n, hdiv, hnear⟩ := nearest_div 0 0 hpos hpower
    have hunits : (m / (10 ^ (- -(k : ℤ)).toNat : ℕ) * 2 ^ ((0 : ℤ) - 0 + 1074) : ℚ) = decimalCount m (-k) := by
      rw [decimalCount, two_zpow_add, neg_neg, Int.toNat_natCast, zpow_neg, zpow_natCast, sub_self, zpow_zero, one_mul,
        div_eq_mul_inv]
      push_cast
      rfl
    rw [hunits] at hnear
    rw [if_neg he]
    exact ⟨n, congrArg _ hdiv, hnear⟩

/-- A decimal within the limits of reading is read as the nearest double. -/
theorem nearest_ofScientific (hpos : 0 < m) (hhigh : e ≤ 400) (hlow : -(400 + m.log2 : ℤ) ≤ e) :
    ∃ n, Double.ofDecimal m e = ofPositive n ∧ Nearest (decimalCount m e) n := by
  have hofDecimal : Double.ofDecimal m e = Float.ofScientific m (e < 0) e.natAbs := by
    unfold Double.ofDecimal
    rw [if_neg hpos.ne', if_neg (by omega), if_neg (by simp only [Int.ofNat_eq_natCast]; omega)]
  have hsigned : (if decide (e < 0) = true then -(e.natAbs : ℤ) else e.natAbs) = e := by
    by_cases hnegative : e < 0
    · rw [decide_eq_true hnegative, if_pos rfl]
      omega
    · rw [decide_eq_false hnegative, if_neg Bool.false_ne_true]
      omega
  rw [hofDecimal]
  by_cases hsmall : m < 2 ^ 53 ∧ e.natAbs ≤ 22
  · have hfast := nearest_fast hpos hsmall.1 hsmall.2 (e < 0)
    rwa [hsigned] at hfast
  · obtain ⟨n, hpack, hnear⟩ := nearest_slow hpos (show e ≤ 2 ^ 11 by omega) (by omega)
    have hslow : Float.ofScientific m (e < 0) e.natAbs = Float.ofModel (Float.Model.ofScientific m e) := by
      have hsame : (if decide (e < 0) = true then Int.negOfNat e.natAbs else Int.ofNat e.natAbs) = e := by
        rw [Int.negOfNat_eq]
        exact hsigned
      unfold Float.ofScientific
      rw [dif_neg hsmall]
      dsimp only
      rw [hsame]
    rw [hslow, hpack]
    exact ⟨n, rfl, hnear⟩

theorem nearest_zero {v : ℚ} (hv : 0 ≤ v) (hsmall : 2 * v ≤ 1) : Nearest v 0 where
  low := by
    rw [worth_zero]
    simpa using hv
  high := by
    rw [worth_zero, show worth (0 + 1) = 1 from rfl]
    simpa using hsmall
  even_of_low _ := rfl
  even_of_high _ := rfl

theorem two_pow_le_ten_pow (k : ℕ) : (2 : ℚ) ^ (3 * k) ≤ 10 ^ k := by
  rw [pow_mul]
  exact pow_le_pow_left₀ (by norm_num) (by norm_num) k

theorem limit_eq : (limit : ℚ) = 2 ^ (1024 : ℤ) * oneCount := by
  have hexponents : (exponents : ℤ) = 2045 := by
    unfold exponents
    rfl
  have hcast : (limit : ℚ) = 2 ^ (53 : ℤ) * 2 ^ (exponents : ℤ) := by
    unfold limit
    rw [zpow_natCast]
    push_cast
    norm_num
  rw [hcast, hexponents, oneCount, ← zpow_add₀ two_ne_zero, ← zpow_add₀ two_ne_zero]
  congr 1

/-- What is nearest to a finite double is below all decimals that reading takes for infinite. -/
theorem le_of_nearest {n : ℕ} (hn : n < infinityBits) (hpos : 0 < m) (h : Nearest (decimalCount m e) n) : e ≤ 400 := by
  by_contra hlarge
  have hbound : (worth n + worth (n + 1) : ℚ) ≤ 2 * limit := by
    rw [← worth_infinityBits]
    have h₁ : (worth n : ℚ) ≤ worth infinityBits := by exact_mod_cast strictMono_worth.monotone hn.le
    have h₂ : (worth (n + 1) : ℚ) ≤ worth infinityBits := by exact_mod_cast strictMono_worth.monotone hn
    linarith
  have hhigh := h.high
  obtain ⟨k, rfl⟩ := Int.le.dest (show (401 : ℤ) ≤ e by omega)
  have hten : (2 : ℚ) ^ (1024 : ℤ) < 10 ^ ((401 : ℤ) + k) := by
    calc (2 : ℚ) ^ (1024 : ℤ) < 2 ^ ((3 * (401 + k) : ℕ) : ℤ) := zpow_lt_zpow_right₀ (by norm_num) (by push_cast; omega)
      _ ≤ 10 ^ ((401 + k : ℕ) : ℤ) := by
        rw [zpow_natCast, zpow_natCast]
        exact two_pow_le_ten_pow _
      _ = 10 ^ ((401 : ℤ) + k) := by push_cast; rfl
  have hm : (1 : ℚ) ≤ m := by exact_mod_cast hpos
  have habove : (2 : ℚ) ^ (1024 : ℤ) * oneCount < decimalCount m (401 + k) := by
    unfold decimalCount
    refine mul_lt_mul_of_pos_right (hten.trans_le ?_) oneCount_pos
    exact le_mul_of_one_le_left (by positivity) hm
  rw [limit_eq] at hbound
  linarith

/-- A decimal that reading takes for zero is nearest to zero. -/
theorem nearest_of_vanishing (he : e < -(400 + m.log2 : ℤ)) : Nearest (decimalCount m e) 0 := by
  have hpos := oneCount_pos
  obtain ⟨k, hk⟩ := Int.le.dest (show (401 + m.log2 : ℤ) ≤ -e by omega)
  obtain rfl : e = -((401 + m.log2 + k : ℕ) : ℤ) := by push_cast; omega
  refine nearest_zero (by unfold decimalCount; positivity) ?_
  have hm : (m : ℚ) ≤ 2 ^ (m.log2 + 1) := by exact_mod_cast Nat.lt_log2_self.le
  have hpower : (2 : ℚ) ^ (m.log2 + 1) * oneCount * 2 ≤ 10 ^ (401 + m.log2 + k) := by
    calc (2 : ℚ) ^ (m.log2 + 1) * oneCount * 2 = 2 ^ ((m.log2 + 1 : ℤ) + 1074 + 1) := by
          rw [oneCount, zpow_add₀ two_ne_zero, zpow_add₀ two_ne_zero, zpow_one]
          congr 2
      _ ≤ 2 ^ ((3 * (401 + m.log2 + k) : ℕ) : ℤ) := zpow_le_zpow_right₀ (by norm_num) (by push_cast; omega)
      _ ≤ 10 ^ (401 + m.log2 + k) := by
        rw [zpow_natCast]
        exact two_pow_le_ten_pow _
  unfold decimalCount
  rw [zpow_neg, zpow_natCast, ← div_eq_mul_inv, div_mul_eq_mul_div, mul_div_assoc', div_le_one (by positivity)]
  calc 2 * (m * oneCount) ≤ 2 * (2 ^ (m.log2 + 1) * oneCount) := by gcongr
    _ = 2 ^ (m.log2 + 1) * oneCount * 2 := by ring
    _ ≤ 10 ^ (401 + m.log2 + k) := hpower

/-- A decimal is read as the double that it is nearest to. -/
theorem ofDecimal_eq_of_nearest {x : Float} (hx : bits x < infinityBits) (h : Nearest (decimalCount m e) (bits x)) :
    Double.ofDecimal m e = x := by
  have hzero (hbits : bits x = 0) : (0 : Float) = x := by
    rw [eq_ofPositive hx, hbits]
    exact eq_ofPositive (show bits 0 < infinityBits by decide)
  rcases Nat.eq_zero_or_pos m with rfl | hpos
  · have hnone : decimalCount 0 e = 0 := by simp [decimalCount]
    rw [hnone] at h
    unfold Double.ofDecimal
    rw [if_pos rfl]
    exact hzero (h.unique (nearest_zero le_rfl (by norm_num)))
  have hhigh := le_of_nearest hx hpos h
  by_cases hlow : -(400 + m.log2 : ℤ) ≤ e
  · obtain ⟨n, hread, hnear⟩ := nearest_ofScientific hpos hhigh hlow
    rw [hread, hnear.unique h]
    exact (eq_ofPositive hx).symm
  · unfold Double.ofDecimal
    rw [if_neg hpos.ne', if_neg (by omega), if_pos (by simp only [Int.ofNat_eq_natCast]; omega)]
    exact hzero (h.unique (nearest_of_vanishing (by omega)))

theorem bits_ofDecimal_lt (m : ℕ) (e : ℤ) : bits (Double.ofDecimal m e) < 2 ^ 63 := by
  rcases Nat.eq_zero_or_pos m with rfl | hpos
  · unfold Double.ofDecimal
    rw [if_pos rfl]
    decide
  by_cases hhigh : e ≤ 400
  · by_cases hlow : -(400 + m.log2 : ℤ) ≤ e
    · obtain ⟨n, hread, -⟩ := nearest_ofScientific hpos hhigh hlow
      rw [hread]
      exact bits_ofPositive_lt n
    · unfold Double.ofDecimal
      rw [if_neg hpos.ne', if_neg (by omega), if_pos (by simp only [Int.ofNat_eq_natCast]; omega)]
      decide
  · unfold Double.ofDecimal
    rw [if_neg hpos.ne', if_pos (by omega)]
    decide

end Decimals

end PayoffPricing.Double
