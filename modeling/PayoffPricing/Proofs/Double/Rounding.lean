import PayoffPricing.Proofs.Double.Order
/-!
Rounding of doubles. A number is rounded to one of the two doubles around it, so that rounding does not cross
a double, and taking a positive double away from another one does not lead above it.
-/

namespace PayoffPricing.Double

open Float.Model Float.Model.UnpackedFloat

/-- At most 53 significant bits. -/
def Representable (y : ℕ) : Prop := ∃ c k, c < 2 ^ 53 ∧ y = c * 2 ^ k

/-- The first number rounds to the second: to one of the multiples of a power of two around it, where the number
has at least 53 bits down to that power unless the power is one. -/
def RoundsTo (n r : ℕ) : Prop :=
  ∃ q k, (k = 0 ∨ 2 ^ 52 ≤ q) ∧ q * 2 ^ k ≤ n ∧ n < (q + 1) * 2 ^ k ∧
    (r = q * 2 ^ k ∨ r = (q + 1) * 2 ^ k ∧ q * 2 ^ k < n)

section Numbers

variable {n r y q k : ℕ}

/-- There is no representable number between two multiples of a power of two that have 53 bits. -/
theorem Representable.next_le (hy : Representable y) (hq : k = 0 ∨ 2 ^ 52 ≤ q) (hlt : q * 2 ^ k < y) :
    (q + 1) * 2 ^ k ≤ y := by
  obtain ⟨c, j, hc, rfl⟩ := hy
  rcases hq with rfl | hq
  · omega
  · have hpowers : 2 ^ (52 + k) < 2 ^ (53 + j) := by
      calc 2 ^ (52 + k) = 2 ^ 52 * 2 ^ k := pow_add _ _ _
        _ ≤ q * 2 ^ k := Nat.mul_le_mul_right _ hq
        _ < c * 2 ^ j := hlt
        _ ≤ 2 ^ 53 * 2 ^ j := Nat.mul_le_mul_right _ hc.le
        _ = 2 ^ (53 + j) := (pow_add _ _ _).symm
    have hkj : k ≤ j := by
      have := (Nat.pow_lt_pow_iff_right (by decide)).1 hpowers
      omega
    obtain ⟨i, rfl⟩ := Nat.exists_eq_add_of_le hkj
    have hmultiple : c * 2 ^ (k + i) = c * 2 ^ i * 2 ^ k := by ring
    rw [hmultiple] at hlt ⊢
    exact Nat.mul_le_mul_right _ (lt_of_mul_lt_mul_right hlt (Nat.zero_le _))

theorem RoundsTo.le (h : RoundsTo n r) (hy : Representable y) (hn : n ≤ y) : r ≤ y := by
  obtain ⟨q, k, hq, hle, hlt, rfl | ⟨rfl, habove⟩⟩ := h
  · exact hle.trans hn
  · exact hy.next_le hq (habove.trans_le hn)

theorem RoundsTo.ge (h : RoundsTo n r) (hy : Representable y) (hn : y ≤ n) : y ≤ r := by
  obtain ⟨q, k, hq, hle, hlt, hr⟩ := h
  have hbelow : y ≤ q * 2 ^ k := by
    by_contra hnot
    have := hy.next_le hq (not_le.1 hnot)
    omega
  rcases hr with rfl | ⟨rfl, -⟩
  · exact hbelow
  · exact hbelow.trans (Nat.mul_le_mul_right _ (Nat.le_succ q))

end Numbers

section Shifts

/-- What is left of a mantissa after a shift, and that the other two bits remember whether anything was lost. -/
theorem shifted (m n : ℕ) :
    ((⟨m, false, false⟩ : ExtendedMantissa) >>> n).mantissa = m / 2 ^ n ∧
      (((⟨m, false, false⟩ : ExtendedMantissa) >>> n).roundBit = true ∨
        ((⟨m, false, false⟩ : ExtendedMantissa) >>> n).stickyBit = true → m % 2 ^ n ≠ 0) := by
  induction n with
  | zero => simp [HShiftRight.hShiftRight, Nat.repeat]
  | succ n ih =>
    obtain ⟨hmantissa, hlost⟩ := ih
    have hstep : (⟨m, false, false⟩ : ExtendedMantissa) >>> (n + 1) =
        ((⟨m, false, false⟩ : ExtendedMantissa) >>> n).shiftRightOne := rfl
    have hmod : m % 2 ^ (n + 1) = m % 2 ^ n + 2 ^ n * (m / 2 ^ n % 2) := by rw [pow_succ, Nat.mod_mul]
    rw [hstep]
    constructor
    · dsimp only [ExtendedMantissa.shiftRightOne]
      rw [hmantissa, Nat.div_div_eq_div_mul, pow_succ]
    · dsimp only [ExtendedMantissa.shiftRightOne]
      rw [hmod, hmantissa]
      rintro (hround | hsticky)
      · have hodd : m / 2 ^ n % 2 ≠ 0 := by simpa using hround
        have := Nat.mul_pos (Nat.two_pow_pos n) (Nat.pos_of_ne_zero hodd)
        omega
      · have := hlost (by simpa using hsticky)
        omega

theorem roundedMantissa_eq (em : ExtendedMantissa) :
    em.roundedMantissa = em.mantissa ∨
      em.roundedMantissa = em.mantissa + 1 ∧ (em.roundBit = true ∨ em.stickyBit = true) := by
  obtain ⟨m, round, sticky⟩ := em
  cases round <;> cases sticky <;>
    simp [ExtendedMantissa.roundedMantissa, ExtendedMantissa.accuracy, Accuracy.roundToNearestEven]
  omega

variable {m : ℕ} {e : ℤ}

theorem targetExponent_eq (m : ℕ) (e : ℤ) :
    Format.binary64.targetExponent (totalExponent m e) = max (m.log2 + 1 + e - 53) (-1074) := rfl

theorem shiftToTargetExponent_eq (hm : m ≠ 0) (hlt : m < 2 ^ 53) (he : -1074 ≤ e) :
    shiftToTargetExponent Format.binary64 m e .exact = (⟨m, false, false⟩, e) := by
  have hlog : m.log2 < 53 := (Nat.log2_lt hm).2 hlt
  have hnone : (Format.binary64.targetExponent (totalExponent m e) - e).toNat = 0 := by
    rw [targetExponent_eq]
    omega
  unfold shiftToTargetExponent shiftToExponent
  dsimp only
  rw [hnone]
  simp [ExtendedMantissa.ofMantissaAndAccuracy, HShiftRight.hShiftRight, Nat.repeat]

theorem shiftToTargetExponent_carry (he : -1074 ≤ e) :
    shiftToTargetExponent Format.binary64 (2 ^ 53) e .exact = (⟨2 ^ 52, false, false⟩, e + 1) := by
  have hone : (Format.binary64.targetExponent (totalExponent (2 ^ 53) e) - e).toNat = 1 := by
    rw [targetExponent_eq, Nat.log2_two_pow]
    omega
  unfold shiftToTargetExponent shiftToExponent
  dsimp only
  rw [hone]
  rfl

end Shifts

section Rounded

variable {m : ℕ} {e : ℤ}

theorem magnitude_add (m : ℕ) (he : -1074 ≤ e) (n : ℕ) : magnitude m (e + n) = m * 2 ^ n * 2 ^ (e + 1074).toNat := by
  have hexponent : (e + n + 1074).toNat = n + (e + 1074).toNat := by omega
  rw [magnitude, hexponent, pow_add, mul_assoc]

/-- The result of rounding is a regular number with the given sign, and the one that the magnitude rounds to. -/
def Rounded (s : Sign) (n : ℕ) (result : UnpackedFloat) : Prop :=
  ∃ r f, ∃ hr : 0 < r, result = .finite s r f hr ∧ Regular r f ∧ RoundsTo n (magnitude r f)

theorem shiftToTargetExponent_shift {n : ℕ} (hn : e + n = max (m.log2 + 1 + e - 53) (-1074)) :
    shiftToTargetExponent Format.binary64 m e .exact = ((⟨m, false, false⟩ : ExtendedMantissa) >>> n, e + n) := by
  have hamount : (Format.binary64.targetExponent (totalExponent m e) - e).toNat = n := by
    rw [targetExponent_eq]
    omega
  unfold shiftToTargetExponent shiftToExponent
  dsimp only
  rw [hamount]
  rfl

theorem shifted_bits {n : ℕ} (hm : 0 < m) (hn : e + n = max (m.log2 + 1 + e - 53) (-1074)) :
    m / 2 ^ n < 2 ^ 53 ∧ (2 ^ 52 ≤ m / 2 ^ n ∨ e + n = -1074) := by
  constructor
  · rw [Nat.div_lt_iff_lt_mul (Nat.two_pow_pos n), ← pow_add]
    exact Nat.lt_log2_self.trans_le (Nat.pow_le_pow_right (by decide) (by omega))
  · by_cases hleast : e + n = -1074
    · exact .inr hleast
    · have hlog : 52 + n = m.log2 := by omega
      left
      rw [Nat.le_div_iff_mul_le (Nat.two_pow_pos n), ← pow_add, hlog]
      exact Nat.log2_self_le hm.ne'

theorem roundsTo_shifted {n r : ℕ} (he : -1074 ≤ e) (hfull : 2 ^ 52 ≤ m / 2 ^ n ∨ e + n = -1074)
    (hr : r = m / 2 ^ n ∨ r = m / 2 ^ n + 1 ∧ m % 2 ^ n ≠ 0) : RoundsTo (magnitude m e) (magnitude r (e + n)) := by
  have hscale : 0 < 2 ^ (e + 1074).toNat := Nat.two_pow_pos _
  have hunit : 2 ^ (e + n + 1074).toNat = 2 ^ n * 2 ^ (e + 1074).toNat := by
    rw [← pow_add]
    congr 1
    omega
  refine ⟨m / 2 ^ n, (e + n + 1074).toNat, hfull.symm.imp_left fun h => by omega, ?_, ?_, ?_⟩
  · rw [hunit, ← mul_assoc]
    exact Nat.mul_le_mul_right _ (Nat.div_mul_le_self m (2 ^ n))
  · rw [hunit, ← mul_assoc]
    have hhigh : m < (m / 2 ^ n + 1) * 2 ^ n := Nat.lt_mul_of_div_lt (Nat.lt_succ_self _) (Nat.two_pow_pos n)
    exact Nat.mul_lt_mul_of_pos_right hhigh hscale
  · rcases hr with rfl | ⟨rfl, hrest⟩
    · exact .inl rfl
    · have hexact : m / 2 ^ n * 2 ^ n + m % 2 ^ n = m := Nat.div_add_mod' m (2 ^ n)
      refine .inr ⟨rfl, ?_⟩
      rw [hunit, ← mul_assoc]
      exact Nat.mul_lt_mul_of_pos_right (by omega) hscale

theorem rounded_roundWithAccuracy (s : Sign) (hm : 0 < m) (he : -1074 ≤ e)
    (ht : e ≤ Format.binary64.targetExponent (totalExponent m e)) :
    Rounded s (magnitude m e) (roundWithAccuracy Format.binary64 s m e .exact) := by
  rw [targetExponent_eq] at ht
  obtain ⟨n, hn⟩ := Int.le.dest ht
  obtain ⟨hbits, hfull⟩ := shifted_bits hm hn
  obtain ⟨hmantissa, hlost⟩ := shifted m n
  have hrounded : ((⟨m, false, false⟩ : ExtendedMantissa) >>> n).roundedMantissa = m / 2 ^ n ∨
      ((⟨m, false, false⟩ : ExtendedMantissa) >>> n).roundedMantissa = m / 2 ^ n + 1 ∧ m % 2 ^ n ≠ 0 := by
    rw [← hmantissa]
    exact (roundedMantissa_eq _).imp_right fun h => h.imp_right hlost
  have hregular : -1074 ≤ e + n := by omega
  have hnear := roundsTo_shifted he hfull hrounded
  unfold roundWithAccuracy
  rw [shiftToTargetExponent_shift hn]
  dsimp only
  generalize ((⟨m, false, false⟩ : ExtendedMantissa) >>> n).roundedMantissa = r at hrounded hnear ⊢
  have hpos : 0 < r := by
    rcases hfull with hfull | hleast
    · omega
    · obtain rfl : n = 0 := by omega
      rw [pow_zero, Nat.div_one] at hrounded
      omega
  -- Rounding may give one bit too many, for which the exponent moves once more.
  by_cases hsmall : r < 2 ^ 53
  · rw [shiftToTargetExponent_eq hpos.ne' hsmall hregular]
    dsimp only
    rw [dif_neg hpos.ne']
    refine ⟨r, e + n, hpos, rfl, ⟨hsmall, hregular, ?_⟩, hnear⟩
    exact hfull.imp_left fun h => by omega
  · obtain rfl : r = 2 ^ 53 := by omega
    rw [shiftToTargetExponent_carry hregular]
    dsimp only
    rw [dif_neg (by decide)]
    have hcarry : magnitude (2 ^ 52) (e + n + 1) = magnitude (2 ^ 53) (e + n) := magnitude_add _ hregular 1
    refine ⟨2 ^ 52, e + n + 1, by decide, rfl, ⟨by decide, by omega, .inl le_rfl⟩, ?_⟩
    rwa [hcarry]

theorem log2_mul_two_pow (hm : 0 < m) (d : ℕ) : (m * 2 ^ d).log2 = m.log2 + d := by
  have hpos : 0 < 2 ^ d := Nat.two_pow_pos d
  rw [Nat.log2_eq_iff (Nat.mul_pos hm hpos).ne']
  constructor
  · rw [pow_add]
    exact Nat.mul_le_mul_right _ (Nat.log2_self_le hm.ne')
  · rw [add_right_comm, pow_add]
    exact Nat.mul_lt_mul_of_pos_right Nat.lt_log2_self hpos

theorem rounded_round (s : Sign) (hm : 0 < m) (he : -1074 ≤ e) :
    Rounded s (magnitude m e) (UnpackedFloat.round Format.binary64 s m e) := by
  unfold UnpackedFloat.round decreaseExponent
  dsimp only
  rw [targetExponent_eq, Nat.shiftLeft_eq]
  generalize hd : (e - max (m.log2 + 1 + e - 53) (-1074)).toNat = d
  have hexponent : -1074 ≤ e - d := by omega
  have hsame : magnitude (m * 2 ^ d) (e - d) = magnitude m e := by
    have hsum := magnitude_add m hexponent d
    rw [sub_add_cancel] at hsum
    exact hsum.symm
  rw [← hsame]
  apply rounded_roundWithAccuracy s (Nat.mul_pos hm (Nat.two_pow_pos d)) hexponent
  rw [targetExponent_eq, log2_mul_two_pow hm]
  omega

end Rounded

section Packing

theorem unpackSign_packComponents (s : Sign) (e : BitVec 11) (m : BitVec 52) :
    Sign.ofBitVec (unpackSign (packComponents Format.binary64 s e m)) = s := by
  simp only [unpackSign, packComponents, BitVec.extractLsb]
  rw [BitVec.extractLsb'_append_eq_of_le (by omega), BitVec.extractLsb'_append_eq_of_le (by omega)]
  cases s <;> rfl

theorem unpack_pack_infinity (s : Sign) : (Float.Model.pack (.infinity s)).unpack = .infinity s := by
  cases s <;> rfl

theorem unpack_pack_zero (s : Sign) : (Float.Model.pack (.zero s)).unpack = .zero s := by
  cases s <;> rfl

theorem unpack_pack_notANumber : (Float.Model.pack .notANumber).unpack = .notANumber := rfl

variable {m : ℕ} {e : ℤ}

theorem unpack_pack_overflow (s : Sign) (hm : 0 < m) (he : 971 < e) :
    (Float.Model.pack (.finite s m e hm)).unpack = .infinity s := by
  rw [← unpack_pack_infinity s]
  have hlarge : 2 ^ Format.binary64.exponentBits ≤
      (e + Format.binary64.exponentBias + Format.binary64.mantissaBitsWithoutImplicit).toNat + 1 := by
    change 2048 ≤ (e + 1023 + 52).toNat + 1
    omega
  unfold Float.Model.pack
  simp only [UnpackedFloat.pack, if_pos hlarge]

section Fields

variable (s : Sign) {b : BitVec 11} {v : BitVec 52}

theorem unpack_packComponents_normal (hfirst : b ≠ 0#11) (hlast : b ≠ -1#11) :
    UnpackedFloat.unpack Format.binary64 (packComponents Format.binary64 s b v) =
      .finite s (1#1 ++ v).toNat (b.toNat - (1023 + 52)) (by rw [toNat_one_append]; omega) := by
  unfold UnpackedFloat.unpack
  simp only [unpackMantissa_packComponents, unpackExponent_packComponents, unpackSign_packComponents]
  rw [if_neg hlast, if_neg hfirst]
  rfl

theorem unpack_packComponents_subnormal (hv : 0 < v.toNat) :
    UnpackedFloat.unpack Format.binary64 (packComponents Format.binary64 s 0#11 v) = .finite s v.toNat (-1074) hv := by
  have hzero : v ≠ 0#52 := by
    rintro rfl
    exact hv.ne rfl
  unfold UnpackedFloat.unpack
  simp only [unpackMantissa_packComponents, unpackExponent_packComponents, unpackSign_packComponents]
  rw [if_neg (by decide), if_pos trivial, dif_neg hzero]
  rfl

end Fields

theorem unpack_pack_finite (s : Sign) (hm : 0 < m) (h : InRange m e) :
    (Float.Model.pack (.finite s m e hm)).unpack = .finite s m e hm := by
  obtain ⟨⟨hlt, hleast, hfull⟩, hgreatest⟩ := h
  have hbias : (Format.binary64.exponentBias : ℤ) = 1023 := rfl
  have hbits : (Format.binary64.mantissaBitsWithoutImplicit : ℤ) = 52 := rfl
  have hall : Format.binary64.mantissaBits = 53 := rfl
  change UnpackedFloat.unpack Format.binary64 (UnpackedFloat.pack Format.binary64 (.finite s m e hm)) = _
  unfold UnpackedFloat.pack
  simp only [hbias, hbits, hall]
  rw [if_neg (by change ¬ 2048 ≤ _; omega)]
  by_cases hnormal : 2 ^ 52 ≤ m
  · have hlog : m.log2 = 52 := (Nat.log2_eq_iff hm.ne').2 ⟨hnormal, hlt⟩
    have hexponent : (BitVec.ofNat 11 (e + 1023 + 52).toNat).toNat = (e + 1075).toNat := by
      rw [BitVec.toNat_ofNat]
      omega
    have hmantissa : (1#1 ++ BitVec.ofNat 52 m).toNat = m := by
      rw [toNat_one_append, BitVec.toNat_ofNat]
      omega
    have hlast : BitVec.ofNat 11 (e + 1023 + 52).toNat ≠ -1#11 := by
      intro h
      rw [h] at hexponent
      change 2047 = _ at hexponent
      omega
    have hfirst : BitVec.ofNat 11 (e + 1023 + 52).toNat ≠ 0#11 := by
      intro h
      rw [h] at hexponent
      change 0 = _ at hexponent
      omega
    rw [if_pos (by omega), unpack_packComponents_normal s hfirst hlast]
    simp only [hmantissa, hexponent, finite.injEq, true_and]
    omega
  · have hlog : m.log2 ≠ 52 := fun h => hnormal (h ▸ Nat.log2_self_le hm.ne')
    have hmantissa : (BitVec.ofNat 52 m).toNat = m := by
      rw [BitVec.toNat_ofNat]
      omega
    rw [if_neg (by omega), unpack_packComponents_subnormal s (by rwa [hmantissa])]
    simp only [hmantissa, finite.injEq, true_and]
    omega

theorem level_unpack_pack (s : Sign) (hm : 0 < m) (h : Regular m e) :
    level (Float.Model.pack (.finite s m e hm)).unpack = s.apply (min (magnitude m e) limit : ℕ) := by
  by_cases hrange : e ≤ 971
  · have hin : InRange m e := ⟨h, hrange⟩
    rw [unpack_pack_finite s hm hin, min_eq_left hin.magnitude_lt_limit.le]
    rfl
  · have hover : limit ≤ magnitude m e := by
      have hfull : 2 ^ 52 ≤ m := h.full.resolve_right (by omega)
      have hexponent : exponents + 1 ≤ (e + 1074).toNat := by
        unfold exponents
        omega
      calc limit = 2 ^ 52 * 2 ^ (exponents + 1) := by rw [limit, pow_succ]; ring
        _ ≤ 2 ^ 52 * 2 ^ (e + 1074).toNat := Nat.mul_le_mul_left _ (Nat.pow_le_pow_right (by decide) hexponent)
        _ ≤ magnitude m e := Nat.mul_le_mul_right _ hfull
    rw [unpack_pack_overflow s hm (by omega), min_eq_right hover]
    rfl

end Packing

theorem representable_level {a : UnpackedFloat} (h : Canonical a) : Representable (level a).natAbs := by
  cases a with
  | notANumber => exact ⟨0, 0, by decide, rfl⟩
  | infinity s =>
    have hlimit : limit = 2 ^ 52 * 2 ^ (exponents + 1) := by
      rw [limit, pow_succ]
      ring
    refine ⟨2 ^ 52, exponents + 1, by decide, ?_⟩
    cases s <;> dsimp only [level, Sign.apply] <;> omega
  | zero s => exact ⟨0, 0, by decide, rfl⟩
  | finite s m e hm =>
    refine ⟨m, (e + 1074).toNat, h.lt, ?_⟩
    change (s.apply (magnitude m e)).natAbs = magnitude m e
    cases s <;> dsimp only [Sign.apply] <;> omega

/-- Rounding does not lead above a double that was not below. -/
theorem level_normalize_le {d e y : ℤ} (s : Sign) (he : -1074 ≤ e) (hy : Representable y.natAbs) (hlimit : -limit ≤ y)
    (h : d * 2 ^ (e + 1074).toNat ≤ y) :
    level (Float.Model.pack (UnpackedFloat.normalize Format.binary64 d e s)).unpack ≤ y := by
  have hscale : (0 : ℤ) < 2 ^ (e + 1074).toNat := by positivity
  unfold UnpackedFloat.normalize
  rcases lt_trichotomy d 0 with hd | rfl | hd
  · have hsize : (magnitude (-d).toNat e : ℤ) = -(d * 2 ^ (e + 1074).toNat) := by
      rw [magnitude, Nat.cast_mul, Int.toNat_of_nonneg (by omega)]
      push_cast
      ring
    obtain ⟨r, f, hr, hround, hregular, hnear⟩ := rounded_round .negative (by omega : 0 < (-d).toNat) he
    rw [compare_lt_iff_lt.2 hd]
    dsimp only
    rw [hround, level_unpack_pack _ _ hregular]
    dsimp only [Sign.apply]
    by_cases hsign : 0 ≤ y
    · omega
    · have hbelow := hnear.ge hy (by omega)
      omega
  · rw [compare_eq_iff_eq.2 rfl]
    dsimp only
    rw [unpack_pack_zero]
    rwa [zero_mul] at h
  · have hsize : (magnitude d.toNat e : ℤ) = d * 2 ^ (e + 1074).toNat := by
      rw [magnitude, Nat.cast_mul, Int.toNat_of_nonneg hd.le]
      push_cast
      ring
    have hpos := mul_pos hd hscale
    obtain ⟨r, f, hr, hround, hregular, hnear⟩ := rounded_round .positive (by omega : 0 < d.toNat) he
    rw [compare_gt_iff_gt.2 hd]
    dsimp only
    rw [hround, level_unpack_pack _ _ hregular]
    dsimp only [Sign.apply]
    have habove := hnear.le hy (by omega)
    omega

theorem apply_decreaseExponent (s : Sign) (m : ℕ) {e f : ℤ} (hf : -1074 ≤ f) (hfe : f ≤ e) :
    s.apply (decreaseExponent m e f).1 * 2 ^ (f + 1074).toNat = s.apply (magnitude m e) := by
  obtain ⟨n, rfl⟩ := Int.le.dest hfe
  have hamount : (f + n - f).toNat = n := by omega
  unfold decreaseExponent
  dsimp only
  rw [hamount, Nat.shiftLeft_eq, magnitude_add m hf]
  cases s <;> dsimp only [Sign.apply] <;> push_cast <;> ring

theorem level_sub_le {a b : UnpackedFloat} (ha : Canonical a) (hb : Canonical b) (hpos : 0 < level b) :
    level (Float.Model.pack (UnpackedFloat.sub Format.binary64 a b)).unpack ≤ level a := by
  have hlimit := limit_pos
  have hbounds := level_bounds ha
  -- Subtraction is exact up to the rounding of its result, unless an operand is infinite or zero.
  fun_cases UnpackedFloat.sub Format.binary64 a b with
  | case1 => exact le_rfl
  | case2 => exact absurd hpos (lt_irrefl 0)
  | case3 s => rw [unpack_pack_infinity]
  | case4 s t hne =>
    cases s <;> cases t
    · dsimp only [level, Sign.apply] at hpos
      omega
    · exact absurd rfl hne
    · dsimp only [level, Sign.apply] at hpos
      omega
    · dsimp only [level, Sign.apply]
      rw [unpack_pack_notANumber]
      exact Int.natCast_nonneg _
  | case5 b s => rw [unpack_pack_infinity]
  | case6 a s =>
    cases s
    · dsimp only [level, Sign.apply] at hpos
      omega
    · rw [unpack_pack_infinity]
      exact hbounds.1
  | case7 => exact absurd hpos (lt_irrefl 0)
  | case8 => exact absurd hpos (lt_irrefl 0)
  | case9 s t m e hm =>
    cases t
    · dsimp only [level, Sign.apply] at hpos
      omega
    · rw [level_unpack_pack _ hm hb.toRegular]
      change -((min (magnitude m e) limit : ℕ) : ℤ) ≤ 0
      omega
  | case10 => exact absurd hpos (lt_irrefl 0)
  | case11 s m e hm t n f hn g m' _ hm' n' _ hn' =>
    have hg : -1074 ≤ g := le_min ha.least hb.least
    have hdifference : (s.apply m' - t.apply n') * 2 ^ (g + 1074).toNat =
        level (.finite s m e hm) - level (.finite t n f hn) := by
      have hfirst := apply_decreaseExponent s m hg (min_le_left e f)
      have hsecond := apply_decreaseExponent t n hg (min_le_right e f)
      rw [hm'] at hfirst
      rw [hn'] at hsecond
      rw [sub_mul, hfirst, hsecond]
      rfl
    apply level_normalize_le _ hg (representable_level ha) hbounds.1
    rw [hdifference]
    omega

theorem defined_of_sub {y t : Float} (h : Scalar.isUndefined (y - t) = false) : Scalar.isUndefined y = false := by
  rw [isUndefined_eq] at h ⊢
  change (Float.Model.pack (UnpackedFloat.sub Format.binary64 y.toModel.unpack _)).unpack.isNaN = false at h
  cases hy : y.toModel.unpack with
  | notANumber =>
    have hsub : ∀ b, UnpackedFloat.sub Format.binary64 .notANumber b = .notANumber := fun b => by cases b <;> rfl
    rw [hy, hsub] at h
    contradiction
  | _ => rfl

theorem unpack_of_undefined {x : Float} (h : Scalar.isUndefined x = true) : x.toModel.unpack = .notANumber := by
  rw [isUndefined_eq] at h
  cases hx : x.toModel.unpack with
  | notANumber => rfl
  | _ =>
    rw [hx] at h
    contradiction

theorem undefined_add (x : Float) {y : Float} (h : Scalar.isUndefined y = true) : Scalar.isUndefined (x + y) = true := by
  have hadd : ∀ a, UnpackedFloat.add Format.binary64 a .notANumber = .notANumber := fun a => by cases a <;> rfl
  rw [isUndefined_eq]
  change (Float.Model.pack (UnpackedFloat.add Format.binary64 x.toModel.unpack y.toModel.unpack)).unpack.isNaN = true
  rw [unpack_of_undefined h, hadd, unpack_pack_notANumber]
  rfl

theorem undefined_mul (x : Float) {y : Float} (h : Scalar.isUndefined y = true) : Scalar.isUndefined (x * y) = true := by
  have hmul : ∀ a, UnpackedFloat.mul Format.binary64 a .notANumber = .notANumber := fun a => by cases a <;> rfl
  rw [isUndefined_eq]
  change (Float.Model.pack (UnpackedFloat.mul Format.binary64 x.toModel.unpack y.toModel.unpack)).unpack.isNaN = true
  rw [unpack_of_undefined h, hmul, unpack_pack_notANumber]
  rfl

/-- What is below the difference with a positive double is below the double. -/
theorem lt_of_lt_sub {x y t : Float} (ht : 0 < t) (h : x < y - t) : x < y := by
  obtain ⟨hx, hdifference⟩ := defined_of_lt h
  obtain ⟨hzero, ht'⟩ := defined_of_lt ht
  have hy := defined_of_sub hdifference
  rw [lt_iff hx hdifference] at h
  rw [lt_iff hzero ht'] at ht
  rw [lt_iff hx hy]
  exact h.trans_le (level_sub_le (canonical_unpack _) (canonical_unpack _) ht)

end PayoffPricing.Double
