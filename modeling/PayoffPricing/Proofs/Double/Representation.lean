import PayoffPricing.Proofs.Double.Order
/-!
The representations of doubles, read as whole numbers. On either side of zero the next representation is that of the
next double, so that sorting by representation sorts by value.
-/

namespace PayoffPricing.Double

open Float.Model Float.Model.UnpackedFloat

/-- The mantissa that a representation without its sign stands for. -/
def mantissa (bits : ℕ) : ℕ := if bits / 2 ^ 52 = 0 then bits % 2 ^ 52 else 2 ^ 52 + bits % 2 ^ 52

/-- How far the exponent of a representation without its sign is above the least one. -/
def excess (bits : ℕ) : ℕ := bits / 2 ^ 52 - 1

/-- What a representation without its sign stands for, in units of the least positive double. -/
def worth (bits : ℕ) : ℕ := mantissa bits * 2 ^ excess bits

theorem worth_zero : worth 0 = 0 := rfl

/-- From one representation to the next it is a unit of the exponent. -/
theorem worth_succ (bits : ℕ) : worth (bits + 1) = worth bits + 2 ^ excess bits := by
  by_cases hcarry : bits % 2 ^ 52 + 1 = 2 ^ 52
  · have hfield : (bits + 1) / 2 ^ 52 = bits / 2 ^ 52 + 1 := by omega
    have hmantissa : mantissa (bits + 1) = 2 ^ 52 := by
      rw [mantissa, hfield, if_neg (by omega)]
      omega
    by_cases hfirst : bits / 2 ^ 52 = 0
    · rw [worth, worth, hmantissa, mantissa, if_pos hfirst, excess, excess, hfield, hfirst]
      omega
    · obtain ⟨k, hk⟩ := Nat.exists_eq_succ_of_ne_zero hfirst
      have hlast : mantissa bits + 1 = 2 ^ 53 := by
        rw [mantissa, if_neg hfirst]
        omega
      have hstep : excess (bits + 1) = excess bits + 1 := by
        rw [excess, excess, hfield]
        omega
      calc worth (bits + 1) = 2 ^ 52 * 2 ^ (excess bits + 1) := by rw [worth, hmantissa, hstep]
        _ = 2 ^ 53 * 2 ^ excess bits := by rw [pow_succ]; ring
        _ = worth bits + 2 ^ excess bits := by rw [← hlast, add_mul, one_mul, worth]
  · have hfield : (bits + 1) / 2 ^ 52 = bits / 2 ^ 52 := by omega
    have hmantissa : mantissa (bits + 1) = mantissa bits + 1 := by
      simp only [mantissa, hfield]
      split <;> omega
    rw [worth, hmantissa, excess, hfield, add_mul, one_mul]
    rfl

theorem strictMono_worth : StrictMono worth := by
  refine strictMono_nat_of_lt_succ fun bits => ?_
  rw [worth_succ]
  exact Nat.lt_add_of_pos_right (Nat.two_pow_pos _)

/-- Infinity has all ones for its exponent. -/
def infinityBits : ℕ := 2047 * 2 ^ 52

theorem worth_infinityBits : worth infinityBits = limit := by
  have hexcess : excess infinityBits = exponents + 1 := by
    unfold exponents
    rfl
  rw [worth, hexcess, limit, pow_succ 2 exponents]
  change 2 ^ 52 * (2 ^ exponents * 2) = _
  ring

def signOf (bits : ℕ) : Sign := if bits < 2 ^ 63 then .positive else .negative

/-- The parts of a finite double, from its representation without the sign. -/
def finiteParts (s : Sign) (bits : ℕ) : UnpackedFloat :=
  if h : 0 < mantissa bits then .finite s (mantissa bits) (excess bits - 1074) h else .zero s

/-- The double with a representation, in its parts. -/
def unpacked (bits : ℕ) : UnpackedFloat :=
  if bits % 2 ^ 63 / 2 ^ 52 = 2047 then if bits % 2 ^ 52 = 0 then .infinity (signOf bits) else .notANumber
  else finiteParts (signOf bits) (bits % 2 ^ 63)

section Fields

variable (b : BitVec Format.binary64.numBits)

theorem toNat_unpackMantissa : (unpackMantissa b).toNat = b.toNat % 2 ^ 52 := by
  rw [unpackMantissa_def, BitVec.extractLsb'_toNat, Nat.shiftRight_zero]

theorem toNat_unpackExponent : (unpackExponent b).toNat = b.toNat / 2 ^ 52 % 2 ^ 11 := by
  rw [unpackExponent_def, BitVec.extractLsb'_toNat, Nat.shiftRight_eq_div_pow]

theorem ofBitVec_unpackSign : Sign.ofBitVec (unpackSign b) = signOf b.toNat := by
  have hlt : b.toNat < 2 ^ 64 := b.isLt
  have hsign : (unpackSign b).toNat = b.toNat / 2 ^ 63 % 2 := by
    rw [unpackSign_def, BitVec.extractLsb'_toNat, Nat.shiftRight_eq_div_pow]
    rfl
  unfold Sign.ofBitVec signOf
  by_cases hsmall : b.toNat < 2 ^ 63
  · rw [if_pos hsmall, if_pos]
    refine BitVec.eq_of_toNat_eq ?_
    change _ = 0
    omega
  · rw [if_neg hsmall, if_neg]
    intro hzero
    rw [hzero] at hsign
    change 0 = _ at hsign
    omega

theorem unpack_eq_unpacked : UnpackedFloat.unpack Format.binary64 b = unpacked b.toNat := by
  have hfraction := toNat_unpackMantissa b
  have hexponent := toNat_unpackExponent b
  have hbias : (Format.binary64.exponentBias : ℤ) = 1023 := rfl
  have hbits : (Format.binary64.mantissaBitsWithoutImplicit : ℤ) = 52 := rfl
  have hlt : b.toNat < 2 ^ 64 := b.isLt
  have hfield : b.toNat % 2 ^ 63 / 2 ^ 52 = (unpackExponent b).toNat := by omega
  have hrest : b.toNat % 2 ^ 63 % 2 ^ 52 = (unpackMantissa b).toNat := by omega
  have hall : unpackExponent b = -1#11 ↔ (unpackExponent b).toNat = 2047 := BitVec.toNat_inj.symm
  have hnone : unpackExponent b = 0#11 ↔ (unpackExponent b).toNat = 0 := BitVec.toNat_inj.symm
  have hempty : unpackMantissa b = 0#52 ↔ (unpackMantissa b).toNat = 0 := BitVec.toNat_inj.symm
  unfold UnpackedFloat.unpack unpacked finiteParts
  dsimp only
  rw [hbias, hbits, ofBitVec_unpackSign, hfield, ← hfraction]
  by_cases hlast : (unpackExponent b).toNat = 2047
  · rw [if_pos (hall.2 hlast), if_pos hlast]
    exact if_congr hempty rfl rfl
  rw [if_neg (mt hall.1 hlast), if_neg hlast]
  by_cases hfirst : (unpackExponent b).toNat = 0
  · have hmantissa : mantissa (b.toNat % 2 ^ 63) = (unpackMantissa b).toNat := by
      rw [mantissa, hfield, if_pos hfirst, hrest]
    have hexcess : excess (b.toNat % 2 ^ 63) = 0 := by
      rw [excess, hfield, hfirst]
    rw [if_pos (hnone.2 hfirst)]
    by_cases hzero : (unpackMantissa b).toNat = 0
    · rw [dif_pos (hempty.2 hzero), dif_neg (by omega)]
    · rw [dif_neg (mt hempty.1 hzero), dif_pos (by omega)]
      simp only [finite.injEq, true_and, hmantissa, hexcess, hfirst]
      omega
  · have hmantissa : mantissa (b.toNat % 2 ^ 63) = (1#1 ++ unpackMantissa b).toNat := by
      rw [toNat_one_append, mantissa, hfield, if_neg hfirst, hrest]
    rw [if_neg (mt hnone.1 hfirst), dif_pos (by rw [hmantissa, toNat_one_append]; omega)]
    simp only [finite.injEq, true_and, hmantissa, excess, hfield]
    omega

end Fields

def bits (x : Float) : ℕ := x.toBits.toNat

variable {x y : Float}

theorem bits_lt (x : Float) : bits x < 2 ^ 64 := x.toBits.toBitVec.isLt

theorem unpack_toModel (x : Float) : x.toModel.unpack = unpacked (bits x) :=
  unpack_eq_unpacked x.toModel.toBits.toBitVec

theorem level_finiteParts (s : Sign) (bits : ℕ) : level (finiteParts s bits) = s.apply (worth bits) := by
  unfold finiteParts
  by_cases hpos : 0 < mantissa bits
  · have hexponent : ((excess bits : ℤ) - 1074 + 1074).toNat = excess bits := by omega
    rw [dif_pos hpos]
    simp only [level, magnitude, hexponent]
    rfl
  · have hworth : worth bits = 0 := by rw [worth, Nat.eq_zero_of_not_pos hpos, zero_mul]
    rw [dif_neg hpos, hworth]
    cases s <;> rfl

/-- A double that is not undefined is what its representation is worth, with its sign. -/
theorem level_unpacked {bits : ℕ} (h : unpacked bits ≠ .notANumber) :
    level (unpacked bits) = (signOf bits).apply (worth (bits % 2 ^ 63)) := by
  unfold unpacked at h ⊢
  by_cases hlast : bits % 2 ^ 63 / 2 ^ 52 = 2047
  · rw [if_pos hlast] at h ⊢
    by_cases hempty : bits % 2 ^ 52 = 0
    · have hbits : bits % 2 ^ 63 = infinityBits := by
        unfold infinityBits
        omega
      rw [if_pos hempty, hbits, worth_infinityBits]
      rfl
    · rw [if_neg hempty] at h
      exact absurd rfl h
  · rw [if_neg hlast, level_finiteParts]

theorem unpacked_ne_of_defined (h : Scalar.isUndefined x = false) : unpacked (bits x) ≠ .notANumber := by
  rw [isUndefined_eq, unpack_toModel] at h
  intro hnot
  rw [hnot] at h
  contradiction

/-- A defined double counts what its representation without the sign is worth, in the direction of its sign. -/
theorem count_eq (h : Scalar.isUndefined x = false) :
    count x = (signOf (bits x)).apply (worth (bits x % 2 ^ 63)) := by
  rw [count, unpack_toModel, level_unpacked (unpacked_ne_of_defined h)]

theorem rank_eq (x : Float) :
    rank x = if bits x < 2 ^ 63 then (bits x : ℤ) else -1 - (bits x - 2 ^ 63 : ℕ) := by
  have hrank : rank x = if bits x < 2 ^ 63 then (bits x : ℤ) else 2 ^ 63 - 1 - (bits x : ℤ) := rfl
  rw [hrank]
  split <;> omega

/-- Where one representation stands before another one, the double is not above the other. -/
theorem count_le_of_precedes (hx : Scalar.isUndefined x = false) (hy : Scalar.isUndefined y = false)
    (h : Scalar.precedes x y = true) : count x ≤ count y := by
  have hrank : rank x ≤ rank y := of_decide_eq_true h
  have hmono {m n : ℕ} (hle : m ≤ n) : (worth m : ℤ) ≤ worth n := by
    exact_mod_cast strictMono_worth.monotone hle
  rw [rank_eq, rank_eq] at hrank
  rw [count_eq hx, count_eq hy]
  unfold signOf
  split_ifs at hrank ⊢ with hsx hsy hsy
  · change (worth (bits x % 2 ^ 63) : ℤ) ≤ worth (bits y % 2 ^ 63)
    exact hmono (by omega)
  · omega
  · change -(worth (bits x % 2 ^ 63) : ℤ) ≤ worth (bits y % 2 ^ 63)
    omega
  · change -(worth (bits x % 2 ^ 63) : ℤ) ≤ -(worth (bits y % 2 ^ 63) : ℤ)
    have hltx := bits_lt x
    have hlty := bits_lt y
    exact neg_le_neg (hmono (by omega))

theorem precedes_total (x y : Float) : (Scalar.precedes x y || Scalar.precedes y x) = true := by
  change (decide (rank x ≤ rank y) || decide (rank y ≤ rank x)) = true
  simp [Int.le_total]

theorem precedes_trans {x y z : Float} (hxy : Scalar.precedes x y = true) (hyz : Scalar.precedes y z = true) :
    Scalar.precedes x z = true :=
  decide_eq_true ((of_decide_eq_true hxy : rank x ≤ rank y).trans (of_decide_eq_true hyz))

/-- Doubles are equal when they count alike, as the two zeros do. -/
theorem beq_iff (hx : Scalar.isUndefined x = false) (hy : Scalar.isUndefined y = false) :
    (x == y) = true ↔ count x = count y := by
  rw [isUndefined_eq] at hx hy
  have hbeq : (x == y) = (x.toModel.unpack.compare y.toModel.unpack == some .eq) := rfl
  rw [hbeq, compare_count hx hy, beq_iff_eq, Option.some.injEq, compare_eq_iff_eq]

theorem defined_of_isFinite (h : Scalar.isFinite x = true) : Scalar.isUndefined x = false := by
  rw [isUndefined_eq]
  change x.toModel.unpack.isFinite = true at h
  cases hx : x.toModel.unpack with
  | notANumber =>
    rw [hx] at h
    contradiction
  | _ => rfl

end PayoffPricing.Double
