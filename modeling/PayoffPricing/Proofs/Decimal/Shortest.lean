import PayoffPricing.Decimal.Shortest
import PayoffPricing.Proofs.Double.Reading
/-!
The shortest decimal of a double is nearest to this double. The range of a double is where numbers are nearest to it,
and a grid of seventeen digits is fine enough to meet every range.
-/

namespace PayoffPricing

open Double

namespace Ratio

def value (a : Ratio) : ℚ := a.num / a.den

variable {a b : Ratio}

theorem le_iff (ha : 0 < a.den) (hb : 0 < b.den) : a.le b = true ↔ a.value ≤ b.value := by
  have ha' : (0 : ℚ) < a.den := by exact_mod_cast ha
  have hb' : (0 : ℚ) < b.den := by exact_mod_cast hb
  rw [value, value, div_le_div_iff₀ ha' hb', le, decide_eq_true_iff]
  exact_mod_cast Iff.rfl

theorem lt_iff (ha : 0 < a.den) (hb : 0 < b.den) : a.lt b = true ↔ a.value < b.value := by
  have ha' : (0 : ℚ) < a.den := by exact_mod_cast ha
  have hb' : (0 : ℚ) < b.den := by exact_mod_cast hb
  rw [value, value, div_lt_div_iff₀ ha' hb', lt, decide_eq_true_iff]
  exact_mod_cast Iff.rfl

section Scaled

variable (n : ℕ) {base : ℕ} (hbase : 0 < base) (e : ℤ)

include hbase

theorem den_scaled_pos : 0 < (scaled n base e).den := by
  unfold scaled
  split
  · exact Nat.pow_pos hbase
  · exact Nat.one_pos

theorem value_scaled : (scaled n base e).value = n * (base : ℚ) ^ e := by
  have hbase' : (base : ℚ) ≠ 0 := by exact_mod_cast hbase.ne'
  unfold scaled value
  split
  · next h =>
    obtain ⟨k, rfl⟩ : ∃ k : ℕ, e = -k := ⟨e.natAbs, by omega⟩
    simp [div_eq_mul_inv]
  · next h =>
    obtain ⟨k, rfl⟩ : ∃ k : ℕ, e = k := ⟨e.natAbs, by omega⟩
    simp

end Scaled

theorem length_scaled {n : ℕ} (hn : 0 < n) (e : ℤ) :
    ((scaled n 2 e).num.log2 : ℤ) - (scaled n 2 e).den.log2 = n.log2 + e := by
  unfold scaled
  split
  · next h =>
    change (n.log2 : ℤ) - (2 ^ e.natAbs).log2 = _
    rw [Nat.log2_two_pow]
    omega
  · next h =>
    change ((n * 2 ^ e.natAbs).log2 : ℤ) - (1 : ℕ).log2 = _
    rw [log2_mul_two_pow hn, show Nat.log2 1 = 0 from rfl, Nat.cast_add]
    omega

theorem num_scaled_pos {n base : ℕ} (hn : 0 < n) (hbase : 0 < base) (e : ℤ) : 0 < (scaled n base e).num := by
  unfold scaled
  split
  · exact hn
  · exact Nat.mul_pos hn (Nat.pow_pos hbase)

theorem floorDiv_bounds (ha : 0 < a.den) (hb : 0 < b.den) (hn : 0 < b.num) :
    (a.floorDiv b : ℚ) * b.value ≤ a.value ∧ a.value < (a.floorDiv b + 1 : ℕ) * b.value := by
  have hb' : (0 : ℚ) < b.value := div_pos (by exact_mod_cast hn) (by exact_mod_cast hb)
  have hquotient : a.value / b.value = (a.num * b.den : ℕ) / (a.den * b.num : ℕ) := by
    unfold value
    push_cast
    rw [div_div_div_eq]
  have hden : (0 : ℚ) < (a.den * b.num : ℕ) := by exact_mod_cast Nat.mul_pos ha hn
  rw [← le_div_iff₀ hb', ← div_lt_iff₀ hb', hquotient, le_div_iff₀ hden, div_lt_iff₀ hden]
  constructor
  · exact_mod_cast Nat.div_mul_le_self _ _
  · exact_mod_cast Nat.lt_mul_of_div_lt (Nat.lt_succ_self _) (Nat.mul_pos ha hn)

section DecimalExponent

/-- Three powers of ten are below ten powers of two, and 28 of them above 93. -/
theorem ten_zpow_le_two_zpow {x y : ℤ} (hpos : 0 ≤ x → 10 * x ≤ 3 * y) (hneg : x < 0 → 0 ≤ y ∨ 93 * x ≤ 28 * y) :
    (10 : ℚ) ^ x ≤ 2 ^ y := by
  by_cases hx : 0 ≤ x
  · obtain ⟨k, rfl⟩ := Int.eq_ofNat_of_zero_le hx
    have hky := hpos hx
    obtain ⟨l, rfl⟩ := Int.eq_ofNat_of_zero_le (show 0 ≤ y by omega)
    rw [zpow_natCast, zpow_natCast, ← pow_le_pow_iff_left₀ (by positivity) (by positivity) (show 3 ≠ 0 by decide)]
    calc ((10 : ℚ) ^ k) ^ 3 = (10 ^ 3) ^ k := by rw [← pow_mul, ← pow_mul, mul_comm]
      _ ≤ (2 ^ 10) ^ k := pow_le_pow_left₀ (by norm_num) (by norm_num) k
      _ = 2 ^ (10 * k) := (pow_mul _ _ _).symm
      _ ≤ 2 ^ (l * 3) := pow_le_pow_right₀ (by norm_num) (by omega)
      _ = (2 ^ l) ^ 3 := pow_mul _ _ _
  · obtain ⟨k, hk⟩ := Int.eq_ofNat_of_zero_le (show 0 ≤ -x by omega)
    obtain rfl : x = -k := by omega
    rcases hneg (by omega) with hy | hky
    · calc (10 : ℚ) ^ (-(k : ℤ)) ≤ 1 := zpow_le_one_of_nonpos₀ (by norm_num) (by omega)
        _ ≤ 2 ^ y := one_le_zpow₀ (by norm_num) hy
    · by_cases hy : 0 ≤ y
      · calc (10 : ℚ) ^ (-(k : ℤ)) ≤ 1 := zpow_le_one_of_nonpos₀ (by norm_num) (by omega)
          _ ≤ 2 ^ y := one_le_zpow₀ (by norm_num) hy
      obtain ⟨l, hl⟩ := Int.eq_ofNat_of_zero_le (show 0 ≤ -y by omega)
      obtain rfl : y = -l := by omega
      rw [zpow_neg, zpow_neg, zpow_natCast, zpow_natCast]
      refine inv_anti₀ (by positivity) ?_
      rw [← pow_le_pow_iff_left₀ (by positivity) (by positivity) (show 28 ≠ 0 by decide)]
      calc ((2 : ℚ) ^ l) ^ 28 = 2 ^ (l * 28) := (pow_mul _ _ _).symm
        _ ≤ 2 ^ (93 * k) := pow_le_pow_right₀ (by norm_num) (by omega)
        _ = (2 ^ 93) ^ k := pow_mul _ _ _
        _ ≤ (10 ^ 28) ^ k := pow_le_pow_left₀ (by norm_num) (by norm_num) k
        _ = (10 ^ k) ^ 28 := by rw [← pow_mul, ← pow_mul, mul_comm]

/-- The decimal exponent is at most one above what powers of ten are below the number. -/
theorem ten_zpow_decimalExponent_le (hn : 0 < a.num) (hd : 0 < a.den)
    (hsize : (a.num.log2 : ℤ) - a.den.log2 ≤ 1600 ∧ -1600 ≤ (a.num.log2 : ℤ) - a.den.log2) :
    (10 : ℚ) ^ (a.decimalExponent - 1) ≤ a.value := by
  generalize hlength : (a.num.log2 : ℤ) - a.den.log2 = length at hsize
  have hd' : (0 : ℚ) < a.den := by exact_mod_cast hd
  have hvalue : (2 : ℚ) ^ (length - 1) ≤ a.value := by
    have hnum : (2 : ℚ) ^ a.num.log2 ≤ a.num := by exact_mod_cast Nat.log2_self_le hn.ne'
    have hden : (a.den : ℚ) ≤ 2 ^ (a.den.log2 + 1) := by exact_mod_cast Nat.lt_log2_self.le
    rw [value, le_div_iff₀ hd']
    calc (2 : ℚ) ^ (length - 1) * a.den ≤ 2 ^ (length - 1) * 2 ^ (a.den.log2 + 1) := by gcongr
      _ = 2 ^ a.num.log2 := by
        rw [← zpow_natCast, ← zpow_natCast, ← zpow_add₀ two_ne_zero]
        congr 1
        push_cast
        omega
      _ ≤ a.num := hnum
  have hfails {k : ℤ} (h : a.lt (scaled 1 10 k) = false) : (10 : ℚ) ^ k ≤ a.value := by
    rw [← Bool.not_eq_true, lt_iff hd (den_scaled_pos 1 (by decide) k), value_scaled 1 (by decide), not_lt] at h
    simpa using h
  have hbase : (10 : ℚ) ^ (length * 30103 / 100000 - 2) ≤ a.value :=
    (ten_zpow_le_two_zpow (by omega) (by omega)).trans hvalue
  have hstep {j k : ℤ} (h : (10 : ℚ) ^ j ≤ a.value) (hjk : k - 1 = j) : (10 : ℚ) ^ (k - 1) ≤ a.value := hjk ▸ h
  unfold decimalExponent
  simp only [Int.ofNat_eq_natCast, hlength, List.map_cons, List.map_nil, List.find?_cons, List.find?_nil]
  generalize length * 30103 / 100000 = estimate at hbase ⊢
  -- Below the first candidate that is large enough is one that is not.
  split
  · exact hstep hbase (by simp only [Option.getD_some]; omega)
  next h₁ =>
  split
  · exact hstep (hfails h₁) (by simp only [Option.getD_some]; omega)
  next h₂ =>
  split
  · exact hstep (hfails h₂) (by simp only [Option.getD_some]; omega)
  next h₃ =>
  split
  · exact hstep (hfails h₃) (by simp only [Option.getD_some]; omega)
  next h₄ => exact hstep (hfails h₄) (by simp only [Option.getD_none]; omega)

end DecimalExponent

end Ratio

namespace RoundingRange

section Doubles

variable {bits : ℕ}

/-- Quarters of a unit from a double to the lower end of its range: the double below a power of two is nearer. -/
def below (bits : ℕ) : ℕ := if bits % 2 ^ 52 = 0 ∧ 1 < bits / 2 ^ 52 then 1 else 2

theorem ofBits_eq (hfinite : bits < infinityBits) :
    ofBits bits = ⟨.scaled (4 * mantissa bits - below bits) 2 (excess bits - 1076),
      .scaled (4 * mantissa bits) 2 (excess bits - 1076), .scaled (4 * mantissa bits + 2) 2 (excess bits - 1076),
      mantissa bits % 2 == 0⟩ := by
  have hfractions : Binary64.fractions = 2 ^ 52 := rfl
  have hfield : bits / 2 ^ 52 % Binary64.exponents = bits / 2 ^ 52 := by
    unfold infinityBits at hfinite
    change bits / 2 ^ 52 % 2 ^ 11 = bits / 2 ^ 52
    omega
  have hexponent :
      (if bits / 2 ^ 52 = 0 then 1 else Int.ofNat (bits / 2 ^ 52)) - 1075 - 2 = (excess bits : ℤ) - 1076 := by
    unfold excess
    split
    · omega
    · simp only [Int.ofNat_eq_natCast]
      omega
  have hbelow : (if (bits % 2 ^ 52 = 0 && bits / 2 ^ 52 > 1) = true then 1 else 2) = below bits := by
    simp [below]
  unfold ofBits
  simp only [hfractions, hfield, hexponent, hbelow]
  rfl

theorem below_mul (hpos : 0 < bits) : below bits * 2 ^ excess bits = 2 * 2 ^ excess (bits - 1) := by
  unfold below
  split
  · next h =>
    have hexcess : excess bits = excess (bits - 1) + 1 := by
      unfold excess
      omega
    rw [hexcess, pow_succ, one_mul, mul_comm]
  · next h =>
    have hexcess : excess bits = excess (bits - 1) := by
      unfold excess
      omega
    rw [hexcess]

theorem below_le (bits : ℕ) : below bits ≤ 2 := by
  unfold below
  split <;> decide

theorem mantissa_lt (bits : ℕ) : mantissa bits < 2 ^ 53 := by
  unfold mantissa
  split <;> omega

/-- A mantissa has at most sixteen digits, and a power of two, whose range is narrower, is far below. -/
theorem mantissa_coarse (bits : ℕ) : 4 * mantissa bits < (2 + below bits) * 10 ^ 16 := by
  unfold below
  split
  · next h =>
    have hpower : mantissa bits = 2 ^ 52 := by
      unfold mantissa
      split <;> omega
    rw [hpower]
    decide
  · have := mantissa_lt bits
    omega

theorem worth_eq_pred (hpos : 0 < bits) : worth bits = worth (bits - 1) + 2 ^ excess (bits - 1) := by
  rw [← worth_succ, Nat.sub_add_cancel hpos]

theorem mantissa_pos (hpos : 0 < bits) : 0 < mantissa bits :=
  Nat.pos_of_mul_pos_right (worth_zero ▸ strictMono_worth hpos : 0 < mantissa bits * 2 ^ excess bits)

theorem value_quarters (n bits : ℕ) :
    (Ratio.scaled n 2 (excess bits - 1076)).value * oneCount = n * 2 ^ excess bits / 4 := by
  have hunits : (2 : ℚ) ^ ((excess bits : ℤ) - 1076) * oneCount * 4 = 2 ^ excess bits := by
    rw [← two_zpow_add, show (excess bits : ℤ) - 1076 + 1074 = excess bits - 2 by omega, zpow_sub₀ two_ne_zero,
      zpow_natCast]
    norm_num
  rw [Ratio.value_scaled n (by decide), ← hunits]
  push_cast
  ring

section Ends

variable (hpos : 0 < bits) (hfinite : bits < infinityBits)

include hfinite

theorem value_mid : (ofBits bits).mid.value * oneCount = worth bits := by
  rw [ofBits_eq hfinite, value_quarters, worth]
  push_cast
  ring

theorem value_high : 2 * ((ofBits bits).high.value * oneCount) = worth bits + worth (bits + 1) := by
  rw [ofBits_eq hfinite, value_quarters, worth_succ, worth]
  push_cast
  ring

include hpos

theorem value_low : 2 * ((ofBits bits).low.value * oneCount) = worth (bits - 1) + worth bits := by
  have hsum := worth_eq_pred hpos
  have hbelow : (below bits * 2 ^ excess bits : ℚ) = 2 * 2 ^ excess (bits - 1) := by exact_mod_cast below_mul hpos
  have hworth : (mantissa bits * 2 ^ excess bits : ℚ) = worth (bits - 1) + 2 ^ excess (bits - 1) := by
    exact_mod_cast hsum
  have hle : below bits ≤ 4 * mantissa bits := by
    have := below_le bits
    have := mantissa_pos hpos
    omega
  rw [ofBits_eq hfinite, value_quarters, Nat.cast_sub hle, hsum]
  push_cast
  linarith

/-- The range of a double is where numbers are nearest to it. -/
theorem contains_iff {a : Ratio} (ha : 0 < a.den) :
    (ofBits bits).contains a = true ↔ Nearest (a.value * oneCount) bits := by
  have hone := oneCount_pos
  have hlow := value_low hpos hfinite
  have hhigh := value_high hfinite
  have hclosed : (ofBits bits).closed = (bits % 2 == 0) := by
    have hparity : mantissa bits % 2 = bits % 2 := by
      unfold mantissa
      split <;> omega
    rw [ofBits_eq hfinite, ← hparity]
  have hdens : 0 < (ofBits bits).low.den ∧ 0 < (ofBits bits).high.den := by
    rw [ofBits_eq hfinite]
    exact ⟨Ratio.den_scaled_pos _ (by decide) _, Ratio.den_scaled_pos _ (by decide) _⟩
  have hle (x y : ℚ) : x ≤ y ↔ 2 * (x * oneCount) ≤ 2 * (y * oneCount) := by
    rw [mul_le_mul_iff_right₀ two_pos, mul_le_mul_iff_left₀ hone]
  have hlt (x y : ℚ) : x < y ↔ 2 * (x * oneCount) < 2 * (y * oneCount) := by
    rw [mul_lt_mul_iff_right₀ two_pos, mul_lt_mul_iff_left₀ hone]
  unfold contains
  rw [hclosed]
  -- The ends are midpoints between doubles: they belong to the range where a tie goes to this double.
  by_cases heven : bits % 2 = 0
  · rw [if_pos (beq_iff_eq.2 heven), Bool.and_eq_true, Ratio.le_iff hdens.1 ha, Ratio.le_iff ha hdens.2,
      hle (ofBits bits).low.value, hle a.value, hlow, hhigh]
    exact ⟨fun h => ⟨h.1, h.2, fun _ => heven, fun _ => heven⟩, fun h => ⟨h.low, h.high⟩⟩
  · rw [if_neg (by simpa using heven), Bool.and_eq_true, Ratio.lt_iff hdens.1 ha, Ratio.lt_iff ha hdens.2,
      hlt (ofBits bits).low.value, hlt a.value, hlow, hhigh]
    refine ⟨fun h => ⟨h.1.le, h.2.le, fun heq => absurd heq h.1.ne, fun heq => absurd heq h.2.ne⟩, fun h => ⟨?_, ?_⟩⟩
    · exact lt_of_le_of_ne h.low fun heq => heven (h.even_of_low heq)
    · exact lt_of_le_of_ne h.high fun heq => heven (h.even_of_high heq)

theorem contains_grid_iff {d : ℕ} {e : ℤ} :
    (ofBits bits).contains (.scaled d 10 e) = true ↔ Nearest (decimalCount d e) bits := by
  rw [contains_iff hpos hfinite (Ratio.den_scaled_pos d (by decide) e), Ratio.value_scaled d (by decide)]
  rfl

omit hpos in
/-- The middle of the range is between two neighbours of a grid. -/
theorem grid_bounds (e : ℤ) :
    decimalCount ((ofBits bits).mid.floorDiv (.scaled 1 10 e)) e ≤ worth bits ∧
      worth bits < decimalCount ((ofBits bits).mid.floorDiv (.scaled 1 10 e) + 1) e := by
  have hmid : 0 < (ofBits bits).mid.den := by
    rw [ofBits_eq hfinite]
    exact Ratio.den_scaled_pos _ (by decide) _
  have hstep : (Ratio.scaled 1 10 e).value = 10 ^ e := by
    rw [Ratio.value_scaled 1 (by decide)]
    simp
  obtain ⟨hfloor, hceil⟩ := Ratio.floorDiv_bounds hmid (Ratio.den_scaled_pos 1 (show 0 < 10 by decide) e)
    (Ratio.num_scaled_pos Nat.one_pos (by decide) e)
  rw [hstep] at hfloor hceil
  rw [← value_mid hfinite]
  exact ⟨mul_le_mul_of_nonneg_right hfloor oneCount_pos.le, mul_lt_mul_of_pos_right hceil oneCount_pos⟩

/-- A grid that is finer than the range meets it: of the two points around the middle, one is inside. -/
theorem exists_onGrid {e : ℤ} (tie : Tie)
    (hfine : 2 * decimalCount 1 e < (worth (bits + 1) : ℚ) - worth (bits - 1)) :
    ∃ d, (ofBits bits).onGrid tie e = some d := by
  obtain ⟨hbelow, habove⟩ := grid_bounds hfinite e
  unfold onGrid
  dsimp only
  generalize (ofBits bits).mid.floorDiv (.scaled 1 10 e) = d at hbelow habove
  have hprevious : (worth (bits - 1) : ℚ) < worth bits := by exact_mod_cast strictMono_worth (by omega)
  have hnext : (worth bits : ℚ) < worth (bits + 1) := by exact_mod_cast strictMono_worth (Nat.lt_succ_self _)
  have hstep : decimalCount (d + 1) e = decimalCount d e + decimalCount 1 e := by
    unfold decimalCount
    push_cast
    ring
  have heither : Nearest (decimalCount d e) bits ∨ Nearest (decimalCount (d + 1) e) bits := by
    by_cases hlow : (worth (bits - 1) + worth bits : ℚ) < 2 * decimalCount d e
    · exact .inl (nearest_of_between hlow (by linarith))
    · exact .inr (nearest_of_between (by linarith) (by linarith))
  rw [← contains_grid_iff hpos hfinite, ← contains_grid_iff hpos hfinite] at heither
  rcases heither with h | h <;> rw [h]
  · cases (ofBits bits).contains (.scaled (d + 1) 10 e) <;> exact ⟨_, rfl⟩
  · cases (ofBits bits).contains (.scaled d 10 e) <;> exact ⟨_, rfl⟩

theorem seventeen_le : decimalCount 1 ((ofBits bits).mid.decimalExponent - 17) * 10 ^ 16 ≤
    mantissa bits * 2 ^ excess bits := by
  have hm := mantissa_pos hpos
  have hexponent : (10 : ℚ) ^ ((ofBits bits).mid.decimalExponent - 1) ≤ (ofBits bits).mid.value := by
    rw [ofBits_eq hfinite]
    have hsmall := mantissa_lt bits
    have hlog : (4 * mantissa bits).log2 < 55 := (Nat.log2_lt (by omega)).2 (by omega)
    have hexcess : excess bits ≤ 2045 := by
      unfold infinityBits at hfinite
      unfold excess
      omega
    refine Ratio.ten_zpow_decimalExponent_le (Ratio.num_scaled_pos (by omega) (by decide) _)
      (Ratio.den_scaled_pos _ (by decide) _) ?_
    rw [Ratio.length_scaled (by omega)]
    omega
  have hplaces : (10 : ℚ) ^ ((ofBits bits).mid.decimalExponent - 17) * 10 ^ 16 =
      10 ^ ((ofBits bits).mid.decimalExponent - 1) := by
    rw [← zpow_natCast (10 : ℚ) 16, ← zpow_add₀ (by norm_num)]
    congr 1
    push_cast
    omega
  calc decimalCount 1 ((ofBits bits).mid.decimalExponent - 17) * 10 ^ 16
      = 10 ^ ((ofBits bits).mid.decimalExponent - 1) * oneCount := by
        rw [← hplaces, decimalCount, Nat.cast_one]
        ring
    _ ≤ (ofBits bits).mid.value * oneCount := mul_le_mul_of_nonneg_right hexponent oneCount_pos.le
    _ = mantissa bits * 2 ^ excess bits := by rw [value_mid hfinite, worth]; push_cast; rfl

/-- Seventeen digits are always enough. -/
theorem exists_onGrid_seventeen (tie : Tie) :
    ∃ d, (ofBits bits).onGrid tie ((ofBits bits).mid.decimalExponent - 17) = some d := by
  have hgrid := seventeen_le hpos hfinite
  have hgap : (worth (bits + 1) : ℚ) - worth (bits - 1) = 2 ^ excess bits + 2 ^ excess (bits - 1) := by
    rw [worth_succ, worth_eq_pred hpos]
    push_cast
    ring
  have hbelow : (below bits * 2 ^ excess bits : ℚ) = 2 * 2 ^ excess (bits - 1) := by exact_mod_cast below_mul hpos
  have hcoarse : (4 * mantissa bits : ℚ) < (2 + below bits) * 10 ^ 16 := by exact_mod_cast mantissa_coarse bits
  have hunits := mul_lt_mul_of_pos_right hcoarse (show (0 : ℚ) < 2 ^ excess bits by positivity)
  refine exists_onGrid hpos hfinite tie ?_
  rw [hgap]
  linarith

end Ends

end Doubles

theorem contains_of_onGrid {r : RoundingRange} {tie : Tie} {e : ℤ} {d : ℕ} (h : r.onGrid tie e = some d) :
    r.contains (.scaled d 10 e) = true := by
  simp only [onGrid] at h
  split at h
  · cases h
  · next hlower _ => exact Option.some.inj h ▸ hlower
  · next _ hupper => exact Option.some.inj h ▸ hupper
  · next hlower hupper =>
    obtain rfl := Option.some.inj h
    split
    · exact hlower
    · exact hupper

end RoundingRange

namespace Decimal

/-- Trailing zeros move into the exponent. -/
theorem decimalCount_trim (digits : ℕ) (exponent : ℤ) :
    decimalCount (trim digits exponent).digits (trim digits exponent).exponent = decimalCount digits exponent := by
  fun_induction trim digits exponent with
  | case1 digits exponent h ih =>
    have hten : ((digits / 10 : ℕ) : ℚ) * 10 = digits := by
      exact_mod_cast Nat.div_mul_cancel (Nat.dvd_of_mod_eq_zero h.2)
    rw [ih, decimalCount, decimalCount, zpow_add_one₀ (by norm_num), mul_comm ((10 : ℚ) ^ exponent), ← mul_assoc, hten]
  | case2 => rfl

variable {bits : ℕ}

/-- The double is the one that is nearest to its shortest decimal. -/
theorem nearest_ofRange (hpos : 0 < bits) (hfinite : bits < infinityBits) (tie : Tie) :
    Nearest (decimalCount (ofRange tie (.ofBits bits)).digits (ofRange tie (.ofBits bits)).exponent) bits := by
  unfold ofRange
  dsimp only
  generalize hfound : List.findSome? _ (List.range 18) = found
  cases found with
  | none =>
    obtain ⟨d, hd⟩ := RoundingRange.exists_onGrid_seventeen hpos hfinite tie
    have hnone := List.findSome?_eq_none_iff.1 hfound 17 (by decide)
    rw [Option.map_eq_none_iff] at hnone
    exact absurd (hnone.symm.trans hd) (by simp)
  | some decimal =>
    obtain ⟨n, -, hn⟩ := List.exists_of_findSome?_eq_some hfound
    obtain ⟨d, hd, rfl⟩ := Option.map_eq_some_iff.1 hn
    rw [Option.getD_some, decimalCount_trim]
    exact (RoundingRange.contains_grid_iff hpos hfinite).1 (RoundingRange.contains_of_onGrid hd)

end Decimal

end PayoffPricing
