import PayoffPricing.Decimal.Format
import PayoffPricing.Proofs.Decimal.Numeral
import PayoffPricing.Proofs.Decimal.Shortest
/-!
Reading back what is written. The positional text of a decimal is a number for the reader, to its end; of a double it is
read as this double.
-/

namespace PayoffPricing

open Double

namespace Decimal

section Positional

variable {R : Type} [Scalar R]

theorem toList_text (d : Decimal) : d.text.toList = Nat.toDigits 10 d.digits := Nat.toList_repr

theorem isDigit_of_mem_text {d : Decimal} {c : Char} (hc : c ∈ d.text.toList) : Numeral.isDigit c = true :=
  Numeral.isDigit_of_mem_toDigits (d.toList_text ▸ hc)

theorem value_text (d : Decimal) : Numeral.value d.text.toList = d.digits := by
  rw [toList_text, Numeral.value_toDigits]

/-- Digits with a point among them are read with as many places as there are behind the point. -/
theorem leading?_pointed {digits : String} (hdigits : ∀ c ∈ digits.toList, Numeral.isDigit c = true) {places : ℕ}
    (hplaces : places ≠ 0) :
    (Numeral.leading? (pointed digits places).toList : Option (R × ℕ)) =
      some (Scalar.ofDecimal (Numeral.value digits.toList) (-places), (pointed digits places).toList.length) := by
  unfold pointed
  rw [if_neg hplaces]
  generalize hall : List.replicate (places + 1 - digits.toList.length) '0' ++ digits.toList = all
  have hvalue : Numeral.value all = Numeral.value digits.toList := by rw [← hall, Numeral.value_zeros_append]
  have hlength : places + 1 ≤ all.length := by
    rw [← hall, List.length_append, List.length_replicate]
    omega
  have hdigit : ∀ c ∈ all, Numeral.isDigit c = true := by
    intro c hc
    rcases List.mem_append.1 (hall ▸ hc) with hc | hc
    · rw [List.eq_of_mem_replicate hc]
      rfl
    · exact hdigits c hc
  have htext : (String.ofList (all.take (all.length - places)) ++ "." ++
      String.ofList (all.drop (all.length - places))).toList =
      all.take (all.length - places) ++ '.' :: all.drop (all.length - places) := by
    simp
  have hwhole : all.take (all.length - places) ≠ [] := by
    rw [← List.length_pos_iff, List.length_take]
    omega
  have hbehind : ∀ c ∈ all.drop (all.length - places), Numeral.isDigit c = true := fun c hc =>
    hdigit c (List.mem_of_mem_drop hc)
  have hread := Numeral.leading?_pointed (R := R) hwhole (fun c hc => hdigit c (List.mem_of_mem_take hc)) hbehind
  have hplaces : (all.drop (all.length - places)).length = places := by
    rw [List.length_drop]
    omega
  rw [List.take_append_drop, hplaces, hvalue] at hread
  rw [htext, hread]

/-- The decimal that is written when no exponent is. -/
def spelled (d : Decimal) : Decimal := if d.exponent < 0 then d else ⟨d.digits * 10 ^ d.exponent.natAbs, 0⟩

theorem decimalCount_spelled (d : Decimal) :
    decimalCount d.spelled.digits d.spelled.exponent = decimalCount d.digits d.exponent := by
  unfold spelled
  split
  · rfl
  · next h =>
    obtain ⟨k, hk⟩ := Int.eq_ofNat_of_zero_le (not_lt.1 h)
    simp [decimalCount, hk]

theorem leading?_positional (d : Decimal) :
    (Numeral.leading? d.positional.toList : Option (R × ℕ)) =
      some (Scalar.ofDecimal d.spelled.digits d.spelled.exponent, d.positional.toList.length) := by
  unfold positional spelled
  split
  · next h =>
    have hexponent : -(d.exponent.natAbs : ℤ) = d.exponent := by omega
    rw [leading?_pointed (fun _ => isDigit_of_mem_text) (by omega), value_text, hexponent]
  · next h =>
    have htext : (d.text ++ zeros d.exponent.natAbs).toList =
        d.text.toList ++ List.replicate d.exponent.natAbs '0' := by
      rw [String.toList_append, zeros, String.toList_ofList]
    have hne : d.text.toList ++ List.replicate d.exponent.natAbs '0' ≠ [] := by
      rw [toList_text]
      exact List.append_ne_nil_of_left_ne_nil Nat.toDigits_ne_nil _
    rw [htext, Numeral.leading?_digits hne, Numeral.value_append_zeros, value_text]
    intro c hc
    rcases List.mem_append.1 hc with hc | hc
    · exact isDigit_of_mem_text hc
    · rw [List.eq_of_mem_replicate hc]
      rfl

end Positional

end Decimal

variable {x : Float}

theorem bits_lt_infinityBits (hfinite : x.isFinite = true) (hsign : bits x < 2 ^ 63) : bits x < infinityBits := by
  by_contra hlarge
  have hmod : bits x % 2 ^ 63 = bits x := Nat.mod_eq_of_lt hsign
  change x.toModel.unpack.isFinite = true at hfinite
  rw [unpack_toModel, unpacked, hmod, if_pos (by unfold infinityBits at hlarge; omega)] at hfinite
  split at hfinite <;> exact absurd hfinite Bool.false_ne_true

/-- The text of a finite double without a sign. -/
theorem numberText_eq (hx : bits x < infinityBits) :
    numberText x = if bits x = 0 then "0" else (Decimal.ofRange .up (.ofBits (bits x))).positional := by
  have hmod : bits x % 2 ^ 63 = bits x := Nat.mod_eq_of_lt (by unfold infinityBits at hx; omega)
  have hunpack : x.toModel.unpack = finiteParts (signOf (bits x)) (bits x) := by
    rw [unpack_toModel, unpacked, hmod, if_neg (by unfold infinityBits at hx; omega)]
  have hnan : x.isNaN = false := by
    change x.toModel.unpack.isNaN = false
    rw [hunpack]
    unfold finiteParts
    split <;> rfl
  have hinf : x.isInf = false := by
    change x.toModel.unpack.isInf = false
    rw [hunpack]
    unfold finiteParts
    split <;> rfl
  have hsign : (if bits x ≥ Binary64.sign then "-" else "") = "" := if_neg (by
    change ¬bits x ≥ 2 ^ 63
    unfold infinityBits at hx
    omega)
  change (if x.isNaN then "NaN" else if x.isInf then (if bits x ≥ Binary64.sign then "-" else "") ++ "inf"
    else if bits x % 2 ^ 63 = 0 then (if bits x ≥ Binary64.sign then "-" else "") ++ "0"
    else (if bits x ≥ Binary64.sign then "-" else "") ++
      (Decimal.ofRange .up (.ofBits (bits x % 2 ^ 63))).positional) = _
  rw [hnan, hinf, hsign, hmod, if_neg Bool.false_ne_true, if_neg Bool.false_ne_true, String.empty_append,
    String.empty_append]

/-- The text of a finite double without a sign is read as this double. -/
theorem leading?_numberText (hx : bits x < infinityBits) :
    Numeral.leading? (numberText x).toList = some (x, (numberText x).toList.length) := by
  rw [numberText_eq hx]
  split
  · next hzero =>
    have hnearest : Nearest (decimalCount 0 0) (bits x) := by
      have hcount : decimalCount 0 0 = 0 := by simp [decimalCount]
      rw [hzero, hcount]
      exact nearest_zero le_rfl (by norm_num)
    exact congrArg (fun y => some (y, 1)) (ofDecimal_eq_of_nearest hx hnearest)
  · next hne =>
    have hnearest := Decimal.nearest_ofRange (Nat.pos_of_ne_zero hne) hx .up
    rw [← Decimal.decimalCount_spelled] at hnearest
    rw [Decimal.leading?_positional]
    exact congrArg (fun y => some (y, _)) (ofDecimal_eq_of_nearest hx hnearest)

end PayoffPricing
