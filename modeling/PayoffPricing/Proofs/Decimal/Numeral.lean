import Mathlib.Algebra.Ring.Nat
import Mathlib.Data.List.TakeWhile
import PayoffPricing.Decimal.Numeral
/-!
Reading numerals. A number at the start of a text ends within the text. A text of digits is read to its end, with the
value of the digits, and so is one with a point among its digits.
-/

namespace PayoffPricing.Numeral

/-- The digits behind a point at the start of a text, and whether there is a point. -/
def fraction : List Char → List Char × Nat
  | '.' :: rest => (rest.takeWhile isDigit, 1)
  | _ => ([], 0)

/-- The length of a number at the start of a text, up to its exponent. -/
def mantissaLength (cs : List Char) : Nat :=
  let whole := (cs.takeWhile isDigit).length
  whole + (fraction (cs.drop whole)).2 + (fraction (cs.drop whole)).1.length

theorem leading?_eq {R : Type} [Scalar R] (cs : List Char) :
    (leading? cs : Option (R × Nat)) =
      let whole := cs.takeWhile isDigit
      let behind := (fraction (cs.drop whole.length)).1
      let (e, size) := exponent (cs.drop (mantissaLength cs))
      if whole.isEmpty ∧ behind.isEmpty then none
      else
        some (Scalar.ofDecimal (value (whole ++ behind)) (e - Int.ofNat behind.length), mantissaLength cs + size) := by
  rfl

theorem length_fraction_le (cs : List Char) : (fraction cs).2 + (fraction cs).1.length ≤ cs.length := by
  unfold fraction
  split
  · next rest =>
    have := (List.takeWhile_prefix (l := rest) isDigit).length_le
    simp only [List.length_cons]
    omega
  · simp

theorem mantissaLength_le (cs : List Char) : mantissaLength cs ≤ cs.length := by
  have hwhole := (List.takeWhile_prefix (l := cs) isDigit).length_le
  have hfraction := length_fraction_le (cs.drop (cs.takeWhile isDigit).length)
  rw [List.length_drop] at hfraction
  unfold mantissaLength
  dsimp only
  omega

theorem length_signed_le (cs : List Char) : (signed cs).2.length ≤ cs.length := by
  unfold signed
  split <;> simp

theorem length_exponent_le (cs : List Char) : (exponent cs).2 ≤ cs.length := by
  cases cs with
  | nil => simp [exponent]
  | cons e rest =>
    have hsigned := length_signed_le rest
    have hdigits := (List.takeWhile_prefix (l := (signed rest).2) isDigit).length_le
    simp only [exponent]
    split
    · simp only [List.length_cons]
      omega
    · simp

/-- A number takes at least one character, and no more than there are. -/
theorem length_leading? {R : Type} [Scalar R] {cs : List Char} {x : R} {n : Nat} (h : leading? cs = some (x, n)) :
    0 < n ∧ n ≤ cs.length := by
  rw [leading?_eq] at h
  dsimp only at h
  split at h
  · cases h
  · next hsome =>
    obtain ⟨-, rfl⟩ := Prod.mk.inj (Option.some.inj h)
    have hmantissa := mantissaLength_le cs
    have hexponent := length_exponent_le (cs.drop (mantissaLength cs))
    rw [List.length_drop] at hexponent
    have hpos : 0 < mantissaLength cs := by
      unfold mantissaLength
      dsimp only
      rw [List.isEmpty_iff_length_eq_zero, List.isEmpty_iff_length_eq_zero] at hsome
      omega
    omega

theorem exists_of_leading? {R : Type} [Scalar R] {cs : List Char} {x : R} {n : Nat} (h : leading? cs = some (x, n)) :
    ∃ m e, x = Scalar.ofDecimal m e := by
  rw [leading?_eq] at h
  dsimp only at h
  split at h
  · cases h
  · obtain ⟨rfl, -⟩ := Prod.mk.inj (Option.some.inj h)
    exact ⟨_, _, rfl⟩

theorem starts_of_leading? {R : Type} [Scalar R] {c : Char} {cs : List Char} {x : R} {n : Nat}
    (h : leading? (c :: cs) = some (x, n)) : isDigit c = true ∨ c = '.' := by
  by_contra hneither
  obtain ⟨hdigit, hpoint⟩ := not_or.1 hneither
  have hwhole : (c :: cs).takeWhile isDigit = [] := List.takeWhile_cons_of_neg hdigit
  have hfraction : fraction (c :: cs) = ([], 0) := by
    unfold fraction
    split
    · next heq => exact absurd (List.cons.inj heq).1 hpoint
    · rfl
  rw [leading?_eq] at h
  simp [hwhole, hfraction] at h

section Digits

theorem isDigit_eq (c : Char) : isDigit c = c.isDigit := rfl

theorem isDigit_of_mem_toDigits {n : ℕ} {c : Char} (hc : c ∈ Nat.toDigits 10 n) : isDigit c = true :=
  (isDigit_eq c).trans (Nat.isDigit_of_mem_toDigits (by decide) (by decide) hc)

theorem value_eq_ofDigitChars (digits : List Char) : value digits = Nat.ofDigitChars 10 digits 0 := by
  unfold value Nat.ofDigitChars
  congr 1
  funext n c
  rw [Nat.mul_comm, digitValue]

theorem value_toDigits (n : ℕ) : value (Nat.toDigits 10 n) = n := by
  rw [value_eq_ofDigitChars, Nat.ofDigitChars_toDigits (by decide) (by decide)]

theorem value_zeros_append (n : ℕ) (digits : List Char) : value (List.replicate n '0' ++ digits) = value digits := by
  induction n with
  | zero => rfl
  | succ n ih => exact ih

theorem value_append_zeros (digits : List Char) (n : ℕ) :
    value (digits ++ List.replicate n '0') = value digits * 10 ^ n := by
  induction n with
  | zero => simp
  | succ n ih =>
    rw [List.replicate_succ', ← List.append_assoc, value, List.foldl_append, ← value, ih, Nat.pow_succ, ← Nat.mul_assoc]
    rfl

variable {R : Type} [Scalar R] {whole behind : List Char} (hne : whole ≠ []) (hwhole : ∀ c ∈ whole, isDigit c = true)

include hne hwhole

theorem leading?_digits :
    (leading? whole : Option (R × ℕ)) = some (Scalar.ofDecimal (value whole) 0, whole.length) := by
  have hall : whole.takeWhile isDigit = whole := List.takeWhile_eq_self_iff.2 hwhole
  have hlength : mantissaLength whole = whole.length := by
    simp [mantissaLength, hall, fraction]
  rw [leading?_eq]
  simp [hall, hlength, fraction, exponent, hne]

theorem leading?_pointed (hbehind : ∀ c ∈ behind, isDigit c = true) :
    (leading? (whole ++ '.' :: behind) : Option (R × ℕ)) =
      some (Scalar.ofDecimal (value (whole ++ behind)) (-behind.length), (whole ++ '.' :: behind).length) := by
  have hall : (whole ++ '.' :: behind).takeWhile isDigit = whole := by
    rw [List.takeWhile_append_of_pos hwhole, List.takeWhile_cons_of_neg (by decide), List.append_nil]
  have hfraction : fraction ('.' :: behind) = (behind, 1) := by
    rw [fraction, List.takeWhile_eq_self_iff.2 hbehind]
  have hlength : mantissaLength (whole ++ '.' :: behind) = (whole ++ '.' :: behind).length := by
    simp only [mantissaLength, hall, List.drop_left, hfraction, List.length_append, List.length_cons]
    omega
  rw [leading?_eq]
  simp [hall, hlength, hfraction, exponent, hne]

end Digits

end PayoffPricing.Numeral
