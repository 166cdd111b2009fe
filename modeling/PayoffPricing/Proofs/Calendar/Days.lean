import PayoffPricing.Calendar.Date
/-!
The two ways of counting dates. `Date.dayNumber` follows the order of dates and takes every whole
number between two of its values, so it counts days; `Date.monthNumber` counts months. Adding days
or months succeeds exactly when the calendar has the date that is meant.
-/

namespace PayoffPricing

namespace Calendar

theorem daysInMonth_pos (year : Int) (month : Nat) : 1 ≤ daysInMonth year month := by
  unfold daysInMonth
  split
  · split <;> omega
  · split <;> omega

theorem daysBeforeMonth_succ (year : Int) {month : Nat} (h : 1 ≤ month) :
    daysBeforeMonth year (month + 1) = daysBeforeMonth year month + daysInMonth year month := by
  obtain ⟨m, rfl⟩ : ∃ m, month = m + 1 := ⟨month - 1, by omega⟩
  simp [daysBeforeMonth, List.range'_concat, Nat.add_comm]

theorem daysBeforeMonth_le (year : Int) {month : Nat} (h : 1 ≤ month) (n : Nat) :
    daysBeforeMonth year month ≤ daysBeforeMonth year (month + n) := by
  induction n with
  | zero => exact Nat.le_refl _
  | succ n ih =>
    have step := daysBeforeMonth_succ year (show 1 ≤ month + n by omega)
    rw [show month + (n + 1) = month + n + 1 by omega]
    omega

theorem daysBeforeMonth_one (year : Int) : daysBeforeMonth year 1 = 0 := rfl

/-- The months of a year hold all days up to the next year. -/
theorem daysBeforeYear_succ (year : Int) :
    daysBeforeYear (year + 1) = daysBeforeYear year + daysBeforeMonth year 13 := by
  have months : daysBeforeMonth year 13 = if isLeap year then 366 else 365 := by
    simp only [daysBeforeMonth, daysInMonth]
    cases isLeap year <;> rfl
  rw [months]
  by_cases leap : isLeap year = true
  · simp only [leap, ↓reduceIte, daysBeforeYear]
    simp only [isLeap, Bool.and_eq_true, Bool.or_eq_true, beq_iff_eq, bne_iff_ne] at leap
    omega
  · simp only [leap, daysBeforeYear]
    simp only [isLeap, Bool.and_eq_true, Bool.or_eq_true, beq_iff_eq, bne_iff_ne] at leap
    simp only [Bool.false_eq_true, ↓reduceIte]
    omega

theorem daysBeforeYear_mono {a b : Int} (h : a ≤ b) : daysBeforeYear a ≤ daysBeforeYear b := by
  simp only [daysBeforeYear]
  omega

/-- The year of a day begins no later than the day, and the next one after it. -/
theorem yearOfDay_bounds (n : Int) :
    daysBeforeYear (yearOfDay n) ≤ n ∧ n < daysBeforeYear (yearOfDay n + 1) := by
  have below : daysBeforeYear (n * 400 / 146097 + 1 - 1) ≤ n := by
    simp only [daysBeforeYear]
    omega
  have above : n < daysBeforeYear (n * 400 / 146097 + 1 + 1 + 1) := by
    simp only [daysBeforeYear]
    omega
  simp only [yearOfDay]
  split
  · next h => exact ⟨below, by simpa using h⟩
  · split
    · next h => exact ⟨h, above⟩
    · next h₁ h₂ => exact ⟨by omega, by omega⟩

/-- A day of a stretch of months falls into one of them. -/
theorem monthAndDay_range' (year : Int) (first : Nat) (h : 1 ≤ first) (count n : Nat)
    (inside : daysBeforeMonth year first + n < daysBeforeMonth year (first + count)) :
    ∃ month day, monthAndDay year (List.range' first count) n = some (month, day) ∧
      first ≤ month ∧ month < first + count ∧ 1 ≤ day ∧ day ≤ daysInMonth year month ∧
      daysBeforeMonth year month + (day - 1) = daysBeforeMonth year first + n := by
  induction count generalizing first n with
  | zero =>
    rw [Nat.add_zero] at inside
    omega
  | succ count ih =>
    simp only [List.range'_succ, monthAndDay]
    have step := daysBeforeMonth_succ year h
    split
    · exact ⟨first, n + 1, rfl, by omega, by omega, by omega, by omega, by omega⟩
    · next later =>
      obtain ⟨month, day, found, h₁, h₂, h₃, h₄, h₅⟩ :=
        ih (first + 1) (by omega) (n - daysInMonth year first)
          (by rw [show first + 1 + count = first + (count + 1) by omega]; omega)
      exact ⟨month, day, found, by omega, by omega, h₃, h₄, by omega⟩

end Calendar

open Calendar

namespace Date

theorem ext {a b : Date} (year : a.year = b.year) (month : a.month = b.month)
    (day : a.day = b.day) : a = b := by
  cases a
  cases b
  simp_all

theorem ofParts?_eq_some_iff {year : Int} {month day : Nat} {d : Date} :
    ofParts? year month day = some d ↔ d.year = year ∧ d.month = month ∧ d.day = day := by
  constructor
  · intro h
    unfold ofParts? at h
    split at h
    · split at h
      · split at h
        · cases h
          exact ⟨rfl, rfl, rfl⟩
        · cases h
      · cases h
    · cases h
  · rintro ⟨rfl, rfl, rfl⟩
    simp only [ofParts?, d.year_range, d.month_range, d.day_range, and_self, ↓reduceDIte]

/-! ### Days -/

theorem daysBeforeYear_le_dayNumber (d : Date) : daysBeforeYear d.year ≤ d.dayNumber := by
  simp only [dayNumber, Int.ofNat_eq_natCast]
  omega

theorem dayNumber_lt_daysBeforeYear (d : Date) : d.dayNumber < daysBeforeYear (d.year + 1) := by
  have month := d.month_range
  have day := d.day_range
  have step := daysBeforeMonth_succ d.year month.1
  have rest := daysBeforeMonth_le d.year (show 1 ≤ d.month + 1 by omega) (12 - d.month)
  rw [show d.month + 1 + (12 - d.month) = 13 by omega] at rest
  rw [daysBeforeYear_succ]
  simp only [dayNumber, Int.ofNat_eq_natCast]
  omega

theorem dayNumber_lt {a b : Date} (h : a < b) : a.dayNumber < b.dayNumber := by
  rcases h with year | ⟨year, month | ⟨month, day⟩⟩
  · calc
      a.dayNumber < daysBeforeYear (a.year + 1) := a.dayNumber_lt_daysBeforeYear
      _ ≤ daysBeforeYear b.year := daysBeforeYear_mono year
      _ ≤ b.dayNumber := b.daysBeforeYear_le_dayNumber
  · have ha := a.day_range
    have step := daysBeforeMonth_succ a.year a.month_range.1
    have rest := daysBeforeMonth_le a.year (show 1 ≤ a.month + 1 by omega) (b.month - (a.month + 1))
    rw [show a.month + 1 + (b.month - (a.month + 1)) = b.month by omega] at rest
    simp only [dayNumber, Int.ofNat_eq_natCast, ← year]
    omega
  · have ha := a.day_range
    simp only [dayNumber, Int.ofNat_eq_natCast, ← year, ← month]
    omega

theorem lt_trichotomy (a b : Date) : a < b ∨ a = b ∨ b < a := by
  have year := Int.lt_trichotomy a.year b.year
  have month := Nat.lt_trichotomy a.month b.month
  have day := Nat.lt_trichotomy a.day b.day
  rcases year with year | year | year
  · exact .inl (.inl year)
  · rcases month with month | month | month
    · exact .inl (.inr ⟨year, .inl month⟩)
    · rcases day with day | day | day
      · exact .inl (.inr ⟨year, .inr ⟨month, day⟩⟩)
      · exact .inr (.inl (ext year month day))
      · exact .inr (.inr (.inr ⟨year.symm, .inr ⟨month.symm, day⟩⟩))
    · exact .inr (.inr (.inr ⟨year.symm, .inl month⟩))
  · exact .inr (.inr (.inl year))

/-- Counting days follows the order of dates. -/
theorem dayNumber_lt_iff {a b : Date} : a.dayNumber < b.dayNumber ↔ a < b := by
  refine ⟨fun h => ?_, dayNumber_lt⟩
  rcases lt_trichotomy a b with lt | rfl | gt
  · exact lt
  · omega
  · have := dayNumber_lt gt
    omega

theorem dayNumber_inj {a b : Date} : a.dayNumber = b.dayNumber ↔ a = b := by
  refine ⟨fun h => ?_, fun h => h ▸ rfl⟩
  rcases lt_trichotomy a b with lt | eq | gt
  · have := dayNumber_lt lt
    omega
  · exact eq
  · have := dayNumber_lt gt
    omega

theorem lt_trans {a b c : Date} (ab : a < b) (bc : b < c) : a < c := by
  rw [← dayNumber_lt_iff] at *
  omega

theorem not_lt_of_lt {a b : Date} (h : a < b) : ¬ b < a := by
  rw [← dayNumber_lt_iff] at *
  omega

/-- Between the days of two dates, every day has a date. -/
theorem exists_ofDayNumber? {a b : Date} {n : Int} (ha : a.dayNumber ≤ n) (hb : n ≤ b.dayNumber) :
    ∃ d, ofDayNumber? n = some d ∧ d.dayNumber = n := by
  obtain ⟨low, high⟩ := yearOfDay_bounds n
  have year : a.year ≤ yearOfDay n ∧ yearOfDay n ≤ b.year := by
    constructor
    · refine Int.not_lt.1 fun h => ?_
      have := daysBeforeYear_mono (show yearOfDay n + 1 ≤ a.year from h)
      have := a.daysBeforeYear_le_dayNumber
      omega
    · refine Int.not_lt.1 fun h => ?_
      have := daysBeforeYear_mono (show b.year + 1 ≤ yearOfDay n from h)
      have := b.dayNumber_lt_daysBeforeYear
      omega
  rw [daysBeforeYear_succ] at high
  obtain ⟨month, day, found, month_pos, month_le, day_pos, day_le, sum⟩ :=
    monthAndDay_range' (yearOfDay n) 1 (Nat.le_refl 1) 12 (n - daysBeforeYear (yearOfDay n)).toNat
      (by rw [daysBeforeMonth_one]; simp only [Nat.reduceAdd]; omega)
  have ha := a.year_range
  have hb := b.year_range
  refine ⟨⟨yearOfDay n, month, day, by omega, by omega, day_pos, day_le⟩, ?_, ?_⟩
  · simp only [ofDayNumber?, found]
    exact ofParts?_eq_some_iff.2 ⟨rfl, rfl, rfl⟩
  · rw [daysBeforeMonth_one] at sum
    simp only [dayNumber, Int.ofNat_eq_natCast]
    omega

/-- The date of a day is the one whose day it is. -/
theorem ofDayNumber?_eq_some_iff {n : Int} {d : Date} :
    ofDayNumber? n = some d ↔ d.dayNumber = n := by
  have back (d : Date) : ofDayNumber? d.dayNumber = some d := by
    obtain ⟨e, found, same⟩ := exists_ofDayNumber? (Int.le_refl d.dayNumber) (Int.le_refl _)
    rw [found, dayNumber_inj.1 same]
  refine ⟨fun h => ?_, fun h => h ▸ back d⟩
  obtain ⟨low, high⟩ := yearOfDay_bounds n
  rw [daysBeforeYear_succ] at high
  obtain ⟨month, day, found, -, -, day_pos, -, sum⟩ :=
    monthAndDay_range' (yearOfDay n) 1 (Nat.le_refl 1) 12 (n - daysBeforeYear (yearOfDay n)).toNat
      (by rw [daysBeforeMonth_one]; simp only [Nat.reduceAdd]; omega)
  simp only [ofDayNumber?, found] at h
  obtain ⟨year_eq, month_eq, day_eq⟩ := ofParts?_eq_some_iff.1 h
  rw [daysBeforeMonth_one] at sum
  simp only [dayNumber, year_eq, month_eq, day_eq, Int.ofNat_eq_natCast]
  omega

theorem addDays?_eq_some_iff {d e : Date} {n : Nat} :
    d.addDays? n = some e ↔ e.dayNumber = d.dayNumber + n :=
  ofDayNumber?_eq_some_iff

/-- The calendar is less than two hundred million days long. -/
theorem dayNumber_range (d : Date) : -100000000 < d.dayNumber ∧ d.dayNumber < 100000000 := by
  have year := d.year_range
  have low := d.daysBeforeYear_le_dayNumber
  have high := d.dayNumber_lt_daysBeforeYear
  simp only [daysBeforeYear] at low high
  omega

/-! ### Months -/

theorem lt_of_monthNumber_lt {a b : Date} (h : a.monthNumber < b.monthNumber) : a < b := by
  have ha := a.month_range
  have hb := b.month_range
  simp only [monthNumber, Int.ofNat_eq_natCast] at h
  by_cases year : a.year = b.year
  · exact .inr ⟨year, .inl (by omega)⟩
  · exact .inl (by omega)

/-- The date `n` months on is in the month with that number, on the same day where the month has
it and on its last day otherwise. -/
theorem addMonths?_eq_some_iff {d e : Date} {n : Nat} :
    d.addMonths? n = some e ↔ e.monthNumber = d.monthNumber + n ∧
      e.day = min d.day (daysInMonth e.year e.month) := by
  have he := e.month_range
  simp only [addMonths?, ofParts?_eq_some_iff, Int.ofNat_eq_natCast]
  constructor
  · rintro ⟨year, month, day⟩
    refine ⟨?_, by rw [day, year, month]⟩
    simp only [monthNumber, Int.ofNat_eq_natCast] at *
    omega
  · rintro ⟨month, day⟩
    have year_eq : e.year = (d.monthNumber + n) / 12 := by
      simp only [monthNumber, Int.ofNat_eq_natCast] at *
      omega
    have month_eq : e.month = ((d.monthNumber + n) % 12).toNat + 1 := by
      simp only [monthNumber, Int.ofNat_eq_natCast] at *
      omega
    exact ⟨year_eq, month_eq, by rw [← year_eq, ← month_eq]; exact day⟩

/-- Months may be added as long as the calendar goes on. -/
theorem exists_addMonths? {d e : Date} {n : Nat} (h : d.monthNumber + n ≤ e.monthNumber) :
    ∃ f, d.addMonths? n = some f := by
  have hd := d.year_range
  have he := e.year_range
  have md := d.month_range
  have me := e.month_range
  simp only [addMonths?, Int.ofNat_eq_natCast]
  simp only [monthNumber, Int.ofNat_eq_natCast] at *
  have := d.day_range
  have := daysInMonth_pos ((d.year * 12 + ↑(d.month - 1) + ↑n) / 12)
    (((d.year * 12 + ↑(d.month - 1) + ↑n) % 12).toNat + 1)
  exact ⟨⟨_, _, _, by omega, by omega, by omega⟩, ofParts?_eq_some_iff.2 ⟨rfl, rfl, rfl⟩⟩

theorem monthNumber_range (d : Date) : -4000000 < d.monthNumber ∧ d.monthNumber < 4000000 := by
  have year := d.year_range
  have month := d.month_range
  simp only [monthNumber, Int.ofNat_eq_natCast]
  omega

end Date

end PayoffPricing
