import PayoffPricing.Calendar.Schedule
import PayoffPricing.Proofs.Calendar.Days
/-!
Schedules tile their range. Stepping from the start by a tenor moves strictly forward in the number
of steps and never leaves the calendar before a date that is still to come, so the first step that
is late or missing ends the schedule rightly. The dates are then the start, every step that is
before the end, and the end; the periods between them cover each day of the range once.
-/

namespace PayoffPricing

open Calendar Date

namespace Tenor

/-- A date is `k` tenors after a start: so many days on, or so many months on at the same day of
the month, which a shorter month replaces by its last day. -/
def Reaches (t : Tenor) (start : Date) (k : Nat) (d : Date) : Prop :=
  match t.unit with
  | .days => d.dayNumber = start.dayNumber + (t.count * k : Nat)
  | .weeks => d.dayNumber = start.dayNumber + (7 * (t.count * k) : Nat)
  | .months =>
    d.monthNumber = start.monthNumber + (t.count * k : Nat) ∧
      d.day = min start.day (daysInMonth d.year d.month)
  | .years =>
    d.monthNumber = start.monthNumber + (12 * (t.count * k) : Nat) ∧
      d.day = min start.day (daysInMonth d.year d.month)

variable {t : Tenor} {start d e : Date} {k l : Nat}

theorem count_mul_lt (t : Tenor) (h : k < l) : t.count * k < t.count * l :=
  Nat.mul_lt_mul_of_pos_left h t.count_pos

/-- Steps stay far below the limit of counts: the calendar is too short to reach it. -/
theorem advance?_eq_some_iff : t.advance? start k = some d ↔ t.Reaches start k d := by
  have days := start.dayNumber_range
  have days' := d.dayNumber_range
  have months := start.monthNumber_range
  have months' := d.monthNumber_range
  have limit : countLimit = 4294967296 := rfl
  simp only [advance?, Reaches]
  cases t.unit with
  | days =>
    simp only [Option.ite_none_right_eq_some, addDays?_eq_some_iff]
    exact ⟨fun h => h.2, fun h => ⟨by omega, h⟩⟩
  | weeks =>
    simp only [Option.ite_none_right_eq_some, addDays?_eq_some_iff, Nat.mul_comm _ 7]
    exact ⟨fun h => h.2, fun h => ⟨by omega, h⟩⟩
  | months =>
    simp only [Option.ite_none_right_eq_some, addMonths?_eq_some_iff]
    exact ⟨fun h => h.2, fun h => ⟨by omega, h⟩⟩
  | years =>
    simp only [Option.ite_none_right_eq_some, addMonths?_eq_some_iff, Nat.mul_comm _ 12]
    exact ⟨fun h => h.2.2, fun h => ⟨by omega, by omega, h⟩⟩

theorem reaches_zero (t : Tenor) (start : Date) : t.Reaches start 0 start := by
  have day := start.day_range
  cases h : t.unit <;> simp [Reaches, h] <;> omega

/-- Stepping is strictly increasing in the number of steps, for every unit. -/
theorem Reaches.lt (near : t.Reaches start k d) (far : t.Reaches start l e) (h : k < l) :
    d < e := by
  have more := t.count_mul_lt h
  simp only [Reaches] at near far
  cases unit : t.unit with
  | days =>
    simp only [unit] at near far
    rw [← dayNumber_lt_iff]
    omega
  | weeks =>
    simp only [unit] at near far
    rw [← dayNumber_lt_iff]
    omega
  | months =>
    simp only [unit] at near far
    exact lt_of_monthNumber_lt (by omega)
  | years =>
    simp only [unit] at near far
    exact lt_of_monthNumber_lt (by omega)

/-- Where some number of steps has a date, every smaller number has one. -/
theorem Reaches.exists_of_lt (far : t.Reaches start l e) (h : k < l) :
    ∃ d, t.advance? start k = some d := by
  have more := t.count_mul_lt h
  simp only [advance?_eq_some_iff]
  simp only [Reaches] at far ⊢
  cases unit : t.unit with
  | days =>
    simp only [unit] at far ⊢
    obtain ⟨d, -, day⟩ := exists_ofDayNumber? (a := start) (b := e)
      (n := start.dayNumber + (t.count * k : Nat)) (by omega) (by omega)
    exact ⟨d, day⟩
  | weeks =>
    simp only [unit] at far ⊢
    obtain ⟨d, -, day⟩ := exists_ofDayNumber? (a := start) (b := e)
      (n := start.dayNumber + (7 * (t.count * k) : Nat)) (by omega) (by omega)
    exact ⟨d, day⟩
  | months =>
    simp only [unit] at far ⊢
    obtain ⟨d, found⟩ := exists_addMonths? (d := start) (e := e) (n := t.count * k) (by omega)
    exact ⟨d, addMonths?_eq_some_iff.1 found⟩
  | years =>
    simp only [unit] at far ⊢
    obtain ⟨d, found⟩ := exists_addMonths? (d := start) (e := e) (n := 12 * (t.count * k)) (by omega)
    exact ⟨d, addMonths?_eq_some_iff.1 found⟩

end Tenor

namespace Period

/-- A day from the first of a period until before the last. -/
def Holds (p : Period) (d : Date) : Prop := ¬ d < p.start ∧ d < p.stop

instance (p : Period) (d : Date) : Decidable (p.Holds d) :=
  inferInstanceAs (Decidable (¬ d < p.start ∧ d < p.stop))

/-- The periods follow each other from one date to another. -/
def Tiles : Date → List Period → Date → Prop
  | first, [], last => first = last
  | first, p :: ps, last => p.start = first ∧ p.start < p.stop ∧ Tiles p.stop ps last

theorem Tiles.countP_holds_eq_zero {first last d : Date} {ps : List Period}
    (h : Tiles first ps last) (early : d < first) : ps.countP (fun p => decide (p.Holds d)) = 0 := by
  induction ps generalizing first with
  | nil => rfl
  | cons p ps ih =>
    obtain ⟨rfl, forward, rest⟩ := h
    rw [List.countP_cons, ih rest (lt_trans early forward)]
    simp [Holds, early]

theorem Tiles.first_le {first last : Date} {ps : List Period} (h : Tiles first ps last) :
    ¬ last < first := by
  induction ps generalizing first with
  | nil =>
    cases h
    exact fun lt => not_lt_of_lt lt lt
  | cons p ps ih =>
    obtain ⟨rfl, forward, rest⟩ := h
    exact fun lt => ih rest (lt_trans lt forward)

/-- Periods that follow each other hold the days of their range once, and no others. -/
theorem Tiles.countP_holds {first last : Date} {ps : List Period} (h : Tiles first ps last)
    (d : Date) :
    ps.countP (fun p => decide (p.Holds d)) = if ¬ d < first ∧ d < last then 1 else 0 := by
  induction ps generalizing first with
  | nil =>
    cases h
    simp
  | cons p ps ih =>
    obtain ⟨rfl, forward, rest⟩ := h
    rw [List.countP_cons]
    by_cases early : d < p.stop
    · have inside : ¬ d < p.start → d < last := fun _ => by
        have := rest.first_le
        rw [← dayNumber_lt_iff] at *
        omega
      rw [rest.countP_holds_eq_zero early]
      by_cases before : d < p.start
      · simp [Holds, before]
      · simp [Holds, before, early, inside before]
    · have after : ¬ d < p.start := fun lt => early (lt_trans lt forward)
      rw [ih rest]
      simp [Holds, early, after]

end Period

namespace Schedule

open Tenor

variable (s : Schedule)

/-- The inner dates from `k` on are the steps from `k` on that are before the end. -/
theorem getElem?_innerDates (k i : Nat) (d : Date) :
    (s.innerDates k)[i]? = some d ↔ s.tenor.Reaches s.start (k + i) d ∧ d < s.stop := by
  induction k using innerDates.induct s generalizing i with
  | case1 k first found before ih =>
    have reached := advance?_eq_some_iff.1 found
    rw [innerDates, found]
    simp only [before, ↓reduceIte]
    cases i with
    | zero =>
      simp only [List.getElem?_cons_zero, Option.some.injEq, Nat.add_zero, ← advance?_eq_some_iff,
        found]
      exact ⟨fun h => h ▸ ⟨rfl, before⟩, fun h => h.1⟩
    | succ i =>
      rw [List.getElem?_cons_succ, ih, show k + 1 + i = k + (i + 1) by omega]
  | case2 k first found late =>
    rw [innerDates, found]
    simp only [late, ↓reduceIte, List.getElem?_nil, reduceCtorEq, false_iff]
    rintro ⟨reached, before⟩
    cases i with
    | zero =>
      rw [Nat.add_zero, ← advance?_eq_some_iff, found, Option.some.injEq] at reached
      exact late (reached ▸ before)
    | succ i =>
      exact late (lt_trans ((advance?_eq_some_iff.1 found).lt reached (by omega)) before)
  | case3 k missing =>
    rw [innerDates, missing]
    simp only [List.getElem?_nil, reduceCtorEq, false_iff]
    rintro ⟨reached, -⟩
    cases i with
    | zero =>
      rw [Nat.add_zero, ← advance?_eq_some_iff, missing] at reached
      cases reached
    | succ i =>
      obtain ⟨d, found⟩ := reached.exists_of_lt (show k < k + (i + 1) by omega)
      rw [missing] at found
      cases found

theorem mem_innerDates (k : Nat) (d : Date) :
    d ∈ s.innerDates k ↔ ∃ l, k ≤ l ∧ s.tenor.Reaches s.start l d ∧ d < s.stop := by
  simp only [List.mem_iff_getElem?, getElem?_innerDates]
  constructor
  · rintro ⟨i, h⟩
    exact ⟨k + i, by omega, h⟩
  · rintro ⟨l, le, h⟩
    exact ⟨l - k, by rwa [show k + (l - k) = l by omega]⟩

theorem pairwise_innerDates (k : Nat) : (s.innerDates k).Pairwise (· < ·) := by
  rw [List.pairwise_iff_getElem]
  intro i j hi hj lt
  have near := (s.getElem?_innerDates k i _).1 (List.getElem?_eq_getElem hi)
  have far := (s.getElem?_innerDates k j _).1 (List.getElem?_eq_getElem hj)
  exact near.1.lt far.1 (by omega)

/-- The start, the inner dates and the end are in order. -/
theorem pairwise_dates (h : s.start < s.stop) :
    (s.start :: s.innerDates 1 ++ [s.stop]).Pairwise (· < ·) := by
  have inner (d : Date) (mem : d ∈ s.innerDates 1) : s.start < d ∧ d < s.stop := by
    obtain ⟨k, pos, reached, before⟩ := (s.mem_innerDates 1 d).1 mem
    exact ⟨(s.tenor.reaches_zero s.start).lt reached pos, before⟩
  rw [List.cons_append, List.pairwise_cons, List.pairwise_append]
  refine ⟨fun d mem => ?_, s.pairwise_innerDates 1, List.pairwise_singleton _ _, ?_⟩
  · rcases List.mem_append.1 mem with mem | mem
    · exact (inner d mem).1
    · rwa [List.mem_singleton.1 mem]
  · intro d mem e last
    rw [List.mem_singleton.1 last]
    exact (inner d mem).2

/-- The end of a period that its event is observed at. -/
def fixingOf (fixing : Fixing) (p : Period) : Date :=
  match fixing with
  | .begin => p.start
  | .stop => p.stop

theorem map_start_between (fixing : Fixing) (ds : List Date) :
    (between fixing ds).map Period.start = ds.dropLast := by
  fun_induction between fixing ds with
  | case1 a b rest ih => simp [ih]
  | case2 ds short =>
    match ds, short with
    | [], _ => rfl
    | [a], _ => rfl
    | a :: b :: rest, short => exact absurd rfl (short a b rest)

theorem map_stop_between (fixing : Fixing) (ds : List Date) :
    (between fixing ds).map Period.stop = ds.tail := by
  fun_induction between fixing ds with
  | case1 a b rest ih => simp [ih]
  | case2 ds short =>
    match ds, short with
    | [], _ => rfl
    | [a], _ => rfl
    | a :: b :: rest, short => exact absurd rfl (short a b rest)

theorem fixing_between (fixing : Fixing) (ds : List Date) :
    ∀ p ∈ between fixing ds, p.fixing = fixingOf fixing p := by
  fun_induction between fixing ds with
  | case1 a b rest ih =>
    rintro p (_ | ⟨_, mem⟩)
    · rfl
    · exact ih p mem
  | case2 => simp

/-- Cutting a range at increasing dates tiles it. -/
theorem tiles_between (fixing : Fixing) {first last : Date} {ds : List Date}
    (h : (first :: ds ++ [last]).Pairwise (· < ·)) :
    Period.Tiles first (between fixing (first :: ds ++ [last])) last := by
  induction ds generalizing first with
  | nil =>
    simp only [List.cons_append, List.nil_append, List.pairwise_cons, List.mem_singleton,
      forall_eq] at h
    exact ⟨rfl, h.1, rfl⟩
  | cons d ds ih =>
    obtain ⟨below, rest⟩ := List.pairwise_cons.1 h
    exact ⟨rfl, below d (by simp), ih rest⟩

/-- The fixing dates of increasing dates are increasing under either convention. -/
theorem pairwise_fixing_between (fixing : Fixing) {ds : List Date} (h : ds.Pairwise (· < ·)) :
    ((between fixing ds).map Period.fixing).Pairwise (· < ·) := by
  have eq : (between fixing ds).map Period.fixing = (between fixing ds).map (fixingOf fixing) :=
    List.map_congr_left (fixing_between fixing ds)
  rw [eq]
  cases fixing with
  | begin =>
    rw [show fixingOf .begin = Period.start from rfl, map_start_between]
    exact h.sublist (List.dropLast_sublist ds)
  | stop =>
    rw [show fixingOf .stop = Period.stop from rfl, map_stop_between]
    exact h.sublist (List.tail_sublist ds)

/-- What the dates and periods of a schedule are when they tile its range. -/
structure TilesRange (inner : List Date) (periods : List Period) : Prop where
  dates_eq : s.dates = .ok (s.start :: inner ++ [s.stop])
  increasing : (s.start :: inner ++ [s.stop]).Pairwise (· < ·)
  /-- Between the ends stand the dates a number of tenors after the start, before the end. -/
  mem_inner : ∀ d, d ∈ inner ↔ ∃ k, 1 ≤ k ∧ s.tenor.Reaches s.start k d ∧ d < s.stop
  periods_eq : s.periods = .ok periods
  starts : periods.map Period.start = s.start :: inner
  stops : periods.map Period.stop = inner ++ [s.stop]
  consecutive : Period.Tiles s.start periods s.stop
  /-- Each date from the start until before the end is in one period, and no other date is. -/
  once : ∀ d, periods.countP (fun p => decide (p.Holds d)) =
    if ¬ d < s.start ∧ d < s.stop then 1 else 0
  fixing : ∀ p ∈ periods, p.fixing = fixingOf s.fixing p
  fixing_increasing : (periods.map Period.fixing).Pairwise (· < ·)

/-- The dates and periods of every schedule whose start is before its end tile its range, with any
tenor and under either convention of fixing. -/
theorem dates_tile_range (h : s.start < s.stop) :
    ∃ inner periods, s.TilesRange inner periods := by
  have dates : s.dates = .ok (s.start :: s.innerDates 1 ++ [s.stop]) := by
    simp only [Schedule.dates, h, ↓reduceIte]
  have increasing := s.pairwise_dates h
  have tiles := tiles_between s.fixing increasing
  exact ⟨s.innerDates 1, between s.fixing (s.start :: s.innerDates 1 ++ [s.stop]),
    { dates_eq := dates
      increasing
      mem_inner := s.mem_innerDates 1
      periods_eq := by
        rw [Schedule.periods, dates]
        rfl
      starts := by rw [map_start_between, List.dropLast_concat]
      stops := by rw [map_stop_between, List.cons_append, List.tail_cons]
      consecutive := tiles
      once := tiles.countP_holds
      fixing := fixing_between s.fixing _
      fixing_increasing := pairwise_fixing_between s.fixing increasing }⟩

/-- Months from the last day of January, over a leap day. -/
def monthEnds : Schedule where
  start := ⟨2024, 1, 31, by decide, by decide, by decide⟩
  stop := ⟨2024, 5, 31, by decide, by decide, by decide⟩
  tenor := ⟨1, .months, by decide⟩
  fixing := .begin

theorem monthEnds_tile_range : monthEnds.start < monthEnds.stop ∧
    ∃ inner periods, monthEnds.TilesRange inner periods :=
  ⟨by decide, dates_tile_range monthEnds (by decide)⟩

end Schedule

end PayoffPricing
