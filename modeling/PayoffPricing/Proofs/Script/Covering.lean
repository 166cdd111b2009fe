import Mathlib
import PayoffPricing.Proofs.Script.Insertion
/-!
What domains lose. Of two ends within the tolerance of each other a merge keeps the one of the interval that is put in,
so that the end of an interval moves by up to the tolerance at every merge. Nothing is lost beyond what is within the
tolerance of a domain as long as ends that are within the tolerance of a third are so of each other.
-/

namespace PayoffPricing.Script

variable {R : Type} [ExactScalar R]

namespace Bound

variable {u v w : R} {s : Set R}

theorem tolerance_eq : (tolerance : R) = (10 ^ 12)⁻¹ := by
  have h : (tolerance : R) = (1 : ℕ) * 10 ^ (-(12 : ℤ)) := ExactScalar.ofDecimal_eq 1 (-12)
  rw [h]
  norm_num

theorem isBelow_finite : (finite u).isBelow (finite v) = false ↔ v ≤ u + tolerance := by
  simp only [isBelow, decide_eq_false_iff_not, not_lt, sub_le_iff_le_add]

theorem min_finite (u v : R) : (finite u).min (finite v) = finite u ∧ u ≤ v + tolerance ∨
    (finite u).min (finite v) = finite v ∧ v < u - tolerance := by
  rcases min_cases (finite u) (finite v) with ⟨h, hbelow⟩ | ⟨h, hbelow⟩
  · exact .inl ⟨h, isBelow_finite.1 hbelow⟩
  · exact .inr ⟨h, of_decide_eq_true hbelow⟩

theorem max_finite (u v : R) : (finite u).max (finite v) = finite u ∧ v ≤ u + tolerance ∨
    (finite u).max (finite v) = finite v ∧ u < v - tolerance := by
  rcases max_cases (finite u) (finite v) with ⟨h, hbelow⟩ | ⟨h, hbelow⟩
  · exact .inl ⟨h, isBelow_finite.1 hbelow⟩
  · exact .inr ⟨h, of_decide_eq_true hbelow⟩

/-- Numbers of the set that are within the tolerance of a third one of it are so of each other. -/
def Consistent (s : Set R) : Prop :=
  ∀ ⦃u v w : R⦄, u ∈ s → v ∈ s → w ∈ s → |u - v| ≤ tolerance → |v - w| ≤ tolerance → |u - w| ≤ tolerance

/-- Among consistent numbers it is transitive not to be above another one by more than the tolerance. -/
theorem Consistent.le (hs : Consistent s) (hu : u ∈ s) (hv : v ∈ s) (hw : w ∈ s)
    (huv : u ≤ v + tolerance) (hvw : v ≤ w + tolerance) : u ≤ w + tolerance := by
  by_contra! hlt
  have huv' : |u - v| ≤ tolerance := abs_le.2 ⟨by linarith, by linarith⟩
  have hvw' : |v - w| ≤ tolerance := abs_le.2 ⟨by linarith, by linarith⟩
  have huw : u - w ≤ tolerance := (le_abs_self _).trans (hs hu hv hw huv' hvw')
  linarith

end Bound

open PayoffPricing.Script.Bound

namespace Interval

variable {a b c : Interval R} {slack u v x y : R} {lefts rights : Set R}

/-- Two finite ends that do not cross, the left one of the first set and the right one of the second. -/
def Spans (lefts rights : Set R) (a : Interval R) : Prop :=
  ∃ u ∈ lefts, ∃ v ∈ rights, u ≤ v ∧ a = ⟨.finite u, .finite v⟩

theorem Spans.merge (ha : a.Spans lefts rights) (hb : b.Spans lefts rights) : (a.merge b).Spans lefts rights := by
  obtain ⟨u, hu, v, hv, huv, rfl⟩ := ha
  obtain ⟨u', hu', v', hv', huv', rfl⟩ := hb
  have hpos : (0 : R) < tolerance := tolerance_pos
  unfold Interval.merge
  rcases min_finite u u' with ⟨hl, hleft⟩ | ⟨hl, hleft⟩ <;> rcases max_finite v v' with ⟨hr, hright⟩ | ⟨hr, hright⟩ <;>
    simp only [hl, hr]
  · exact ⟨u, hu, v, hv, huv, rfl⟩
  · exact ⟨u, hu, v', hv', by linarith, rfl⟩
  · exact ⟨u', hu', v, hv, by linarith, rfl⟩
  · exact ⟨u', hu', v', hv', huv', rfl⟩

/-- Up to the slack on either side, the interval reaches from the one number to the other. -/
def Reaches (slack : R) (a : Interval R) (x y : R) : Prop := a.left.IsLower (x + slack) ∧ a.right.IsUpper (y - slack)

theorem Reaches.mono {slack' x' y' : R} (h : a.Reaches slack x y) (hx : x + slack ≤ x' + slack')
    (hy : y' - slack' ≤ y - slack) : a.Reaches slack' x' y' := ⟨h.1.monotone hx, h.2.antitone hy⟩

theorem includes_of_reaches (ha : a.Spans lefts rights) (h : a.Reaches tolerance x x) : a.includes x = true := by
  obtain ⟨u, -, v, -, -, rfl⟩ := ha
  obtain ⟨hl, hr⟩ := h
  simp only [IsLower, IsUpper] at hl hr
  simp only [includes, Bool.and_eq_true, Bool.not_eq_true', isBelow_finite]
  exact ⟨hl, by linarith⟩

theorem Reaches.merge_left (ha : a.Spans lefts rights) (hb : b.Spans lefts rights) (h : a.Reaches slack x y) :
    (a.merge b).Reaches slack x y := by
  obtain ⟨u, -, v, -, -, rfl⟩ := ha
  obtain ⟨u', -, v', -, -, rfl⟩ := hb
  obtain ⟨hl, hr⟩ := h
  have hpos : (0 : R) < tolerance := tolerance_pos
  unfold Interval.merge
  constructor
  · rcases min_finite u u' with ⟨h, hleft⟩ | ⟨h, hleft⟩ <;> simp only [h, IsLower] at hl ⊢
    · exact hl
    · linarith
  · rcases max_finite v v' with ⟨h, hright⟩ | ⟨h, hright⟩ <;> simp only [h, IsUpper] at hr ⊢
    · exact hr
    · linarith

theorem Reaches.merge_right (ha : a.Spans lefts rights) (hb : b.Spans lefts rights) (h : b.Reaches slack x y) :
    (a.merge b).Reaches (slack + tolerance) x y := by
  obtain ⟨u, -, v, -, -, rfl⟩ := ha
  obtain ⟨u', -, v', -, -, rfl⟩ := hb
  obtain ⟨hl, hr⟩ := h
  have hpos : (0 : R) < tolerance := tolerance_pos
  unfold Interval.merge
  constructor
  · rcases min_finite u u' with ⟨h, hleft⟩ | ⟨h, hleft⟩ <;> simp only [h, IsLower] at hl ⊢ <;> linarith
  · rcases max_finite v v' with ⟨h, hright⟩ | ⟨h, hright⟩ <;> simp only [h, IsUpper] at hr ⊢ <;> linarith

/-- Among consistent ends nothing moves further than the tolerance. -/
theorem Reaches.merge_right_of_consistent (hlefts : Consistent lefts) (hrights : Consistent rights)
    (ha : a.Spans lefts rights) (hb : b.Spans lefts rights) (hx : x ∈ lefts) (hy : y ∈ rights)
    (h : b.Reaches tolerance x y) : (a.merge b).Reaches tolerance x y := by
  obtain ⟨u, hu, v, hv, -, rfl⟩ := ha
  obtain ⟨u', hu', v', hv', -, rfl⟩ := hb
  obtain ⟨hl, hr⟩ := h
  unfold Interval.merge
  constructor
  · rcases min_finite u u' with ⟨h, hleft⟩ | ⟨h, hleft⟩ <;> simp only [h, IsLower] at hl ⊢
    · exact hlefts.le hu hu' hx hleft hl
    · exact hl
  · rcases max_finite v v' with ⟨h, hright⟩ | ⟨h, hright⟩ <;> simp only [h, IsUpper] at hr ⊢
    · have hle : y ≤ v + tolerance := hrights.le hy hv' hv (by linarith) hright
      linarith
    · exact hr

end Interval

namespace Domain

open PayoffPricing.Script.Interval

variable {a b : Interval R} {others : List (Interval R)} {result : Interval R × List (Interval R)} {n k m : ℕ}
  {lefts rights : Set R} {P : ℕ → Interval R → Prop}

/-- A property of intervals, the weaker the higher its index, that a merge keeps of the interval that is put in. Of the
interval in the domain it keeps the next weaker one. -/
structure Carried (lefts rights : Set R) (P : ℕ → Interval R → Prop) : Prop where
  weaken {k : ℕ} {a : Interval R} : P k a → P (k + 1) a
  left {k : ℕ} {a b : Interval R} : a.Spans lefts rights → b.Spans lefts rights → P k a → P k (a.merge b)
  right {k : ℕ} {a b : Interval R} : a.Spans lefts rights → b.Spans lefts rights → P k b → P (k + 1) (a.merge b)

theorem Carried.mono (hP : Carried lefts rights P) (hkm : k ≤ m) (h : P k a) : P m a := by
  induction hkm with
  | refl => exact h
  | step _ ih => exact hP.weaken ih

theorem Merges.length_eq (h : Merges n a others result) : n + result.2.length = others.length := by
  induction h with
  | done _ => exact Nat.zero_add _
  | turn hfind _ ih =>
    have hlength := (perm_of_find? hfind).length_eq
    rw [List.length_cons] at hlength
    omega

/-- After a number of turns the property is weaker by as many steps. -/
theorem Carried.merges (hP : Carried lefts rights P) (h : Merges n a others result) (ha : a.Spans lefts rights)
    (ho : ∀ b ∈ others, b.Spans lefts rights) (k : ℕ) :
    (P k a → P (k + n) result.1) ∧ ∀ b ∈ others, P k b → ∃ c ∈ result.1 :: result.2, P (k + n) c := by
  induction h generalizing k with
  | done _ => exact ⟨id, fun b hb h => ⟨b, List.mem_cons_of_mem _ hb, h⟩⟩
  | @turn n a b others result hfind _ ih =>
    have hb := ho b (List.mem_of_find?_eq_some hfind)
    have hrest : ∀ c ∈ others.eraseP (fun b => b.intersects a), c.Spans lefts rights :=
      fun c hc => ho c (List.eraseP_subset hc)
    have hnext : k + 1 + n = k + (n + 1) := by omega
    constructor
    · intro h
      rw [← hnext]
      exact (ih (ha.merge hb) hrest (k + 1)).1 (hP.weaken (hP.left ha hb h))
    · intro c hc h
      rw [← hnext]
      rcases List.mem_cons.1 ((perm_of_find? hfind).mem_iff.2 hc) with rfl | hc
      · exact ⟨result.1, List.mem_cons_self, (ih (ha.merge hb) hrest (k + 1)).1 (hP.right ha hb h)⟩
      · exact (ih (ha.merge hb) hrest (k + 1)).2 c hc (hP.weaken h)

theorem exists_merges_insert (d : Domain R) (ha : a.Spans lefts rights) :
    ∃ n result, Merges n a d.intervals result ∧ (d.insert a).intervals.Perm (result.1 :: result.2) := by
  obtain ⟨u, -, v, -, -, rfl⟩ := ha
  obtain ⟨n, -, h⟩ := merges_absorb (⟨.finite u, .finite v⟩ : Interval R) d.intervals
  exact ⟨n, _, h, perm_place _ _⟩

/-- The domain has taken in a list of intervals, and each of `k` merges has made one interval of two. -/
structure Holds (lefts rights : Set R) (added : List (Interval R)) (k : ℕ) (d : Domain R) : Prop where
  spans : ∀ b ∈ d.intervals, b.Spans lefts rights
  length : k + d.intervals.length = added.length
  carried : ∀ {P : ℕ → Interval R → Prop}, Carried lefts rights P → ∀ b ∈ added, P 0 b → ∃ c ∈ d.intervals, P k c

theorem Holds.insert {added : List (Interval R)} {d : Domain R} (h : Holds lefts rights added k d)
    (ha : a.Spans lefts rights) : ∃ m, Holds lefts rights (added ++ [a]) m (d.insert a) := by
  obtain ⟨n, result, hmerges, hperm⟩ := exists_merges_insert d ha
  refine ⟨k + n, ?_, ?_, ?_⟩
  · intro b hb
    rcases List.mem_cons.1 (hperm.mem_iff.1 hb) with rfl | hb
    · exact hmerges.keeps Spans.merge ha h.spans
    · exact h.spans b (hmerges.sublist.subset hb)
  · have hmerged := hmerges.length_eq
    have hlength := h.length
    rw [hperm.length_eq, List.length_cons, List.length_append, List.length_singleton]
    omega
  · intro P hP b hb hb0
    obtain ⟨hnew, hold⟩ := hP.merges hmerges ha h.spans k
    rcases List.mem_append.1 hb with hb | hb
    · obtain ⟨c, hc, hck⟩ := h.carried hP b hb hb0
      obtain ⟨c', hc', hc'k⟩ := hold c hc hck
      exact ⟨c', hperm.mem_iff.2 hc', hc'k⟩
    · obtain rfl := List.mem_singleton.1 hb
      exact ⟨result.1, hperm.mem_iff.2 List.mem_cons_self, hnew (hP.mono (Nat.zero_le k) hb0)⟩

theorem exists_holds {l : List (Interval R)} (hl : ∀ a ∈ l, a.Spans lefts rights) :
    ∃ k, Holds lefts rights l k (ofIntervals l) := by
  induction l using List.reverseRecOn with
  | nil => exact ⟨0, List.forall_mem_nil _, rfl, fun _ => List.forall_mem_nil _⟩
  | append_singleton l a ih =>
    obtain ⟨k, h⟩ := ih fun b hb => hl b (List.mem_append_left _ hb)
    have hinsert : ofIntervals (l ++ [a]) = (ofIntervals l).insert a := List.foldl_concat ..
    rw [hinsert]
    exact h.insert (hl a (List.mem_append_right _ (List.mem_singleton_self a)))

theorem succ_mul_tolerance (k : ℕ) : ((k + 1 : ℕ) : R) * tolerance = k * tolerance + tolerance := by
  push_cast
  ring

/-- Every merge may move an end by the tolerance. -/
theorem carried_reaches (x y : R) : Carried lefts rights fun k a => a.Reaches ((k : R) * tolerance) x y where
  weaken {k a} h := by
    have hpos : (0 : R) < tolerance := tolerance_pos
    have hslack := succ_mul_tolerance (R := R) k
    exact h.mono (by linarith) (by linarith)
  left := Reaches.merge_left
  right {k a b} ha hb h := by
    rw [succ_mul_tolerance]
    exact h.merge_right ha hb

theorem carried_reaches_of_consistent (hlefts : Consistent lefts) (hrights : Consistent rights) {x y : R}
    (hx : x ∈ lefts) (hy : y ∈ rights) : Carried lefts rights fun _ a => a.Reaches tolerance x y where
  weaken h := h
  left := Reaches.merge_left
  right ha hb h := h.merge_right_of_consistent hlefts hrights ha hb hx hy

/-- Whatever finite intervals are put into the empty domain one by one, no element of any of them ends up further from
the domain than the tolerance for each merge, of which every one has made one interval of two. Where all left ends and
all right ends are consistent, the domain includes all elements. -/
theorem domains_keep_what_is_added {l : List (Interval R)} (hl : ∀ a ∈ l, a.Spans lefts rights) :
    (∃ k, k + (ofIntervals l).intervals.length = l.length ∧ ∀ a ∈ l, ∀ x, a.Has x →
      ∃ b ∈ (ofIntervals l).intervals, b.Reaches ((k : R) * tolerance) x x) ∧
    (Consistent lefts → Consistent rights → ∀ a ∈ l, ∀ x, a.Has x → (ofIntervals l).includes x = true) := by
  obtain ⟨k, h⟩ := exists_holds hl
  refine ⟨⟨k, h.length, ?_⟩, ?_⟩
  · intro a ha x hx
    apply h.carried (carried_reaches x x) a ha
    rw [Nat.cast_zero, zero_mul]
    exact ⟨hx.1.monotone (add_zero x).ge, hx.2.antitone (sub_zero x).le⟩
  · intro hlefts hrights a ha x hx
    obtain ⟨u, hu, v, hv, -, rfl⟩ := hl a ha
    have hpos : (0 : R) < tolerance := tolerance_pos
    have hself : (⟨.finite u, .finite v⟩ : Interval R).Reaches tolerance u v :=
      ⟨(le_add_of_nonneg_right hpos.le : u ≤ u + tolerance), (sub_le_self v hpos.le : v - tolerance ≤ v)⟩
    obtain ⟨b, hb, hreaches⟩ := h.carried (carried_reaches_of_consistent hlefts hrights hu hv) _ ha hself
    obtain ⟨hux, hxv⟩ := hx
    simp only [IsLower, IsUpper] at hux hxv
    refine List.any_eq_true.2 ⟨b, hb, includes_of_reaches (h.spans b hb) (hreaches.mono ?_ ?_)⟩
    · linarith
    · linarith

section Whole

/-- Whole numbers are further apart than the tolerance. -/
theorem consistent_natCast : Consistent (Set.range ((↑) : ℕ → R)) := by
  have heq : ∀ m n : ℕ, |(m : R) - n| ≤ tolerance → m = n := by
    intro m n h
    have hlt : |(m : ℤ) - n| < 1 := by
      have hcast : ((|(m : ℤ) - n| : ℤ) : R) < (1 : ℤ) := by
        push_cast
        exact h.trans_lt tolerance_lt_one
      exact Int.cast_lt.1 hcast
    have hbounds := abs_lt.1 hlt
    omega
  rintro _ _ _ ⟨m, rfl⟩ ⟨n, rfl⟩ ⟨k, rfl⟩ hmn hnk
  rwa [heq m n hmn]

/-- Three intervals between whole numbers, of which the last one meets the first one only. -/
def wholeIntervals : List (Interval R) :=
  [⟨.finite (0 : ℕ), .finite (2 : ℕ)⟩, ⟨.finite (4 : ℕ), .finite (5 : ℕ)⟩, ⟨.finite (1 : ℕ), .finite (3 : ℕ)⟩]

theorem domains_keep_what_is_added_whole :
    (∀ a ∈ (wholeIntervals : List (Interval ℝ)), a.Spans (Set.range Nat.cast) (Set.range Nat.cast)) ∧
      Consistent (Set.range (Nat.cast : ℕ → ℝ)) ∧
      ∀ a ∈ (wholeIntervals : List (Interval ℝ)), ∀ x, a.Has x → (ofIntervals wholeIntervals).includes x = true := by
  have hspans : ∀ m n : ℕ, m ≤ n →
      (⟨.finite (m : ℝ), .finite (n : ℝ)⟩ : Interval ℝ).Spans (Set.range Nat.cast) (Set.range Nat.cast) :=
    fun m n hmn => ⟨m, ⟨m, rfl⟩, n, ⟨n, rfl⟩, Nat.cast_le.2 hmn, rfl⟩
  have hall : ∀ a ∈ (wholeIntervals : List (Interval ℝ)), a.Spans (Set.range Nat.cast) (Set.range Nat.cast) := by
    simp only [wholeIntervals, List.forall_mem_cons]
    exact ⟨hspans 0 2 (by decide), hspans 4 5 (by decide), hspans 1 3 (by decide), List.forall_mem_nil _⟩
  exact ⟨hall, consistent_natCast, (domains_keep_what_is_added hall).2 consistent_natCast consistent_natCast⟩

end Whole

section Drift

variable {u v w r : R}

theorem insert_empty (ha : a.Spans lefts rights) : empty.insert a = ofInterval a := by
  obtain ⟨n, result, hmerges, hperm⟩ := exists_merges_insert empty ha
  cases hmerges with
  | done _ => exact congrArg Domain.mk (List.perm_singleton.1 hperm)
  | turn hfind _ => cases hfind

theorem insert_of_intersects (ha : a.Spans lefts rights) (h : b.intersects a = true) :
    (ofInterval b).insert a = ofInterval (a.merge b) := by
  obtain ⟨n, result, hmerges, hperm⟩ := exists_merges_insert (ofInterval b) ha
  cases hmerges with
  | done hapart =>
    rw [hapart b (List.mem_singleton_self b)] at h
    cases h
  | turn hfind hrest =>
    have hfirst : ((ofInterval b).intervals.find? fun c => c.intersects a) = some b := List.find?_cons_of_pos h
    rw [hfirst] at hfind
    cases hfind
    have hnone : (ofInterval b).intervals.eraseP (fun c => c.intersects a) = [] := List.eraseP_cons_of_pos h
    rw [hnone] at hrest
    cases hrest with
    | done _ => exact congrArg Domain.mk (List.perm_singleton.1 hperm)
    | turn hfind _ => cases hfind

/-- An interval that starts a little later takes the place of one with the same right end. -/
theorem insert_drift (huv : u ≤ v) (hv : v ≤ u + tolerance) (hvr : v ≤ r) :
    (ofInterval ⟨.finite u, .finite r⟩).insert ⟨.finite v, .finite r⟩ = ofInterval ⟨.finite v, .finite r⟩ := by
  have hpos : (0 : R) < tolerance := tolerance_pos
  have hspans : (⟨.finite v, .finite r⟩ : Interval R).Spans Set.univ Set.univ :=
    ⟨v, trivial, r, trivial, hvr, rfl⟩
  have hmin : (finite v).min (finite u) = finite v := by
    rcases min_finite v u with ⟨h, -⟩ | ⟨-, h⟩
    · exact h
    · linarith
  have hself : (finite r).max (finite r) = finite r := by
    rcases max_eq (finite r) (finite r) with h | h <;> exact h
  rw [insert_of_intersects hspans, Interval.merge, hmin, hself]
  have hmin' : (finite r).min (finite r) = finite r := by
    rcases min_eq (finite r) (finite r) with h | h <;> exact h
  simp only [intersects, hmin', Bool.not_eq_true']
  rcases max_eq (finite u) (finite v) with h | h <;> rw [h, isBelow_finite] <;> linarith

/-- Of three left ends, each within the tolerance of the one before, the last one is left over. -/
theorem includes_drift (huv : u ≤ v) (hvw : v ≤ w) (hwr : w ≤ r) (hv : v ≤ u + tolerance) (hw : w ≤ v + tolerance)
    (huw : u + tolerance < w) : (ofIntervals [⟨.finite u, .finite r⟩, ⟨.finite v, .finite r⟩,
      ⟨.finite w, .finite r⟩]).includes u = false := by
  have hspans : (⟨.finite u, .finite r⟩ : Interval R).Spans Set.univ Set.univ :=
    ⟨u, trivial, r, trivial, by linarith, rfl⟩
  have hleft : ofIntervals [⟨.finite u, .finite r⟩, ⟨.finite v, .finite r⟩, ⟨.finite w, .finite r⟩] =
      ofInterval (⟨.finite w, .finite r⟩ : Interval R) := by
    simp only [ofIntervals, insertAll, List.foldl_cons, List.foldl_nil]
    rw [insert_empty hspans, insert_drift huv hv (by linarith), insert_drift hvw hw hwr]
  have hbelow : (finite u).isBelow (finite w) = true := by
    rw [← Bool.not_eq_false, isBelow_finite]
    linarith
  simp only [hleft, includes, ofInterval, List.any_cons, List.any_nil, Interval.includes, hbelow, Bool.not_true,
    Bool.false_and, Bool.or_false]

end Drift

/-- Consistency is what it takes: over other ends some intervals lose an element. -/
theorem consistent_of_includes {ends : Set R} (h : ∀ l : List (Interval R), (∀ a ∈ l, a.Spans ends ends) →
    ∀ a ∈ l, ∀ x, a.Has x → (ofIntervals l).includes x = true) : Consistent ends := by
  have hle : ∀ u ∈ ends, ∀ v ∈ ends, ∀ w ∈ ends, |u - v| ≤ tolerance → |v - w| ≤ tolerance → w - u ≤ tolerance := by
    intro u hu v hv w hw huv hvw
    by_contra! hlt
    have huv' := abs_le.1 huv
    have hvw' := abs_le.1 hvw
    have hu_v : u ≤ v := by linarith
    have hv_w : v ≤ w := by linarith
    have hlost := includes_drift hu_v hv_w le_rfl (by linarith) (by linarith) (by linarith)
    have hhas : (⟨.finite u, .finite w⟩ : Interval R).Has u := ⟨le_refl u, hu_v.trans hv_w⟩
    rw [h _ ?_ _ List.mem_cons_self u hhas] at hlost
    · cases hlost
    · simp only [List.forall_mem_cons]
      exact ⟨⟨u, hu, w, hw, hu_v.trans hv_w, rfl⟩, ⟨v, hv, w, hw, hv_w, rfl⟩, ⟨w, hw, w, hw, le_rfl, rfl⟩,
        List.forall_mem_nil _⟩
  intro u v w hu hv hw huv hvw
  have huw := hle u hu v hv w hw huv hvw
  have hwu := hle w hw v hv u hu (abs_sub_comm v w ▸ hvw) (abs_sub_comm u v ▸ huv)
  exact abs_le.2 ⟨by linarith, by linarith⟩

/-- Three intervals with one right end, each of which starts within the tolerance of the one before. -/
def driftingIntervals {S : Type} [Scalar S] : List (Interval S) :=
  [⟨.finite 0, .finite 1⟩, ⟨.finite 9e-13, .finite 1⟩, ⟨.finite 1.8e-12, .finite 1⟩]

theorem driftingIntervals_eq : (driftingIntervals : List (Interval R)) =
    [⟨.finite 0, .finite 1⟩, ⟨.finite ((9 : ℕ) * 10 ^ (-13 : ℤ)), .finite 1⟩,
      ⟨.finite ((18 : ℕ) * 10 ^ (-13 : ℤ)), .finite 1⟩] := by
  rw [← ExactScalar.ofDecimal_eq, ← ExactScalar.ofDecimal_eq, ← scalar_zero, ← scalar_one]
  rfl

/-- The first element of the first interval is lost. -/
theorem driftingIntervals_lose_zero :
    (∀ a ∈ (driftingIntervals : List (Interval ℝ)), a.Spans Set.univ Set.univ) ∧
      (∃ a ∈ (driftingIntervals : List (Interval ℝ)), a.Has 0) ∧
      (ofIntervals (driftingIntervals : List (Interval ℝ))).includes 0 = false := by
  rw [driftingIntervals_eq]
  refine ⟨?_, ⟨_, List.mem_cons_self, ?_⟩, ?_⟩
  · simp only [List.forall_mem_cons]
    refine ⟨⟨0, trivial, 1, trivial, ?_, rfl⟩, ⟨_, trivial, 1, trivial, ?_, rfl⟩, ⟨_, trivial, 1, trivial, ?_, rfl⟩,
      List.forall_mem_nil _⟩ <;> norm_num
  · exact ⟨le_refl 0, zero_le_one⟩
  · apply includes_drift <;> norm_num [tolerance_eq]

end Domain

end PayoffPricing.Script
