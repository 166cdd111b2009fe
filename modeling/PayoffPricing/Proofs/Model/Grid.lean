import PayoffPricing.Proofs.Exact
import PayoffPricing.Proofs.Likeness
import PayoffPricing.Proofs.Model.Modelling
import PayoffPricing.Model.LocalVol
/-!
Interpolation over a grid. A number has a place in the grid that does not depend on the table, so that in exact
arithmetic an interpolated value is a mean of two entries with weights that are the same for all tables.
-/

namespace PayoffPricing

open Modelling

namespace LocalVol

section Places

variable {R S T : Type} [Scalar R] {grid : Array R}

/-- A number that is strictly inside of a grid stands between two of its places. -/
theorem exists_place {v : R} (hpos : 0 < grid.size) (hfirst : grid[0] ≤ v) (hlast : ¬ grid[grid.size - 1] ≤ v) :
    ∃ i, ∃ h : i + 1 < grid.size,
      grid.findIdx (fun g => !decide (g ≤ v)) = i + 1 ∧ grid[i] ≤ v ∧ ¬ grid[i + 1] ≤ v := by
  have hlt : grid.findIdx (fun g => !decide (g ≤ v)) < grid.size := by
    refine Array.findIdx_lt_size_of_exists ⟨grid[grid.size - 1], Array.getElem_mem _, ?_⟩
    simpa using hlast
  have hfound := Array.findIdx_getElem (w := hlt)
  cases hplace : grid.findIdx (fun g => !decide (g ≤ v)) with
  | zero =>
    simp only [hplace] at hfound
    simp [hfirst] at hfound
  | succ i =>
    have hbefore := Array.not_of_lt_findIdx (show i < grid.findIdx (fun g => !decide (g ≤ v)) by omega)
    simp only [hplace] at hfound hlt
    refine ⟨i, hlt, rfl, ?_, ?_⟩
    · simpa using hbefore
    · simpa using hfound

variable [Quantity R S T]

/-- A mean of two quantities, by the place of a third one between two numbers. -/
def blend (left right : R) (a b x : T) : StateM S T := do
  let rise ← Quantity.sub b a
  let offset ← Quantity.subScalar x left
  let share ← Quantity.divScalar offset (right - left)
  Quantity.add a (← Quantity.mul rise share)

theorem interpolate_cases {values : Array T} (hpos : 0 < grid.size) (hsize : values.size = grid.size) {x : T} {v : R}
    (hv : Valued.value x = v) (hfirst : v ≤ grid[0] ∨ grid[0] ≤ v) :
    (v ≤ grid[0] ∧ ∃ y, values[0]? = some y ∧ (interpolate grid values x : Modelling R S T) = pure y) ∨
    (¬ v ≤ grid[0] ∧ grid[grid.size - 1] ≤ v ∧
      ∃ y, values[grid.size - 1]? = some y ∧ (interpolate grid values x : Modelling R S T) = pure y) ∨
    (¬ v ≤ grid[0] ∧ ∃ i, ∃ h : i + 1 < grid.size, grid[i] ≤ v ∧ ¬ grid[i + 1] ≤ v ∧
      ∃ a b, values[i]? = some a ∧ values[i + 1]? = some b ∧
        (interpolate grid values x : Modelling R S T) = record (blend grid[i] grid[i + 1] a b x)) := by
  have hget (i : Nat) (hi : i < grid.size) : ∃ y, values[i]? = some y := by
    have hi : i < values.size := hsize ▸ hi
    exact ⟨values[i], Array.getElem?_eq_getElem hi⟩
  have hread : grid[0]? = some grid[0] := Array.getElem?_eq_getElem hpos
  have hback : grid.back? = some (grid[grid.size - 1]) := by
    rw [Array.back?_eq_getElem?, Array.getElem?_eq_getElem]
  subst hv
  unfold interpolate
  simp only [hread, hback, read_some, pure_bind]
  by_cases hlow : Valued.value x ≤ grid[0]
  · obtain ⟨y, hy⟩ := hget 0 hpos
    refine .inl ⟨hlow, y, hy, ?_⟩
    rw [if_pos hlow, hy, read_some]
  by_cases hhigh : grid[grid.size - 1] ≤ Valued.value x
  · obtain ⟨y, hy⟩ := hget _ (Nat.sub_lt hpos one_pos)
    refine .inr (.inl ⟨hlow, hhigh, y, hy, ?_⟩)
    rw [if_neg hlow, if_pos hhigh, hy, read_some]
  · obtain ⟨i, hi, hplace, hleft, hright⟩ := exists_place hpos (hfirst.resolve_left hlow) hhigh
    obtain ⟨a, ha⟩ := hget i (Nat.lt_of_succ_lt hi)
    obtain ⟨b, hb⟩ := hget (i + 1) hi
    refine .inr (.inr ⟨hlow, i, hi, hleft, hright, a, b, ha, hb, ?_⟩)
    rw [if_neg hlow, if_neg hhigh, hplace]
    simp only [Array.getElem?_eq_getElem hi, Array.getElem?_eq_getElem (Nat.lt_of_succ_lt hi), ha, hb, read_some,
      pure_bind]
    rfl

theorem gives_interpolate {values : Array T} (hpos : 0 < grid.size) (hsize : values.size = grid.size) {x : T}
    (hfirst : Valued.value x ≤ grid[0] ∨ grid[0] ≤ Valued.value x) :
    Gives (interpolate grid values x : Modelling R S T) fun _ => True := by
  rcases interpolate_cases (S := S) hpos hsize rfl hfirst with
    ⟨-, y, -, hrun⟩ | ⟨-, -, y, -, hrun⟩ | ⟨-, i, hi, -, -, a, b, -, -, hrun⟩
  · rw [hrun]
    exact gives_pure trivial
  · rw [hrun]
    exact gives_pure trivial
  · rw [hrun]
    exact gives_record fun _ => trivial

/-- Numbers for which a grid has a place. -/
def Located (grid : Array R) (v : R) : Prop :=
  (∃ first ∈ grid[0]?, v ≤ first ∨ first ≤ v) ∨ ∃ last ∈ grid.back?, last ≤ v

theorem ends_interpolate {values : Array T} (hpos : 0 < grid.size) (hsize : values.size = grid.size)
    (x : T) : Ends (Located grid (Valued.value x)) (interpolate grid values x : Modelling R S T) fun _ => True := by
  have hread : grid[0]? = some grid[0] := Array.getElem?_eq_getElem hpos
  have hback : grid.back? = some (grid[grid.size - 1]) := by
    rw [Array.back?_eq_getElem?, Array.getElem?_eq_getElem]
  by_cases hplaced : Valued.value x ≤ grid[0] ∨ grid[0] ≤ Valued.value x
  · apply (gives_interpolate hpos hsize hplaced).ends.congr
    exact iff_of_true trivial (.inl ⟨grid[0], hread, hplaced⟩)
  obtain ⟨hlow, habove⟩ := not_or.1 hplaced
  unfold interpolate
  simp only [hread, hback, read_some, pure_bind]
  rw [if_neg hlow]
  by_cases hhigh : grid[grid.size - 1] ≤ Valued.value x
  · have hlast : grid.size - 1 < values.size := by omega
    rw [if_pos hhigh]
    apply (gives_read (Array.getElem?_eq_getElem hlast) trivial).ends.congr
    exact iff_of_true trivial (.inr ⟨_, hback, hhigh⟩)
  · -- nothing is known to be below the number, so the search stops at the first place
    have hplace : grid.findIdx (fun g => !decide (g ≤ Valued.value x)) = 0 := by
      by_contra hne
      have hfirst := Array.not_of_lt_findIdx (Nat.pos_of_ne_zero hne)
      simp [habove] at hfirst
    rw [if_neg hhigh, hplace]
    apply ends_throw.congr
    apply iff_of_false id
    rintro (⟨first, hfirst, hcompared⟩ | ⟨last, hlast, hle⟩)
    · obtain rfl := Option.some.inj (hread.symm.trans hfirst)
      exact hplaced hcompared
    · obtain rfl := Option.some.inj (hback.symm.trans hlast)
      exact hhigh hle

end Places

end LocalVol

/-- Quantities with the values of plain scalars, whatever is recorded. -/
class Transparent (R S T : Type) [Scalar R] [Quantity R S T] : Prop where
  value_constant (c : R) : (Valued.value (Valued.constant c : T) : R) = c
  value_add (x y : T) (s : S) :
    (Valued.value ((Quantity.add x y : StateM S T).run s).1 : R) = Valued.value x + Valued.value y
  value_sub (x y : T) (s : S) :
    (Valued.value ((Quantity.sub x y : StateM S T).run s).1 : R) = Valued.value x - Valued.value y
  value_mul (x y : T) (s : S) :
    (Valued.value ((Quantity.mul x y : StateM S T).run s).1 : R) = Valued.value x * Valued.value y
  value_subScalar (x : T) (c : R) (s : S) :
    (Valued.value ((Quantity.subScalar x c : StateM S T).run s).1 : R) = Valued.value x - c
  value_mulScalar (x : T) (c : R) (s : S) :
    (Valued.value ((Quantity.mulScalar x c : StateM S T).run s).1 : R) = Valued.value x * c
  value_divScalar (x : T) (c : R) (s : S) :
    (Valued.value ((Quantity.divScalar x c : StateM S T).run s).1 : R) = Valued.value x / c

instance {R : Type} [Scalar R] : Transparent R Unit R where
  value_constant _ := rfl
  value_add _ _ _ := rfl
  value_sub _ _ _ := rfl
  value_mul _ _ _ := rfl
  value_subScalar _ _ _ := rfl
  value_mulScalar _ _ _ := rfl
  value_divScalar _ _ _ := rfl

theorem Number.value_result {R : Type} [Scalar R] (value : R) (inputs : List (Edge R)) (t : Tape R) :
    ((Number.result value inputs).run t).1.value = value := by
  change (Number.result value inputs t).1.value = value
  unfold Number.result
  split <;> rfl

instance {R : Type} [Scalar R] : Transparent R (Tape R) (Number R) where
  value_constant _ := rfl
  value_add _ _ := Number.value_result _ _
  value_sub _ _ := Number.value_result _ _
  value_mul _ _ := Number.value_result _ _
  value_subScalar _ _ := Number.value_result _ _
  value_mulScalar _ _ := Number.value_result _ _
  value_divScalar _ _ := Number.value_result _ _

/-- A stand among `n` places: two of them, and how much the second one counts. -/
structure Stand (n : Nat) where
  low : Nat
  high : Nat
  share : ℝ
  low_lt : low < n
  high_lt : high < n
  share_nonneg : 0 ≤ share
  share_le_one : share ≤ 1

namespace Stand

variable {n : Nat}

def mix (p : Stand n) (f : Nat → ℝ) : ℝ := f p.low + (f p.high - f p.low) * p.share

theorem mix_mul (p : Stand n) (f : Nat → ℝ) (c : ℝ) : p.mix (fun i => f i * c) = p.mix f * c := by
  unfold mix
  ring

theorem mix_mem (p : Stand n) {f : Nat → ℝ} {a b : ℝ} (h : ∀ i < n, a ≤ f i ∧ f i ≤ b) : a ≤ p.mix f ∧ p.mix f ≤ b := by
  obtain ⟨hlow, hlow'⟩ := h p.low p.low_lt
  obtain ⟨hhigh, hhigh'⟩ := h p.high p.high_lt
  have hmix : p.mix f = (1 - p.share) * f p.low + p.share * f p.high := by
    unfold mix
    ring
  have hrest := sub_nonneg.2 p.share_le_one
  rw [hmix]
  constructor
  · linarith [mul_le_mul_of_nonneg_left hlow hrest, mul_le_mul_of_nonneg_left hhigh p.share_nonneg]
  · linarith [mul_le_mul_of_nonneg_left hlow' hrest, mul_le_mul_of_nonneg_left hhigh' p.share_nonneg]

def point (i : Nat) (hi : i < n) : Stand n := ⟨i, i, 0, hi, hi, le_rfl, zero_le_one⟩

@[simp]
theorem mix_point (i : Nat) (hi : i < n) (f : Nat → ℝ) : (point i hi).mix f = f i := by
  simp [mix, point]

end Stand

/-- The entries of a table have the values of a function. -/
def Reads {T : Type} [Valued ℝ T] (values : Array T) (n : Nat) (f : Nat → ℝ) : Prop :=
  values.size = n ∧ ∀ i y, values[i]? = some y → Valued.value y = f i

namespace LocalVol

variable {grid : Array ℝ}

theorem getElem_lt (h : grid.toList.Pairwise (· < ·)) {i j : Nat} (hij : i < j) (hj : j < grid.size) :
    grid[i] < grid[j] :=
  List.pairwise_iff_getElem.1 h i j (by simpa using hij.trans hj) (by simpa using hj) hij

theorem getElem_le (h : grid.toList.Pairwise (· < ·)) {i j : Nat} (hij : i ≤ j) (hj : j < grid.size) :
    grid[i] ≤ grid[j] := by
  rcases hij.eq_or_lt with rfl | hij
  · exact le_rfl
  · exact (getElem_lt h hij hj).le

theorem lt_of_getElem_lt (h : grid.toList.Pairwise (· < ·)) {i j : Nat} (hi : i < grid.size) {hj : j < grid.size}
    (hlt : grid[i] < grid[j]) : i < j := by
  by_contra hij
  exact hlt.not_ge (getElem_le h (not_lt.1 hij) hi)

theorem value_blend {S T : Type} [Quantity ℝ S T] [Transparent ℝ S T] (left right : ℝ) (a b x : T) (s : S) :
    Valued.value ((blend left right a b x : StateM S T).run s).1 = (Valued.value a : ℝ) +
      (Valued.value b - Valued.value a) * ((Valued.value x - left) / (right - left)) := by
  simp only [blend, StateT.run_bind]
  refine (Transparent.value_add _ _ _).trans ?_
  rw [Transparent.value_mul, Transparent.value_sub, Transparent.value_divScalar, Transparent.value_subScalar]

/-- A stand that suits a number: the edges of the grid stand for all that is beyond them, and nodes for themselves. -/
structure Suits (grid : Array ℝ) (v : ℝ) (p : Stand grid.size) : Prop where
  below : ∀ first ∈ grid[0]?, v ≤ first → ∀ f, p.mix f = f 0
  above : ∀ last ∈ grid.back?, last ≤ v → ∀ f, p.mix f = f (grid.size - 1)
  node : ∀ i, ∀ h : i < grid.size, grid[i] = v → ∀ f, p.mix f = f i

theorem eq_first (hpos : 0 < grid.size) {first : ℝ} (h : first ∈ grid[0]?) : first = grid[0] :=
  Option.some.inj (Option.mem_def.1 h ▸ Array.getElem?_eq_getElem hpos)

theorem eq_last (hpos : 0 < grid.size) {last : ℝ} (h : last ∈ grid.back?) : last = grid[grid.size - 1] := by
  rw [Array.back?_eq_getElem?, Array.getElem?_eq_getElem (Nat.sub_lt hpos one_pos)] at h
  exact (Option.some.inj h).symm

theorem suits_first (h : grid.toList.Pairwise (· < ·)) {v : ℝ} (hpos : 0 < grid.size) (hv : v ≤ grid[0]) :
    Suits grid v (.point 0 hpos) := by
  -- nothing of the grid is below the first place
  have hfirst {i : Nat} (hi : i < grid.size) (hle : grid[i] ≤ v) : i = 0 := by
    by_contra hne
    exact (getElem_lt h (Nat.pos_of_ne_zero hne) hi).not_ge (hle.trans hv)
  constructor
  · intro _ _ _ f
    rw [Stand.mix_point]
  · intro last hlast hle f
    rw [eq_last hpos hlast] at hle
    rw [Stand.mix_point, hfirst _ hle]
  · intro i hi heq f
    rw [Stand.mix_point, hfirst hi heq.le]

theorem suits_last (h : grid.toList.Pairwise (· < ·)) {v : ℝ} (hpos : 0 < grid.size) (hlow : ¬ v ≤ grid[0])
    (hv : grid[grid.size - 1] ≤ v) : Suits grid v (.point (grid.size - 1) (Nat.sub_lt hpos one_pos)) := by
  constructor
  · intro first hfirst hle
    rw [eq_first hpos hfirst] at hle
    exact absurd hle hlow
  · intro _ _ _ f
    rw [Stand.mix_point]
  · intro i hi heq f
    have hlast : ¬ i < grid.size - 1 := by
      intro hlt
      exact (getElem_lt h hlt (Nat.sub_lt hpos one_pos)).not_ge (heq ▸ hv)
    rw [Stand.mix_point, show i = grid.size - 1 by omega]

noncomputable def between (v : ℝ) (i : Nat) (hi : i + 1 < grid.size) (hleft : grid[i] ≤ v) (hright : v < grid[i + 1]) :
    Stand grid.size where
  low := i
  high := i + 1
  share := (v - grid[i]) / (grid[i + 1] - grid[i])
  low_lt := Nat.lt_of_succ_lt hi
  high_lt := hi
  share_nonneg := div_nonneg (sub_nonneg.2 hleft) (sub_nonneg.2 (hleft.trans hright.le))
  share_le_one := (div_le_one (sub_pos.2 (hleft.trans_lt hright))).2 (sub_le_sub_right hright.le _)

theorem suits_between (h : grid.toList.Pairwise (· < ·)) {v : ℝ} (hpos : 0 < grid.size) (hlow : ¬ v ≤ grid[0]) {i : Nat}
    (hi : i + 1 < grid.size) (hleft : grid[i] ≤ v) (hright : v < grid[i + 1]) :
    Suits grid v (between v i hi hleft hright) := by
  constructor
  · intro first hfirst hle
    rw [eq_first hpos hfirst] at hle
    exact absurd hle hlow
  · intro last hlast hle
    rw [eq_last hpos hlast] at hle
    exact absurd (hright.trans_le (getElem_le h (Nat.le_sub_one_of_lt hi) (Nat.sub_lt hpos one_pos))) hle.not_gt
  · intro j hj heq f
    have hle : i ≤ j := by
      by_contra hlt
      exact (getElem_lt h (not_le.1 hlt) (Nat.lt_of_succ_lt hi)).not_ge (heq ▸ hleft)
    have hlt : j < i + 1 := lt_of_getElem_lt h hj (heq ▸ hright)
    obtain rfl : i = j := by omega
    simp [Stand.mix, between, heq]

/-- The stand of a number serves every table, whatever is recorded. -/
theorem exists_stand (h : grid.toList.Pairwise (· < ·)) (hpos : 0 < grid.size) (v : ℝ) : ∃ p : Stand grid.size,
    Suits grid v p ∧ ∀ {S T : Type} [Quantity ℝ S T] [Transparent ℝ S T] {values : Array T} {f : Nat → ℝ} {x : T},
      Reads values grid.size f → Valued.value x = v →
        Gives (interpolate grid values x : Modelling ℝ S T) fun y => Valued.value y = p.mix f := by
  by_cases hlow : v ≤ grid[0]
  · refine ⟨.point 0 hpos, suits_first h hpos hlow, ?_⟩
    intro S T _ _ values f x hreads hx
    rcases interpolate_cases (S := S) hpos hreads.1 hx (.inl hlow) with ⟨-, y, hy, hrun⟩ | ⟨hlow', -⟩ | ⟨hlow', -⟩
    · rw [hrun, Stand.mix_point]
      exact gives_pure (hreads.2 0 y hy)
    · exact absurd hlow hlow'
    · exact absurd hlow hlow'
  have hfirst := (not_le.1 hlow).le
  by_cases hhigh : grid[grid.size - 1] ≤ v
  · refine ⟨.point _ (Nat.sub_lt hpos one_pos), suits_last h hpos hlow hhigh, ?_⟩
    intro S T _ _ values f x hreads hx
    rcases interpolate_cases (S := S) hpos hreads.1 hx (.inr hfirst) with
      ⟨hlow', -⟩ | ⟨-, -, y, hy, hrun⟩ | ⟨-, i, hi, -, hright, -⟩
    · exact absurd hlow' hlow
    · rw [hrun, Stand.mix_point]
      exact gives_pure (hreads.2 _ y hy)
    · exact absurd ((getElem_le h (Nat.le_sub_one_of_lt hi) (Nat.sub_lt hpos one_pos)).trans hhigh) hright
  · obtain ⟨i, hi, -, hleft, hright⟩ := exists_place hpos hfirst hhigh
    refine ⟨between v i hi hleft (not_le.1 hright), suits_between h hpos hlow hi hleft _, ?_⟩
    intro S T _ _ values f x hreads hx
    rcases interpolate_cases (S := S) hpos hreads.1 hx (.inr hfirst) with
      ⟨hlow', -⟩ | ⟨-, hhigh', -⟩ | ⟨-, j, hj, hleft', hright', a, b, ha, hb, hrun⟩
    · exact absurd hlow' hlow
    · exact absurd hhigh' hhigh
    · -- a number is between two places that follow each other only once
      have hle : i < j + 1 := lt_of_getElem_lt h (Nat.lt_of_succ_lt hi) (hleft.trans_lt (not_le.1 hright'))
      have hge : j < i + 1 := lt_of_getElem_lt h (Nat.lt_of_succ_lt hj) (hleft'.trans_lt (not_le.1 hright))
      obtain rfl : i = j := by omega
      rw [hrun]
      apply gives_record
      intro s
      rw [value_blend, hreads.2 _ a ha, hreads.2 _ b hb, hx]
      rfl

end LocalVol

end PayoffPricing
