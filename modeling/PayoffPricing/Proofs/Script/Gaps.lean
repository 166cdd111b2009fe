import Mathlib
import PayoffPricing.Proofs.Script.Degrees
import PayoffPricing.Proofs.Script.Folding
import PayoffPricing.Proofs.Script.Insertion
/-!
Discrete windows. Between the ends of the window that analysis notes at a discrete comparison, a tidy domain has
nothing but perhaps zero, so that smoothing gives the comparison the degree one or zero, as it holds or not.
-/

namespace PayoffPricing.Script

section Lists

variable {α : Type} {P : α → α → Prop} {l : List α} {a b : α}

theorem pairwise_trichotomy (hl : l.Pairwise P) (ha : a ∈ l) (hb : b ∈ l) : a = b ∨ P a b ∨ P b a := by
  let Either : α → α → Prop := fun x y => P x y ∨ P y x
  have hsymm : Std.Symm Either := ⟨fun _ _ => Or.symm⟩
  have heither : l.Pairwise Either := hl.imp Or.inl
  by_cases hab : a = b
  · exact .inl hab
  · exact .inr (heither.forall ha hb hab)

theorem find?_of_pairwise {p : α → Bool} (hl : l.Pairwise P) (ha : a ∈ l) (hp : p a = true) :
    ∃ b, l.find? p = some b ∧ p b = true ∧ (b = a ∨ P b a) := by
  induction l with
  | nil => contradiction
  | cons c l ih =>
    rw [List.pairwise_cons] at hl
    by_cases hc : p c = true
    · refine ⟨c, List.find?_cons_of_pos hc, hc, ?_⟩
      rcases List.mem_cons.1 ha with rfl | ha
      · exact .inl rfl
      · exact .inr (hl.1 a ha)
    · have ha' : a ∈ l := by
        rcases List.mem_cons.1 ha with rfl | ha
        · contradiction
        · exact ha
      obtain ⟨b, hb, h⟩ := ih hl.2 ha'
      exact ⟨b, (List.find?_cons_of_neg hc).trans hb, h⟩

theorem head?_of_pairwise (hl : l.Pairwise P) (ha : a ∈ l) : ∃ b, l.head? = some b ∧ (b = a ∨ P b a) := by
  cases l with
  | nil => contradiction
  | cons c l =>
    refine ⟨c, rfl, ?_⟩
    rcases List.mem_cons.1 ha with rfl | ha
    · exact .inl rfl
    · exact .inr ((List.pairwise_cons.1 hl).1 a ha)

end Lists

variable {R : Type} [ExactScalar R]

namespace Bound

variable {b : Bound R} {y : R}

theorem defined (b : Bound R) : b.Defined := by
  cases b with
  | finite v => exact isUndefined_exact v
  | _ => trivial

theorem lt_of_zero_isBelow (h : (finite 0).isBelow b = true) (hy : b.IsLower y) : tolerance < y := by
  cases b with
  | minusInfinity => contradiction
  | finite v =>
    simp only [isBelow, decide_eq_true_eq] at h
    exact (sub_pos.1 h).trans_le hy
  | plusInfinity => exact hy.elim

theorem lt_of_isBelow_zero (h : b.isBelow (finite 0) = true) (hy : b.IsUpper y) : y < -tolerance := by
  cases b with
  | minusInfinity => exact hy.elim
  | finite v =>
    simp only [isBelow, decide_eq_true_eq, zero_sub] at h
    exact lt_of_le_of_lt hy h
  | plusInfinity => contradiction

theorem isNegative_of_zero_isBelow (h : (finite 0).isBelow b = true) : b.isNegative false = false := by
  cases b with
  | minusInfinity => contradiction
  | finite v =>
    simp only [isBelow, decide_eq_true_eq] at h
    simpa [isNegative] using (sub_pos.1 h).le
  | plusInfinity => rfl

theorem isPositive_of_isBelow_zero (h : b.isBelow (finite 0) = true) : b.isPositive false = false := by
  cases b with
  | minusInfinity => rfl
  | finite v =>
    simp only [isBelow, decide_eq_true_eq, zero_sub] at h
    simpa [isPositive] using h.le
  | plusInfinity => contradiction

theorem value_le {a : Bound R} (ha : a.isNegative false = false) (hab : a.AtMost b) (hy : b.IsLower y) :
    a.value ≤ y := by
  cases a <;> cases b <;> simp only [AtMost, IsLower, isNegative, Bool.true_eq_false] at ha hab hy
  exact (not_lt.1 hab).trans hy

theorem le_value {a : Bound R} (ha : a.isPositive false = false) (hba : b.AtMost a) (hy : b.IsUpper y) :
    y ≤ a.value := by
  cases a <;> cases b <;> simp only [AtMost, IsUpper, isPositive, Bool.true_eq_false] at ha hba hy
  exact le_trans hy (not_lt.1 hba)

end Bound

open PayoffPricing.Script.Interval

namespace Domain

variable {d : Domain R} {a : Interval R} {y : R}

theorem Tidy.leastPositive_le (hd : d.Tidy) (ha : a ∈ d.intervals) (habove : (Bound.finite 0).isBelow a.left = true)
    (hy : a.Has y) : (d.leastPositive true).getD Comparison.halfWindow ≤ y := by
  let above := fun b : Interval R => !b.left.isNegative !true
  have habove' : above a = true := by simpa [above] using Bound.isNegative_of_zero_isBelow habove
  obtain ⟨last, hlast, hafter⟩ := head?_of_pairwise (List.pairwise_reverse.2 hd.sorted) (List.mem_reverse.2 ha)
  rw [List.head?_reverse] at hlast
  have hlast' : above last = true := by
    rcases hafter with rfl | hafter
    · exact habove'
    · have hlater := hafter.left_isBelow (hd.upright a ha)
      have hzero := (Bound.atMost_of_isBelow habove).isBelow (Bound.defined _) hlater
      simpa [above] using Bound.isNegative_of_zero_isBelow hzero
  obtain ⟨first, hfirst, hpositive, hbefore⟩ := find?_of_pairwise hd.sorted ha habove'
  have hends : first.left.AtMost a.left := by
    rcases hbefore with rfl | hbefore
    · exact Bound.atMost_refl _
    · have hf := hd.upright first (List.mem_of_find?_eq_some hfirst)
      exact Bound.atMost_of_isBelow (hbefore.left_isBelow hf)
  have hvalue : d.leastPositive true = some first.left.value := by
    change (if d.intervals.getLast?.any above then (d.intervals.find? above).map (·.left.value) else none) = _
    rw [hlast, Option.any_some, if_pos hlast', hfirst]
    rfl
  rw [hvalue]
  exact Bound.value_le (by simpa [above] using hpositive) hends hy.1

theorem Tidy.le_greatestNegative (hd : d.Tidy) (ha : a ∈ d.intervals) (hbelow : a.right.isBelow (.finite 0) = true)
    (hy : a.Has y) : y ≤ (d.greatestNegative true).getD (-Comparison.halfWindow) := by
  let below := fun b : Interval R => !b.right.isPositive !true
  have hbelow' : below a = true := by simpa [below] using Bound.isPositive_of_isBelow_zero hbelow
  have hright {b : Interval R} (h : b.Precedes a) : b.right.AtMost a.right :=
    (Bound.atMost_of_isBelow h).trans (hd.upright a ha).left (hd.upright a ha).le
  obtain ⟨first, hfirst, hbefore⟩ := head?_of_pairwise hd.sorted ha
  have hfirst' : below first = true := by
    rcases hbefore with rfl | hbefore
    · exact hbelow'
    · have hzero := (hright hbefore).isBelow (Bound.defined _) hbelow
      simpa [below] using Bound.isPositive_of_isBelow_zero hzero
  obtain ⟨last, hlast, hnegative, hafter⟩ :=
    find?_of_pairwise (List.pairwise_reverse.2 hd.sorted) (List.mem_reverse.2 ha) hbelow'
  have hends : a.right.AtMost last.right := by
    rcases hafter with rfl | hafter
    · exact Bound.atMost_refl _
    · have hl := hd.upright last (List.mem_reverse.1 (List.mem_of_find?_eq_some hlast))
      exact (Bound.atMost_of_isBelow hafter).trans hl.left hl.le
  have hvalue : d.greatestNegative true = some last.right.value := by
    change (if d.intervals.head?.any below then (d.intervals.reverse.find? below).map (·.right.value) else none) = _
    rw [hfirst, Option.any_some, if_pos hfirst', hlast]
    rfl
  rw [hvalue]
  exact Bound.le_value (by simpa [below] using hnegative) hends hy.2

theorem canBeZero_of_mem (h : .singleton 0 ∈ d.intervals) : d.canBeZero = true := by
  have hpos : (0 : R) < Bound.tolerance := Bound.tolerance_pos
  refine List.any_eq_true.2 ⟨_, h, ?_⟩
  simp [Interval.includes, Interval.singleton, Bound.isBelow, hpos.le, scalar_zero]

/-- Isolated zeros are exact. -/
def SharpZero (d : Domain R) : Prop := ∀ a ∈ d.intervals, a.isZero = true → a = .singleton 0

theorem sides_of_canBeZero (h : d.canBeZero = false) (ha : a ∈ d.intervals) :
    (Bound.finite 0).isBelow a.left = true ∨ a.right.isBelow (.finite 0) = true := by
  have hnot : a.includes 0 = false := by simpa [canBeZero, includes, scalar_zero] using List.any_eq_false.1 h a ha
  rwa [Interval.includes, Bool.and_eq_false_iff, Bool.not_eq_false', Bool.not_eq_false'] at hnot

theorem Tidy.sides_of_zeroIsDiscrete (hd : d.Tidy) (hz : d.SharpZero) (h : d.zeroIsDiscrete = true)
    (ha : a ∈ d.intervals) :
    (Bound.finite 0).isBelow a.left = true ∨ a.right.isBelow (.finite 0) = true ∨ a = .singleton 0 := by
  obtain ⟨z, hmem, hzero⟩ := List.any_eq_true.1 h
  have hz := hz z hmem hzero
  rcases pairwise_trichotomy hd.sorted ha hmem with rfl | hbefore | hafter
  · exact .inr (.inr hz)
  · rw [hz] at hbefore
    exact .inr (.inl hbefore)
  · rw [hz] at hafter
    exact .inl hafter

/-- The numbers of a domain in which zero is isolated or absent. -/
theorem Tidy.sides (hd : d.Tidy) (hz : d.SharpZero) (h : d.canBeZero = false ∨ d.zeroIsDiscrete = true) (hy : d.Has y) :
    (y ≤ (d.greatestNegative true).getD (-Comparison.halfWindow) ∧ y < -Bound.tolerance) ∨
      ((d.leastPositive true).getD Comparison.halfWindow ≤ y ∧ Bound.tolerance < y) ∨ (y = 0 ∧ d.canBeZero = true) := by
  obtain ⟨a, ha, hy⟩ := hy
  have hsides : (Bound.finite 0).isBelow a.left = true ∨ a.right.isBelow (.finite 0) = true ∨ a = .singleton 0 := by
    rcases h with h | h
    · rcases sides_of_canBeZero h ha with h | h
      · exact .inl h
      · exact .inr (.inl h)
    · exact hd.sides_of_zeroIsDiscrete hz h ha
  rcases hsides with habove | hbelow | rfl
  · exact .inr (.inl ⟨hd.leastPositive_le ha habove hy, Bound.lt_of_zero_isBelow habove hy.1⟩)
  · exact .inl ⟨hd.le_greatestNegative ha hbelow hy, Bound.lt_of_isBelow_zero hbelow hy.2⟩
  · exact .inr (.inr ⟨le_antisymm hy.2 hy.1, canBeZero_of_mem ha⟩)

end Domain

namespace Comparison

variable {c : Comparison R} {d : Domain R} {y : R}

theorem canBeZero_of_discrete (h : (c.withWindow d).discrete = true) :
    d.canBeZero = false ∨ d.zeroIsDiscrete = true := by
  unfold withWindow at h
  cases hz : d.canBeZero with
  | false => exact .inl rfl
  | true =>
    cases hd : d.zeroIsDiscrete with
    | true => exact .inr rfl
    | false =>
      rw [hz, hd] at h
      split at h <;> contradiction

theorem windowed_withWindow (ht : c.tolerance = none) : (c.withWindow d).Windowed := by
  have hplain : { c with discrete := false }.Windowed := by
    apply Windowed.of_plain _ rfl
    change 0 ≤ c.tolerance.getD Intrinsic.defaultTolerance
    rw [ht]
    exact defaultTolerance_nonneg
  have hsame : { c with discrete := false }.withWindow d = c.withWindow d := by
    unfold withWindow
    rfl
  rw [← hsame]
  exact hplain.withWindow d

theorem withWindow_eq (c : Comparison R) (d : Domain R) : ∃ discrete left right,
    c.withWindow d = { c with discrete := discrete, left := left, right := right } := by
  unfold withWindow
  split
  case h_1 => split <;> exact ⟨_, _, _, rfl⟩
  all_goals
    split
    · exact ⟨_, _, _, rfl⟩
    · split <;> exact ⟨_, _, _, rfl⟩

/-- Where a number of the domain is: beyond an end of the window and the tolerance, or at zero, which then is
an end of the window where the relation does not single it out. -/
inductive Beside (c : Comparison R) (y : R) : Prop
  | below : y ≤ c.left → y < -Bound.tolerance → Beside c y
  | above : c.right ≤ y → Bound.tolerance < y → Beside c y
  | zero : y = 0 → (c.relation = .above → c.left = 0) → (c.relation = .aboveOrEqual → c.right = 0) → Beside c y

theorem beside_withWindow (hd : d.Tidy) (hz : d.SharpZero) (hdiscrete : (c.withWindow d).discrete = true)
    (hy : d.Has y) : (c.withWindow d).Beside y := by
  have hright := leastPositive_pos d
  have hleft := greatestNegative_neg d
  have hsides := hd.sides hz (canBeZero_of_discrete hdiscrete) hy
  obtain ⟨relation, arg, tolerance, discrete, left, right⟩ := c
  -- The window is the gap around zero, of which an inequality uses only one side when zero is in the domain.
  cases relation <;> dsimp only [withWindow] at hdiscrete ⊢
  case equal =>
    split_ifs at hdiscrete ⊢
    rcases hsides with ⟨hend, hy⟩ | ⟨hend, hy⟩ | ⟨h, -⟩
    · exact .below hend hy
    · exact .above hend hy
    · exact .zero h nofun nofun
  case above =>
    split_ifs at hdiscrete ⊢ with habsent
    · rcases hsides with ⟨hend, hy⟩ | ⟨hend, hy⟩ | ⟨-, hpresent⟩
      · exact .below hend hy
      · exact .above hend hy
      · rw [hpresent] at habsent
        contradiction
    · rcases hsides with ⟨hend, hy⟩ | ⟨hend, hy⟩ | ⟨h, -⟩
      · exact .below ((hend.trans hleft.le).trans_eq scalar_zero.symm) hy
      · exact .above hend hy
      · exact .zero h (fun _ => scalar_zero) nofun
  case aboveOrEqual =>
    split_ifs at hdiscrete ⊢ with habsent
    · rcases hsides with ⟨hend, hy⟩ | ⟨hend, hy⟩ | ⟨-, hpresent⟩
      · exact .below hend hy
      · exact .above hend hy
      · rw [hpresent] at habsent
        contradiction
    · rcases hsides with ⟨hend, hy⟩ | ⟨hend, hy⟩ | ⟨h, -⟩
      · exact .below hend hy
      · exact .above (scalar_zero.trans_le (hright.le.trans hend)) hy
      · exact .zero h nofun (fun _ => scalar_zero)

end Comparison

section Degrees

open Fuzzy

variable {c : Comparison R} {vs : Variables R} {s : Sample R} {width y left right : R}

theorem butterflyOn_zero (hl : left ≤ 0) (hr : 0 ≤ right) :
    (Smoothing.butterflyOn (0 : R) left right : StateM Unit R) = pure (crisp true) := by
  simp only [Smoothing.butterflyOn, value_plain, scalar_zero, hl.not_gt, hr.not_gt, lt_irrefl, decide_false,
    Bool.or_false, Bool.false_eq_true, if_false]
  rfl

/-- Beside its window, a comparison holds to the degree one or zero, as it holds or not. -/
theorem exec_degreeOfComparison_beside (hc : c.Windowed) (hdiscrete : c.discrete = true) (ht : c.tolerance = none)
    (hy : c.Beside y) (hx : (c.arg.eval vs s : Evaluation R Unit R).exec () = (.ok y, ())) :
    (degreeOfComparison width vs s c : Evaluation R Unit R).exec () =
      (.ok (crisp (Intrinsic.holds c.relation y c.toleranceOrDefault)), ()) := by
  have hlt := hc.lt hdiscrete
  have hleft := hc.left hdiscrete
  have hright := hc.right hdiscrete
  have hpos : (0 : R) < Bound.tolerance := Bound.tolerance_pos
  have htolerance : c.toleranceOrDefault = Bound.tolerance := by
    rw [Comparison.toleranceOrDefault, ht]
    rfl
  rw [htolerance]
  by_cases hr : c.relation = .equal
  · rw [exec_degreeOfComparison_equal hr hx, hr]
    simp only [hdiscrete, hlt, hleft, hright, decide_true, Bool.and_self, if_true]
    cases hy with
    | below hend hy =>
      rw [butterflyOn_eq hleft hright (.inl hend) (by linarith), holds_equal (lt_abs.2 (.inr (lt_neg.2 hy)))]
      rfl
    | above hend hy =>
      rw [butterflyOn_eq hleft hright (.inr hend) (by linarith), holds_equal (lt_abs.2 (.inl hy))]
      rfl
    | zero h _ _ =>
      have hholds : Intrinsic.holds .equal y Bound.tolerance = true := by
        simpa [Intrinsic.holds, h, ExactScalar.abs_eq] using hpos
      rw [hholds, h, butterflyOn_zero hleft hright]
      rfl
  · rw [exec_degreeOfComparison_ordered hr hx]
    simp only [hdiscrete, hlt, decide_true, Bool.and_self, if_true]
    cases hy with
    | below hend hy =>
      rw [callSpreadOn_eq hlt (.inl hend), holds_ordered hr hpos.le (lt_abs.2 (.inr (lt_neg.2 hy)))]
      rw [decide_eq_false (by linarith : ¬ c.right ≤ y), decide_eq_false (by linarith : ¬ 0 < y)]
      rfl
    | above hend hy =>
      rw [callSpreadOn_eq hlt (.inr hend), holds_ordered hr hpos.le (lt_abs.2 (.inl hy))]
      rw [decide_eq_true hend, decide_eq_true (hpos.trans hy)]
      rfl
    | zero h habove hequal =>
      cases hrelation : c.relation with
      | equal => exact absurd hrelation hr
      | above =>
        have hend := habove hrelation
        rw [callSpreadOn_eq hlt (.inl (by linarith)), decide_eq_false (by linarith : ¬ c.right ≤ y)]
        simp only [Intrinsic.holds, h, gt_iff_lt, hpos.not_gt, decide_false]
        rfl
      | aboveOrEqual =>
        have hend := hequal hrelation
        rw [callSpreadOn_eq hlt (.inr (by linarith)), decide_eq_true (by linarith : c.right ≤ y)]
        simp only [Intrinsic.holds, h, gt_iff_lt, neg_neg_iff_pos.2 hpos, decide_true]
        rfl

theorem crisp_eq_ite (b : Bool) : (crisp b : R) = if b then 1 else 0 := by
  cases b
  · exact crisp_false
  · exact crisp_true

theorem eq_withWindow_of_decide {domains : Domains R} {d : Domain R} {decided : Option Bool} {c c' : Comparison R}
    (hdomain : c.arg.domain domains = .ok d)
    (hdecide : (Cond.compare decided c).decide true domains = ⟨.compare none c', none⟩) : c' = c.withWindow d := by
  simp only [Cond.decide, hdomain] at hdecide
  cases houtcome : Comparison.outcome c.relation d with
  | some b =>
    rw [houtcome] at hdecide
    cases hdecide
  | none =>
    rw [houtcome] at hdecide
    cases hdecide
    rfl

/-- Where analysis leaves a comparison without explicit tolerance open and finds it discrete on a tidy domain, the
window that it notes has nothing of the domain inside but perhaps zero, where zero alone is looked for. At a number of
the domain, the comparison holds to the degree one when it holds without smoothing and to the degree zero otherwise,
for plain scalars and for recorded numbers. -/
theorem degree_exact_of_discrete {domains : Domains R} {d : Domain R} {decided : Option Bool} {c c' : Comparison R}
    (hd : d.Tidy) (hz : d.SharpZero) (ht : c.tolerance = none) (hdomain : c.arg.domain domains = .ok d)
    (hdecide : (Cond.compare decided c).decide true domains = ⟨.compare none c', none⟩)
    (hdiscrete : c'.discrete = true) :
    c'.left < c'.right ∧ (∀ y, d.Has y → y ≤ c'.left ∨ c'.right ≤ y ∨ c'.relation = .equal ∧ y = 0) ∧
      ∀ (width x : R) (vs : Variables R) (s : Sample R), d.Has x →
        (c.arg.eval vs s : Evaluation R Unit R).exec () = (.ok x, ()) →
        ∃ b, ((Cond.compare none c).eval vs s : Evaluation R Unit Bool).exec () = (.ok b, ()) ∧
          (degree width vs s (.compare none c') : Evaluation R Unit R).exec () = (.ok (if b then 1 else 0), ()) ∧
          ∀ (n : ℕ) (t : Tape R) (numbers : Variables (Number R)) (sample : Sample (Number R)), t.Sound →
            (recordingLikeness R).LikeTable n ((), t) vs numbers →
            (recordingLikeness R).LikeSample ((), t) s sample →
            ∃ d' t', (degree width numbers sample (.compare none c') : Evaluation R (Tape R) (Number R)).exec t =
              (.ok d', t') ∧ d'.value = if b then 1 else 0 := by
  obtain rfl := eq_withWindow_of_decide hdomain hdecide
  have hwindowed : (c.withWindow d).Windowed := Comparison.windowed_withWindow ht
  obtain ⟨discrete, left, right, hsame⟩ := c.withWindow_eq d
  refine ⟨hwindowed.lt hdiscrete, fun y hy => ?_, fun width x vs s hx heval => ?_⟩
  · cases Comparison.beside_withWindow hd hz hdiscrete hy with
    | below h _ => exact .inl h
    | above h _ => exact .inr (.inl h)
    | zero h habove hequal =>
      cases hr : (c.withWindow d).relation with
      | equal => exact .inr (.inr ⟨rfl, h⟩)
      | above => exact .inl (by rw [h, habove hr])
      | aboveOrEqual => exact .inr (.inl (by rw [h, hequal hr]))
  · have hbeside := Comparison.beside_withWindow hd hz hdiscrete hx
    have hdegree : (degree width vs s (.compare none (c.withWindow d)) : Evaluation R Unit R).exec () = _ :=
      exec_degreeOfComparison_beside hwindowed hdiscrete (by rw [hsame, ht]) hbeside (by rwa [hsame])
    rw [crisp_eq_ite] at hdegree
    refine ⟨_, ?_, hdegree, fun n t numbers sample htape hv hs => exec_degree_recorded htape hv hs hdegree⟩
    simp only [Cond.eval, Evaluation.exec_bind, heval, hsame]
    rfl

section Flags

/-- The numbers that a flag takes. -/
def flagDomain : Domain R := ⟨[.singleton 0, .singleton 1]⟩

/-- Whether a flag is up. -/
def flagUp : Comparison R where
  relation := .above
  arg := .read none ⟨"FLAG", 0⟩
  tolerance := none
  discrete := false
  left := 0
  right := 0

theorem isZero_singleton_zero : (Interval.singleton (0 : R)).isZero = true := by
  simp [Interval.singleton, isZero, isSingleton, isUnbounded, Bound.isInfinite, Bound.isNear, Bound.isZero,
    ExactScalar.abs_eq, Bound.tolerance_pos]

theorem isZero_singleton_one : (Interval.singleton (1 : R)).isZero = false := by
  have hone : (Bound.tolerance : R) < 1 := Bound.tolerance_lt_one
  simp [Interval.singleton, isZero, isSingleton, isUnbounded, Bound.isInfinite, Bound.isNear, Bound.isZero,
    ExactScalar.abs_eq, hone.le]

theorem upright_singleton (x : R) : (Interval.singleton x).Upright :=
  ⟨isUndefined_exact x, isUndefined_exact x, lt_irrefl x⟩

theorem tidy_flagDomain : (flagDomain : Domain R).Tidy := by
  refine ⟨fun a ha => ?_, List.pairwise_pair.2 ?_⟩
  · rcases List.mem_pair.1 ha with rfl | rfl <;> exact upright_singleton _
  · have h : (0 : R) < 1 - Bound.tolerance := sub_pos.2 Bound.tolerance_lt_one
    simpa [Precedes, Interval.singleton, Bound.isBelow] using h

theorem sharpZero_flagDomain : (flagDomain : Domain R).SharpZero := by
  intro a ha hzero
  rcases List.mem_pair.1 ha with rfl | rfl
  · rfl
  · rw [isZero_singleton_one] at hzero
    contradiction

theorem decide_flagUp : (Cond.compare none (flagUp : Comparison R)).decide true #[flagDomain] =
    ⟨.compare none { flagUp with discrete := true, left := 0, right := 1 }, none⟩ := by
  have hone : (Bound.tolerance : R) < 1 := Bound.tolerance_lt_one
  have hpos : (0 : R) < Bound.tolerance := Bound.tolerance_pos
  have hopen : Comparison.outcome .above (flagDomain : Domain R) = none := by
    simp [Comparison.outcome, flagDomain, Domain.canBePositive, Domain.canBeNegative, Interval.singleton,
      Bound.isPositive, Bound.isNegative, hone, hpos]
  have hzero : (flagDomain : Domain R).canBeZero = true := Domain.canBeZero_of_mem List.mem_cons_self
  have hdiscrete : (flagDomain : Domain R).zeroIsDiscrete = true := by
    simp [flagDomain, Domain.zeroIsDiscrete, isZero_singleton_zero]
  have hright : (flagDomain : Domain R).leastPositive true = some 1 := by
    simp [flagDomain, Domain.leastPositive, Interval.singleton, Bound.isNegative, hone.le, hpos, Bound.value]
  have hread : (Expr.read none ⟨"FLAG", 0⟩ : Expr R).domain #[flagDomain] = .ok flagDomain := rfl
  simp only [Cond.decide, hread, flagUp, hopen, Comparison.withWindow, hzero, hdiscrete, hright, if_true,
    Bool.not_true, Bool.false_eq_true, if_false, Option.getD_some, scalar_zero]

/-- A flag is up to the degree one or zero. -/
theorem degree_exact_flagUp : (flagDomain : Domain ℝ).Tidy ∧ ∀ x, flagDomain.Has x →
    ∃ b, ((Cond.compare none flagUp).eval #[x] ⟨1, 1, #[], #[]⟩ : Evaluation ℝ Unit Bool).exec () = (.ok b, ()) ∧
      (degree 1 #[x] ⟨1, 1, #[], #[]⟩ (.compare none { flagUp with discrete := true, left := 0, right := 1 }) :
        Evaluation ℝ Unit ℝ).exec () = (.ok (if b then 1 else 0), ()) := by
  have hread : (flagUp : Comparison ℝ).arg.domain #[flagDomain] = .ok flagDomain := rfl
  have hexact := degree_exact_of_discrete tidy_flagDomain sharpZero_flagDomain rfl hread decide_flagUp rfl
  refine ⟨tidy_flagDomain, fun x hx => ?_⟩
  obtain ⟨b, heval, hdegree, -⟩ := hexact.2.2 1 x #[x] ⟨1, 1, #[], #[]⟩ hx rfl
  exact ⟨b, heval, hdegree⟩

end Flags

end Degrees

end PayoffPricing.Script
