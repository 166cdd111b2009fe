import Mathlib
import PayoffPricing.Proofs.Adjoint.Number
import PayoffPricing.Proofs.Script.Crisp
import PayoffPricing.Proofs.Script.Fuzzy
/-!
Degrees of truth. Ramps stay between zero and one, whatever window or width they are given, and so do the degrees of
negations, conjunctions and disjunctions. Recorded numbers give the degrees that plain scalars give.
-/

namespace PayoffPricing.Script

open Fuzzy

variable {R : Type} [ExactScalar R] {width left right x a b d : R} {vs : Variables R} {s : Sample R}

/-- Numbers from zero to one. -/
def IsDegree (d : R) : Prop := 0 ≤ d ∧ d ≤ 1

theorem isDegree_crisp (b : Bool) : IsDegree (crisp b : R) := by
  cases b
  · rw [crisp_false]
    exact ⟨le_rfl, zero_le_one⟩
  · rw [crisp_true]
    exact ⟨zero_le_one, le_rfl⟩

theorem IsDegree.compl (h : IsDegree d) : IsDegree (1 - d) := ⟨sub_nonneg.2 h.2, sub_le_self _ h.1⟩

theorem IsDegree.mul (ha : IsDegree a) (hb : IsDegree b) : IsDegree (a * b) :=
  ⟨mul_nonneg ha.1 hb.1, mul_le_one₀ ha.2 hb.1 hb.2⟩

theorem IsDegree.add_sub_mul (ha : IsDegree a) (hb : IsDegree b) : IsDegree (a + b - a * b) := by
  have h : a + b - a * b = 1 - (1 - a) * (1 - b) := by ring
  rw [h]
  exact (ha.compl.mul hb.compl).compl

theorem isDegree_div (hw : 0 < width) (h0 : 0 ≤ x) (h1 : x ≤ width) : IsDegree (x / width) :=
  ⟨div_nonneg h0 hw.le, (div_le_one hw).2 h1⟩

section Ramps

theorem isDegree_callSpread (hw : 0 < width) :
    ∃ d, (Smoothing.callSpread x width : Evaluation R Unit R) = pure d ∧ IsDegree d := by
  simp only [Smoothing.callSpread, Smoothing.require, scalar_zero, gt_iff_lt, hw, decide_true, if_true, pure_bind,
    half_mul, value_plain]
  by_cases hlow : x < -(width / 2)
  · rw [if_pos hlow]
    exact ⟨_, rfl, isDegree_crisp false⟩
  by_cases hhigh : width / 2 < x
  · rw [if_neg hlow, if_pos hhigh]
    exact ⟨_, rfl, isDegree_crisp true⟩
  · rw [if_neg hlow, if_neg hhigh]
    refine ⟨(x + width / 2) / width, rfl, isDegree_div hw ?_ ?_⟩
    · linarith
    · linarith

theorem isDegree_callSpreadOn (hlt : left < right) :
    ∃ d, (Smoothing.callSpreadOn x left right : Evaluation R Unit R) = pure d ∧ IsDegree d := by
  simp only [Smoothing.callSpreadOn, Smoothing.require, gt_iff_lt, hlt, decide_true, if_true, pure_bind, value_plain]
  by_cases hlow : x < left
  · rw [if_pos hlow]
    exact ⟨_, rfl, isDegree_crisp false⟩
  by_cases hhigh : right < x
  · rw [if_neg hlow, if_pos hhigh]
    exact ⟨_, rfl, isDegree_crisp true⟩
  · rw [if_neg hlow, if_neg hhigh]
    refine ⟨(x - left) / (right - left), rfl, isDegree_div (sub_pos.2 hlt) ?_ ?_⟩
    · linarith
    · linarith

theorem isDegree_butterfly (hw : 0 < width) :
    ∃ d, (Smoothing.butterfly x width : Evaluation R Unit R) = pure d ∧ IsDegree d := by
  simp only [Smoothing.butterfly, Smoothing.require, scalar_zero, gt_iff_lt, hw, decide_true, if_true, pure_bind,
    half_mul, value_plain, ExactScalar.abs_eq]
  by_cases hout : width / 2 < |x|
  · rw [if_pos hout]
    exact ⟨_, rfl, isDegree_crisp false⟩
  · rw [if_neg hout]
    refine ⟨(-Scalar.abs x + width / 2) / (width / 2), rfl, ?_⟩
    have habs := abs_nonneg x
    rw [ExactScalar.abs_eq]
    apply isDegree_div (half_pos hw)
    · linarith
    · linarith

theorem isDegree_butterflyOn (x left right : R) :
    ∃ d, (Smoothing.butterflyOn x left right : StateM Unit R) = pure d ∧ IsDegree d := by
  simp only [Smoothing.butterflyOn, value_plain, scalar_zero, Bool.or_eq_true, decide_eq_true_eq]
  by_cases hout : x < left ∨ right < x
  · rw [if_pos hout]
    exact ⟨_, rfl, isDegree_crisp false⟩
  rw [if_neg hout]
  have hinside : left ≤ x ∧ x ≤ right := by
    rw [not_or, not_lt, not_lt] at hout
    exact hout
  -- Only the side that the number is on is divided by, and that side then has a width.
  by_cases hneg : x < 0
  · rw [if_pos hneg]
    have hshare : IsDegree (x / left) := by
      rw [← neg_div_neg_eq]
      exact isDegree_div (by linarith) (by linarith) (by linarith)
    refine ⟨1 - x / left, ?_, hshare.compl⟩
    change (pure (-(x / left) + crisp true) : StateM Unit R) = _
    rw [crisp_true, neg_add_eq_sub]
  by_cases hpos : 0 < x
  · rw [if_neg hneg, if_pos hpos]
    have hshare : IsDegree (x / right) := isDegree_div (by linarith) hpos.le hinside.2
    refine ⟨1 - x / right, ?_, hshare.compl⟩
    change (pure (-(x / right) + crisp true) : StateM Unit R) = _
    rw [crisp_true, neg_add_eq_sub]
  · rw [if_neg hneg, if_neg hpos]
    exact ⟨_, rfl, isDegree_crisp true⟩

end Ramps

theorem isDegree_degreeOfComparison (hw : 0 < width) (c : Comparison R)
    (hx : (c.arg.eval vs s : Evaluation R Unit R).exec () = (.ok x, ())) :
    ∃ d, (degreeOfComparison width vs s c : Evaluation R Unit R).exec () = (.ok d, ()) ∧ IsDegree d := by
  have hspan := c.span_pos hw
  by_cases hr : c.relation = .equal
  · rw [exec_degreeOfComparison_equal hr hx]
    by_cases hwindow : (c.discrete && decide (c.left < c.right)) && decide (c.left ≤ 0) && decide (c.right ≥ 0)
    · rw [if_pos hwindow]
      obtain ⟨d, hd, h⟩ := isDegree_butterflyOn x c.left c.right
      rw [hd]
      exact ⟨d, rfl, h⟩
    · rw [if_neg hwindow]
      obtain ⟨d, hd, h⟩ := isDegree_butterfly (x := x) hspan
      rw [hd]
      exact ⟨d, rfl, h⟩
  · rw [exec_degreeOfComparison_ordered hr hx]
    by_cases hwindow : c.discrete && decide (c.left < c.right)
    · rw [if_pos hwindow]
      simp only [Bool.and_eq_true, decide_eq_true_eq] at hwindow
      obtain ⟨d, hd, h⟩ := isDegree_callSpreadOn (x := x) hwindow.2
      rw [hd]
      exact ⟨d, rfl, h⟩
    · rw [if_neg hwindow]
      obtain ⟨d, hd, h⟩ := isDegree_callSpread (x := x) hspan
      rw [hd]
      exact ⟨d, rfl, h⟩

/-- The arguments of the comparisons that a degree asks for have values. -/
def Cond.Evaluates (vs : Variables R) (s : Sample R) : Cond R → Prop
  | .literal _ => True
  | .compare (some _) _ => True
  | .compare none c => ∃ x, (c.arg.eval vs s : Evaluation R Unit R).exec () = (.ok x, ())
  | .not (some _) _ => True
  | .not none arg => arg.Evaluates vs s
  | .and (some _) _ _ => True
  | .and none lhs rhs => lhs.Evaluates vs s ∧ rhs.Evaluates vs s
  | .or (some _) _ _ => True
  | .or none lhs rhs => lhs.Evaluates vs s ∧ rhs.Evaluates vs s

theorem isDegree_degree (hw : 0 < width) {c : Cond R} (hc : c.Evaluates vs s) :
    ∃ d, (degree width vs s c : Evaluation R Unit R).exec () = (.ok d, ()) ∧ IsDegree d := by
  induction c with
  | literal b => exact ⟨_, rfl, isDegree_crisp b⟩
  | compare decided c =>
    cases decided with
    | some b => exact ⟨_, rfl, isDegree_crisp b⟩
    | none =>
      obtain ⟨x, hx⟩ := hc
      exact isDegree_degreeOfComparison hw c hx
  | not decided arg ih =>
    cases decided with
    | some b => exact ⟨_, rfl, isDegree_crisp b⟩
    | none =>
      obtain ⟨d, hd, h⟩ := ih hc
      refine ⟨1 - d, ?_, h.compl⟩
      simp only [degree, Evaluation.exec_bind, hd]
      exact congrArg (fun one : R => (Except.ok (one - d), ())) crisp_true
  | and decided lhs rhs ihl ihr =>
    cases decided with
    | some b => exact ⟨_, rfl, isDegree_crisp b⟩
    | none =>
      obtain ⟨a, ha, h⟩ := ihl hc.1
      obtain ⟨b, hb, h'⟩ := ihr hc.2
      refine ⟨a * b, ?_, h.mul h'⟩
      simp only [degree, Evaluation.exec_bind, ha, hb]
      rfl
  | or decided lhs rhs ihl ihr =>
    cases decided with
    | some b => exact ⟨_, rfl, isDegree_crisp b⟩
    | none =>
      obtain ⟨a, ha, h⟩ := ihl hc.1
      obtain ⟨b, hb, h'⟩ := ihr hc.2
      refine ⟨a + b - a * b, ?_, h.add_sub_mul h'⟩
      simp only [degree, Evaluation.exec_bind, ha, hb]
      rfl

theorem exec_degree_recorded {n : ℕ} {t : Tape R} {numbers : Variables (Number R)} {sample : Sample (Number R)}
    (ht : t.Sound) (hv : (recordingLikeness R).LikeTable n ((), t) vs numbers)
    (hs : (recordingLikeness R).LikeSample ((), t) s sample) {c : Cond R}
    (h : (degree width vs s c : Evaluation R Unit R).exec () = (.ok d, ())) :
    ∃ d' t', (degree width numbers sample c : Evaluation R (Tape R) (Number R)).exec t = (.ok d', t') ∧
      d'.value = d := by
  have halike := Likeness.alike_degree width c hv hs
  obtain ⟨d', t', hrun, -, -, hvalue, -⟩ := halike.exec_ok ht h
  exact ⟨d', t', hrun, hvalue.symm⟩

end PayoffPricing.Script
