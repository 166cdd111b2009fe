import Mathlib
import PayoffPricing.Proofs.Script.Effects
import PayoffPricing.Proofs.Script.Tables
import PayoffPricing.Proofs.Script.Windows
import PayoffPricing.Script.Fuzzy
/-!
Smoothed evaluation away from the windows. Where every compared number that a run comes to is clear of its tolerance
and of its window, conditions hold to the degree zero or one, and statements run as they do without smoothing.
-/

namespace PayoffPricing.Script

open Fuzzy

variable {R : Type} [ExactScalar R] {width : R} {vs : Variables R} {s : Sample R}

namespace Comparison

/-- The width over which the comparison is smoothed when it has no window. -/
def span (width : R) (c : Comparison R) : R :=
  match c.tolerance with
  | some t => if t > 0 then t else width
  | none => width

/-- The number is beyond the tolerance, and outside of the window or of the width around zero. -/
structure Clear (width : R) (c : Comparison R) (x : R) : Prop where
  tolerance : c.toleranceOrDefault < |x|
  outside : if c.discrete then x ≤ c.left ∨ c.right ≤ x else c.span width / 2 < |x|

theorem span_pos (hw : 0 < width) (c : Comparison R) : 0 < c.span width := by
  unfold span
  split
  · split_ifs with ht
    · exact ht
    · exact hw
  · exact hw

end Comparison

section Ramps

variable {x left right : R}

theorem half_mul (w : R) :
    @OfScientific.ofScientific R Scalar.instOfScientific 5 true 1 * w = w / 2 := by
  rw [ExactScalar.half_eq, one_div_mul_eq_div]

theorem lt_or_gt_of_lt_abs {h : R} (hx : h < |x|) : x < -h ∨ h < x :=
  (lt_abs.1 hx).symm.imp (fun h => lt_neg.2 h) id

theorem crisp_true : (crisp true : R) = 1 := scalar_one

theorem crisp_false : (crisp false : R) = 0 := scalar_zero

theorem callSpread_eq (hw : 0 < width) (hx : width / 2 < |x|) :
    (Smoothing.callSpread x width : Evaluation R Unit R) = pure (crisp (decide (0 < x))) := by
  have hhalf : 0 < width / 2 := half_pos hw
  simp only [Smoothing.callSpread, Smoothing.require, scalar_zero, gt_iff_lt, hw, decide_true, if_true, pure_bind,
    half_mul, value_plain]
  rcases lt_or_gt_of_lt_abs hx with h | h
  · have hneg : ¬ 0 < x := by linarith
    rw [if_pos h, decide_eq_false hneg]
    rfl
  · have hpos : 0 < x := hhalf.trans h
    have hnot : ¬ x < -(width / 2) := by linarith
    rw [if_neg hnot, if_pos h, decide_eq_true hpos]
    rfl

theorem callSpreadOn_eq (hlt : left < right) (hx : x ≤ left ∨ right ≤ x) :
    (Smoothing.callSpreadOn x left right : Evaluation R Unit R) = pure (crisp (decide (right ≤ x))) := by
  have hwidth : right - left ≠ 0 := (sub_pos.2 hlt).ne'
  simp only [Smoothing.callSpreadOn, Smoothing.require, gt_iff_lt, hlt, decide_true, if_true, pure_bind, value_plain]
  rcases hx with h | h
  · have hnot : ¬ right ≤ x := not_le.2 (h.trans_lt hlt)
    rw [decide_eq_false hnot]
    rcases h.lt_or_eq with h | rfl
    · rw [if_pos h]
      rfl
    · -- the ramp is recorded at the ends of a window, where it is zero or one
      rw [if_neg (lt_irrefl _), if_neg hlt.not_gt, crisp_false]
      change (pure ((x - x) / (right - x)) : Evaluation R Unit R) = _
      rw [sub_self, zero_div]
  · have hnot : ¬ x < left := not_lt.2 (hlt.le.trans h)
    rw [decide_eq_true h, if_neg hnot]
    rcases h.lt_or_eq with h | rfl
    · rw [if_pos h]
      rfl
    · rw [if_neg (lt_irrefl _), crisp_true]
      change (pure ((right - left) / (right - left)) : Evaluation R Unit R) = _
      rw [div_self hwidth]

theorem butterfly_eq (hw : 0 < width) (hx : width / 2 < |x|) :
    (Smoothing.butterfly x width : Evaluation R Unit R) = pure (crisp false) := by
  simp only [Smoothing.butterfly, Smoothing.require, scalar_zero, gt_iff_lt, hw, decide_true, if_true, pure_bind,
    half_mul, value_plain, ExactScalar.abs_eq, hx]
  rfl

theorem butterflyOn_eq (hl : left ≤ 0) (hr : 0 ≤ right) (hx : x ≤ left ∨ right ≤ x) (h0 : x ≠ 0) :
    (Smoothing.butterflyOn x left right : StateM Unit R) = pure (crisp false) := by
  simp only [Smoothing.butterflyOn, value_plain, scalar_zero, Bool.or_eq_true, decide_eq_true_eq]
  rw [crisp_false]
  split_ifs with hout hneg hpos
  · exact congrArg pure crisp_false
  · have hend : x = left := by
      rcases hx with h | h
      · exact h.antisymm (not_lt.1 fun h => hout (.inl h))
      · exact absurd (hr.trans h) (not_le.2 hneg)
    change (pure (-(x / left) + crisp true) : StateM Unit R) = _
    rw [← hend, div_self h0, crisp_true, neg_add_cancel]
  · have hend : x = right := by
      rcases hx with h | h
      · exact absurd (h.trans hl) (not_le.2 hpos)
      · exact (not_lt.1 fun h => hout (.inr h)).antisymm h
    change (pure (-(x / right) + crisp true) : StateM Unit R) = _
    rw [← hend, div_self h0, crisp_true, neg_add_cancel]
  · exact absurd ((not_lt.1 hpos).antisymm (not_lt.1 hneg)) h0

end Ramps

section Degrees

theorem one_sub_crisp (b : Bool) : (crisp true : R) - crisp b = crisp !b := by
  cases b <;> simp [crisp_true, crisp_false]

theorem crisp_mul_crisp (a b : Bool) : (crisp a : R) * crisp b = crisp (a && b) := by
  cases a <;> cases b <;> simp [crisp_true, crisp_false]

theorem crisp_add_crisp_sub (a b : Bool) : (crisp a : R) + crisp b - crisp a * crisp b = crisp (a || b) := by
  cases a <;> cases b <;> simp [crisp_true, crisp_false]

theorem cutoff_eq : (cutoff : R) = 2 * 10 ^ (-(14 : ℤ)) := by
  have h : (cutoff : R) = (2 : ℕ) * 10 ^ (-(14 : ℤ)) := ExactScalar.ofDecimal_eq 2 (-14)
  rw [h, Nat.cast_ofNat]

theorem above_cutoff : (crisp true : R) > @OfNat.ofNat R 1 (Scalar.instOfNat 1) - cutoff := by
  change (crisp true : R) > crisp true - cutoff
  rw [cutoff_eq]
  exact sub_lt_self _ (by positivity)

theorem below_cutoff : ¬ (crisp false : R) > @OfNat.ofNat R 1 (Scalar.instOfNat 1) - cutoff ∧ (crisp false : R) < cutoff := by
  change ¬ (crisp false : R) > crisp true - cutoff ∧ _
  rw [cutoff_eq, crisp_true, crisp_false]
  norm_num

variable {c : Comparison R} {x t : R}

theorem holds_equal (hx : t < |x|) : Intrinsic.holds .equal x t = false := by
  simp [Intrinsic.holds, ExactScalar.abs_eq, hx.le]

theorem holds_ordered {relation : Relation} (hne : relation ≠ .equal) (ht : 0 ≤ t) (hx : t < |x|) :
    Intrinsic.holds relation x t = decide (0 < x) := by
  have hpos : t < x ↔ 0 < x := ⟨ht.trans_lt, fun h => abs_of_pos h ▸ hx⟩
  have hneg : -t < x ↔ 0 < x := by
    refine ⟨fun h => ?_, fun h => (neg_nonpos.2 ht).trans_lt h⟩
    exact (lt_or_gt_of_lt_abs hx).elim (fun hlow => absurd h hlow.not_gt) ht.trans_lt
  cases relation with
  | equal => exact absurd rfl hne
  | above => simp only [Intrinsic.holds, gt_iff_lt, hpos]
  | aboveOrEqual => simp only [Intrinsic.holds, gt_iff_lt, hneg]

theorem exec_degreeOfComparison_equal (hr : c.relation = .equal)
    (hx : (c.arg.eval vs s : Evaluation R Unit R).exec () = (.ok x, ())) :
    (degreeOfComparison width vs s c : Evaluation R Unit R).exec () =
      Evaluation.exec (if (c.discrete && decide (c.left < c.right)) && decide (c.left ≤ 0) && decide (c.right ≥ 0) then
        Evaluation.record (Smoothing.butterflyOn x c.left c.right) else Smoothing.butterfly x (c.span width)) () := by
  simp only [degreeOfComparison, Evaluation.exec_bind, hx, hr, scalar_zero]
  rfl

theorem exec_degreeOfComparison_ordered (hr : c.relation ≠ .equal)
    (hx : (c.arg.eval vs s : Evaluation R Unit R).exec () = (.ok x, ())) :
    (degreeOfComparison width vs s c : Evaluation R Unit R).exec () =
      Evaluation.exec (if c.discrete && decide (c.left < c.right) then Smoothing.callSpreadOn x c.left c.right
        else Smoothing.callSpread x (c.span width)) () := by
  cases h : c.relation with
  | equal => exact absurd h hr
  | above | aboveOrEqual =>
    simp only [degreeOfComparison, Evaluation.exec_bind, hx, h, scalar_zero]
    rfl

theorem exec_degreeOfComparison (hw : 0 < width) (hc : c.Windowed) (hclear : c.Clear width x)
    (hx : (c.arg.eval vs s : Evaluation R Unit R).exec () = (.ok x, ())) :
    (degreeOfComparison width vs s c : Evaluation R Unit R).exec () =
      (.ok (crisp (Intrinsic.holds c.relation x c.toleranceOrDefault)), ()) := by
  obtain ⟨htol, hout⟩ := hclear
  have h0 : x ≠ 0 := fun h => by simp [h, hc.tolerance.not_gt] at htol
  have hspan := c.span_pos hw
  by_cases hr : c.relation = .equal
  · rw [exec_degreeOfComparison_equal hr hx, hr, holds_equal htol]
    cases hd : c.discrete with
    | false =>
      simp only [hd, Bool.false_and, Bool.false_eq_true, if_false] at hout ⊢
      rw [butterfly_eq hspan hout]
      rfl
    | true =>
      simp only [hd, if_true] at hout
      simp only [hc.lt hd, hc.left hd, hc.right hd, decide_true, Bool.and_self, if_true]
      rw [butterflyOn_eq (hc.left hd) (hc.right hd) hout h0]
      rfl
  · rw [exec_degreeOfComparison_ordered hr hx, holds_ordered hr hc.tolerance htol]
    cases hd : c.discrete with
    | false =>
      simp only [hd, Bool.false_and, Bool.false_eq_true, if_false] at hout ⊢
      rw [callSpread_eq hspan hout]
      rfl
    | true =>
      simp only [hd, if_true] at hout
      have hsign : c.right ≤ x ↔ 0 < x := by
        refine ⟨fun h => ((hc.right hd).trans h).lt_of_ne h0.symm, fun h => hout.resolve_left fun hleft => ?_⟩
        exact (h.trans_le hleft).not_ge (hc.left hd)
      simp only [hc.lt hd, decide_true, Bool.and_self, if_true]
      rw [callSpreadOn_eq (hc.lt hd) hout]
      simp only [hsign]
      rfl

end Degrees

namespace Cond

/-- The numbers that the evaluation of the condition compares are clear of their windows. -/
def Clear (width : R) (vs : Variables R) (s : Sample R) : Cond R → Prop
  | literal _ => True
  | compare (some _) _ => True
  | compare none c => ∀ x, (c.arg.eval vs s : Evaluation R Unit R).exec () = (.ok x, ()) → c.Clear width x
  | not (some _) _ => True
  | not none arg => arg.Clear width vs s
  | and (some _) _ _ => True
  | and none lhs rhs => lhs.Clear width vs s ∧
      ((∃ b, (lhs.eval vs s : Evaluation R Unit Bool).exec () = (.ok b, ())) → rhs.Clear width vs s)
  | or (some _) _ _ => True
  | or none lhs rhs => lhs.Clear width vs s ∧
      ((∃ b, (lhs.eval vs s : Evaluation R Unit Bool).exec () = (.ok b, ())) → rhs.Clear width vs s)

/-- A condition holds to the degree one or zero, as it holds or not, and stops where it does. -/
theorem exec_degree (hw : 0 < width) {c : Cond R} (hc : c.Windowed) (hclear : c.Clear width vs s) :
    (degree width vs s c : Evaluation R Unit R).exec () =
      (((c.eval vs s : Evaluation R Unit Bool).exec ()).1.map crisp, ()) := by
  induction c with
  | literal b => rfl
  | compare decided c =>
    cases decided with
    | some b => rfl
    | none =>
      simp only [degree, eval, Evaluation.exec_bind]
      rcases hx : (c.arg.eval vs s : Evaluation R Unit R).exec () with ⟨_ | x, _⟩
      · simp only [degreeOfComparison, Evaluation.exec_bind, hx]
        rfl
      · exact exec_degreeOfComparison hw hc (hclear x hx) hx
  | not decided arg ih =>
    cases decided with
    | some b => rfl
    | none =>
      simp only [degree, eval, Evaluation.exec_bind, ih hc hclear]
      rcases (arg.eval vs s : Evaluation R Unit Bool).exec () with ⟨_ | b, _⟩
      · rfl
      · exact congrArg (fun x : R => (Except.ok x, ())) (one_sub_crisp b)
  | and decided lhs rhs ihl ihr =>
    cases decided with
    | some b => rfl
    | none =>
      -- both sides are evaluated, also where the first one decides
      simp only [degree, eval, Evaluation.exec_bind, ihl hc.1 hclear.1]
      rcases hl : (lhs.eval vs s : Evaluation R Unit Bool).exec () with ⟨_ | a, _⟩
      · rfl
      simp only [Except.map, ihr hc.2 (hclear.2 ⟨a, hl⟩)]
      rcases (rhs.eval vs s : Evaluation R Unit Bool).exec () with ⟨_ | b, _⟩
      · rfl
      · exact congrArg (fun x : R => (Except.ok x, ())) (crisp_mul_crisp a b)
  | or decided lhs rhs ihl ihr =>
    cases decided with
    | some b => rfl
    | none =>
      simp only [degree, eval, Evaluation.exec_bind, ihl hc.1 hclear.1]
      rcases hl : (lhs.eval vs s : Evaluation R Unit Bool).exec () with ⟨_ | a, _⟩
      · rfl
      simp only [Except.map, ihr hc.2 (hclear.2 ⟨a, hl⟩)]
      rcases (rhs.eval vs s : Evaluation R Unit Bool).exec () with ⟨_ | b, _⟩
      · rfl
      · exact congrArg (fun x : R => (Except.ok x, ())) (crisp_add_crisp_sub a b)

end Cond

namespace Statement

variable (width s)

mutual

def Clear : Statement R → Variables R → Prop
  | assign _ _, _ => True
  | pays _ _, _ => True
  | branch c body otherwise _, vs => c.Clear width vs s ∧
      ((c.eval vs s : Evaluation R Unit Bool).exec () = (.ok true, ()) → ClearBlock body vs) ∧
      ((c.eval vs s : Evaluation R Unit Bool).exec () = (.ok false, ()) → ClearBlock otherwise vs)
  | sequence body, vs => ClearBlock body vs

def ClearBlock : List (Statement R) → Variables R → Prop
  | [], _ => True
  | st :: rest, vs => st.Clear vs ∧
      ∀ vs', (st.run s : Process R Unit (Variables R) Unit).exec vs () = ((.ok (), vs'), ()) → ClearBlock rest vs'

end

variable {width s}

mutual

/-- Smoothing plays no part, and nothing is set aside. -/
theorem exec_fuzzyRun (hw : 0 < width) : (st : Statement R) → st.Windowed → (state : Fuzzy.State R) →
    st.Clear width s state.values →
    (Fuzzy.run width s st : Process R Unit (Fuzzy.State R) Unit).exec state () =
      ((((st.run s : Process R Unit (Variables R) Unit).exec state.values ()).1.1,
        { state with values := ((st.run s : Process R Unit (Variables R) Unit).exec state.values ()).1.2 }), ())
  | assign v e, _, state, _ => by
    simp only [Fuzzy.run, onVariables, run, Process.exec_bind, Process.exec_get, Process.exec_ofEvaluation,
      Evaluation.exec_bind]
    rcases (e.eval state.values s : Evaluation R Unit R).exec () with ⟨_ | x, _⟩
    · rfl
    simp only
    rcases (state.values.store v.slot x : Evaluation R Unit (Variables R)).exec () with ⟨_ | after, _⟩ <;> rfl
  | pays v e, _, state, _ => by
    simp only [Fuzzy.run, onVariables, run, Process.exec_bind, Process.exec_get, Process.exec_ofEvaluation,
      Evaluation.exec_bind]
    rcases (e.eval state.values s : Evaluation R Unit R).exec () with ⟨_ | x, _⟩
    · rfl
    simp only
    rcases (state.values.pay v.slot x s.numeraire : Evaluation R Unit (Variables R)).exec () with ⟨_ | after, _⟩ <;> rfl
  | branch c body otherwise affected, h, state, hclear => by
    obtain ⟨hc, hbody, hother⟩ := hclear
    simp only [Fuzzy.run, run, Process.exec_bind, Process.exec_get, Process.exec_ofEvaluation,
      Cond.exec_degree hw h.1 hc]
    rcases hb : (c.eval state.values s : Evaluation R Unit Bool).exec () with ⟨_ | b, _⟩
    · rfl
    cases b with
    | true =>
      simp only [Except.map, value_plain]
      rw [if_pos above_cutoff]
      exact exec_fuzzyRunBlock hw body h.2.1 state (hbody hb)
    | false =>
      simp only [Except.map, value_plain]
      rw [if_neg below_cutoff.1, if_pos below_cutoff.2]
      exact exec_fuzzyRunBlock hw otherwise h.2.2.1 state (hother hb)
  | sequence body, h, state, hclear => exec_fuzzyRunBlock hw body h state hclear

theorem exec_fuzzyRunBlock (hw : 0 < width) : (body : List (Statement R)) → WindowedBlock body →
    (state : Fuzzy.State R) → ClearBlock width s body state.values →
    (Fuzzy.runBlock width s body : Process R Unit (Fuzzy.State R) Unit).exec state () =
      ((((runBlock s body : Process R Unit (Variables R) Unit).exec state.values ()).1.1,
        { state with values := ((runBlock s body : Process R Unit (Variables R) Unit).exec state.values ()).1.2 }), ())
  | [], _, _, _ => rfl
  | st :: rest, h, state, hclear => by
    simp only [Fuzzy.runBlock, runBlock, Process.exec_bind, exec_fuzzyRun hw st h.1 state hclear.1]
    rcases hrun : (st.run s : Process R Unit (Variables R) Unit).exec state.values () with ⟨⟨_ | _, vs'⟩, _⟩
    · rfl
    · exact exec_fuzzyRunBlock hw rest h.2 { state with values := vs' } (hclear.2 vs' hrun)

end

end Statement

end PayoffPricing.Script
