import PayoffPricing.Proofs.Script.Inference
/-!
Decided conditions. A condition that the domain analysis has gone through, with every decided part
replaced by its outcome, has the outcome that it has without any analysis.
-/

namespace PayoffPricing.Script

open Domain

variable {R : Type} [ExactScalar R]

/-- A verdict on the domain is right at the tolerance that the comparison states, if it states one. -/
def Comparison.Respects (c : Comparison R) (d : Domain R) : Prop :=
  ∀ t b, c.tolerance = some t → outcome c.relation d = some b → ∀ x, d.Has x →
    Intrinsic.holds c.relation x t = b

namespace Cond

/-- The tolerance tells apart what the analysis of a condition compares, and its verdicts are right at
the tolerances that the condition states. -/
def Settled (domains : Domains R) : Cond R → Prop
  | literal _ => True
  | compare _ c => c.arg.Settled domains ∧ ∀ d, c.arg.domain domains = .ok d → c.Respects d
  | not _ arg => arg.Settled domains
  | and _ lhs rhs => lhs.Settled domains ∧ rhs.Settled domains
  | or _ lhs rhs => lhs.Settled domains ∧ rhs.Settled domains

omit [ExactScalar R] in
theorem collapse_of_decided {c : Cond R} {b : Bool} (h : c.decided? = some b) : c.collapse = literal b := by
  cases c <;> simp_all [decided?, collapse]

end Cond

variable {domains : Domains R} {vs : Variables R} {s : Sample R} {fuzzy : Bool}

theorem Comparison.holds_of_settled {c : Comparison R} {d : Domain R} {x : R} {b : Bool} (hd : d.Sharp)
    (hx : d.Has x) (hr : c.Respects d) (h : outcome c.relation d = some b) :
    Intrinsic.holds c.relation x c.toleranceOrDefault = b := by
  unfold toleranceOrDefault
  cases ht : c.tolerance with
  | none => exact holds_of_outcome hd hx h
  | some t => exact hr t b ht h x hx

theorem bothDecided_eq {l r : Option Bool} {a b v : Bool} (hl : l = none ∨ l = some a)
    (hr : r = none ∨ r = some b) (h : bothDecided l r = some v) : v = (a && b) := by
  rcases hl with rfl | rfl <;> rcases hr with rfl | rfl <;> cases a <;> cases b <;>
    simp_all [bothDecided]

theorem eitherDecided_eq {l r : Option Bool} {a b v : Bool} (hl : l = none ∨ l = some a)
    (hr : r = none ∨ r = some b) (h : eitherDecided l r = some v) : v = (a || b) := by
  rcases hl with rfl | rfl <;> rcases hr with rfl | rfl <;> cases a <;> cases b <;>
    simp_all [eitherDecided]

/-- What the analysis notes at a comparison leaves the comparison itself alone. -/
theorem Comparison.noted (fuzzy : Bool) (c : Comparison R) (d : Domain R) :
    (if fuzzy then c.withWindow d else c).relation = c.relation ∧
      (if fuzzy then c.withWindow d else c).arg = c.arg ∧
      (if fuzzy then c.withWindow d else c).tolerance = c.tolerance := by
  cases fuzzy
  · exact ⟨rfl, rfl, rfl⟩
  · simp only [if_true, withWindow]
    split <;> split_ifs <;> exact ⟨rfl, rfl, rfl⟩

namespace Cond

/-- The condition succeeds with an outcome and without the record of divisors. -/
def Outcome (c : Cond R) (vs : Variables R) (s : Sample R) (b : Bool) : Prop :=
  (c.eval vs s : Evaluation R Unit Bool).exec () = (.ok b, ())

theorem outcome_literal {b b' : Bool} (h : (literal b : Cond R).Outcome vs s b') : b = b' :=
  Except.ok.inj (congrArg Prod.fst h)

theorem decided_of_outcome {c : Cond R} {b : Bool} (h : c.collapse.bare.Outcome vs s b) :
    c.decided? = none ∨ c.decided? = some b := by
  cases hd : c.decided? with
  | none => exact .inl rfl
  | some v =>
    rw [collapse_of_decided hd] at h
    exact .inr (congrArg _ (outcome_literal h))

theorem exec_bare_compare (decided : Option Bool) (c : Comparison R) {x : R}
    (h : (c.arg.bare.eval vs s : Evaluation R Unit R).exec () = (.ok x, ())) :
    (compare decided c).bare.Outcome vs s (Intrinsic.holds c.relation x c.toleranceOrDefault) := by
  simp only [Outcome, bare, eval, Evaluation.exec_bind, h]
  rfl

/-- Analysis keeps the outcome of a condition. -/
theorem outcome_decide (hD : domains.Sharp) (hin : domains.Hold vs) (c : Cond R) {r : Cond R} {b : Bool}
    (hs : c.Settled domains) (h : c.decide fuzzy domains = ⟨r, none⟩)
    (hy : (c.bare.eval vs s : Evaluation R Prop Bool).Yields b) : r.collapse.bare.Outcome vs s b := by
  induction c generalizing r b with
  | literal v =>
    cases h
    exact exec_of_yields hy
  | compare decided c =>
    simp only [decide] at h
    split at h
    · simp at h
    next d hd =>
    obtain ⟨hsharp, hhas⟩ := c.arg.contains_domain hD hs.1 hd (s := s)
    simp only [bare, eval] at hy
    obtain ⟨x, hx, hy⟩ := hy.bind_inv fun _ => Evaluation.Remembers.pure _
    rw [← Evaluation.yields_pure_iff.1 hy]
    split at h
    · next v hv =>
      cases h
      have hb := Comparison.holds_of_settled hsharp (hhas hin x hx) (hs.2 d hd) hv
      rw [← hb]
      rfl
    · cases h
      obtain ⟨hrelation, harg, htolerance⟩ := Comparison.noted fuzzy c d
      have hexec := exec_bare_compare none (if fuzzy then c.withWindow d else c) (x := x)
        (by rw [harg]; exact Expr.exec_of_yields hx)
      rw [hrelation] at hexec
      unfold Comparison.toleranceOrDefault at hexec ⊢
      rw [htolerance] at hexec
      exact hexec
  | not decided arg ih =>
    simp only [decide] at h
    generalize hr : arg.decide fuzzy domains = result at h
    obtain ⟨arg', stop⟩ := result
    cases h
    simp only [bare, eval] at hy
    obtain ⟨a, ha, hy⟩ := hy.bind_inv fun _ => Evaluation.Remembers.pure _
    rw [← Evaluation.yields_pure_iff.1 hy]
    have harg := ih hs hr ha
    rcases decided_of_outcome harg with hdec | hdec
    · simp only [Outcome] at harg
      simp [hdec, collapse, Outcome, bare, eval, harg]
    · simp [hdec, collapse, Outcome, bare, eval]
  | and decided lhs rhs ihl ihr =>
    simp only [decide] at h
    generalize hl : lhs.decide fuzzy domains = result at h
    obtain ⟨lhs', stop⟩ := result
    cases stop with
    | some e => cases h
    | none =>
      generalize hr : rhs.decide fuzzy domains = result at h
      obtain ⟨rhs', stop⟩ := result
      cases h
      simp only [bare, eval] at hy
      obtain ⟨x, hx, hy⟩ := hy.bind_inv fun _ =>
        (remembers_eval rhs.bare).bind fun _ => Evaluation.Remembers.pure _
      obtain ⟨y, hy, hxy⟩ := hy.bind_inv fun _ => Evaluation.Remembers.pure _
      rw [← Evaluation.yields_pure_iff.1 hxy]
      have hlhs := ihl hs.1 hl hx
      have hrhs := ihr hs.2 hr hy
      cases hdec : bothDecided lhs'.decided? rhs'.decided? with
      | some v =>
        rw [← bothDecided_eq (decided_of_outcome hlhs) (decided_of_outcome hrhs) hdec]
        simp [collapse, Outcome, bare, eval]
      | none =>
        simp only [Outcome] at hlhs hrhs
        simp [collapse, Outcome, bare, eval, hlhs, hrhs]
  | or decided lhs rhs ihl ihr =>
    simp only [decide] at h
    generalize hl : lhs.decide fuzzy domains = result at h
    obtain ⟨lhs', stop⟩ := result
    cases stop with
    | some e => cases h
    | none =>
      generalize hr : rhs.decide fuzzy domains = result at h
      obtain ⟨rhs', stop⟩ := result
      cases h
      simp only [bare, eval] at hy
      obtain ⟨x, hx, hy⟩ := hy.bind_inv fun _ =>
        (remembers_eval rhs.bare).bind fun _ => Evaluation.Remembers.pure _
      obtain ⟨y, hy, hxy⟩ := hy.bind_inv fun _ => Evaluation.Remembers.pure _
      rw [← Evaluation.yields_pure_iff.1 hxy]
      have hlhs := ihl hs.1 hl hx
      have hrhs := ihr hs.2 hr hy
      cases hdec : eitherDecided lhs'.decided? rhs'.decided? with
      | some v =>
        rw [← eitherDecided_eq (decided_of_outcome hlhs) (decided_of_outcome hrhs) hdec]
        simp [collapse, Outcome, bare, eval]
      | none =>
        simp only [Outcome] at hlhs hrhs
        simp [collapse, Outcome, bare, eval, hlhs, hrhs]

end Cond

end PayoffPricing.Script
