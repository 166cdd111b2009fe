import Mathlib
import PayoffPricing.Proofs.Script.Bare
import PayoffPricing.Proofs.Script.Divisors
import PayoffPricing.Proofs.Script.Verdict
/-!
The domain analysis in exact arithmetic. As far as the tolerance tells apart what the analysis
compares, the domain of an expression has the value of the expression in every run.
-/

namespace PayoffPricing.Script

open Domain PayoffPricing.Script.Interval

variable {R : Type} [ExactScalar R]

/-- The tolerance tells apart what an operation compares, and its results. -/
def Operator.Settled (op : Operator) (a b : Domain R) : Prop :=
  match op with
  | .add => Resolved (endsOf (pairs Interval.add a.intervals b.intervals))
  | .sub => Resolved (endsOf (pairs Interval.sub a.intervals b.intervals))
  | .mul => MulResolved a.intervals b.intervals
  | .div => DivResolved a b
  | .pow => ImageResolved₂ Expr.powValue a b

/-- The tolerance tells apart what a repeated operation compares. -/
def FoldSettled (f : Domain R → Domain R → Domain R) : Domain R → List (Domain R) → Prop
  | _, [] => True
  | d, e :: es => d.Distinct e ∧ FoldSettled f (f d e) es

/-- The tolerance tells apart what a function compares, and its results. -/
def Function.Settled (f : Function) (ds : List (Domain R)) : Prop :=
  match f, ds with
  | .log, [d] => ImageResolved (Expr.unaryValue .log) d
  | .sqrt, [d] => ImageResolved (Expr.unaryValue .sqrt) d
  | .exp, [d] => ImageResolved (Expr.unaryValue .exp) d
  | .min, d :: ds => FoldSettled Domain.min d ds
  | .max, d :: ds => FoldSettled Domain.max d ds
  | .smooth, [_, above, below, _] => above.Distinct below
  | _, _ => True

namespace Expr

mutual

/-- The tolerance tells apart what the analysis of an expression compares. -/
def Settled (domains : Domains R) : Expr R → Prop
  | literal v => Resolved [Bound.finite v]
  | spot => True
  | read _ _ => True
  | neg _ arg => arg.Settled domains
  | plus _ arg => arg.Settled domains
  | binary _ op lhs rhs => lhs.Settled domains ∧ rhs.Settled domains ∧
      ∀ a b, lhs.domain domains = .ok a → rhs.domain domains = .ok b → op.Settled a b
  | call _ f args => SettledList domains args ∧
      ∀ ds, domainList domains args = .ok ds → f.Settled ds

def SettledList (domains : Domains R) : List (Expr R) → Prop
  | [] => True
  | e :: es => e.Settled domains ∧ SettledList domains es

end

end Expr

namespace Domains

/-- All domains are sharp. -/
def Sharp (domains : Domains R) : Prop := ∀ (i : Nat) (d : Domain R), domains[i]? = some d → d.Sharp

/-- Every variable has a value in its domain. -/
def Hold (domains : Domains R) (vs : Variables R) : Prop :=
  ∀ (i : Nat) (d : Domain R) (x : R), domains[i]? = some d → vs[i]? = some x → d.Has x

end Domains

theorem Interval.Has.between {a : Interval R} {x y t : R} (hx : a.Has x) (hy : a.Has y) (h0 : 0 ≤ t)
    (h1 : t ≤ 1) : a.Has (y + (x - y) * t) := by
  rcases le_total x y with h | h
  · exact ⟨hx.1.monotone (by nlinarith), hy.2.antitone (by nlinarith)⟩
  · exact ⟨hy.1.monotone (by nlinarith), hx.2.antitone (by nlinarith)⟩

namespace Intrinsic

variable {x y z : R}

/-- A smoothed step is between the values it leads from and to. -/
theorem exists_of_yields_smooth {above below width : R}
    (h : (smooth x above below width : Evaluation R Prop R).Yields z) :
    ∃ t, 0 ≤ t ∧ t ≤ 1 ∧ z = below + (above - below) * t := by
  unfold smooth at h
  simp only [Valued.value] at h
  split at h
  · next hw =>
    rw [gt_iff_lt, scalar_zero] at hw
    simp only [Smoothing.smoothStep, Smoothing.require, Valued.value, ExactScalar.literal_eq,
      Nat.cast_zero, ExactScalar.half_eq, gt_iff_lt, hw, decide_true, if_true, pure_bind] at h
    split at h
    · rw [Evaluation.yields_pure_iff] at h
      exact ⟨0, le_refl 0, zero_le_one, by rw [h]; ring⟩
    split at h
    · rw [Evaluation.yields_pure_iff] at h
      exact ⟨1, zero_le_one, le_refl 1, by rw [h]; ring⟩
    · next hlow hhigh =>
      have hz : z = below + (above - below) * (1 / 2 / (1 / 2 * width)) * (x + 1 / 2 * width) :=
        (Except.ok.inj (congrArg Prod.fst h)).symm
      refine ⟨(x + 1 / 2 * width) / width, ?_, ?_, ?_⟩
      · exact div_nonneg (by linarith) hw.le
      · rw [div_le_one hw]
        linarith
      · rw [hz]
        field_simp
  · simp [Evaluation.Yields] at h

theorem yields_div (h : (binary .div x y : Evaluation R Prop R).Yields z) : z = x / y ∧ y ≠ 0 := by
  simp only [binary, Evaluation.Yields, finiteOr, Quantity.div, Evaluation.exec_bind,
    Evaluation.exec_record, ExactScalar.isFinite_eq, if_true, Evaluation.exec_pure, Prod.mk.injEq,
    Except.ok.injEq, true_and, eq_iff_iff, iff_true] at h
  exact ⟨h.1.symm, h.2⟩

end Intrinsic

theorem sharp_realLine : (Domain.realLine : Domain R).Sharp :=
  sharp_ofInterval ⟨0, has_realLine 0⟩ fun u hu v hv => by
    simp only [Interval.ends, Interval.realLine, List.mem_cons, List.not_mem_nil, or_false] at hu hv
    rcases hu with rfl | rfl | rfl <;> rcases hv with rfl | rfl | rfl <;>
      first | exact Bound.apart_self _ | trivial

theorem sharp_nonNegative : (Domain.nonNegative : Domain R).Sharp :=
  sharp_ofInterval ⟨0, has_nonNegative (le_refl 0)⟩ fun u hu v hv => by
    simp only [Interval.ends, Interval.nonNegative, Bound.finite_zero, List.mem_cons, List.not_mem_nil,
      or_false] at hu hv
    rcases hu with rfl | rfl | rfl <;> rcases hv with rfl | rfl | rfl <;>
      first | exact Bound.apart_self _ | trivial

theorem sharp_singleton {v : R} (h : Resolved [Bound.finite v]) : (Domain.singleton v).Sharp :=
  sharp_ofInterval ⟨v, has_singleton v⟩ (h.mono fun e he => by
    simpa [Interval.ends, Interval.singleton] using he)

/-- The domain has all values that an evaluation yields when its variables are in their domains. -/
def Contains (domains : Domains R) (vs : Variables R) (d : Domain R) (a : Evaluation R Prop R) : Prop :=
  d.Sharp ∧ (domains.Hold vs → ∀ x, a.Yields x → d.Has x)

/-- The domains have all lists of values that an evaluation yields. -/
def ContainsAll (domains : Domains R) (vs : Variables R) (ds : List (Domain R))
    (a : Evaluation R Prop (List R)) : Prop :=
  (∀ d ∈ ds, d.Sharp) ∧ (domains.Hold vs → ∀ xs, a.Yields xs → List.Forall₂ Domain.Has ds xs)

omit [ExactScalar R] in
theorem liftError_eq_ok {α : Type} {x : Except (ScriptError R) α} {a : α} :
    liftError x = .ok a ↔ x = .ok a := by
  cases x <;> simp [liftError]

section

variable {domains : Domains R} {vs : Variables R} {s : Sample R}

theorem Intrinsic.remembers_binary (op : Operator) (x y : R) :
    (Intrinsic.binary op x y : Evaluation R Prop R).Remembers :=
  Evaluation.remembers_of_alike fun _ => Likeness.alike_binary (L := divisorLikeness R) op rfl rfl

theorem Intrinsic.remembers_unary (f : Function) (x : R) :
    (Intrinsic.unary f x : Evaluation R Prop R).Remembers :=
  Evaluation.remembers_of_alike fun _ => Likeness.alike_unary (L := divisorLikeness R) f rfl

theorem Intrinsic.remembers_smooth (x above below width : R) :
    (Intrinsic.smooth x above below width : Evaluation R Prop R).Remembers :=
  Evaluation.remembers_of_alike fun _ =>
    Likeness.alike_smooth (L := divisorLikeness R) rfl rfl rfl rfl

theorem Intrinsic.yields_unary {f : Function} {x y : R}
    (h : (Intrinsic.unary f x : Evaluation R Prop R).Yields y) : Expr.unaryValue f x = .ok y := by
  have := exec_of_yields (Likeness.alike_unary (L := divisorLikeness R) f rfl) h
  exact congrArg Prod.fst this

theorem Intrinsic.yields_pow {x y z : R}
    (h : (Intrinsic.binary .pow x y : Evaluation R Prop R).Yields z) : Expr.powValue x y = .ok z := by
  have := exec_of_yields (Likeness.alike_binary (L := divisorLikeness R) .pow rfl rfl) h
  exact congrArg Prod.fst this

/-- The values of an operation on elements of two domains. -/
def Operator.domain (op : Operator) (a b : Domain R) : Except (Fault (ScriptError R)) (Domain R) :=
  match op with
  | .add => .ok (a.add b)
  | .sub => .ok (a.sub b)
  | .mul => .ok (a.mul b)
  | .div => liftError (a.div b)
  | .pow => a.image₂ b Expr.powValue .realLine

theorem Expr.domain_binary (known : Option R) (op : Operator) (lhs rhs : Expr R) :
    (binary known op lhs rhs).domain domains =
      lhs.domain domains >>= fun a => rhs.domain domains >>= fun b => op.domain a b := by
  cases op <;> rfl

theorem Expr.domainList_eq_ok {es : List (Expr R)} {ds : List (Domain R)} :
    domainList domains es = .ok ds ↔ List.Forall₂ (fun e d => e.domain domains = .ok d) es ds := by
  rw [← mapM_eq_ok_iff]
  have h : domainList domains es = es.mapM fun e => e.domain domains := by
    induction es with
    | nil => rfl
    | cons e es ih =>
      rw [domainList, List.mapM_cons, ih]
  rw [h]

theorem Operator.contains_domain {op : Operator} {a b d : Domain R} (ha : a.Sharp) (hb : b.Sharp)
    (hs : op.Settled a b) (hd : op.domain a b = .ok d) :
    d.Sharp ∧ ∀ x y z, a.Has x → b.Has y → (Intrinsic.binary op x y : Evaluation R Prop R).Yields z →
      d.Has z := by
  cases op with
  | add =>
    cases hd
    obtain ⟨hsharp, hr⟩ := results_add ha hb hs
    exact ⟨hsharp, fun x y z hx hy hz => Except.ok.inj (congrArg Prod.fst hz) ▸ hr x y hx hy⟩
  | sub =>
    cases hd
    obtain ⟨hsharp, hr⟩ := results_sub ha hb hs
    exact ⟨hsharp, fun x y z hx hy hz => Except.ok.inj (congrArg Prod.fst hz) ▸ hr x y hx hy⟩
  | mul =>
    cases hd
    obtain ⟨hsharp, hr⟩ := results_mul ha hb hs
    exact ⟨hsharp, fun x y z hx hy hz => Except.ok.inj (congrArg Prod.fst hz) ▸ hr x y hx hy⟩
  | div =>
    obtain ⟨hsharp, hr⟩ := results_div ha hb hs (liftError_eq_ok.1 hd)
    refine ⟨hsharp, fun x y z hx hy hz => ?_⟩
    obtain ⟨rfl, h0⟩ := Intrinsic.yields_div hz
    exact hr x y hx hy h0
  | pow =>
    obtain ⟨hsharp, hr⟩ := results_image₂ ha hb sharp_realLine hs hd
    exact ⟨hsharp, fun x y z hx hy hz => hr x y z hx hy (Intrinsic.yields_pow hz)
      (has_ofInterval (has_realLine z))⟩

theorem contains_foldl {f : Function} {op : Domain R → Domain R → Domain R}
    (hop : ∀ {d e : Domain R}, d.Sharp → e.Sharp → d.Distinct e → Results (Intrinsic.pick f) d e (op d e))
    {d : Domain R} {ds : List (Domain R)} (hd : d.Sharp) (hds : ∀ d ∈ ds, d.Sharp)
    (hs : FoldSettled op d ds) : (ds.foldl op d).Sharp ∧
      ∀ x xs, d.Has x → List.Forall₂ Domain.Has ds xs →
        (ds.foldl op d).Has (xs.foldl (Intrinsic.pick f) x) := by
  induction ds generalizing d with
  | nil => exact ⟨hd, fun x xs hx hxs => by cases hxs; exact hx⟩
  | cons e ds ih =>
    obtain ⟨hsharp, hr⟩ := hop hd (hds e List.mem_cons_self) hs.1
    obtain ⟨hsharp, hrest⟩ := ih hsharp (fun d hd => hds d (List.mem_cons_of_mem _ hd)) hs.2
    refine ⟨hsharp, fun x xs hx hxs => ?_⟩
    cases hxs with
    | cons hy hys => exact hrest (Intrinsic.pick f x _) _ (hr x _ hx hy) hys

theorem eq_of_ofBounds {l r : Bound R} {span : Interval R} (h : Interval.ofBounds l r = .ok span) :
    span = ⟨l, r⟩ := by
  simp only [Interval.ofBounds] at h
  split_ifs at h
  exact (Except.ok.inj h).symm

/-- The least interval around two domains. -/
def span (a b : Domain R) : Interval R := ⟨a.lowest.min b.lowest, a.highest.max b.highest⟩

theorem exists_span_eq {a b : Domain R} {x y : R} (ha : a.Sharp) (hb : b.Sharp) (hx : a.Has x)
    (hy : b.Has y) : ∃ l ∈ a.intervals, ∃ m ∈ b.intervals, ∃ r ∈ a.intervals, ∃ q ∈ b.intervals,
      span a b = ⟨l.left.min m.left, r.right.max q.right⟩ ∧ (l.left.IsLower x ∧ m.left.IsLower y) ∧
        r.right.IsUpper x ∧ q.right.IsUpper y := by
  obtain ⟨l, hl, hla, hlx⟩ := exists_head_isLower ha hx
  obtain ⟨m, hm, hmb, hmy⟩ := exists_head_isLower hb hy
  obtain ⟨r, hr, hra, hrx⟩ := exists_last_isUpper ha hx
  obtain ⟨q, hq, hqb, hqy⟩ := exists_last_isUpper hb hy
  refine ⟨l, hl, m, hm, r, hr, q, hq, ?_, ⟨hlx, hmy⟩, hrx, hqy⟩
  simp [span, lowest, highest, hla, hmb, hra, hqb]

theorem has_span {a b : Domain R} {x y : R} (ha : a.Sharp) (hb : b.Sharp) (hd : a.Distinct b)
    (hx : a.Has x) (hy : b.Has y) : (span a b).Has x ∧ (span a b).Has y := by
  obtain ⟨l, hl, m, hm, r, hr, q, hq, h, hlow, hhigh⟩ := exists_span_eq ha hb hx hy
  have hlm : l.left.Apart m.left :=
    (hd.intervals hl hm).apart (by simp [Interval.ends]) (by simp [Interval.ends])
  have hrq : r.right.Apart q.right :=
    (hd.intervals hr hq).apart (by simp [Interval.ends]) (by simp [Interval.ends])
  rw [h]
  exact ⟨⟨Bound.isLower_min_left hlm hlow.1, Bound.isUpper_max_left hrq hhigh.1⟩,
    ⟨Bound.isLower_min_right hlm hlow.2, Bound.isUpper_max_right hrq hhigh.2⟩⟩

theorem ends_span {a b : Domain R} {x y : R} (ha : a.Sharp) (hb : b.Sharp) (hx : a.Has x)
    (hy : b.Has y) : (span a b).ends ⊆ endsOf (a.intervals ++ b.intervals) := by
  obtain ⟨l, hl, m, hm, r, hr, q, hq, h, -, -⟩ := exists_span_eq ha hb hx hy
  have hmem : ∀ {c}, c ∈ a.intervals ∨ c ∈ b.intervals →
      c.left ∈ endsOf (a.intervals ++ b.intervals) ∧ c.right ∈ endsOf (a.intervals ++ b.intervals) :=
    fun hc => ⟨mem_endsOf (List.mem_append.2 hc) (left_mem_ends _),
      mem_endsOf (List.mem_append.2 hc) (right_mem_ends _)⟩
  rw [h]
  intro e he
  simp only [Interval.ends, List.mem_cons, List.not_mem_nil, or_false] at he
  rcases he with rfl | rfl
  · rcases Bound.min_eq l.left m.left with h | h <;> rw [h]
    · exact (hmem (.inl hl)).1
    · exact (hmem (.inr hm)).1
  · rcases Bound.max_eq r.right q.right with h | h <;> rw [h]
    · exact (hmem (.inl hr)).2
    · exact (hmem (.inr hq)).2

theorem span_of_empty {a b : Domain R} (h : a.intervals = [] ∨ b.intervals = []) :
    span a b = Interval.realLine := by
  rcases h with h | h
  · simp only [span, lowest, highest, h, List.head?_nil, List.getLast?_nil, Option.elim_none]
    exact congrArg₂ _ (Bound.minusInfinity_min _) (Bound.plusInfinity_max _)
  · simp only [span, lowest, highest, h, List.head?_nil, List.getLast?_nil, Option.elim_none]
    exact congrArg₂ _ (Bound.min_minusInfinity _) (Bound.max_plusInfinity _)

theorem sharp_span {a b : Domain R} (ha : a.Sharp) (hb : b.Sharp) (hd : a.Distinct b) :
    (ofInterval (span a b)).Sharp := by
  by_cases h : a.intervals = [] ∨ b.intervals = []
  · rw [span_of_empty h]
    exact sharp_realLine
  · rw [not_or] at h
    obtain ⟨x, hx⟩ := exists_has ha h.1
    obtain ⟨y, hy⟩ := exists_has hb h.2
    exact sharp_ofInterval ⟨x, (has_span ha hb hd hx hy).1⟩ (hd.mono (ends_span ha hb hx hy))

theorem contains_image {f : Function} {a d otherwise : Domain R} {e : Evaluation R Prop R}
    (ha : Contains domains vs a e) (hs : ImageResolved (Expr.unaryValue f) a) (ho : otherwise.Sharp)
    (hov : ∀ x y : R, Expr.unaryValue f x = .ok y → otherwise.Has y)
    (hd : a.image (Expr.unaryValue f) otherwise = .ok d) :
    Contains domains vs d (e >>= fun x => Intrinsic.unary f x) := by
  obtain ⟨hsharp, hr⟩ := results_image ha.1 ho hs hd
  refine ⟨hsharp, fun hv y hy => ?_⟩
  obtain ⟨x, hx, hy⟩ := hy.bind_inv fun x => Intrinsic.remembers_unary f x
  have hxy := Intrinsic.yields_unary hy
  exact hr x y (ha.2 hv x hx) hxy (hov x y hxy)

theorem contains_extreme {f : Function} {op : Domain R → Domain R → Domain R}
    (hop : ∀ {d e : Domain R}, d.Sharp → e.Sharp → d.Distinct e → Results (Intrinsic.pick f) d e (op d e))
    {a : Domain R} {ds : List (Domain R)} {e : Evaluation R Prop R} {es : List (Expr R)}
    (ha : Contains domains vs a e)
    (hds : ContainsAll domains vs ds (Expr.evalList vs s es)) (hs : FoldSettled op a ds) :
    Contains domains vs (ds.foldl op a) (e >>= fun first => do
      return (← Expr.evalList vs s es).foldl (Intrinsic.pick f) first) := by
  obtain ⟨hsharp, hr⟩ := contains_foldl hop ha.1 hds.1 hs
  refine ⟨hsharp, fun hv y hy => ?_⟩
  obtain ⟨x, hx, hy⟩ := hy.bind_inv fun x =>
    (Expr.remembers_evalList es).bind fun _ => Evaluation.Remembers.pure _
  obtain ⟨xs, hxs, hy⟩ := hy.bind_inv fun _ => Evaluation.Remembers.pure _
  rw [← Evaluation.yields_pure_iff.1 hy]
  exact hr x xs (ha.2 hv x hx) (hds.2 hv xs hxs)

theorem nonneg_sqrt (x y : R) (h : Expr.unaryValue .sqrt x = .ok y) : 0 ≤ y := by
  simp only [Expr.unaryValue, Evaluation.plain, Intrinsic.unary] at h
  split at h
  · contradiction
  · exact Except.ok.inj h ▸ ExactScalar.sqrt_nonneg x

theorem nonneg_exp (x y : R) (h : Expr.unaryValue .exp x = .ok y) : 0 ≤ y :=
  Except.ok.inj h ▸ ExactScalar.exp_nonneg x

mutual

theorem Expr.contains_domain (hD : domains.Sharp) : (e : Expr R) → {d : Domain R} →
    e.Settled domains → e.domain domains = .ok d → Contains domains vs d (e.bare.eval vs s)
  | .literal v, d, hs, hd => by
    simp only [Expr.domain, Except.ok.injEq] at hd
    subst hd
    refine ⟨sharp_singleton hs, fun _ x hx => ?_⟩
    rw [show v = x from Evaluation.yields_pure_iff.1 hx]
    exact has_ofInterval (has_singleton x)
  | .spot, d, _, hd => by
    simp only [Expr.domain, Except.ok.injEq] at hd
    subst hd
    exact ⟨sharp_realLine, fun _ x _ => has_ofInterval (has_realLine x)⟩
  | .read _ v, d, _, hd => by
    simp only [Expr.domain] at hd
    have hv : domains[v.slot]? = some d := by
      cases h : domains[v.slot]? <;> simp_all [Fault.ofOption]
    refine ⟨hD _ _ hv, fun hin x hx => hin _ _ _ hv ?_⟩
    simp only [Expr.bare, Expr.eval, Variables.fetch, Evaluation.Yields] at hx
    cases h : vs[v.slot]? with
    | none => simp [h] at hx
    | some y => simpa [h] using hx
  | .neg _ arg, d, hs, hd => by
    simp only [Expr.domain] at hd
    obtain ⟨a, ha, hd⟩ := bind_eq_ok_iff.1 hd
    cases hd
    obtain ⟨hsharp, hhas⟩ := arg.contains_domain hD hs ha
    obtain ⟨hsharp, hneg⟩ := results_neg hsharp
    refine ⟨hsharp, fun hin x hx => ?_⟩
    simp only [Expr.bare, Expr.eval] at hx
    obtain ⟨y, hy, hx⟩ := hx.bind_inv fun _ => Evaluation.Remembers.pure _
    exact Except.ok.inj (congrArg Prod.fst hx) ▸ hneg y (hhas hin y hy)
  | .plus _ arg, d, hs, hd => by
    simp only [Expr.domain] at hd
    simp only [Expr.bare, Expr.eval]
    exact arg.contains_domain hD hs hd
  | .binary _ op lhs rhs, d, hs, hd => by
    rw [Expr.domain_binary] at hd
    obtain ⟨a, ha, hd⟩ := bind_eq_ok_iff.1 hd
    obtain ⟨b, hb, hd⟩ := bind_eq_ok_iff.1 hd
    obtain ⟨hsl, hsr, hop⟩ := hs
    obtain ⟨hsa, hha⟩ := lhs.contains_domain hD hsl ha
    obtain ⟨hsb, hhb⟩ := rhs.contains_domain hD hsr hb
    obtain ⟨hsharp, hhas⟩ := Operator.contains_domain hsa hsb (hop a b ha hb) hd
    refine ⟨hsharp, fun hin z hz => ?_⟩
    simp only [Expr.bare, Expr.eval] at hz
    obtain ⟨x, hx, hz⟩ := hz.bind_inv fun x =>
      (Expr.remembers_eval rhs.bare).bind fun y => Intrinsic.remembers_binary op x y
    obtain ⟨y, hy, hz⟩ := hz.bind_inv fun y => Intrinsic.remembers_binary op x y
    exact hhas x y z (hha hin x hx) (hhb hin y hy) hz
  | .call _ f args, d, hs, hd => by
    obtain ⟨hargs, hf⟩ := hs
    unfold Expr.domain at hd
    split at hd
    · next e =>
      obtain ⟨a, ha, hd⟩ := bind_eq_ok_iff.1 hd
      have hs := hf [a] (Expr.domainList_eq_ok.2 (.cons ha .nil))
      exact contains_image (e.contains_domain hD hargs.1 ha) hs sharp_realLine
        (fun _ y _ => has_ofInterval (has_realLine y)) hd
    · next e =>
      obtain ⟨a, ha, hd⟩ := bind_eq_ok_iff.1 hd
      have hs := hf [a] (Expr.domainList_eq_ok.2 (.cons ha .nil))
      exact contains_image (e.contains_domain hD hargs.1 ha) hs sharp_nonNegative
        (fun x y h => has_ofInterval (has_nonNegative (nonneg_sqrt x y h))) hd
    · next e =>
      obtain ⟨a, ha, hd⟩ := bind_eq_ok_iff.1 hd
      have hs := hf [a] (Expr.domainList_eq_ok.2 (.cons ha .nil))
      exact contains_image (e.contains_domain hD hargs.1 ha) hs sharp_nonNegative
        (fun x y h => has_ofInterval (has_nonNegative (nonneg_exp x y h))) hd
    · next e es =>
      obtain ⟨a, ha, hd⟩ := bind_eq_ok_iff.1 hd
      obtain ⟨ds, hds, hd⟩ := bind_eq_ok_iff.1 hd
      cases hd
      have hs := hf (a :: ds) (Expr.domainList_eq_ok.2 (.cons ha (Expr.domainList_eq_ok.1 hds)))
      exact contains_extreme results_min (e.contains_domain hD hargs.1 ha)
        (Expr.contains_domainList hD es hargs.2 hds) hs
    · next e es =>
      obtain ⟨a, ha, hd⟩ := bind_eq_ok_iff.1 hd
      obtain ⟨ds, hds, hd⟩ := bind_eq_ok_iff.1 hd
      cases hd
      have hs := hf (a :: ds) (Expr.domainList_eq_ok.2 (.cons ha (Expr.domainList_eq_ok.1 hds)))
      exact contains_extreme results_max (e.contains_domain hD hargs.1 ha)
        (Expr.contains_domainList hD es hargs.2 hds) hs
    · next e above below width =>
      obtain ⟨dx, hdx, hd⟩ := bind_eq_ok_iff.1 hd
      split at hd
      · contradiction
      obtain ⟨dw, hdw, hd⟩ := bind_eq_ok_iff.1 hd
      obtain ⟨da, hda, hd⟩ := bind_eq_ok_iff.1 hd
      obtain ⟨db, hdb, hd⟩ := bind_eq_ok_iff.1 hd
      obtain ⟨span', hspan, hd⟩ := bind_eq_ok_iff.1 hd
      cases hd
      have hs : da.Distinct db :=
        hf [dx, da, db, dw] (Expr.domainList_eq_ok.2 (.cons hdx (.cons hda (.cons hdb (.cons hdw .nil)))))
      obtain ⟨hsa, hha⟩ := above.contains_domain hD hargs.2.1 hda
      obtain ⟨hsb, hhb⟩ := below.contains_domain hD hargs.2.2.1 hdb
      have hspan' : span' = span da db := eq_of_ofBounds (liftError_eq_ok.1 hspan)
      rw [hspan']
      refine ⟨sharp_span hsa hsb hs, fun hin z hz => ?_⟩
      simp only [Expr.bare, Expr.bareList, Expr.eval] at hz
      obtain ⟨x, -, hz⟩ := hz.bind_inv fun x =>
        (Expr.remembers_eval _).bind fun a => (Expr.remembers_eval _).bind fun b =>
          (Expr.remembers_eval _).bind fun w => Intrinsic.remembers_smooth x a b w
      obtain ⟨a, ha, hz⟩ := hz.bind_inv fun a =>
        (Expr.remembers_eval _).bind fun b =>
          (Expr.remembers_eval _).bind fun w => Intrinsic.remembers_smooth x a b w
      obtain ⟨b, hb, hz⟩ := hz.bind_inv fun b =>
        (Expr.remembers_eval _).bind fun w => Intrinsic.remembers_smooth x a b w
      obtain ⟨w, -, hz⟩ := hz.bind_inv fun w => Intrinsic.remembers_smooth x a b w
      obtain ⟨t, h0, h1, rfl⟩ := Intrinsic.exists_of_yields_smooth hz
      obtain ⟨hsx, hsy⟩ := has_span hsa hsb hs (hha hin a ha) (hhb hin b hb)
      exact has_ofInterval (hsx.between hsy h0 h1)
    · contradiction

theorem Expr.contains_domainList (hD : domains.Sharp) : (es : List (Expr R)) → {ds : List (Domain R)} →
    Expr.SettledList domains es → Expr.domainList domains es = .ok ds →
    ContainsAll domains vs ds (Expr.evalList vs s (Expr.bareList es))
  | [], ds, _, hd => by
    cases hd
    refine ⟨fun d hd => absurd hd List.not_mem_nil, fun _ xs hxs => ?_⟩
    cases Evaluation.yields_pure_iff.1 hxs
    exact List.Forall₂.nil
  | e :: es, ds, hs, hd => by
    simp only [Expr.domainList] at hd
    obtain ⟨d, hde, hd⟩ := bind_eq_ok_iff.1 hd
    obtain ⟨rest, hrest, hd⟩ := bind_eq_ok_iff.1 hd
    cases hd
    obtain ⟨hsd, hhd⟩ := e.contains_domain hD hs.1 hde
    obtain ⟨hsrest, hhrest⟩ := Expr.contains_domainList hD es hs.2 hrest
    refine ⟨fun c hc => ?_, fun hin xs hxs => ?_⟩
    · rcases List.mem_cons.1 hc with rfl | hc
      · exact hsd
      · exact hsrest c hc
    · simp only [Expr.bareList, Expr.evalList] at hxs
      obtain ⟨x, hx, hxs⟩ := hxs.bind_inv fun x =>
        (Expr.remembers_evalList _).bind fun _ => Evaluation.Remembers.pure _
      obtain ⟨ys, hys, hxs⟩ := hxs.bind_inv fun _ => Evaluation.Remembers.pure _
      cases Evaluation.yields_pure_iff.1 hxs
      exact List.Forall₂.cons (hhd hin x hx) (hhrest hin ys hys)

end

omit vs s in
theorem Expr.sharp_domain (hD : domains.Sharp) (e : Expr R) {d : Domain R} (hs : e.Settled domains)
    (hd : e.domain domains = .ok d) : d.Sharp :=
  (@Expr.contains_domain R _ domains #[] ⟨0, 0, #[], #[]⟩ hD e d hs hd).1

end

end PayoffPricing.Script
