import Mathlib
import PayoffPricing.Proofs.Exact
import PayoffPricing.Proofs.Script.Reached
import PayoffPricing.Script.Folding
/-!
Folding. What folding knows of a variable is its value in every run, so that a folded expression evaluates
as it did before. Only extremes ask for more than the rules that evaluation has as well: folding passes over
undefined numbers there, so that a run must come to none.
-/

namespace PayoffPricing.Script

variable {R : Type}

/-- The known values are those of the table. -/
def Knows (known : Array (Option R)) (vs : Variables R) : Prop :=
  ∀ (i : Nat) (v : R), known[i]? = some (some v) → vs[i]? = some v

/-- What is still known in the second was known in the first. -/
def Fades (known known' : Array (Option R)) : Prop :=
  ∀ (i : Nat) (v : R), known'[i]? = some (some v) → known[i]? = some (some v)

section Known

variable {known known' known'' : Array (Option R)} {vs : Variables R}

theorem Fades.refl (known : Array (Option R)) : Fades known known := fun _ _ => id

theorem Fades.trans (h : Fades known known') (h' : Fades known' known'') : Fades known known'' :=
  fun i v hv => h i v (h' i v hv)

theorem Fades.erase (known : Array (Option R)) (slot : Nat) :
    Fades known (known.setIfInBounds slot none) := by
  intro i v h
  rw [Array.getElem?_setIfInBounds] at h
  split_ifs at h
  · simp at h
  · exact h

theorem Knows.fade (h : Knows known vs) (hf : Fades known known') : Knows known' vs :=
  fun i v hv => h i v (hf i v hv)

theorem Knows.store {slot : Nat} {value : Option R} {x : R} (h : Knows known vs) (hs : slot < vs.size)
    (hx : ∀ v, value = some v → x = v) :
    Knows (known.setIfInBounds slot value) (vs.setIfInBounds slot x) := by
  intro i v hv
  rw [Array.getElem?_setIfInBounds] at hv ⊢
  split_ifs at hv with hi hb
  · subst hi
    simp only [Option.some.injEq] at hv
    rw [if_pos rfl, if_pos hs, hx v hv]
  · rw [if_neg hi]
    exact h i v hv

end Known

theorem allKnown_eq_some {results : List (Option R)} {xs : List R} (h : allKnown results = some xs) :
    results = xs.map some := by
  induction results generalizing xs with
  | nil =>
    cases h
    rfl
  | cons value rest ih =>
    cases value with
    | none => cases h
    | some x =>
      obtain ⟨ys, hys, rfl⟩ := Option.map_eq_some_iff.1 h
      rw [ih hys, List.map_cons]

theorem Evaluation.eq_pure_of_plain {α : Type} {a : Evaluation R Unit α} {x : α} (h : plain a = .ok x) :
    a = pure x := Evaluation.ext fun _ => Prod.ext h rfl

theorem Evaluation.bind_congr_ok {α β : Type} {a a' : Evaluation R Unit α} {f f' : α → Evaluation R Unit β}
    (ha : a' = a) (hf : ∀ x, a.exec () = (.ok x, ()) → f' x = f x) : a' >>= f' = a >>= f := by
  subst ha
  refine Evaluation.ext fun _ => ?_
  rw [Evaluation.exec_bind, Evaluation.exec_bind]
  rcases hx : a'.exec () with ⟨_ | x, _⟩
  · rfl
  · dsimp only
    rw [hf x hx]

/-- The numbers that are equal to themselves are in one order. -/
class OrderedScalar (R : Type) [Scalar R] : Prop where
  le_iff_not_lt {a b : R} : Scalar.isUndefined a = false → Scalar.isUndefined b = false → (b ≤ a ↔ ¬ a < b)

instance [ExactScalar R] : OrderedScalar R := ⟨fun _ _ => not_lt.symm⟩

theorem isUndefined_exact [ExactScalar R] (x : R) : Scalar.isUndefined x = false := by simp [Scalar.isUndefined]

section Extremes

variable [Scalar R]

theorem pick_eq_or (f : Function) (x y : R) : Intrinsic.pick f x y = x ∨ Intrinsic.pick f x y = y := by
  simp only [Intrinsic.pick, Quantity.max, Quantity.min]
  cases f <;> dsimp only <;> split <;> simp

/-- Rules that agree on defined numbers agree on lists of them. -/
theorem foldl_eq_of_defined {f : R → R → R} {function : Function}
    (h : ∀ x y, Scalar.isUndefined x = false → Scalar.isUndefined y = false → f x y = Intrinsic.pick function x y)
    {x : R} {xs : List R} (hx : Scalar.isUndefined x = false) (hxs : ∀ y ∈ xs, Scalar.isUndefined y = false) :
    xs.foldl f x = xs.foldl (Intrinsic.pick function) x := by
  induction xs generalizing x with
  | nil => rfl
  | cons y ys ih =>
    have hy := hxs y List.mem_cons_self
    rw [List.foldl_cons, List.foldl_cons, h x y hx hy]
    apply ih
    · rcases pick_eq_or function x y with heq | heq
      · rwa [heq]
      · rwa [heq]
    · exact fun z hz => hxs z (List.mem_cons_of_mem _ hz)

variable [OrderedScalar R] {x y : R}

theorem minDefined_eq (hx : Scalar.isUndefined x = false) (hy : Scalar.isUndefined y = false) :
    Scalar.minDefined x y = Intrinsic.pick .min x y := by
  have horder := OrderedScalar.le_iff_not_lt hx hy
  simp only [Scalar.minDefined, hx, Bool.false_or, decide_eq_true_eq, Intrinsic.pick, Quantity.min, Valued.value]
  by_cases hlt : x < y
  · rw [if_pos hlt, if_neg fun hle => horder.1 hle hlt]
  · rw [if_neg hlt, if_pos (horder.2 hlt)]

theorem maxDefined_eq (hx : Scalar.isUndefined x = false) (hy : Scalar.isUndefined y = false) :
    Scalar.maxDefined x y = Intrinsic.pick .max x y := by
  have horder := OrderedScalar.le_iff_not_lt hy hx
  simp only [Scalar.maxDefined, hx, Bool.false_or, decide_eq_true_eq, Intrinsic.pick, Quantity.max, Valued.value]
  by_cases hlt : y < x
  · rw [if_pos hlt, if_neg fun hle => horder.1 hle hlt]
  · rw [if_neg hlt, if_pos (horder.2 hlt)]

end Extremes

section Calls

variable [Scalar R] {vs : Variables R} {s : Sample R}

/-- The value of a function of given arguments. -/
def Function.apply (f : Function) (xs : List R) : Evaluation R Unit R :=
  match f, xs with
  | .log, [x] => Intrinsic.unary .log x
  | .sqrt, [x] => Intrinsic.unary .sqrt x
  | .exp, [x] => Intrinsic.unary .exp x
  | .min, x :: rest => pure (rest.foldl (Intrinsic.pick .min) x)
  | .max, x :: rest => pure (rest.foldl (Intrinsic.pick .max) x)
  | .smooth, [x, above, below, width] => Intrinsic.smooth x above below width
  | f, xs => Evaluation.fail (.arity f.name xs.length)

namespace Expr

theorem eval_call {f : Function} {es : List (Expr R)} (h : f.Takes es.length) :
    ((call none f es).eval vs s : Evaluation R Unit R) = evalList vs s es >>= f.apply := by
  cases f with
  | log | sqrt | exp =>
    obtain ⟨e, rfl⟩ := List.length_eq_one_iff.1 h
    simp only [eval, evalList, bind_assoc, pure_bind]
    rfl
  | min | max =>
    obtain ⟨e, es, rfl⟩ := List.exists_cons_of_length_pos h
    simp only [eval, evalList, bind_assoc, pure_bind]
    rfl
  | smooth =>
    obtain ⟨x, a, b, w, rfl⟩ := List.length_eq_four.1 h
    simp only [eval, evalList, bind_assoc, pure_bind]
    rfl

theorem eval_call_of_not_takes {f : Function} {es : List (Expr R)} (h : ¬ f.Takes es.length) :
    ((call none f es).eval vs s : Evaluation R Unit R) = Evaluation.fail (.arity f.name es.length) := by
  cases f with
  | log | sqrt | exp =>
    rcases es with _ | ⟨e, _ | ⟨e', es⟩⟩
    · rfl
    · exact absurd rfl h
    · rfl
  | min | max =>
    rcases es with _ | ⟨e, es⟩
    · rfl
    · exact absurd (Nat.succ_pos _) h
  | smooth =>
    rcases es with _ | ⟨x, _ | ⟨a, _ | ⟨b, _ | ⟨w, _ | ⟨e, es⟩⟩⟩⟩⟩
    · rfl
    · rfl
    · rfl
    · rfl
    · exact absurd rfl h
    · rfl

theorem takes_of_foldedCall {f : Function} {xs : List R} {v : R} (h : foldedCall f xs = .ok v) :
    f.Takes xs.length := by
  unfold foldedCall at h
  split at h
  · rfl
  · rfl
  · rfl
  · exact Nat.succ_pos _
  · exact Nat.succ_pos _
  · rfl
  · contradiction

/-- A function of defined arguments has the value that folding finds. -/
theorem apply_of_foldedCall [OrderedScalar R] {f : Function} {xs : List R} {v : R}
    (hxs : ∀ x ∈ xs, Scalar.isUndefined x = false) (h : foldedCall f xs = .ok v) : f.apply xs = pure v := by
  unfold foldedCall at h
  split at h
  · exact Evaluation.eq_pure_of_plain h
  · exact Evaluation.eq_pure_of_plain h
  · exact Evaluation.eq_pure_of_plain h
  · rw [← Except.ok.inj h, foldl_eq_of_defined (fun _ _ => minDefined_eq) (hxs _ List.mem_cons_self)
      fun y hy => hxs y (List.mem_cons_of_mem _ hy)]
    rfl
  · rw [← Except.ok.inj h, foldl_eq_of_defined (fun _ _ => maxDefined_eq) (hxs _ List.mem_cons_self)
      fun y hy => hxs y (List.mem_cons_of_mem _ hy)]
    rfl
  · exact Evaluation.eq_pure_of_plain h
  · contradiction

theorem evalList_eq_pure {es : List (Expr R)} {xs : List R}
    (h : List.Forall₂ (fun e x => (e.eval vs s : Evaluation R Unit R) = pure x) es xs) :
    (evalList vs s es : Evaluation R Unit (List R)) = pure xs := by
  induction h with
  | nil => rfl
  | cons he _ ih => rw [evalList, he, ih, pure_bind, pure_bind]

end Expr

end Calls

section Fold

variable [Scalar R] {known : Array (Option R)} {vs : Variables R} {s : Sample R}

namespace Expr

/-- The expression does not evaluate to an undefined number. -/
def DefinedAt (vs : Variables R) (s : Sample R) (e : Expr R) : Prop :=
  ∀ x, e.outcome vs s = .ok x → Scalar.isUndefined x = false

/-- What is known of the expression is its value. -/
def KnownAt (vs : Variables R) (s : Sample R) (e : Expr R) : Prop :=
  ∀ v, e.known? = some v → e.outcome vs s = .ok v

mutual

/-- Folding only notes values. -/
theorem bare_fold (known : Array (Option R)) : (e : Expr R) → (e.fold known).1.bare = e.bare
  | literal _ => rfl
  | spot => rfl
  | read _ v => by
    simp only [fold]
    split <;> rfl
  | neg _ arg => by
    have harg := bare_fold known arg
    simp only [fold]
    split
    · next ha =>
      rw [ha] at harg
      rw [bare, bare, harg]
    · next ha =>
      rw [ha] at harg
      rw [bare, bare, harg]
  | plus _ arg => by
    have harg := bare_fold known arg
    simp only [fold]
    split
    · next ha =>
      rw [ha] at harg
      rw [bare, bare, harg]
    · next ha =>
      rw [ha] at harg
      rw [bare, bare, harg]
  | binary _ op lhs rhs => by
    have hlhs := bare_fold known lhs
    have hrhs := bare_fold known rhs
    simp only [fold]
    split
    · next hl =>
      rw [hl] at hlhs
      rw [bare, bare, hlhs]
    · next hl =>
      rw [hl] at hlhs
      split
      · next hr =>
        rw [hr] at hrhs
        rw [bare, bare, hlhs, hrhs]
      · next hr =>
        rw [hr] at hrhs
        split
        · split
          · rw [bare, bare, hlhs, hrhs]
          · rw [bare, bare, hlhs, hrhs]
        · rw [bare, bare, hlhs, hrhs]
  | call _ f args => by
    have hargs := bare_foldList known args
    simp only [fold]
    split
    · next ha =>
      rw [ha] at hargs
      rw [bare, bare, hargs]
    · next ha =>
      rw [ha] at hargs
      split
      · split
        · rw [bare, bare, hargs]
        · rw [bare, bare, hargs]
      · rw [bare, bare, hargs]

theorem bare_foldList (known : Array (Option R)) : (es : List (Expr R)) → bareList (foldList known es).1 = bareList es
  | [] => rfl
  | e :: es => by
    have he := bare_fold known e
    have hes := bare_foldList known es
    simp only [foldList]
    split
    · next h =>
      rw [h] at he
      rw [bareList, bareList, he]
    · next h =>
      rw [h] at he
      split
      · next h' =>
        rw [h'] at hes
        rw [bareList, bareList, he, hes]
      · next h' =>
        rw [h'] at hes
        rw [bareList, bareList, he, hes]

end

theorem length_foldList {es es' : List (Expr R)} {values : List (Option R)}
    (h : foldList known es = (es', .ok values)) : values.length = es'.length := by
  induction es generalizing es' values with
  | nil =>
    cases h
    rfl
  | cons e es ih =>
    simp only [foldList] at h
    split at h
    · cases h
    split at h
    · cases h
    next hrest =>
    cases h
    rw [List.length_cons, List.length_cons, ih hrest]

theorem outcome_fold {e e' : Expr R} {r : Except (Fault (ScriptError R)) (Option R)} (h : e.fold known = (e', r)) :
    e'.outcome vs s = e.outcome vs s := by
  have hbare := bare_fold known e
  rw [h] at hbare
  rw [outcome, hbare, outcome]

/-- A folded expression evaluates as it did, to the value that folding has found, and so do its parts. -/
structure Folded (vs : Variables R) (s : Sample R) (e e' : Expr R) (value : Option R) : Prop where
  eval_eq : (e'.eval vs s : Evaluation R Unit R) = e.bare.eval vs s
  value_eq (v : R) : value = some v → (e.bare.eval vs s : Evaluation R Unit R) = pure v
  known : e'.Reached (KnownAt vs s) vs s

structure FoldedList (vs : Variables R) (s : Sample R) (es es' : List (Expr R)) (values : List (Option R)) : Prop where
  eval_eq : (evalList vs s es' : Evaluation R Unit (List R)) = evalList vs s (bareList es)
  value_eq (xs : List R) : values = xs.map some →
    List.Forall₂ (fun e x => (e.eval vs s : Evaluation R Unit R) = pure x) (bareList es) xs
  known : ReachedList (KnownAt vs s) vs s es'

theorem outcome_eq_ok {e : Expr R} {x : R} (h : (e.bare.eval vs s : Evaluation R Unit R) = pure x) :
    e.outcome vs s = .ok x := by
  rw [outcome, h]
  rfl

theorem knownAt_of_value {e e' : Expr R} {value : Option R} (hbare : e'.bare = e.bare) (hknown : e'.known? = value)
    (hvalue : ∀ v, value = some v → (e.bare.eval vs s : Evaluation R Unit R) = pure v) : KnownAt vs s e' := by
  intro v hv
  have hpure := hvalue v (hknown.symm.trans hv)
  rw [← hbare] at hpure
  exact outcome_eq_ok hpure

/-- Arguments that are reached and have values have defined ones. -/
theorem defined_of_reachedList {es : List (Expr R)} (h : ReachedList (DefinedAt vs s) vs s es) {xs : List R}
    (hxs : List.Forall₂ (fun e x => (e.eval vs s : Evaluation R Unit R) = pure x) (bareList es) xs) :
    ∀ x ∈ xs, Scalar.isUndefined x = false := by
  induction es generalizing xs with
  | nil =>
    cases hxs
    intro x hx
    contradiction
  | cons e es ih =>
    rcases hxs with _ | ⟨he, hes⟩
    have hvalue := outcome_eq_ok he
    intro y hy
    rcases List.mem_cons.1 hy with rfl | hy
    · exact h.1.self y hvalue
    · exact ih (h.2 ⟨_, hvalue⟩) hes y hy

mutual

theorem folded_fold [OrderedScalar R] (h : Knows known vs) : (e : Expr R) → {e' : Expr R} → {value : Option R} →
    e.Reached (DefinedAt vs s) vs s → e.fold known = (e', .ok value) → Folded vs s e e' value
  | literal v, e', value, _, hf => by
    cases hf
    exact ⟨rfl, fun _ hv => by cases hv; rfl, fun _ hv => by cases hv; rfl⟩
  | spot, e', value, _, hf => by
    cases hf
    exact ⟨rfl, nofun, nofun⟩
  | read known' v, e', value, _, hf => by
    simp only [fold] at hf
    split at hf
    · next value' hk =>
      cases hf
      have hread (x : R) (hx : value = some x) : ((read none v).eval vs s : Evaluation R Unit R) = pure x := by
        subst hx
        rw [eval, Variables.fetch, h v.slot x hk]
      refine ⟨?_, hread, knownAt_of_value rfl rfl hread⟩
      cases value with
      | none => rfl
      | some x => exact (hread x rfl).symm
    · cases hf
  | neg known' arg, e', value, hd, hf => by
    simp only [fold] at hf
    split at hf
    · next arg' value' ha =>
      cases hf
      obtain ⟨heq, hval, hparts⟩ := folded_fold h arg hd.2 ha
      have hneg (x : R) (hx : value'.map (-·) = some x) :
          ((neg none arg.bare).eval vs s : Evaluation R Unit R) = pure x := by
        obtain ⟨y, hy, rfl⟩ := Option.map_eq_some_iff.1 hx
        rw [eval, hval y hy, pure_bind]
        rfl
      have hbare : (neg (value'.map (-·)) arg').bare = (neg known' arg).bare := by
        have := bare_fold known arg
        rw [ha] at this
        rw [bare, bare, this]
      refine ⟨?_, hneg, knownAt_of_value hbare rfl hneg, hparts⟩
      cases value' with
      | none => rw [Option.map_none, eval, bare, eval, heq]
      | some x => exact (hneg (-x) rfl).symm
    · cases hf
  | plus known' arg, e', value, hd, hf => by
    simp only [fold] at hf
    split at hf
    · next arg' value' ha =>
      cases hf
      obtain ⟨heq, hval, hparts⟩ := folded_fold h arg hd.2 ha
      have hplus (x : R) (hx : value = some x) : ((plus none arg.bare).eval vs s : Evaluation R Unit R) = pure x := by
        rw [eval, hval x hx]
      have hbare : (plus value arg').bare = (plus known' arg).bare := by
        have := bare_fold known arg
        rw [ha] at this
        rw [bare, bare, this]
      refine ⟨?_, hplus, knownAt_of_value hbare rfl hplus, hparts⟩
      cases value with
      | none => rw [eval, bare, eval, heq]
      | some x => exact (hplus x rfl).symm
    · cases hf
  | binary known' op lhs rhs, e', value, hd, hf => by
    have hbare := bare_fold known (binary known' op lhs rhs)
    rw [hf] at hbare
    simp only [fold] at hf
    split at hf
    · cases hf
    next lhs' a hl =>
    split at hf
    · cases hf
    next rhs' b hr =>
    obtain ⟨heql, hvall, hpartsl⟩ := folded_fold h lhs hd.2.1 hl
    have hright (hx : ∃ x, lhs.outcome vs s = .ok x) : Folded vs s rhs rhs' b := folded_fold h rhs (hd.2.2 hx) hr
    have hpartsr (hx : ∃ x, lhs'.outcome vs s = .ok x) : rhs'.Reached (KnownAt vs s) vs s := by
      rw [outcome_fold hl] at hx
      exact (hright hx).known
    split at hf
    · next x y =>
      have hx := hvall x rfl
      obtain ⟨-, hvalr, -⟩ := hright ⟨x, outcome_eq_ok hx⟩
      split at hf
      · next v hv =>
        cases hf
        have hop (w : R) (hw : some v = some w) :
            ((binary none op lhs.bare rhs.bare).eval vs s : Evaluation R Unit R) = pure w := by
          rw [eval, hx, pure_bind, hvalr y rfl, pure_bind, ← Option.some.inj hw]
          exact Evaluation.eq_pure_of_plain hv
        exact ⟨(hop v rfl).symm, hop, knownAt_of_value hbare rfl hop, hpartsl, hpartsr⟩
      · cases hf
    · cases hf
      refine ⟨?_, nofun, nofun, hpartsl, hpartsr⟩
      rw [eval, bare, eval]
      refine Evaluation.bind_congr_ok heql fun x hx => ?_
      rw [(hright ⟨x, congrArg Prod.fst hx⟩).eval_eq]
  | call known' f args, e', value, hd, hf => by
    have hbare := bare_fold known (call known' f args)
    rw [hf] at hbare
    simp only [fold] at hf
    split at hf
    · cases hf
    next args' results hl =>
    have hlength : args'.length = args.length := by
      have := congrArg List.length (bare_foldList known args)
      rw [hl] at this
      simpa using this
    have hargs (ht : f.Takes args.length) : FoldedList vs s args args' results :=
      folded_foldList h args (hd.2 ht) hl
    have hparts (ht : f.Takes args'.length) : ReachedList (KnownAt vs s) vs s args' := (hargs (hlength ▸ ht)).known
    split at hf
    · next xs hxs =>
      split at hf
      · next v hv =>
        cases hf
        have hresults := allKnown_eq_some hxs
        have ht : f.Takes args.length := by
          have hcount : xs.length = args.length := by
            have hresult := length_foldList hl
            rw [hresults, List.length_map] at hresult
            exact hresult.trans hlength
          exact hcount ▸ takes_of_foldedCall hv
        have hvalues := (hargs ht).value_eq xs hresults
        have hdefined := defined_of_reachedList (hd.2 ht) hvalues
        have hcall (w : R) (hw : some v = some w) :
            ((call none f (bareList args)).eval vs s : Evaluation R Unit R) = pure w := by
          rw [eval_call (by rwa [length_bareList]), evalList_eq_pure hvalues, pure_bind, ← Option.some.inj hw]
          exact apply_of_foldedCall hdefined hv
        exact ⟨(hcall v rfl).symm, hcall, knownAt_of_value hbare rfl hcall, hparts⟩
      · cases hf
    · cases hf
      refine ⟨?_, nofun, nofun, hparts⟩
      rw [bare]
      by_cases ht : f.Takes args.length
      · rw [eval_call (hlength ▸ ht), eval_call (by rwa [length_bareList]), (hargs ht).eval_eq]
      · rw [eval_call_of_not_takes (hlength ▸ ht), eval_call_of_not_takes (by rwa [length_bareList]), hlength,
          length_bareList]

theorem folded_foldList [OrderedScalar R] (h : Knows known vs) : (es : List (Expr R)) → {es' : List (Expr R)} →
    {values : List (Option R)} → ReachedList (DefinedAt vs s) vs s es → foldList known es = (es', .ok values) →
    FoldedList vs s es es' values
  | [], es', values, _, hf => by
    cases hf
    refine ⟨rfl, fun xs hxs => ?_, trivial⟩
    cases List.map_eq_nil_iff.1 hxs.symm
    exact .nil
  | e :: es, es', values, hd, hf => by
    simp only [foldList] at hf
    split at hf
    · cases hf
    next e' value he =>
    split at hf
    · cases hf
    next es'' rest hes =>
    cases hf
    obtain ⟨heq, hval, hparts⟩ := folded_fold h e hd.1 he
    have hrest (hx : ∃ x, e.outcome vs s = .ok x) : FoldedList vs s es es'' rest :=
      folded_foldList h es (hd.2 hx) hes
    refine ⟨?_, fun xs hxs => ?_, hparts, fun hx => ?_⟩
    · rw [evalList, bareList, evalList]
      refine Evaluation.bind_congr_ok heq fun x hx => ?_
      rw [(hrest ⟨x, congrArg Prod.fst hx⟩).eval_eq]
    · cases xs with
      | nil => cases hxs
      | cons x xs =>
        obtain ⟨hx, hxs⟩ := List.cons.inj hxs
        have hvalue := hval x hx
        exact .cons hvalue ((hrest ⟨x, outcome_eq_ok hvalue⟩).value_eq xs hxs)
    · rw [outcome_fold he] at hx
      exact (hrest hx).known

end

end Expr

end Fold

end PayoffPricing.Script
