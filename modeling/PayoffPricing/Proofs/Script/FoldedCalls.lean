import Mathlib
import PayoffPricing.Proofs.Double.Order
import PayoffPricing.Proofs.Script.Folding
/-!
Calls on known doubles. Folding a call stores what evaluation computes for it, with one exception: folded extremes
pass over undefined numbers, which evaluation lets win over all numbers before them.
-/

namespace PayoffPricing.Script

section Literals

variable {R : Type} [Scalar R] {known : Array (Option R)} {vs : Variables R} {s : Sample R}

omit [Scalar R] in
theorem allKnown_map_some (xs : List R) : allKnown (xs.map some) = some xs := by
  induction xs with
  | nil => rfl
  | cons x xs ih => rw [List.map_cons, allKnown, ih, Option.map_some]

/-- All calls but those of extremes are folded by the rules of evaluation. -/
theorem foldedCall_eq_plain {f : Function} {xs : List R} (h : f = .min ∨ f = .max → xs = []) :
    foldedCall f xs = Evaluation.plain (f.apply xs) := by
  cases f with
  | log | sqrt | exp => rcases xs with _ | ⟨x, _ | ⟨y, xs⟩⟩ <;> rfl
  | min | max =>
    obtain rfl := h (by simp)
    rfl
  | smooth => rcases xs with _ | ⟨x, _ | ⟨a, _ | ⟨b, _ | ⟨w, _ | ⟨y, xs⟩⟩⟩⟩⟩ <;> rfl

omit [Scalar R] in
theorem Evaluation.plain_eq_iff {a : Evaluation R Unit R} {result : Except (Fault (ScriptError R)) R} :
    plain a = result ↔ a.exec () = (result, ()) :=
  ⟨fun h => Prod.ext h rfl, congrArg Prod.fst⟩

namespace Expr

theorem foldList_literals (xs : List R) : foldList known (xs.map literal) = (xs.map literal, .ok (xs.map some)) := by
  induction xs with
  | nil => rfl
  | cons x xs ih => simp only [List.map_cons, foldList, fold, ih]

/-- The call on given numbers, with nothing known of its value. -/
def ofValues (f : Function) (xs : List R) : Expr R := call none f (xs.map literal)

theorem fold_ofValues (f : Function) (xs : List R) :
    (ofValues f xs).fold known = match foldedCall f xs with
      | .ok v => (call (some v) f (xs.map literal), .ok (some v))
      | .error e => (ofValues f xs, .error e) := by
  cases hcall : foldedCall f xs <;> simp only [ofValues, fold, foldList_literals, allKnown_map_some, hcall]

theorem evalList_literals (xs : List R) : (evalList vs s (xs.map literal) : Evaluation R Unit (List R)) = pure xs := by
  apply evalList_eq_pure
  rw [List.forall₂_map_left_iff]
  exact List.forall₂_same.2 fun x _ => by rw [eval]; rfl

theorem eval_ofValues (f : Function) (xs : List R) :
    ((ofValues f xs).eval vs s : Evaluation R Unit R) = f.apply xs := by
  unfold ofValues
  cases f with
  | log | sqrt | exp =>
    rcases xs with _ | ⟨x, _ | ⟨y, xs⟩⟩
    · rfl
    · rfl
    · simp only [List.map_cons, eval, Function.apply, List.length_cons, List.length_map]
  | min | max =>
    cases xs with
    | nil => rfl
    | cons x xs =>
      simp only [List.map_cons, eval, evalList_literals]
      rfl
  | smooth =>
    rcases xs with _ | ⟨x, _ | ⟨a, _ | ⟨b, _ | ⟨w, _ | ⟨y, xs⟩⟩⟩⟩⟩
    · rfl
    · rfl
    · rfl
    · rfl
    · rfl
    · simp only [List.map_cons, eval, Function.apply, List.length_cons, List.length_map]

end Expr

end Literals

section Extremes

/-- What a folded extreme repeats. -/
def passing (f : Function) (x y : Float) : Float :=
  match f with
  | .max => Scalar.maxDefined x y
  | _ => Scalar.minDefined x y

instance : OrderedScalar Float := ⟨fun {a b} ha hb => by rw [Double.le_iff hb ha, Double.lt_iff ha hb, not_lt]⟩

variable {f : Function} {x y : Float} {xs : List Float}

theorem passing_eq_pick (hx : Scalar.isUndefined x = false) (hy : Scalar.isUndefined y = false) :
    passing f x y = Intrinsic.pick f x y := by
  cases f with
  | max => exact maxDefined_eq hx hy
  | _ => exact minDefined_eq hx hy

theorem passing_of_left (hx : Scalar.isUndefined x = true) : passing f x y = y := by
  cases f <;> simp [passing, Scalar.maxDefined, Scalar.minDefined, hx]

theorem passing_of_right (hx : Scalar.isUndefined x = false) (hy : Scalar.isUndefined y = true) :
    passing f x y = x := by
  have hle : ¬ y ≤ x := Double.not_le_of_undefined (.inl hy)
  have hge : ¬ x ≤ y := Double.not_le_of_undefined (.inr hy)
  cases f <;> simp [passing, Scalar.maxDefined, Scalar.minDefined, hx, hle, hge]

theorem pick_of_left (hx : Scalar.isUndefined x = true) : Intrinsic.pick f x y = y := by
  have hlt : ¬ x < y := Double.not_lt_of_undefined (.inl hx)
  have hgt : ¬ y < x := Double.not_lt_of_undefined (.inr hx)
  cases f <;> simp [Intrinsic.pick, Quantity.max, Quantity.min, Valued.value, hlt, hgt]

/-- No undefined number comes after a defined one. -/
def Settled (xs : List Float) : Prop :=
  xs.Pairwise fun x y => Scalar.isUndefined x = false → Scalar.isUndefined y = false

theorem foldl_passing_of_settled (h : Settled (x :: xs)) : xs.foldl (passing f) x = xs.foldl (Intrinsic.pick f) x := by
  induction xs generalizing x with
  | nil => rfl
  | cons y ys ih =>
    obtain ⟨hlater, htail⟩ := List.pairwise_cons.1 h
    cases hx : Scalar.isUndefined x with
    | true =>
      rw [List.foldl_cons, List.foldl_cons, passing_of_left hx, pick_of_left hx]
      exact ih htail
    | false =>
      exact foldl_eq_of_defined (fun _ _ => passing_eq_pick) hx fun z hz => hlater z hz hx

/-- The defined numbers of a list. -/
def defined (xs : List Float) : List Float := xs.filter fun x => !Scalar.isUndefined x

theorem foldl_passing_of_defined (hx : Scalar.isUndefined x = false) :
    xs.foldl (passing f) x = (defined xs).foldl (Intrinsic.pick f) x := by
  induction xs generalizing x with
  | nil => rfl
  | cons y ys ih =>
    cases hy : Scalar.isUndefined y with
    | true =>
      rw [List.foldl_cons, passing_of_right hx hy, ih hx, defined, defined, List.filter_cons_of_neg (by simp [hy])]
    | false =>
      have hpick : Scalar.isUndefined (Intrinsic.pick f x y) = false := by
        rcases pick_eq_or f x y with heq | heq
        · rwa [heq]
        · rwa [heq]
      rw [List.foldl_cons, passing_eq_pick hx hy, ih hpick, defined, defined, List.filter_cons_of_pos (by simp [hy])]
      rfl

theorem exists_foldl_passing (h : ∃ z ∈ x :: xs, Scalar.isUndefined z = false) : ∃ first rest,
    defined (x :: xs) = first :: rest ∧ xs.foldl (passing f) x = rest.foldl (Intrinsic.pick f) first := by
  induction xs generalizing x with
  | nil =>
    obtain ⟨z, hz, hd⟩ := h
    obtain rfl := List.mem_singleton.1 hz
    exact ⟨z, [], by simp [defined, hd], rfl⟩
  | cons y ys ih =>
    cases hx : Scalar.isUndefined x with
    | false =>
      refine ⟨x, defined (y :: ys), ?_, foldl_passing_of_defined hx⟩
      rw [defined, List.filter_cons_of_pos (by simp [hx])]
      rfl
    | true =>
      obtain ⟨z, hz, hd⟩ := h
      have hz : z ∈ y :: ys := (List.mem_cons.1 hz).resolve_left fun h => by
        rw [h, hx] at hd
        contradiction
      obtain ⟨first, rest, heq, hfold⟩ := ih ⟨z, hz, hd⟩
      refine ⟨first, rest, ?_, ?_⟩
      · rw [← heq, defined, List.filter_cons_of_neg (by simp [hx])]
        rfl
      · rw [List.foldl_cons, passing_of_left hx]
        exact hfold

theorem foldedCall_extreme (hf : f = .min ∨ f = .max) (x : Float) (xs : List Float) :
    foldedCall f (x :: xs) = .ok (xs.foldl (passing f) x) ∧
      f.apply (x :: xs) = (pure (xs.foldl (Intrinsic.pick f) x) : Evaluation Float Unit Float) := by
  rcases hf with rfl | rfl <;> exact ⟨rfl, rfl⟩

end Extremes

theorem foldedCall_cases (f : Function) (xs : List Float) :
    (∃ x rest, xs = x :: rest ∧ (f = .min ∨ f = .max)) ∨ foldedCall f xs = Evaluation.plain (f.apply xs) := by
  by_cases hf : f = .min ∨ f = .max
  · cases xs with
    | nil => exact .inr (foldedCall_eq_plain fun _ => rfl)
    | cons x rest => exact .inl ⟨x, rest, rfl, hf⟩
  · exact .inr (foldedCall_eq_plain fun h => absurd h hf)

theorem foldedCall_eq_error_iff {f : Function} {xs : List Float} {e : Fault (ScriptError Float)} :
    foldedCall f xs = .error e ↔ (f.apply xs : Evaluation Float Unit Float).exec () = (.error e, ()) := by
  rcases foldedCall_cases f xs with ⟨x, rest, rfl, hf⟩ | hplain
  · obtain ⟨hfold, happly⟩ := foldedCall_extreme hf x rest
    rw [hfold, happly]
    exact ⟨nofun, nofun⟩
  · rw [hplain, Evaluation.plain_eq_iff]

theorem apply_of_settled {f : Function} {xs : List Float} {v : Float} (h : foldedCall f xs = .ok v)
    (hxs : f = .min ∨ f = .max → Settled xs) : (f.apply xs : Evaluation Float Unit Float).exec () = (.ok v, ()) := by
  rcases foldedCall_cases f xs with ⟨x, rest, rfl, hf⟩ | hplain
  · obtain ⟨hfold, happly⟩ := foldedCall_extreme hf x rest
    rw [hfold, foldl_passing_of_settled (hxs hf)] at h
    cases h
    rw [happly]
    rfl
  · rwa [hplain, Evaluation.plain_eq_iff] at h

theorem apply_defined {f : Function} {xs : List Float} {v : Float} (h : foldedCall f xs = .ok v)
    (hf : f = .min ∨ f = .max) (hxs : ∃ x ∈ xs, Scalar.isUndefined x = false) :
    (f.apply (defined xs) : Evaluation Float Unit Float).exec () = (.ok v, ()) := by
  cases xs with
  | nil => simp at hxs
  | cons x rest =>
    obtain ⟨hfold, -⟩ := foldedCall_extreme hf x rest
    obtain ⟨first, others, hdefined, hvalue⟩ := exists_foldl_passing (f := f) hxs
    rw [hfold, hvalue] at h
    cases h
    rw [hdefined, (foldedCall_extreme hf first others).2]
    rfl

end PayoffPricing.Script
