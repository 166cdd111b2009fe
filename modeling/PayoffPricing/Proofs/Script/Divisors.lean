import PayoffPricing.Proofs.Divisors
import PayoffPricing.Proofs.Script.Likeness
import PayoffPricing.Proofs.Script.Process
/-!
Exact evaluations that divide by no zero.
-/

namespace PayoffPricing.Script

open Worlds

variable {R α β : Type}

namespace Evaluation

/-- A divisor of zero is never forgotten. -/
def Remembers (a : Evaluation R Prop α) : Prop := ∀ nonzero, (a.exec nonzero).2 → nonzero

/-- The evaluation succeeds with a value and divides by no zero. -/
def Yields (a : Evaluation R Prop α) (x : α) : Prop := a.exec True = (.ok x, True)

theorem Remembers.pure (x : α) : (pure x : Evaluation R Prop α).Remembers := fun _ h => h

theorem Remembers.bind {a : Evaluation R Prop α} {f : α → Evaluation R Prop β} (ha : a.Remembers)
    (hf : ∀ x, (f x).Remembers) : (a >>= f).Remembers := by
  intro nonzero h
  rw [exec_bind] at h
  have h' := ha nonzero
  generalize a.exec nonzero = r at h h'
  rcases r with ⟨_ | x, n⟩
  · exact h' h
  · exact h' (hf x n h)

theorem yields_pure_iff {x y : α} : (pure x : Evaluation R Prop α).Yields y ↔ x = y := by
  simp [Yields]

theorem Yields.bind_inv {a : Evaluation R Prop α} {f : α → Evaluation R Prop β} {y : β}
    (h : (a >>= f).Yields y) (hf : ∀ x, (f x).Remembers) : ∃ x, a.Yields x ∧ (f x).Yields y := by
  simp only [Yields, exec_bind] at h ⊢
  generalize a.exec True = r at h
  rcases r with ⟨_ | x, n⟩
  · simp at h
  · have hn : n = True := eq_true (hf x n ((congrArg Prod.snd h).symm ▸ trivial))
    subst hn
    exact ⟨x, rfl, h⟩

end Evaluation

variable [ExactScalar R]

theorem Evaluation.remembers_of_alike {a : Evaluation R Prop α} {a' : Evaluation R Unit β}
    {rel : Prop × Unit → α → β → Prop} (h : ∀ w, (divisorLikeness R).toWorlds.Alike w a a' rel) :
    a.Remembers := fun nonzero => (h (nonzero, ()) trivial).2.1

theorem likeTable_self (vs : Variables R) (w : Prop × Unit) :
    (divisorLikeness R).LikeTable vs.size w vs vs := ⟨rfl, List.forall₂_same.2 fun _ _ => rfl⟩

theorem likeSample_self (s : Sample R) (w : Prop × Unit) : (divisorLikeness R).LikeSample w s s := ⟨rfl, rfl⟩

variable {vs : Variables R} {s : Sample R}

namespace Expr

theorem remembers_eval (e : Expr R) : (e.eval vs s : Evaluation R Prop R).Remembers :=
  Evaluation.remembers_of_alike fun w =>
    e.alike_eval (L := divisorLikeness R) (likeTable_self vs w) (likeSample_self s w)

theorem remembers_evalList (es : List (Expr R)) :
    (evalList vs s es : Evaluation R Prop (List R)).Remembers :=
  Evaluation.remembers_of_alike fun w =>
    alike_evalList (L := divisorLikeness R) es (likeTable_self vs w) (likeSample_self s w)

end Expr

/-- Without the record the value is the same. -/
theorem exec_of_yields {a : Evaluation R Prop α} {a' : Evaluation R Unit α} {x : α}
    (h : (divisorLikeness R).toWorlds.Alike (True, ()) a a' fun _ => Eq) (hx : a.Yields x) :
    a'.exec () = (.ok x, ()) := by
  obtain ⟨-, -, hr⟩ := h trivial
  have ha : (a.run True).1 = .ok x := congrArg Prod.fst hx
  rw [ha] at hr
  refine Prod.ext ?_ rfl
  change (a'.run ()).1 = .ok x
  generalize (a'.run ()).1 = r at hr
  rcases r with _ | y
  · exact hr.elim
  · exact congrArg _ hr.symm

theorem Expr.exec_of_yields {e : Expr R} {x : R} (h : (e.eval vs s : Evaluation R Prop R).Yields x) :
    (e.eval vs s : Evaluation R Unit R).exec () = (.ok x, ()) :=
  PayoffPricing.Script.exec_of_yields
    (e.alike_eval (L := divisorLikeness R) (likeTable_self vs _) (likeSample_self s _)) h

theorem Cond.exec_of_yields {c : Cond R} {b : Bool} (h : (c.eval vs s : Evaluation R Prop Bool).Yields b) :
    (c.eval vs s : Evaluation R Unit Bool).exec () = (.ok b, ()) :=
  PayoffPricing.Script.exec_of_yields
    (c.alike_eval (L := divisorLikeness R) (likeTable_self vs _) (likeSample_self s _)) h

theorem Cond.remembers_eval (c : Cond R) : (c.eval vs s : Evaluation R Prop Bool).Remembers :=
  Evaluation.remembers_of_alike fun w =>
    c.alike_eval (L := divisorLikeness R) (likeTable_self vs w) (likeSample_self s w)

namespace Process

variable {V : Type}

/-- A divisor of zero is never forgotten. -/
def Remembers (a : Process R Prop V α) : Prop := ∀ v nonzero, (a.exec v nonzero).2 → nonzero

/-- The process succeeds with a result and a final state and divides by no zero. -/
def Yields (a : Process R Prop V α) (v : V) (x : α) (v' : V) : Prop :=
  a.exec v True = ((.ok x, v'), True)

omit [ExactScalar R] in
theorem Remembers.bind {a : Process R Prop V α} {f : α → Process R Prop V β} (ha : a.Remembers)
    (hf : ∀ x, (f x).Remembers) : (a >>= f).Remembers := by
  intro v nonzero h
  rw [exec_bind] at h
  have h' := ha v nonzero
  generalize a.exec v nonzero = r at h h'
  rcases r with ⟨⟨_ | x, u⟩, n⟩
  · exact h' h
  · exact h' (hf x u n h)

omit [ExactScalar R] in
theorem Remembers.ofEvaluation {a : Evaluation R Prop α} (h : a.Remembers) :
    (ofEvaluation a : Process R Prop V α).Remembers := fun _ nonzero => h nonzero

omit [ExactScalar R] in
theorem Remembers.set (v : V) : (set v : Process R Prop V PUnit).Remembers := fun _ _ h => h

omit [ExactScalar R] in
theorem Yields.bind_inv {a : Process R Prop V α} {f : α → Process R Prop V β} {v v' : V} {y : β}
    (h : (a >>= f).Yields v y v') (hf : ∀ x, (f x).Remembers) :
    ∃ x u, a.Yields v x u ∧ (f x).Yields u y v' := by
  simp only [Yields, exec_bind] at h ⊢
  generalize a.exec v True = r at h
  rcases r with ⟨⟨_ | x, u⟩, n⟩
  · simp at h
  · have hn : n = True := eq_true (hf x u n ((congrArg Prod.snd h).symm ▸ trivial))
    subst hn
    exact ⟨x, u, rfl, h⟩

omit [ExactScalar R] in
theorem yields_ofEvaluation_iff {a : Evaluation R Prop α} {v v' : V} {x : α} :
    (ofEvaluation a : Process R Prop V α).Yields v x v' ↔ a.Yields x ∧ v' = v := by
  simp only [Yields, exec_ofEvaluation, Evaluation.Yields]
  rcases a.exec True with ⟨r, n⟩
  simp only [Prod.mk.injEq]
  tauto

end Process

theorem Statement.remembers_runBlock (cs : List (Statement R)) :
    (runBlock s cs : Process R Prop (Variables R) Unit).Remembers := fun vs nonzero =>
  (tracks_runBlock (L := divisorLikeness R) cs (likeSample_self s (nonzero, ())) vs vs
    (likeTable_self vs _) trivial).2.1

end PayoffPricing.Script
