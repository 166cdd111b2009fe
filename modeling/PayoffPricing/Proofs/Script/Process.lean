import PayoffPricing.Script.Evaluation
/-!
Runs of evaluations and processes, from a state and a record to what is left of them. Both follow
their steps in order and stop at the first one that fails.
-/

namespace PayoffPricing.Script

variable {R S V α β : Type}

namespace Evaluation

/-- The result of an evaluation, and the record after it. -/
def exec (action : Evaluation R S α) (s : S) : Except (Fault (ScriptError R)) α × S := action.run s

theorem ext {a b : Evaluation R S α} (h : ∀ s, a.exec s = b.exec s) : a = b := funext h

@[simp]
theorem exec_pure (a : α) (s : S) : (pure a : Evaluation R S α).exec s = (.ok a, s) := rfl

@[simp]
theorem exec_throw (e : Fault (ScriptError R)) (s : S) :
    (throw e : Evaluation R S α).exec s = (.error e, s) := rfl

@[simp]
theorem exec_fail (e : ScriptError R) (s : S) :
    (fail e : Evaluation R S α).exec s = (.error (.error e), s) := rfl

@[simp]
theorem exec_record (action : StateM S α) (s : S) :
    (record action : Evaluation R S α).exec s = (.ok (action s).1, (action s).2) := rfl

@[simp]
theorem exec_bind (x : Evaluation R S α) (f : α → Evaluation R S β) (s : S) :
    (x >>= f).exec s = match x.exec s with
      | (.ok a, s) => (f a).exec s
      | (.error e, s) => (.error e, s) := by
  change ExceptT.bindCont f (x.exec s).1 (x.exec s).2 = _
  rcases x.exec s with ⟨_ | _, _⟩ <;> rfl

@[simp]
theorem exec_map (f : α → β) (x : Evaluation R S α) (s : S) :
    (f <$> x).exec s = match x.exec s with
      | (.ok a, s) => (.ok (f a), s)
      | (.error e, s) => (.error e, s) := by
  rw [← bind_pure_comp, exec_bind]
  rfl

end Evaluation

namespace Process

/-- The result of a process, with the state and the record after it. -/
def exec (action : Process R S V α) (v : V) (s : S) :
    (Except (Fault (ScriptError R)) α × V) × S := (action.run v).run s

@[simp]
theorem exec_pure (a : α) (v : V) (s : S) :
    (pure a : Process R S V α).exec v s = ((.ok a, v), s) := rfl

@[simp]
theorem exec_throw (e : Fault (ScriptError R)) (v : V) (s : S) :
    (throw e : Process R S V α).exec v s = ((.error e, v), s) := rfl

@[simp]
theorem exec_get (v : V) (s : S) : (get : Process R S V V).exec v s = ((.ok v, v), s) := rfl

@[simp]
theorem exec_set (w v : V) (s : S) :
    (set w : Process R S V PUnit).exec v s = ((.ok ⟨⟩, w), s) := rfl

@[simp]
theorem exec_modify (f : V → V) (v : V) (s : S) :
    (modify f : Process R S V PUnit).exec v s = ((.ok ⟨⟩, f v), s) := rfl

@[simp]
theorem exec_bind (x : Process R S V α) (f : α → Process R S V β) (v : V) (s : S) :
    (x >>= f).exec v s = match x.exec v s with
      | ((.ok a, v), s) => (f a).exec v s
      | ((.error e, v), s) => ((.error e, v), s) := by
  change ExceptT.bindCont f (x.exec v s).1.1 (x.exec v s).1.2 (x.exec v s).2 = _
  rcases x.exec v s with ⟨⟨_ | _, _⟩, _⟩ <;> rfl

@[simp]
theorem exec_ofEvaluation (action : Evaluation R S α) (v : V) (s : S) :
    (ofEvaluation action : Process R S V α).exec v s =
      (((action.exec s).1, v), (action.exec s).2) := rfl

end Process

end PayoffPricing.Script
