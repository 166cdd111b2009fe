import PayoffPricing.Proofs.Likeness
import PayoffPricing.Simulation.Worker
/-!
Runs of workers side by side. Workers whose paths leave the same payoffs leave the same batches.
-/

namespace PayoffPricing.Simulation

open PayoffPricing.Random Worlds

/-- A worker before its first batch: how it simulates a path, its workspace and its record. -/
structure Worker (R G S T : Type) where
  path : Working R G S T R
  workspace : Workspace R G T
  record : S

/-- The payoff of a path on a worker that has simulated nothing before. -/
def Worker.alone {R G S T : Type} [DrawStream R G] (w : Worker R G S T) (i : Nat) :
    Except (Fault (SimulationError R)) R :=
  ((w.path.run { w.workspace with stream := DrawStream.skipTo i w.workspace.stream }).run w.record).1.1

namespace Working

section Exec

variable {R S G T α β : Type}

/-- What a step of a worker gives, with the workspace and the record after it. -/
def exec (action : Working R G S T α) (u : Workspace R G T) (s : S) :
    (Except (Fault (SimulationError R)) α × Workspace R G T) × S := (action.run u).run s

@[simp]
theorem exec_pure (a : α) (u : Workspace R G T) (s : S) :
    (pure a : Working R G S T α).exec u s = ((.ok a, u), s) := rfl

@[simp]
theorem exec_modify (f : Workspace R G T → Workspace R G T) (u : Workspace R G T) (s : S) :
    (modify f : Working R G S T PUnit).exec u s = ((.ok ⟨⟩, f u), s) := rfl

@[simp]
theorem exec_modifyThe (f : S → S) (u : Workspace R G T) (s : S) :
    (modifyThe S f : Working R G S T PUnit).exec u s = ((.ok ⟨⟩, u), f s) := rfl

@[simp]
theorem exec_getThe (u : Workspace R G T) (s : S) : (getThe S : Working R G S T S).exec u s = ((.ok s, u), s) := rfl

@[simp]
theorem exec_bind (x : Working R G S T α) (f : α → Working R G S T β) (u : Workspace R G T) (s : S) :
    (x >>= f).exec u s = match x.exec u s with
      | ((.ok a, u), s) => (f a).exec u s
      | ((.error e, u), s) => ((.error e, u), s) := by
  change ExceptT.bindCont f (x.exec u s).1.1 (x.exec u s).1.2 (x.exec u s).2 = _
  rcases x.exec u s with ⟨⟨_ | _, _⟩, _⟩ <;> rfl

end Exec

variable {R G S S' T T' α α' β β' : Type}

/-- The same error, or results in a relation and states that stay in the relation `I`. -/
def Matches (I : Workspace R G T → S → Workspace R G T' → S' → Prop) (a : Working R G S T α)
    (a' : Working R G S' T' α') (rel : α → α' → Prop) : Prop :=
  ∀ u s u' s', I u s u' s' → Outcome
    (fun x x' => rel x x' ∧ I (a.exec u s).1.2 (a.exec u s).2 (a'.exec u' s').1.2 (a'.exec u' s').2)
    (a.exec u s).1.1 (a'.exec u' s').1.1

variable {I : Workspace R G T → S → Workspace R G T' → S' → Prop} {rel : α → α' → Prop} {rel' : β → β' → Prop}

theorem Matches.pure {x : α} {x' : α'} (h : rel x x') :
    Matches I (pure x : Working R G S T α) (pure x' : Working R G S' T' α') rel :=
  fun _ _ _ _ hI => ⟨h, hI⟩

theorem Matches.bind {a : Working R G S T α} {a' : Working R G S' T' α'} {f : α → Working R G S T β}
    {f' : α' → Working R G S' T' β'} (h : Matches I a a' rel) (hf : ∀ x x', rel x x' → Matches I (f x) (f' x') rel') :
    Matches I (a >>= f) (a' >>= f') rel' := by
  intro u s u' s' hI
  have ha := h u s u' s' hI
  rw [exec_bind, exec_bind]
  generalize a.exec u s = r at ha ⊢
  generalize a'.exec u' s' = r' at ha ⊢
  rcases r with ⟨⟨_ | x, v⟩, t⟩ <;> rcases r' with ⟨⟨_ | x', v'⟩, t'⟩
  · exact ha
  · exact ha.elim
  · exact ha.elim
  · exact hf x x' ha.1 v t v' t' ha.2

variable {path : Working R G S T R} {path' : Working R G S' T' R}

theorem Matches.runPaths (h : Matches I path path' Eq) (payoffs : Array R) (n : Nat) :
    Matches I (runPaths path payoffs n) (runPaths path' payoffs n) Eq := by
  induction n generalizing payoffs with
  | zero => exact Matches.pure rfl
  | succ n ih =>
    refine Matches.bind h fun x x' hx => ?_
    rw [hx]
    exact ih _

variable [DrawStream R G]

/-- The relation survives when both streams are placed on one path. -/
def Placeable (I : Workspace R G T → S → Workspace R G T' → S' → Prop) : Prop :=
  ∀ k u s u' s', I u s u' s' →
    I { u with stream := DrawStream.skipTo k u.stream } s { u' with stream := DrawStream.skipTo k u'.stream } s'

theorem Matches.runBatch (hI : Placeable I) (h : Matches I path path' Eq) (b : Batch) :
    Matches I (runBatch path b) (runBatch path' b) Eq := by
  have hplace : Matches I
      (modify fun w => { w with stream := DrawStream.skipTo b.first w.stream } : Working R G S T PUnit)
      (modify fun w => { w with stream := DrawStream.skipTo b.first w.stream } : Working R G S' T' PUnit)
      fun _ _ => True := fun u s u' s' hu => ⟨trivial, hI b.first u s u' s' hu⟩
  refine hplace.bind fun _ _ _ => (h.runPaths #[] _).bind fun x x' hx => ?_
  rw [hx]
  exact Matches.pure rfl

/-- Workers that empty one queue, with the same payoff on every path. -/
theorem Matches.drain (hI : Placeable I) (h : Matches I path path' Eq) (output : Output R) (queue : BatchQueue) :
    Matches I (drain path output queue) (drain path' output queue) Eq := by
  induction hn : queue.remaining using Nat.strongRecOn generalizing output queue with
  | ind n ih =>
    rw [Working.drain, Working.drain]
    split
    · exact Matches.pure rfl
    · next b hb =>
      refine (h.runBatch hI b).bind fun x x' hx => ?_
      rw [hx]
      exact ih _ (hn ▸ BatchQueue.remaining_pop hb) _ _ rfl

end Working

end PayoffPricing.Simulation
