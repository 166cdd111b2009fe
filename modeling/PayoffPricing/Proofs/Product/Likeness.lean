import PayoffPricing.Product.Evaluator
import PayoffPricing.Proofs.Script.Fuzzy
import PayoffPricing.Proofs.Script.MachineLikeness
/-!
Evaluators preserve likeness of quantities. What an evaluator keeps from earlier scenarios plays no part
in the next one, but for its method and the number of its variables.
-/

namespace PayoffPricing

open Script Worlds Likeness

namespace Evaluator

variable {R T : Type}

def method : Evaluator R T → Method R
  | exact _ => .exact
  | fuzzy width _ => .fuzzy width
  | compiled _ => .compiled

/-- What an evaluator never changes. -/
def frame (e : Evaluator R T) : Method R × Nat := (e.method, e.values.size)

end Evaluator

namespace Likeness

variable {R S S' T T' : Type} [Scalar R] [Quantity R S T] [Quantity R S' T']
  {L : Likeness R S S' T T'} {w : S × S'} {f : Method R × Nat}

/-- Scenarios of the same length, alike sample by sample. -/
def LikeScenario (L : Likeness R S S' T T') (w : S × S') (s : Scenario T) (s' : Scenario T') : Prop :=
  List.Forall₂ (L.LikeSample w) s.toList s'.toList

theorem LikeScenario.size_eq {s : Scenario T} {s' : Scenario T'} (h : L.LikeScenario w s s') :
    s.size = s'.size := h.length_eq

/-- Evaluators of one frame with like variables. -/
structure LikeEvaluator (L : Likeness R S S' T T') (f : Method R × Nat) (w : S × S') (e : Evaluator R T)
    (e' : Evaluator R T') : Prop where
  method_left : e.method = f.1
  method_right : e'.method = f.1
  values : L.LikeTable f.2 w e.values e'.values

variable {e : Evaluator R T} {e' : Evaluator R T'} {s : Scenario T} {s' : Scenario T'}

theorem LikeEvaluator.frame_left (h : L.LikeEvaluator f w e e') : e.frame = f :=
  Prod.ext h.method_left h.values.size_eq

theorem LikeEvaluator.frame_right (h : L.LikeEvaluator f w e e') : e'.frame = f :=
  Prod.ext h.method_right h.values.size_right

theorem LikeEvaluator.payoff (h : L.LikeEvaluator f w e e') (p : Product R) :
    Option.Rel (L.Like w) (e.payoff? p) (e'.payoff? p) := h.values.getElem? p.payoff

theorem LikeTable.reset {n : Nat} {xs : Array T} {xs' : Array T'} (h : xs.size = n) (h' : xs'.size = n) :
    L.LikeTable n w (xs.map fun _ => Quantity.zero) (xs'.map fun _ => Quantity.zero) := by
  have hmap {α β : Type} (ys : Array α) (c : β) : (ys.map fun _ => c) = Array.replicate ys.size c := by
    apply Array.ext <;> simp
  rw [hmap, hmap, h, h']
  exact LikeTable.replicate n (L.zero w)

theorem likeEvaluator_reset (h : e.frame = f) (h' : e'.frame = f) :
    L.LikeEvaluator f w e.reset e'.reset := by
  subst h
  obtain ⟨hmethod, hsize⟩ := Prod.ext_iff.1 h'
  refine ⟨?_, ?_, ?_⟩
  · cases e <;> rfl
  · cases e' <;> exact hmethod
  · cases e <;> cases e' <;> exact LikeTable.reset rfl hsize

variable {V V' α : Type} {relV : S × S' → V → V' → Prop}

theorem tracks_runEvents {step : α → Sample T → Process R S V Unit}
    {step' : α → Sample T' → Process R S' V' Unit}
    (hstep : ∀ v event x x', L.LikeSample v x x' →
      L.toWorlds.Tracks v relV (step event x) (step' event x') fun _ _ _ => True)
    (events : List α) (hs : L.LikeScenario w s s') :
    L.toWorlds.Tracks w relV (Evaluator.runEvents step events s) (Evaluator.runEvents step' events s')
      fun _ _ _ => True := by
  unfold Evaluator.runEvents
  unfold LikeScenario at hs
  generalize s.toList = l at hs
  generalize s'.toList = l' at hs
  induction events generalizing w l l' with
  | nil => exact Tracks.pure trivial
  | cons event events ih =>
    cases hs with
    | nil => exact Tracks.pure trivial
    | cons hx hrest =>
      simp only [List.zip_cons_cons, List.forM_eq_forM, List.forM_cons] at ih ⊢
      exact (hstep w event _ _ hx).bind fun u _ _ hu _ => ih _ _ (hrest.imp fun _ _ h => h.mono hu)

/-- The same error, or evaluators of one frame with like variables. -/
abbrev LikeRun (L : Likeness R S S' T T') (f : Method R × Nat) (w : S × S')
    (r : Except (Fault (ScriptError R)) Unit × Evaluator R T)
    (r' : Except (Fault (ScriptError R)) Unit × Evaluator R T') : Prop :=
  Outcome (fun _ _ => L.LikeEvaluator f w r.2 r'.2) r.1 r'.1

theorem agree_run (p : Product R) (h : L.LikeEvaluator f w e e') (hs : L.LikeScenario w s s') :
    L.toWorlds.Agree w ((Evaluator.run p s).run.run e) ((Evaluator.run p s').run.run e') (L.LikeRun f) := by
  obtain ⟨μ, n⟩ := f
  obtain ⟨hmethod, hmethod', hvalues⟩ := h
  subst hmethod
  cases e with
  | exact vs =>
    cases e' with
    | exact vs' =>
      refine (tracks_runEvents (fun _ event _ _ hx => Statement.tracks_runBlock event hx) p.events hs
        vs vs' hvalues).bind fun v r r' _ hr => Agree.pure ?_
      rcases r with ⟨_ | _, _⟩ <;> rcases r' with ⟨_ | _, _⟩
      · exact hr
      · exact hr
      · exact hr
      · exact ⟨rfl, rfl, hr.2⟩
    | fuzzy _ _ => cases hmethod'
    | compiled _ => cases hmethod'
  | fuzzy width state =>
    cases e' with
    | exact _ => cases hmethod'
    | fuzzy width' state' =>
      cases hmethod'
      refine (tracks_runEvents (fun _ event _ _ hx => Fuzzy.tracks_runBlock event hx) p.events hs
        state state' hvalues).bind fun v r r' _ hr => Agree.pure ?_
      rcases r with ⟨_ | _, _⟩ <;> rcases r' with ⟨_ | _, _⟩
      · exact hr
      · exact hr
      · exact hr
      · exact ⟨rfl, rfl, hr.2⟩
    | compiled _ => cases hmethod'
  | compiled machine =>
    cases e' with
    | exact _ => cases hmethod'
    | fuzzy _ _ => cases hmethod'
    | compiled machine' =>
      refine (tracks_runEvents (fun _ program _ _ hx => tracks_runMachine program hx) p.programs hs
        machine machine' hvalues).bind fun v r r' _ hr => Agree.pure ?_
      rcases r with ⟨_ | _, _⟩ <;> rcases r' with ⟨_ | _, _⟩
      · exact hr
      · exact hr
      · exact hr
      · exact ⟨rfl, rfl, hr.2⟩

/-- Evaluators of one frame treat like scenarios alike, whatever they evaluated before. -/
theorem agree_evaluate (p : Product R) (h : e.frame = f) (h' : e'.frame = f) (hs : L.LikeScenario w s s') :
    L.toWorlds.Agree w ((Evaluator.evaluate p s).run.run e) ((Evaluator.evaluate p s').run.run e')
      (L.LikeRun f) := by
  unfold Evaluator.evaluate
  simp only [Scenario.check, hs.size_eq]
  split
  · next heq =>
    split at heq
    · cases heq
    · cases heq
      exact Agree.pure rfl
  · exact agree_run p (likeEvaluator_reset h h') hs

end Likeness

end PayoffPricing
