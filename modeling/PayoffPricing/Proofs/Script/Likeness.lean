import PayoffPricing.Proofs.Likeness
import PayoffPricing.Proofs.Script.Process
import PayoffPricing.Script.Exact
/-!
Exact evaluation preserves likeness of quantities.
-/

namespace PayoffPricing

open Script Worlds

namespace Worlds

variable {R S S' V V' α α' : Type} {W : Worlds S S'} {w : S × S'} {rel : S × S' → α → α' → Prop} {x : α} {r : S}

/-- Where the one evaluation has a result, the other one has a result in the relation. -/
theorem Alike.exec_ok {a : Evaluation R S α} {a' : Evaluation R S' α'} (h : W.Alike w a a' rel) (hw : W.Valid w)
    (hrun : a.exec w.1 = (.ok x, r)) :
    ∃ x' r', a'.exec w.2 = (.ok x', r') ∧ W.Valid (r, r') ∧ W.Later w (r, r') ∧ rel (r, r') x x' := by
  have hrun : a w.1 = (.ok x, r) := hrun
  obtain ⟨hvalid, hlater, houtcome⟩ := h hw
  change W.Valid ((a w.1).2, (a' w.2).2) at hvalid
  change W.Later w ((a w.1).2, (a' w.2).2) at hlater
  change Outcome (rel ((a w.1).2, (a' w.2).2)) (a w.1).1 (a' w.2).1 at houtcome
  rw [hrun] at hvalid hlater houtcome
  rcases hrun' : a' w.2 with ⟨e | x', r'⟩
  · rw [hrun'] at houtcome
    exact houtcome.elim
  · rw [hrun'] at hvalid hlater houtcome
    exact ⟨x', r', hrun', hvalid, hlater, houtcome⟩

/-- Where the one process finishes, the other one finishes in a state in the relation. -/
theorem Tracks.exec_ok {relV : S × S' → V → V' → Prop} {a : Process R S V α} {a' : Process R S' V' α'}
    (h : W.Tracks w relV a a' rel) (hw : W.Valid w) {s after : V} {s' : V'} (hs : relV w s s')
    (hrun : a.exec s w.1 = ((.ok x, after), r)) :
    ∃ x' after' r', a'.exec s' w.2 = ((.ok x', after'), r') ∧ W.Valid (r, r') ∧ W.Later w (r, r') ∧
      rel (r, r') x x' ∧ relV (r, r') after after' := by
  have hrun : a s w.1 = ((.ok x, after), r) := hrun
  obtain ⟨hvalid, hlater, houtcome⟩ := h s s' hs hw
  change W.Valid ((a s w.1).2, (a' s' w.2).2) at hvalid
  change W.Later w ((a s w.1).2, (a' s' w.2).2) at hlater
  change Outcome (fun x x' => rel ((a s w.1).2, (a' s' w.2).2) x x' ∧
    relV ((a s w.1).2, (a' s' w.2).2) (a s w.1).1.2 (a' s' w.2).1.2) (a s w.1).1.1 (a' s' w.2).1.1 at houtcome
  rw [hrun] at hvalid hlater houtcome
  rcases hrun' : a' s' w.2 with ⟨⟨e | x', after'⟩, r'⟩
  · rw [hrun'] at houtcome
    exact houtcome.elim
  · rw [hrun'] at hvalid hlater houtcome
    exact ⟨x', after', r', hrun', hvalid, hlater, houtcome⟩

end Worlds

namespace Likeness

variable {R S S' T T' : Type} [Scalar R] [Quantity R S T] [Quantity R S' T']
  {L : Likeness R S S' T T'} {w v : S × S'} {x y : T} {x' y' : T'} {n : Nat}

/-- Samples that show the same spot and the same numeraire. -/
structure LikeSample (L : Likeness R S S' T T') (w : S × S') (s : Sample T) (s' : Sample T') : Prop where
  spot : L.Like w s.spot s'.spot
  numeraire : L.Like w s.numeraire s'.numeraire

theorem LikeSample.mono {s : Sample T} {s' : Sample T'} (h : L.LikeSample w s s') (hl : L.Later w v) :
    L.LikeSample v s s' := ⟨L.mono hl h.spot, L.mono hl h.numeraire⟩

/-- Evaluations of like quantities. -/
abbrev AlikeEval (L : Likeness R S S' T T') (w : S × S') (a : Evaluation R S T) (a' : Evaluation R S' T') :
    Prop := L.toWorlds.Alike w a a' L.Like

theorem alike_finiteOr (name : String) (ha : L.Like w x x') (hr : L.Like w y y') :
    L.AlikeEval w (Intrinsic.finiteOr name x y) (Intrinsic.finiteOr name x' y') := by
  simp only [Intrinsic.finiteOr, L.value hr, L.value ha]
  split
  · exact Alike.pure hr
  · exact Alike.throw _

theorem alike_binary (op : Operator) (hx : L.Like w x x') (hy : L.Like w y y') :
    L.AlikeEval w (Intrinsic.binary op x y) (Intrinsic.binary op x' y') := by
  cases op with
  | add => exact Alike.lift (L.add hx hy)
  | sub => exact Alike.lift (L.sub hx hy)
  | mul => exact Alike.lift (L.mul hx hy)
  | div => exact (Alike.lift (L.div hx hy)).bind fun v _ _ hl hz => alike_finiteOr _ (L.mono hl hy) hz
  | pow => exact (Alike.lift (L.pow hx hy)).bind fun v _ _ hl hz => alike_finiteOr _ (L.mono hl hx) hz

theorem alike_unary (f : Function) (hx : L.Like w x x') :
    L.AlikeEval w (Intrinsic.unary f x) (Intrinsic.unary f x') := by
  simp only [Intrinsic.unary, L.value hx]
  cases f with
  | log =>
    dsimp only
    split
    · exact Alike.throw _
    · exact Alike.lift (L.log hx)
  | sqrt =>
    dsimp only
    split
    · exact Alike.throw _
    · exact Alike.lift (L.sqrt hx)
  | exp => exact Alike.lift (L.exp hx)
  | min => exact Alike.throw _
  | max => exact Alike.throw _
  | smooth => exact Alike.throw _

theorem alike_require {ε : Type} (b : Bool) (cause : Misuse) :
    L.toWorlds.Alike w (Smoothing.require b cause : ExceptT (Fault ε) (StateM S) Unit)
      (Smoothing.require b cause) fun _ _ _ => True := by
  unfold Smoothing.require
  split
  · exact Alike.pure trivial
  · exact Alike.throw _

theorem alike_smoothStep {ε : Type} {above below : T} {above' below' : T'} (width : R)
    (hx : L.Like w x x') (ha : L.Like w above above') (hb : L.Like w below below') :
    L.toWorlds.Alike w (Smoothing.smoothStep x above below width : ExceptT (Fault ε) (StateM S) T)
      (Smoothing.smoothStep x' above' below' width) L.Like := by
  simp only [Smoothing.smoothStep, L.value hx]
  refine (alike_require _ _).bind fun v _ _ hv _ => ?_
  split
  · exact Alike.pure (L.mono hv hb)
  split
  · exact Alike.pure (L.mono hv ha)
  refine Alike.lift ((L.sub (L.mono hv ha) (L.mono hv hb)).bind fun v₁ _ _ h₁ hd => ?_)
  refine (L.mulScalar _ hd).bind fun v₂ _ _ h₂ hrise => ?_
  have hl := L.trans hv (L.trans h₁ h₂)
  refine (L.addScalar _ (L.mono hl hx)).bind fun v₃ _ _ h₃ hsum => ?_
  refine (L.mul (L.mono h₃ hrise) hsum).bind fun v₄ _ _ h₄ hp => ?_
  exact L.add (L.mono (L.trans hl (L.trans h₃ h₄)) hb) hp

theorem alike_smooth {above below width : T} {above' below' width' : T'} (hx : L.Like w x x')
    (ha : L.Like w above above') (hb : L.Like w below below') (hw : L.Like w width width') :
    L.AlikeEval w (Intrinsic.smooth x above below width) (Intrinsic.smooth x' above' below' width') := by
  simp only [Intrinsic.smooth, L.value hw]
  split
  · exact alike_smoothStep _ hx ha hb
  · exact Alike.throw _

theorem like_pick (f : Function) (hx : L.Like w x x') (hy : L.Like w y y') :
    L.Like w (Intrinsic.pick f x y) (Intrinsic.pick f x' y') := by
  cases f <;> first | exact L.max hx hy | exact L.min hx hy

theorem like_foldl_pick (f : Function) {xs : List T} {xs' : List T'} (hx : L.Like w x x')
    (hxs : L.LikeList w xs xs') :
    L.Like w (xs.foldl (Intrinsic.pick f) x) (xs'.foldl (Intrinsic.pick f) x') := by
  induction hxs generalizing x x' with
  | nil => exact hx
  | cons hy _ ih => exact ih (like_pick f hx hy)

theorem alike_fetch {vs : Variables T} {vs' : Variables T'} (h : L.LikeTable n w vs vs') (slot : Nat) :
    L.AlikeEval w (vs.fetch slot) (vs'.fetch slot) := by
  have hi := h.getElem? slot
  unfold Variables.fetch
  generalize vs[slot]? = o at hi
  generalize vs'[slot]? = o' at hi
  cases hi with
  | none => exact Alike.throw _
  | some hx => exact Alike.pure hx

theorem alike_store {vs : Variables T} {vs' : Variables T'} (h : L.LikeTable n w vs vs') (slot : Nat)
    (hx : L.Like w x x') :
    L.toWorlds.Alike w (vs.store slot x : Evaluation R S (Variables T)) (vs'.store slot x') (L.LikeTable n) := by
  simp only [Variables.store, h.size_eq, h.size_right]
  split
  · exact Alike.pure (h.set hx slot)
  · exact Alike.throw _

theorem alike_pay {vs : Variables T} {vs' : Variables T'} {paid numeraire : T} {paid' numeraire' : T'}
    (h : L.LikeTable n w vs vs') (slot : Nat) (hp : L.Like w paid paid') (hn : L.Like w numeraire numeraire') :
    L.toWorlds.Alike w (vs.pay slot paid numeraire : Evaluation R S (Variables T))
      (vs'.pay slot paid' numeraire') (L.LikeTable n) := by
  refine (alike_fetch h slot).bind fun v₁ _ _ h₁ hold => ?_
  refine (Alike.lift (L.div (L.mono h₁ hp) (L.mono h₁ hn))).bind fun v₂ _ _ h₂ hpay => ?_
  refine (Alike.lift (L.add (L.mono h₂ hold) hpay)).bind fun v₃ _ _ h₃ hnew => ?_
  exact alike_store (h.mono (L.trans h₁ (L.trans h₂ h₃))) slot hnew

end Likeness

open Likeness

variable {R S S' T T' : Type} [Scalar R] [Quantity R S T] [Quantity R S' T']
  {L : Likeness R S S' T T'} {n : Nat} {vs : Variables T} {vs' : Variables T'} {s : Sample T}
  {s' : Sample T'}

mutual

theorem Script.Expr.alike_eval : (e : Expr R) → {w : S × S'} → L.LikeTable n w vs vs' →
    L.LikeSample w s s' → L.AlikeEval w (e.eval vs s) (e.eval vs' s')
  | .literal v, w, _, _ => Alike.pure (L.constant w v)
  | .spot, _, _, hs => Alike.pure hs.spot
  | .read (some v) _, w, _, _ => Alike.pure (L.constant w v)
  | .read none x, _, hv, _ => by
    simp only [Expr.eval]
    exact alike_fetch hv x.slot
  | .neg (some v) _, w, _, _ => Alike.pure (L.constant w v)
  | .neg none arg, w, hv, hs => by
    simp only [Expr.eval]
    exact (arg.alike_eval hv hs).bind fun u _ _ _ hx => Alike.lift (L.neg hx)
  | .plus (some v) _, w, _, _ => Alike.pure (L.constant w v)
  | .plus none arg, w, hv, hs => by
    simp only [Expr.eval]
    exact arg.alike_eval hv hs
  | .binary (some v) _ _ _, w, _, _ => Alike.pure (L.constant w v)
  | .binary none op lhs rhs, w, hv, hs => by
    simp only [Expr.eval]
    refine (lhs.alike_eval hv hs).bind fun u _ _ hu hx => ?_
    refine (rhs.alike_eval (hv.mono hu) (hs.mono hu)).bind fun t _ _ ht hy => ?_
    exact alike_binary op (L.mono ht hx) hy
  | .call (some v) _ _, w, _, _ => Alike.pure (L.constant w v)
  | .call none f args, w, hv, hs => by
    unfold Expr.eval
    split
    · next e => exact (e.alike_eval hv hs).bind fun _ _ _ _ hx => alike_unary .log hx
    · next e => exact (e.alike_eval hv hs).bind fun _ _ _ _ hx => alike_unary .sqrt hx
    · next e => exact (e.alike_eval hv hs).bind fun _ _ _ _ hx => alike_unary .exp hx
    · next e es =>
      refine (e.alike_eval hv hs).bind fun u _ _ hu hx => ?_
      refine (Expr.alike_evalList es (hv.mono hu) (hs.mono hu)).bind fun t _ _ ht hxs => ?_
      exact Alike.pure (like_foldl_pick .min (L.mono ht hx) hxs)
    · next e es =>
      refine (e.alike_eval hv hs).bind fun u _ _ hu hx => ?_
      refine (Expr.alike_evalList es (hv.mono hu) (hs.mono hu)).bind fun t _ _ ht hxs => ?_
      exact Alike.pure (like_foldl_pick .max (L.mono ht hx) hxs)
    · next e above below width =>
      refine (e.alike_eval hv hs).bind fun u₁ _ _ h₁ hx => ?_
      refine (above.alike_eval (hv.mono h₁) (hs.mono h₁)).bind fun u₂ _ _ h₂ ha => ?_
      have h₁₂ := L.trans h₁ h₂
      refine (below.alike_eval (hv.mono h₁₂) (hs.mono h₁₂)).bind fun u₃ _ _ h₃ hb => ?_
      have h₁₃ := L.trans h₁₂ h₃
      refine (width.alike_eval (hv.mono h₁₃) (hs.mono h₁₃)).bind fun u₄ _ _ h₄ hw => ?_
      have h₂₄ := L.trans h₂ (L.trans h₃ h₄)
      exact alike_smooth (L.mono h₂₄ hx) (L.mono (L.trans h₃ h₄) ha) (L.mono h₄ hb) hw
    · exact Alike.throw _

theorem Script.Expr.alike_evalList : (es : List (Expr R)) → {w : S × S'} → L.LikeTable n w vs vs' →
    L.LikeSample w s s' → L.toWorlds.Alike w (Expr.evalList (R := R) (S := S) vs s es)
      (Expr.evalList (R := R) (S := S') vs' s' es) L.LikeList
  | [], w, _, _ => Alike.pure List.Forall₂.nil
  | e :: es, w, hv, hs => by
    simp only [Expr.evalList]
    refine (e.alike_eval hv hs).bind fun u _ _ hu hx => ?_
    refine (Expr.alike_evalList es (hv.mono hu) (hs.mono hu)).map fun t _ _ ht hxs => ?_
    exact List.Forall₂.cons (L.mono ht hx) hxs

end

theorem Script.Cond.alike_eval (c : Cond R) : ∀ {w : S × S'}, L.LikeTable n w vs vs' →
    L.LikeSample w s s' → L.toWorlds.Alike w (c.eval vs s : Evaluation R S Bool)
      (c.eval vs' s' : Evaluation R S' Bool) fun _ => Eq := by
  induction c with
  | literal b => exact fun _ _ => Alike.pure rfl
  | compare decided c =>
    intro w hv hs
    cases decided with
    | some b => exact Alike.pure rfl
    | none =>
      refine (c.arg.alike_eval hv hs).bind fun u x x' _ hx => Alike.pure ?_
      rw [L.value hx]
  | not decided arg ih =>
    intro w hv hs
    cases decided with
    | some b => exact Alike.pure rfl
    | none => exact (ih hv hs).bind fun u _ _ _ hb => Alike.pure (congrArg _ hb)
  | and decided lhs rhs ihl ihr =>
    intro w hv hs
    cases decided with
    | some b => exact Alike.pure rfl
    | none =>
      refine (ihl hv hs).bind fun u _ _ hu ha => ?_
      refine (ihr (hv.mono hu) (hs.mono hu)).bind fun _ _ _ _ hb => Alike.pure ?_
      rw [ha, hb]
  | or decided lhs rhs ihl ihr =>
    intro w hv hs
    cases decided with
    | some b => exact Alike.pure rfl
    | none =>
      refine (ihl hv hs).bind fun u _ _ hu ha => ?_
      refine (ihr (hv.mono hu) (hs.mono hu)).bind fun _ _ _ _ hb => Alike.pure ?_
      rw [ha, hb]

namespace Likeness

/-- Processes on tables of variables that have no result. -/
abbrev TracksTables (L : Likeness R S S' T T') (n : Nat) (w : S × S') (a : Process R S (Variables T) Unit)
    (a' : Process R S' (Variables T') Unit) : Prop :=
  L.toWorlds.Tracks w (L.LikeTable n) a a' fun _ _ _ => True

theorem tracks_ofEvaluation {α α' : Type} {w : S × S'} {rel : S × S' → α → α' → Prop}
    {a : Evaluation R S α} {a' : Evaluation R S' α'} (h : L.toWorlds.Alike w a a' rel) :
    L.toWorlds.Tracks w (L.LikeTable n) (Process.ofEvaluation a) (Process.ofEvaluation a') rel :=
  Tracks.keeping (L.LikeTable n) (fun hl h => LikeTable.mono h hl) h

end Likeness

mutual

theorem Script.Statement.tracks_run : (c : Statement R) → {w : S × S'} → L.LikeSample w s s' →
    L.TracksTables n w (c.run s) (c.run s')
  | .assign v e, w, hs => by
    simp only [Statement.run]
    refine Tracks.get.bind fun u _ _ hu hv => ?_
    refine (tracks_ofEvaluation (e.alike_eval hv (hs.mono hu))).bind fun t _ _ ht hx => ?_
    refine (tracks_ofEvaluation (alike_store (hv.mono ht) v.slot hx)).bind fun _ _ _ _ h => ?_
    exact Tracks.set h
  | .pays v e, w, hs => by
    simp only [Statement.run]
    refine Tracks.get.bind fun u _ _ hu hv => ?_
    refine (tracks_ofEvaluation (e.alike_eval hv (hs.mono hu))).bind fun t _ _ ht hx => ?_
    refine (tracks_ofEvaluation
      (alike_pay (hv.mono ht) v.slot hx (hs.mono (L.trans hu ht)).numeraire)).bind fun _ _ _ _ h => ?_
    exact Tracks.set h
  | .branch c body otherwise _, w, hs => by
    simp only [Statement.run]
    refine Tracks.get.bind fun u _ _ hu hv => ?_
    refine (tracks_ofEvaluation (c.alike_eval hv (hs.mono hu))).bind fun t b b' ht hb => ?_
    subst hb
    have hs' := hs.mono (L.trans hu ht)
    split
    · exact Statement.tracks_runBlock body hs'
    · exact Statement.tracks_runBlock otherwise hs'
  | .sequence body, w, hs => by
    simp only [Statement.run]
    exact Statement.tracks_runBlock body hs

theorem Script.Statement.tracks_runBlock : (cs : List (Statement R)) → {w : S × S'} →
    L.LikeSample w s s' → L.TracksTables n w (Statement.runBlock s cs) (Statement.runBlock s' cs)
  | [], w, _ => Tracks.pure trivial
  | c :: cs, w, hs => by
    simp only [Statement.runBlock]
    exact (c.tracks_run hs).bind fun u _ _ hu _ => Statement.tracks_runBlock cs (hs.mono hu)

end

end PayoffPricing
