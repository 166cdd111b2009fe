import PayoffPricing.Proofs.Script.Likeness
import PayoffPricing.Script.Fuzzy
/-!
Smoothed evaluation preserves likeness of quantities. The values that are set aside play no part: they
need not be alike.
-/

namespace PayoffPricing

open Script Worlds Likeness

namespace Likeness

variable {R S S' T T' : Type} [Scalar R] [Quantity R S T] [Quantity R S' T']
  {L : Likeness R S S' T T'} {w v : S × S'} {x y : T} {x' y' : T'} {n : Nat}

section Ramps

variable {ε : Type}

/-- Computations of like quantities that may stop. -/
abbrev AlikeStep (ε : Type) (L : Likeness R S S' T T') (w : S × S') (a : ExceptT (Fault ε) (StateM S) T)
    (a' : ExceptT (Fault ε) (StateM S') T') : Prop := L.toWorlds.Alike w a a' L.Like

theorem alike_callSpread (width : R) (hx : L.Like w x x') :
    L.AlikeStep ε w (Smoothing.callSpread x width) (Smoothing.callSpread x' width) := by
  simp only [Smoothing.callSpread, L.value hx]
  refine (alike_require _ _).bind fun v _ _ hv _ => ?_
  split
  · exact Alike.pure (L.zero v)
  split
  · exact Alike.pure (L.one v)
  refine Alike.lift ((L.addScalar _ (L.mono hv hx)).bind fun u _ _ _ hsum => ?_)
  exact L.divScalar _ hsum

theorem alike_callSpreadOn (left right : R) (hx : L.Like w x x') :
    L.AlikeStep ε w (Smoothing.callSpreadOn x left right) (Smoothing.callSpreadOn x' left right) := by
  simp only [Smoothing.callSpreadOn, L.value hx]
  refine (alike_require _ _).bind fun v _ _ hv _ => ?_
  split
  · exact Alike.pure (L.zero v)
  split
  · exact Alike.pure (L.one v)
  refine Alike.lift ((L.subScalar _ (L.mono hv hx)).bind fun u _ _ _ hoffset => ?_)
  exact L.divScalar _ hoffset

theorem alike_butterfly (width : R) (hx : L.Like w x x') :
    L.AlikeStep ε w (Smoothing.butterfly x width) (Smoothing.butterfly x' width) := by
  simp only [Smoothing.butterfly, L.value hx]
  refine (alike_require _ _).bind fun v _ _ hv _ => ?_
  split
  · exact Alike.pure (L.zero v)
  refine Alike.lift ((L.abs (L.mono hv hx)).bind fun v₁ _ _ _ hdistance => ?_)
  refine (L.neg hdistance).bind fun v₂ _ _ _ hneg => ?_
  exact (L.addScalar _ hneg).bind fun v₃ _ _ _ hsum => L.divScalar _ hsum

theorem agree_butterflyOn (left right : R) (hx : L.Like w x x') :
    L.toWorlds.Agree w (Smoothing.butterflyOn x left right) (Smoothing.butterflyOn x' left right) L.Like := by
  have hside (c : R) : L.toWorlds.Agree w
      (do Quantity.addScalar (← Quantity.neg (← Quantity.divScalar x c)) 1)
      (do Quantity.addScalar (← Quantity.neg (← Quantity.divScalar x' c)) 1) L.Like :=
    (L.divScalar c hx).bind fun _ _ _ _ hshare => (L.neg hshare).bind fun _ _ _ _ hneg => L.addScalar 1 hneg
  simp only [Smoothing.butterflyOn, L.value hx]
  split
  · exact Agree.pure (L.zero w)
  split
  · exact hside left
  split
  · exact hside right
  · exact Agree.pure (L.one w)

end Ramps

section Degrees

variable {vs : Variables T} {vs' : Variables T'} {s : Sample T} {s' : Sample T'}

theorem alike_degreeOfComparison (width : R) (hv : L.LikeTable n w vs vs') (hs : L.LikeSample w s s')
    (c : Comparison R) :
    L.AlikeEval w (Fuzzy.degreeOfComparison width vs s c) (Fuzzy.degreeOfComparison width vs' s' c) := by
  refine (c.arg.alike_eval hv hs).bind fun u _ _ _ hx => ?_
  dsimp only
  split
  · split
    · exact Alike.lift (agree_butterflyOn _ _ hx)
    · exact alike_butterfly _ hx
  · split
    · exact alike_callSpreadOn _ _ hx
    · exact alike_callSpread _ hx

theorem like_crisp (w : S × S') (b : Bool) : L.Like w (Fuzzy.crisp b) (Fuzzy.crisp b) := by
  cases b with
  | false => exact L.zero w
  | true => exact L.one w

theorem alike_degree (width : R) (c : Cond R) : ∀ {w : S × S'}, L.LikeTable n w vs vs' →
    L.LikeSample w s s' → L.AlikeEval w (Fuzzy.degree width vs s c) (Fuzzy.degree width vs' s' c) := by
  induction c with
  | literal b => exact fun {w} _ _ => Alike.pure (like_crisp w b)
  | compare decided c =>
    intro w hv hs
    cases decided with
    | some b => exact Alike.pure (like_crisp w b)
    | none => exact alike_degreeOfComparison width hv hs c
  | not decided arg ih =>
    intro w hv hs
    cases decided with
    | some b => exact Alike.pure (like_crisp w b)
    | none => exact (ih hv hs).bind fun u _ _ _ hd => Alike.lift (L.sub (L.one u) hd)
  | and decided lhs rhs ihl ihr =>
    intro w hv hs
    cases decided with
    | some b => exact Alike.pure (like_crisp w b)
    | none =>
      refine (ihl hv hs).bind fun u _ _ hu ha => ?_
      refine (ihr (hv.mono hu) (hs.mono hu)).bind fun t _ _ ht hb => ?_
      exact Alike.lift (L.mul (L.mono ht ha) hb)
  | or decided lhs rhs ihl ihr =>
    intro w hv hs
    cases decided with
    | some b => exact Alike.pure (like_crisp w b)
    | none =>
      refine (ihl hv hs).bind fun u _ _ hu ha => ?_
      refine (ihr (hv.mono hu) (hs.mono hu)).bind fun t _ _ ht hb => ?_
      have ha := L.mono ht ha
      refine Alike.lift ((L.add ha hb).bind fun v₁ _ _ h₁ hsum => ?_)
      exact (L.mul (L.mono h₁ ha) (L.mono h₁ hb)).bind fun v₂ _ _ h₂ hp => L.sub (L.mono h₂ hsum) hp

end Degrees

section Values

variable {vs : Variables T} {vs' : Variables T'} {xs : List T} {xs' : List T'}

theorem alike_fetchAll (h : L.LikeTable n w vs vs') (slots : List Nat) :
    L.toWorlds.Alike w (vs.fetchAll slots : Evaluation R S (List T))
      (vs'.fetchAll slots : Evaluation R S' (List T')) L.LikeList :=
  Alike.mapM (fun _ hv slot => alike_fetch (h.mono hv) slot) L.mono (L.refl w) slots

/-- A slot with like values for it. -/
def LikeEntry (L : Likeness R S S' T T') (w : S × S') (e : Nat × T) (e' : Nat × T') : Prop :=
  e.1 = e'.1 ∧ L.Like w e.2 e'.2

theorem LikeEntry.mono {e : Nat × T} {e' : Nat × T'} (hl : L.Later w v) (h : L.LikeEntry w e e') :
    L.LikeEntry v e e' := ⟨h.1, L.mono hl h.2⟩

theorem likeEntries_zip (slots : List Nat) (h : L.LikeList w xs xs') :
    List.Forall₂ (L.LikeEntry w) (slots.zip xs) (slots.zip xs') := by
  induction h generalizing slots with
  | nil => simp
  | cons hx _ ih =>
    cases slots with
    | nil => simp
    | cons slot slots => exact List.Forall₂.cons ⟨rfl, hx⟩ (ih slots)

theorem alike_storeAll (h : L.LikeTable n w vs vs') (slots : List Nat) (hxs : L.LikeList w xs xs') :
    L.toWorlds.Alike w (vs.storeAll (slots.zip xs) : Evaluation R S (Variables T))
      (vs'.storeAll (slots.zip xs') : Evaluation R S' (Variables T')) (L.LikeTable n) := by
  refine Alike.foldlM (r := L.LikeEntry) LikeEntry.mono ?_ (L.refl w) (likeEntries_zip slots hxs) h
  rintro v us us' ⟨slot, x⟩ ⟨_, x'⟩ - hus ⟨rfl, hx⟩
  exact alike_store hus slot hx

theorem alike_blend {d : T} {d' : T'} (hd : L.Like w d d') (affected : List Nat)
    (hxs : L.LikeList w xs xs') (h : L.LikeTable n w vs vs') :
    L.toWorlds.Alike w (Fuzzy.blend d affected xs vs : Evaluation R S (Variables T))
      (Fuzzy.blend d' affected xs' vs' : Evaluation R S' (Variables T')) (L.LikeTable n) := by
  refine (Alike.lift (L.sub (L.one w) hd)).bind fun u _ _ hu hrest => ?_
  refine Alike.foldlM (r := L.LikeEntry) LikeEntry.mono ?_ (L.refl u)
    (likeEntries_zip affected (hxs.mono hu)) (h.mono hu)
  rintro v us us' ⟨slot, x⟩ ⟨_, x'⟩ hv hus ⟨rfl, hx⟩
  refine (Alike.lift (L.mul (L.mono (L.trans hu hv) hd) hx)).bind fun v₁ _ _ h₁ hfirst => ?_
  refine (alike_fetch (hus.mono h₁) slot).bind fun v₂ _ _ h₂ hold => ?_
  refine (Alike.lift (L.mul (L.mono (L.trans hv (L.trans h₁ h₂)) hrest) hold)).bind fun v₃ _ _ h₃ hsecond => ?_
  refine (Alike.lift (L.add (L.mono (L.trans h₂ h₃) hfirst) hsecond)).bind fun v₄ _ _ h₄ hnew => ?_
  exact alike_store (hus.mono (L.trans h₁ (L.trans h₂ (L.trans h₃ h₄)))) slot hnew

end Values

/-- States of smoothed evaluations with like values. -/
def LikeValues (L : Likeness R S S' T T') (n : Nat) (w : S × S') (s : Fuzzy.State T) (s' : Fuzzy.State T') :
    Prop := L.LikeTable n w s.values s'.values

/-- Smoothed processes that have no result. -/
abbrev TracksValues (L : Likeness R S S' T T') (n : Nat) (w : S × S') (a : Process R S (Fuzzy.State T) Unit)
    (a' : Process R S' (Fuzzy.State T') Unit) : Prop :=
  L.toWorlds.Tracks w (L.LikeValues n) a a' fun _ _ _ => True

theorem tracks_ofEvaluation_values {α α' : Type} {rel : S × S' → α → α' → Prop}
    {a : Evaluation R S α} {a' : Evaluation R S' α'} (h : L.toWorlds.Alike w a a' rel) :
    L.toWorlds.Tracks w (L.LikeValues n) (Process.ofEvaluation a) (Process.ofEvaluation a') rel :=
  Tracks.keeping (L.LikeValues n) (fun hl h => LikeTable.mono h hl) h

theorem tracks_onVariables {step : Variables T → Evaluation R S (Variables T)}
    {step' : Variables T' → Evaluation R S' (Variables T')}
    (h : ∀ v vs vs', L.Later w v → L.LikeTable n v vs vs' →
      L.toWorlds.Alike v (step vs) (step' vs') (L.LikeTable n)) :
    L.TracksValues n w (Fuzzy.onVariables step) (Fuzzy.onVariables step') := by
  refine Tracks.get.bind fun u s s' hu hs => ?_
  refine (tracks_ofEvaluation_values (h u _ _ hu hs)).bind fun _ _ _ _ hvs => ?_
  exact Tracks.set hvs

theorem tracks_enter :
    L.toWorlds.Tracks w (L.LikeValues n) (Fuzzy.enter : Process R S (Fuzzy.State T) Nat)
      (Fuzzy.enter : Process R S' (Fuzzy.State T') Nat) fun _ _ _ => True := by
  unfold Fuzzy.enter
  refine Tracks.get.bind fun _ _ _ _ hs => ?_
  dsimp only
  refine Tracks.bind (Tracks.set ?_) fun _ _ _ _ _ => Tracks.pure trivial
  exact hs

theorem tracks_leave (level level' : Nat) (before after : List T) (before' after' : List T') :
    L.TracksValues n w (Fuzzy.leave level before after) (Fuzzy.leave level' before' after') :=
  Tracks.modify fun hs => hs

end Likeness

variable {R S S' T T' : Type} [Scalar R] [Quantity R S T] [Quantity R S' T']
  {L : Likeness R S S' T T'} {n : Nat} {s : Sample T} {s' : Sample T'} {width : R}

mutual

theorem Script.Fuzzy.tracks_run : (c : Statement R) → {w : S × S'} → L.LikeSample w s s' →
    L.TracksValues n w (Fuzzy.run width s c) (Fuzzy.run width s' c)
  | .assign v e, w, hs => by
    simp only [Fuzzy.run]
    refine tracks_onVariables fun u _ _ hu hv => ?_
    exact (e.alike_eval hv (hs.mono hu)).bind fun t _ _ ht hx => alike_store (hv.mono ht) v.slot hx
  | .pays v e, w, hs => by
    simp only [Fuzzy.run]
    refine tracks_onVariables fun u _ _ hu hv => ?_
    refine (e.alike_eval hv (hs.mono hu)).bind fun t _ _ ht hx => ?_
    exact alike_pay (hv.mono ht) v.slot hx (hs.mono (L.trans hu ht)).numeraire
  | .branch c body otherwise affected, w, hs => by
    simp only [Fuzzy.run]
    refine Tracks.get.bind fun u _ _ hu hv => ?_
    refine (tracks_ofEvaluation_values (alike_degree width c hv (hs.mono hu))).bind fun t d d' ht hd => ?_
    have hs := hs.mono (L.trans hu ht)
    rw [L.value hd]
    split
    · exact Fuzzy.tracks_runBlock body hs
    split
    · exact Fuzzy.tracks_runBlock otherwise hs
    refine tracks_enter.bind fun v₁ _ _ h₁ _ => ?_
    refine Tracks.get.bind fun v₂ _ _ h₂ hv => ?_
    refine (tracks_ofEvaluation_values (alike_fetchAll hv affected)).bind fun v₃ _ _ h₃ hbefore => ?_
    have h₁₃ := L.trans h₁ (L.trans h₂ h₃)
    refine (Fuzzy.tracks_runBlock body (hs.mono h₁₃)).bind fun v₄ _ _ h₄ _ => ?_
    refine Tracks.get.bind fun v₅ _ _ h₅ hv => ?_
    refine (tracks_ofEvaluation_values (alike_fetchAll hv affected)).bind fun v₆ _ _ h₆ hafter => ?_
    have h₄₆ := L.trans h₄ (L.trans h₅ h₆)
    refine (tracks_onVariables fun v _ _ hl hv =>
      alike_storeAll hv affected (hbefore.mono (L.trans h₄₆ hl))).bind fun v₇ _ _ h₇ _ => ?_
    have h₁₇ := L.trans h₁₃ (L.trans h₄₆ h₇)
    refine (Fuzzy.tracks_runBlock otherwise (hs.mono h₁₇)).bind fun v₈ _ _ h₈ _ => ?_
    have hd := L.mono (L.trans h₁₇ h₈) hd
    refine (tracks_onVariables fun v _ _ hl hv => alike_blend (L.mono hl hd) affected
      (hafter.mono (L.trans (L.trans h₇ h₈) hl)) hv).bind fun _ _ _ _ _ => ?_
    exact tracks_leave _ _ _ _ _ _
  | .sequence body, w, hs => by
    simp only [Fuzzy.run]
    exact Fuzzy.tracks_runBlock body hs

theorem Script.Fuzzy.tracks_runBlock : (cs : List (Statement R)) → {w : S × S'} → L.LikeSample w s s' →
    L.TracksValues n w (Fuzzy.runBlock width s cs) (Fuzzy.runBlock width s' cs)
  | [], w, _ => Tracks.pure trivial
  | c :: cs, w, hs => by
    simp only [Fuzzy.runBlock]
    exact (Fuzzy.tracks_run c hs).bind fun u _ _ hu _ => Fuzzy.tracks_runBlock cs (hs.mono hu)

end

end PayoffPricing
