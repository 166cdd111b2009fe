import Mathlib.Data.List.Forall2
import PayoffPricing.Quantity
/-!
Likeness of two ways of computing with quantities. Both run the same code on records of their own; a
pair of records is a world, and quantities that are alike in a world stay alike in all later ones.
-/

namespace PayoffPricing

/-- A plain scalar is its own value. -/
theorem value_plain {R : Type} [Scalar R] (x : R) : (Valued.value x : R) = x := rfl

/-- Tables with their values in a relation have them in the relation at every place. -/
theorem rel_getElem? {α β : Type} {r : α → β → Prop} {xs : Array α} {ys : Array β}
    (h : List.Forall₂ r xs.toList ys.toList) (i : Nat) : Option.Rel r xs[i]? ys[i]? := by
  rw [← Array.getElem?_toList, ← Array.getElem?_toList]
  generalize xs.toList = l at h
  generalize ys.toList = m at h
  induction h generalizing i with
  | nil => simp
  | cons hx _ ih =>
    cases i with
    | zero => simpa using Option.Rel.some hx
    | succ i => simpa using ih i

/-- Pairs of records, and how they may move on. -/
structure Worlds (S S' : Type) where
  Valid : S × S' → Prop
  Later : S × S' → S × S' → Prop
  refl (w : S × S') : Later w w
  trans {u v w : S × S'} : Later u v → Later v w → Later u w

namespace Worlds

variable {S S' α α' β β' ε V V' : Type} (W : Worlds S S')

/-- From a valid world, both actions lead to a later one, with results in the relation. -/
def Agree (w : S × S') (a : StateM S α) (a' : StateM S' α') (rel : S × S' → α → α' → Prop) : Prop :=
  W.Valid w → W.Valid ((a w.1).2, (a' w.2).2) ∧ W.Later w ((a w.1).2, (a' w.2).2) ∧
    rel ((a w.1).2, (a' w.2).2) (a w.1).1 (a' w.2).1

/-- The same error, or values in the relation. -/
def Outcome (rel : α → α' → Prop) : Except ε α → Except ε α' → Prop
  | .ok x, .ok x' => rel x x'
  | .error e, .error e' => e = e'
  | _, _ => False

theorem Outcome.eq {rel : α → α → Prop} (h : ∀ {x x'}, rel x x' → x = x') {r r' : Except ε α} (hr : Outcome rel r r') :
    r = r' := by
  rcases r with e | x <;> rcases r' with e' | x'
  · exact congrArg Except.error hr
  · exact hr.elim
  · exact hr.elim
  · exact congrArg Except.ok (h hr)

theorem Outcome.imp {rel rel' : α → α' → Prop} {r : Except ε α} {r' : Except ε α'} (h : Outcome rel r r')
    (hi : ∀ x x', rel x x' → rel' x x') : Outcome rel' r r' := by
  rcases r with e | x <;> rcases r' with e' | x'
  · exact h
  · exact h.elim
  · exact h.elim
  · exact hi x x' h

theorem Outcome.bind_eq {rel : α → α' → Prop} {r : Except ε α} {r' : Except ε α'} (h : Outcome rel r r')
    {f : α → Except ε β} {f' : α' → Except ε β} (hf : ∀ x x', rel x x' → f x = f' x') : (r >>= f) = (r' >>= f') := by
  rcases r with e | x <;> rcases r' with e' | x'
  · exact congrArg Except.error h
  · exact h.elim
  · exact h.elim
  · exact hf x x' h

theorem Outcome.map_eq {rel : α → α' → Prop} {r : Except ε α} {r' : Except ε α'} (h : Outcome rel r r')
    {f : α → β} {f' : α' → β} (hf : ∀ x x', rel x x' → f x = f' x') : r.map f = r'.map f' := by
  change (r >>= fun x => Except.ok (f x)) = r' >>= fun x' => Except.ok (f' x')
  exact h.bind_eq fun x x' hx => congrArg Except.ok (hf x x' hx)

/-- Computations that may stop. -/
def Alike (w : S × S') (a : ExceptT ε (StateM S) α) (a' : ExceptT ε (StateM S') α')
    (rel : S × S' → α → α' → Prop) : Prop :=
  W.Agree w a.run a'.run fun v => Outcome (rel v)

/-- Computations that may stop and change states in a relation. -/
def Tracks (w : S × S') (relV : S × S' → V → V' → Prop) (a : ExceptT ε (StateT V (StateM S)) α)
    (a' : ExceptT ε (StateT V' (StateM S')) α') (rel : S × S' → α → α' → Prop) : Prop :=
  ∀ s s', relV w s s' → W.Agree w (a.run.run s) (a'.run.run s') fun v r r' =>
    Outcome (fun x x' => rel v x x' ∧ relV v r.2 r'.2) r.1 r'.1

variable {W} {w : S × S'} {rel : S × S' → α → α' → Prop} {rel' : S × S' → β → β' → Prop}

section Actions

variable {a : StateM S α} {a' : StateM S' α'} {f : α → StateM S β} {f' : α' → StateM S' β'}

theorem Agree.pure {x : α} {x' : α'} (h : rel w x x') : W.Agree w (pure x) (pure x') rel :=
  fun hw => ⟨hw, W.refl w, h⟩

theorem Agree.bind (h : W.Agree w a a' rel)
    (hf : ∀ v x x', W.Later w v → rel v x x' → W.Agree v (f x) (f' x') rel') :
    W.Agree w (a >>= f) (a' >>= f') rel' := by
  intro hw
  obtain ⟨hv, hl, hr⟩ := h hw
  obtain ⟨hu, hl', hr'⟩ := hf _ _ _ hl hr hv
  exact ⟨hu, W.trans hl hl', hr'⟩

theorem Agree.imp {other : S × S' → α → α' → Prop} (h : W.Agree w a a' rel)
    (hi : ∀ v x x', W.Later w v → rel v x x' → other v x x') : W.Agree w a a' other := by
  intro hw
  obtain ⟨hv, hl, hr⟩ := h hw
  exact ⟨hv, hl, hi _ _ _ hl hr⟩

theorem Agree.map {g : α → β} {g' : α' → β'} (h : W.Agree w a a' rel)
    (hg : ∀ v x x', W.Later w v → rel v x x' → rel' v (g x) (g' x')) :
    W.Agree w (g <$> a) (g' <$> a') rel' := by
  rw [← bind_pure_comp, ← bind_pure_comp]
  exact h.bind fun v x x' hl hr => Agree.pure (hg v x x' hl hr)

theorem Agree.mapM {γ : Type} {u : S × S'}
    {g : γ → StateM S α} {g' : γ → StateM S' α'} (hg : ∀ v, W.Later u v → ∀ c, W.Agree v (g c) (g' c) rel)
    (hmono : ∀ {v v' x x'}, W.Later v v' → rel v x x' → rel v' x x') (hu : W.Later u w) (l : List γ) :
    W.Agree w (l.mapM g) (l.mapM g') fun v xs xs' =>
      xs.length = l.length ∧ List.Forall₂ (rel v) xs xs' := by
  induction l generalizing w with
  | nil => exact Agree.pure ⟨rfl, List.Forall₂.nil⟩
  | cons c l ih =>
    rw [List.mapM_cons, List.mapM_cons]
    refine (hg w hu c).bind fun v x x' hv hx => (ih (W.trans hu hv)).bind fun v' _ _ hv' hxs => ?_
    exact Agree.pure ⟨congrArg (· + 1) hxs.1, List.Forall₂.cons (hmono hv' hx) hxs.2⟩

end Actions

section Stopping

variable {a : ExceptT ε (StateM S) α} {a' : ExceptT ε (StateM S') α'}
  {f : α → ExceptT ε (StateM S) β} {f' : α' → ExceptT ε (StateM S') β'}

theorem Alike.pure {x : α} {x' : α'} (h : rel w x x') :
    W.Alike w (pure x : ExceptT ε (StateM S) α) (pure x') rel := Agree.pure h

theorem Alike.throw (e : ε) :
    W.Alike w (throw e : ExceptT ε (StateM S) α) (throw e : ExceptT ε (StateM S') α') rel :=
  Agree.pure rfl

theorem Alike.lift {b : StateM S α} {b' : StateM S' α'} (h : W.Agree w b b' rel) :
    W.Alike w (ExceptT.lift b : ExceptT ε (StateM S) α) (ExceptT.lift b') rel := h

theorem Alike.bind (h : W.Alike w a a' rel)
    (hf : ∀ v x x', W.Later w v → rel v x x' → W.Alike v (f x) (f' x') rel') :
    W.Alike w (a >>= f) (a' >>= f') rel' := by
  change W.Agree w (a.run >>= ExceptT.bindCont f) (a'.run >>= ExceptT.bindCont f') _
  refine Agree.bind h fun v r r' hl hr => ?_
  rcases r with e | x <;> rcases r' with e' | x'
  · exact Agree.pure hr
  · exact hr.elim
  · exact hr.elim
  · exact hf v x x' hl hr

theorem Alike.mapM {γ : Type} {u : S × S'}
    {g : γ → ExceptT ε (StateM S) α} {g' : γ → ExceptT ε (StateM S') α'}
    (hg : ∀ v, W.Later u v → ∀ c, W.Alike v (g c) (g' c) rel)
    (hmono : ∀ {v v' x x'}, W.Later v v' → rel v x x' → rel v' x x') (hu : W.Later u w) (l : List γ) :
    W.Alike w (l.mapM g) (l.mapM g') fun v => List.Forall₂ (rel v) := by
  induction l generalizing w with
  | nil => exact Alike.pure List.Forall₂.nil
  | cons c l ih =>
    rw [List.mapM_cons, List.mapM_cons]
    refine (hg w hu c).bind fun v x x' hv hx => (ih (W.trans hu hv)).bind fun v' _ _ hv' hxs => ?_
    exact Alike.pure (List.Forall₂.cons (hmono hv' hx) hxs)

theorem Alike.foldlM {γ γ' : Type} {r : S × S' → γ → γ' → Prop} {u : S × S'}
    (hmono : ∀ {v v' c c'}, W.Later v v' → r v c c' → r v' c c')
    {g : α → γ → ExceptT ε (StateM S) α} {g' : α' → γ' → ExceptT ε (StateM S') α'}
    (hg : ∀ v x x' c c', W.Later u v → rel v x x' → r v c c' → W.Alike v (g x c) (g' x' c') rel)
    {l : List γ} {l' : List γ'} {x : α} {x' : α'} (hu : W.Later u w) (hl : List.Forall₂ (r w) l l')
    (hx : rel w x x') : W.Alike w (l.foldlM g x) (l'.foldlM g' x') rel := by
  induction l generalizing l' w x x' with
  | nil =>
    cases hl
    exact Alike.pure hx
  | cons c l ih =>
    cases hl with
    | cons hc hrest =>
      rw [List.foldlM_cons, List.foldlM_cons]
      refine (hg w x x' c _ hu hx hc).bind fun v y y' hv hy => ?_
      exact ih (W.trans hu hv) (hrest.imp fun _ _ => hmono hv) hy

theorem Alike.map {g : α → β} {g' : α' → β'} (h : W.Alike w a a' rel)
    (hg : ∀ v x x', W.Later w v → rel v x x' → rel' v (g x) (g' x')) :
    W.Alike w (g <$> a) (g' <$> a') rel' := by
  rw [← bind_pure_comp, ← bind_pure_comp]
  exact h.bind fun v x x' hl hr => Alike.pure (hg v x x' hl hr)

end Stopping

section States

variable {relV : S × S' → V → V' → Prop} {a : ExceptT ε (StateT V (StateM S)) α}
  {a' : ExceptT ε (StateT V' (StateM S')) α'} {f : α → ExceptT ε (StateT V (StateM S)) β}
  {f' : α' → ExceptT ε (StateT V' (StateM S')) β'}

theorem Tracks.pure {x : α} {x' : α'} (h : rel w x x') :
    W.Tracks w relV (pure x : ExceptT ε (StateT V (StateM S)) α) (pure x') rel :=
  fun _ _ hs => Agree.pure ⟨h, hs⟩

theorem Tracks.throw (e : ε) :
    W.Tracks w relV (throw e : ExceptT ε (StateT V (StateM S)) α)
      (throw e : ExceptT ε (StateT V' (StateM S')) α') rel :=
  fun _ _ _ => Agree.pure rfl

theorem Tracks.get : W.Tracks w relV (get : ExceptT ε (StateT V (StateM S)) V)
    (get : ExceptT ε (StateT V' (StateM S')) V') relV :=
  fun _ _ hs => Agree.pure ⟨hs, hs⟩

theorem Tracks.set {s : V} {s' : V'} (h : relV w s s') :
    W.Tracks w relV (set s : ExceptT ε (StateT V (StateM S)) PUnit)
      (set s' : ExceptT ε (StateT V' (StateM S')) PUnit) fun _ _ _ => True :=
  fun _ _ _ => Agree.pure ⟨trivial, h⟩

theorem Tracks.modify {g : V → V} {g' : V' → V'} (h : ∀ {s s'}, relV w s s' → relV w (g s) (g' s')) :
    W.Tracks w relV (modify g : ExceptT ε (StateT V (StateM S)) PUnit)
      (modify g' : ExceptT ε (StateT V' (StateM S')) PUnit) fun _ _ _ => True :=
  fun _ _ hs => Agree.pure ⟨trivial, h hs⟩

/-- A computation that leaves states alone, among computations on states. -/
theorem Tracks.keeping (relV : S × S' → V → V' → Prop)
    (hmono : ∀ {w v s s'}, W.Later w v → relV w s s' → relV v s s')
    {b : ExceptT ε (StateM S) α} {b' : ExceptT ε (StateM S') α'} (h : W.Alike w b b' rel) :
    W.Tracks w relV (ExceptT.mk fun s => do return (← b.run, s) : ExceptT ε (StateT V (StateM S)) α)
      (ExceptT.mk fun s => do return (← b'.run, s)) rel := by
  intro s s' hs
  refine Agree.bind h fun v r r' hl hr => Agree.pure ?_
  have hv := hmono hl hs
  rcases r with e | x <;> rcases r' with e' | x'
  · exact hr
  · exact hr.elim
  · exact hr.elim
  · exact ⟨hr, hv⟩

theorem Tracks.bind (h : W.Tracks w relV a a' rel)
    (hf : ∀ v x x', W.Later w v → rel v x x' → W.Tracks v relV (f x) (f' x') rel') :
    W.Tracks w relV (a >>= f) (a' >>= f') rel' := by
  intro s s' hs
  change W.Agree w (a.run.run s >>= fun r => (ExceptT.bindCont f r.1).run r.2)
    (a'.run.run s' >>= fun r => (ExceptT.bindCont f' r.1).run r.2) _
  refine Agree.bind (h s s' hs) fun v r r' hl hr => ?_
  obtain ⟨r, t⟩ := r
  obtain ⟨r', t'⟩ := r'
  rcases r with e | x <;> rcases r' with e' | x'
  · exact Agree.pure hr
  · exact hr.elim
  · exact hr.elim
  · exact hf v x x' hl hr.1 t t' hr.2

end States

end Worlds

/-- A relation of quantities that all their operations preserve. -/
structure Likeness (R S S' T T' : Type) [Scalar R] [Quantity R S T] [Quantity R S' T'] extends
    Worlds S S' where
  Like : S × S' → T → T' → Prop
  mono {w v : S × S'} {x : T} {x' : T'} : Later w v → Like w x x' → Like v x x'
  constant (w : S × S') (c : R) : Like w (Valued.constant c) (Valued.constant c)
  value {w : S × S'} {x : T} {x' : T'} : Like w x x' → (Valued.value x : R) = Valued.value x'
  add {w : S × S'} {x y : T} {x' y' : T'} : Like w x x' → Like w y y' →
    toWorlds.Agree w (Quantity.add x y) (Quantity.add x' y') Like
  sub {w : S × S'} {x y : T} {x' y' : T'} : Like w x x' → Like w y y' →
    toWorlds.Agree w (Quantity.sub x y) (Quantity.sub x' y') Like
  mul {w : S × S'} {x y : T} {x' y' : T'} : Like w x x' → Like w y y' →
    toWorlds.Agree w (Quantity.mul x y) (Quantity.mul x' y') Like
  div {w : S × S'} {x y : T} {x' y' : T'} : Like w x x' → Like w y y' →
    toWorlds.Agree w (Quantity.div x y) (Quantity.div x' y') Like
  pow {w : S × S'} {x y : T} {x' y' : T'} : Like w x x' → Like w y y' →
    toWorlds.Agree w (Quantity.pow x y) (Quantity.pow x' y') Like
  neg {w : S × S'} {x : T} {x' : T'} : Like w x x' →
    toWorlds.Agree w (Quantity.neg x) (Quantity.neg x') Like
  addScalar {w : S × S'} {x : T} {x' : T'} (c : R) : Like w x x' →
    toWorlds.Agree w (Quantity.addScalar x c) (Quantity.addScalar x' c) Like
  subScalar {w : S × S'} {x : T} {x' : T'} (c : R) : Like w x x' →
    toWorlds.Agree w (Quantity.subScalar x c) (Quantity.subScalar x' c) Like
  mulScalar {w : S × S'} {x : T} {x' : T'} (c : R) : Like w x x' →
    toWorlds.Agree w (Quantity.mulScalar x c) (Quantity.mulScalar x' c) Like
  divScalar {w : S × S'} {x : T} {x' : T'} (c : R) : Like w x x' →
    toWorlds.Agree w (Quantity.divScalar x c) (Quantity.divScalar x' c) Like
  exp {w : S × S'} {x : T} {x' : T'} : Like w x x' →
    toWorlds.Agree w (Quantity.exp x) (Quantity.exp x') Like
  log {w : S × S'} {x : T} {x' : T'} : Like w x x' →
    toWorlds.Agree w (Quantity.log x) (Quantity.log x') Like
  sqrt {w : S × S'} {x : T} {x' : T'} : Like w x x' →
    toWorlds.Agree w (Quantity.sqrt x) (Quantity.sqrt x') Like
  abs {w : S × S'} {x : T} {x' : T'} : Like w x x' →
    toWorlds.Agree w (Quantity.abs x) (Quantity.abs x') Like
  lognormalStep {w : S × S'} {x y z : T} {x' y' z' : T'} (c : R) : Like w x x' → Like w y y' →
    Like w z z' →
    toWorlds.Agree w (Quantity.lognormalStep x y z c) (Quantity.lognormalStep x' y' z' c) Like

namespace Likeness

variable {R S S' T T' : Type} [Scalar R] [Quantity R S T] [Quantity R S' T']
  (L : Likeness R S S' T T') {w v : S × S'} {x y : T} {x' y' : T'}

theorem zero (w : S × S') : L.Like w Quantity.zero Quantity.zero := L.constant w 0

theorem one (w : S × S') : L.Like w Quantity.one Quantity.one := L.constant w 1

theorem max (hx : L.Like w x x') (hy : L.Like w y y') :
    L.Like w (Quantity.max x y) (Quantity.max x' y') := by
  simp only [Quantity.max, L.value hx, L.value hy]
  split
  · exact hx
  · exact hy

theorem min (hx : L.Like w x x') (hy : L.Like w y y') :
    L.Like w (Quantity.min x y) (Quantity.min x' y') := by
  simp only [Quantity.min, L.value hx, L.value hy]
  split
  · exact hx
  · exact hy

/-- Lists of the same length, alike place by place. -/
abbrev LikeList (w : S × S') : List T → List T' → Prop := List.Forall₂ (L.Like w)

/-- Tables of `n` places, alike place by place. -/
structure LikeTable (n : Nat) (w : S × S') (xs : Array T) (xs' : Array T') : Prop where
  size_eq : xs.size = n
  toList : L.LikeList w xs.toList xs'.toList

variable {L} {n : Nat} {xs : Array T} {xs' : Array T'}

theorem LikeList.mono {l : List T} {l' : List T'} (h : L.LikeList w l l') (hl : L.Later w v) :
    L.LikeList v l l' := h.imp fun _ _ => L.mono hl

theorem likeList_replicate (n : Nat) (hx : L.Like w x x') :
    L.LikeList w (List.replicate n x) (List.replicate n x') := by
  induction n with
  | zero => exact List.Forall₂.nil
  | succ n ih => exact List.Forall₂.cons hx ih

namespace LikeTable

theorem mono (h : L.LikeTable n w xs xs') (hl : L.Later w v) : L.LikeTable n v xs xs' :=
  ⟨h.size_eq, h.toList.mono hl⟩

theorem size_right (h : L.LikeTable n w xs xs') : xs'.size = n := h.toList.length_eq.symm.trans h.size_eq

theorem replicate (n : Nat) (hx : L.Like w x x') :
    L.LikeTable n w (Array.replicate n x) (Array.replicate n x') :=
  ⟨Array.size_replicate, by simpa using likeList_replicate n hx⟩

theorem getElem? (h : L.LikeTable n w xs xs') (i : Nat) : Option.Rel (L.Like w) xs[i]? xs'[i]? :=
  rel_getElem? h.toList i

theorem set (h : L.LikeTable n w xs xs') (hx : L.Like w x x') (i : Nat) :
    L.LikeTable n w (xs.setIfInBounds i x) (xs'.setIfInBounds i x') := by
  refine ⟨by rw [Array.size_setIfInBounds, h.size_eq], ?_⟩
  have hlist := h.toList
  rw [Array.toList_setIfInBounds, Array.toList_setIfInBounds]
  generalize xs.toList = l at hlist
  generalize xs'.toList = l' at hlist
  induction hlist generalizing i with
  | nil => exact List.Forall₂.nil
  | cons hy hrest ih =>
    cases i with
    | zero => exact List.Forall₂.cons hx hrest
    | succ i => exact List.Forall₂.cons hy (ih i)

end LikeTable

end Likeness

end PayoffPricing
