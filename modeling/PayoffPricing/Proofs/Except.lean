import Mathlib.Data.List.Forall2
/-!
Computations that may stop, over the elements of a list.
-/

namespace PayoffPricing

variable {α β ε : Type}

theorem bind_eq_ok_iff {x : Except ε α} {f : α → Except ε β} {b : β} :
    x >>= f = .ok b ↔ ∃ a, x = .ok a ∧ f a = .ok b := by
  cases x <;> simp [bind, Except.bind]

/-- A check that stops a computation. -/
theorem check_eq_ok_iff {c : Prop} [Decidable c] {e : ε} {rest : Unit → Except ε α} {a : α} :
    (if c then (throw e : Except ε Unit) >>= rest else rest ()) = .ok a ↔ ¬c ∧ rest () = .ok a := by
  by_cases h : c <;> simp [h, throw, throwThe, MonadExceptOf.throw, bind, Except.bind]

instance decidableForallOk {x : Except ε α} {p : α → Prop} [DecidablePred p] : Decidable (∀ a, x = .ok a → p a) :=
  match x with
  | .error _ => .isTrue fun _ h => by contradiction
  | .ok a => decidable_of_iff (p a) ⟨fun h _ ha => Except.ok.inj ha ▸ h, fun h => h a rfl⟩

theorem mapError_eq_ok_iff {δ : Type} {x : Except ε α} {f : ε → δ} {a : α} : x.mapError f = .ok a ↔ x = .ok a := by
  cases x <;> simp [Except.mapError]

/-- Two computations that are one after a map end in one error, or in results that the map identifies. -/
theorem alike_of_map_eq {x y : Except ε α} {f : α → β} (h : f <$> x = f <$> y) :
    (∃ e, x = .error e ∧ y = .error e) ∨ ∃ a b, x = .ok a ∧ y = .ok b ∧ f a = f b := by
  cases x with
  | error e =>
    cases y with
    | error d => exact .inl ⟨e, rfl, by rw [Except.error.inj h]⟩
    | ok b => cases h
  | ok a =>
    cases y with
    | error d => cases h
    | ok b => exact .inr ⟨a, b, rfl, rfl, Except.ok.inj h⟩

theorem exists_of_toOption_map {x : Except ε α} {f : α → β} {b : β} (h : x.toOption.map f = some b) :
    ∃ a, x = .ok a ∧ f a = b := by
  cases x with
  | error e => contradiction
  | ok a => exact ⟨a, rfl, Option.some.inj h⟩

theorem mapM_eq_ok_iff {f : α → Except ε β} {l : List α} {m : List β} :
    l.mapM f = .ok m ↔ List.Forall₂ (fun a b => f a = .ok b) l m := by
  induction l generalizing m with
  | nil => simp [pure, Except.pure, eq_comm]
  | cons a l ih =>
    rw [List.mapM_cons, List.forall₂_cons_left_iff]
    cases ha : f a with
    | error e => simp [bind, Except.bind]
    | ok b =>
      cases hl : l.mapM f with
      | error e =>
        simp only [hl, reduceCtorEq, false_iff] at ih
        simp [bind, Except.bind, ih]
      | ok rest => simp [bind, Except.bind, pure, Except.pure, ← ih, hl, eq_comm]

theorem mapM_map_eq (f : α → Except ε β) {γ : Type} (g : β → γ) (l : List α) :
    (l.mapM fun a => (f a).map g) = (l.mapM f).map fun m => m.map g := by
  induction l with
  | nil => rfl
  | cons a l ih =>
    rw [List.mapM_cons, List.mapM_cons, ih]
    cases f a with
    | error e => rfl
    | ok b => cases l.mapM f <;> rfl

theorem exists_right_of_forall₂ {r : α → β → Prop} {l : List α} {m : List β}
    (h : List.Forall₂ r l m) {a : α} (ha : a ∈ l) : ∃ b ∈ m, r a b := by
  induction h with
  | nil => simp at ha
  | cons hab _ ih =>
    rcases List.mem_cons.1 ha with rfl | ha
    · exact ⟨_, List.mem_cons_self, hab⟩
    · obtain ⟨b, hb, hr⟩ := ih ha
      exact ⟨b, List.mem_cons_of_mem _ hb, hr⟩

theorem exists_left_of_forall₂ {r : α → β → Prop} {l : List α} {m : List β}
    (h : List.Forall₂ r l m) {b : β} (hb : b ∈ m) : ∃ a ∈ l, r a b :=
  exists_right_of_forall₂ h.flip hb

/-- Steps on a state in their order, up to the first one that stops. -/
theorem run_run_bind {S V : Type} (x : ExceptT ε (StateT V (StateM S)) α)
    (f : α → ExceptT ε (StateT V (StateM S)) β) (v : V) :
    (x >>= f).run.run v = (do
      match ← x.run.run v with
      | (.ok a, v) => (f a).run.run v
      | (.error e, v) => return (.error e, v)) := by
  funext t
  change ExceptT.bindCont f (x.run.run v t).1.1 (x.run.run v t).1.2 (x.run.run v t).2 = _
  rcases h : x.run.run v t with ⟨⟨_ | _, _⟩, _⟩ <;> simp [bind, StateT.bind, h] <;> rfl

end PayoffPricing
