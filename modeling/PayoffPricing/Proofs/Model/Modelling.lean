import Mathlib.Data.List.Forall2
import PayoffPricing.Model.Error
/-!
Steps of a model that go through from every record.
-/

namespace PayoffPricing.Modelling

variable {R S α β γ : Type}

theorem record_bind (a : StateM S α) (f : α → StateM S β) :
    (record (a >>= f) : Modelling R S β) = record a >>= fun x => record (f x) := rfl

theorem record_pure (x : α) : (record (pure x) : Modelling R S α) = pure x := rfl

theorem read_some (x : α) : (read (some x) : Modelling R S α) = pure x := rfl

/-- Plain scalars leave no trace. -/
theorem exists_eq_pure (a : StateM Unit α) : ∃ x, a = pure x := ⟨(a ()).1, rfl⟩

theorem eq_pure_of_run {a : Modelling R Unit α} {x : α} {t : Unit} (h : a.run.run () = (.ok x, t)) : a = pure x :=
  funext fun _ => h

/-- A step that goes through recorded what its parts do. -/
theorem exists_of_bind_ok {a : Modelling R S α} {f : α → Modelling R S β} {y : β} {s t : S}
    (h : (a >>= f).run.run s = (.ok y, t)) :
    ∃ x u, a.run.run s = (.ok x, u) ∧ (f x).run.run u = (.ok y, t) := by
  change (ExceptT.bindCont f (a.run.run s).1).run (a.run.run s).2 = _ at h
  generalize a.run.run s = r at h
  obtain ⟨_ | x, u⟩ := r
  · cases h
  · exact ⟨x, u, rfl, h⟩

theorem forall₂_of_mapM_ok {f : γ → Modelling R S α} {l : List γ} {xs : List α} {s t : S}
    (h : (l.mapM f).run.run s = (.ok xs, t)) :
    List.Forall₂ (fun c x => ∃ s t, (f c).run.run s = (.ok x, t)) l xs := by
  induction l generalizing xs s with
  | nil =>
    cases h
    exact List.Forall₂.nil
  | cons c l ih =>
    rw [List.mapM_cons] at h
    obtain ⟨x, u, hx, h⟩ := exists_of_bind_ok h
    obtain ⟨ys, v, hys, h⟩ := exists_of_bind_ok h
    cases h
    exact List.Forall₂.cons ⟨s, u, hx⟩ (ih hys)

theorem length_of_mapM (f : γ → StateM S α) (l : List γ) (s : S) : ((l.mapM f).run s).1.length = l.length := by
  induction l generalizing s with
  | nil => rfl
  | cons c l ih =>
    rw [List.mapM_cons]
    exact congrArg (· + 1) (ih _)

/-- The step ends with a result that satisfies `P`, whatever was recorded before. -/
def Gives (a : Modelling R S α) (P : α → Prop) : Prop := ∀ s, ∃ x t, a.run.run s = (.ok x, t) ∧ P x

variable {P : α → Prop} {Q : β → Prop} {a : Modelling R S α}

theorem Gives.imp {P' : α → Prop} (h : Gives a P) (hp : ∀ x, P x → P' x) : Gives a P' := by
  intro s
  obtain ⟨x, t, hrun, hx⟩ := h s
  exact ⟨x, t, hrun, hp x hx⟩

theorem Gives.of_ok (h : Gives a P) {x : α} {s t : S} (hrun : a.run.run s = (.ok x, t)) : P x := by
  obtain ⟨y, u, hy, hP⟩ := h s
  rw [hrun] at hy
  cases hy
  exact hP

theorem gives_pure {x : α} (h : P x) : Gives (pure x : Modelling R S α) P := fun s => ⟨x, s, rfl, h⟩

theorem Gives.bind {f : α → Modelling R S β} (h : Gives a P) (hf : ∀ x, P x → Gives (f x) Q) :
    Gives (a >>= f) Q := by
  intro s
  obtain ⟨x, t, hrun, hx⟩ := h s
  obtain ⟨y, u, hnext, hy⟩ := hf x hx t
  refine ⟨y, u, ?_, hy⟩
  change (ExceptT.bindCont f (a.run.run s).1).run (a.run.run s).2 = _
  rw [hrun]
  exact hnext

theorem gives_record {action : StateM S α} (h : ∀ s, P (action.run s).1) :
    Gives (record action : Modelling R S α) P := fun s => ⟨_, _, rfl, h s⟩

theorem gives_read {o : Option α} {x : α} (ho : o = some x) (h : P x) : Gives (read o : Modelling R S α) P := by
  rw [ho]
  exact gives_pure h

theorem gives_mapM {f : γ → Modelling R S α} {rel : γ → α → Prop} {l : List γ} (h : ∀ c ∈ l, Gives (f c) (rel c)) :
    Gives (l.mapM f) (List.Forall₂ rel l) := by
  induction l with
  | nil => exact gives_pure List.Forall₂.nil
  | cons c l ih =>
    rw [List.mapM_cons]
    apply (h c List.mem_cons_self).bind
    intro x hx
    apply (ih fun d hd => h d (List.mem_cons_of_mem c hd)).bind
    intro xs hxs
    exact gives_pure (List.Forall₂.cons hx hxs)

theorem gives_foldlM {f : α → γ → Modelling R S α} {l : List γ} (h : ∀ c ∈ l, ∀ x, P x → Gives (f x c) P) {x : α}
    (hx : P x) : Gives (l.foldlM f x) P := by
  induction l generalizing x with
  | nil => exact gives_pure hx
  | cons c l ih =>
    rw [List.foldlM_cons]
    apply (h c List.mem_cons_self x hx).bind
    intro y hy
    exact ih (fun d hd => h d (List.mem_cons_of_mem c hd)) hy

/-- From every record, the step ends with a result that satisfies `P` where `c` holds, and out of range where not. -/
def Ends (c : Prop) (a : Modelling R S α) (P : α → Prop) : Prop :=
  ∀ s, (c ∧ ∃ x t, a.run.run s = (.ok x, t) ∧ P x) ∨ (¬ c ∧ ∃ t, a.run.run s = (.error (.misuse .outOfRange), t))

variable {c d : Prop}

theorem Ends.congr (h : Ends c a P) (hcd : c ↔ d) : Ends d a P := by
  rwa [← hcd]

theorem Ends.refine (h : Ends c a P) {P' : α → Prop} (hp : ∀ s x t, a.run.run s = (.ok x, t) → P x → P' x) :
    Ends c a P' := by
  intro s
  obtain ⟨hc, x, t, hrun, hx⟩ | hout := h s
  · exact .inl ⟨hc, x, t, hrun, hp s x t hrun hx⟩
  · exact .inr hout

theorem Gives.ends (h : Gives a P) : Ends True a P := fun s => .inl ⟨trivial, h s⟩

theorem Ends.gives (h : Ends c a P) (hc : c) : Gives a P := by
  intro s
  obtain ⟨-, hok⟩ | ⟨hnot, -⟩ := h s
  · exact hok
  · exact absurd hc hnot

theorem ends_throw : Ends False (throw (.misuse .outOfRange) : Modelling R S α) P := fun s => .inr ⟨id, s, rfl⟩

theorem Ends.bind {f : α → Modelling R S β} (h : Ends c a P) (hf : ∀ x, P x → Ends d (f x) Q) :
    Ends (c ∧ d) (a >>= f) Q := by
  intro s
  have hbind : (a >>= f).run.run s = (ExceptT.bindCont f (a.run.run s).1).run (a.run.run s).2 := rfl
  rw [hbind]
  obtain ⟨hc, x, t, hrun, hx⟩ | ⟨hc, t, hrun⟩ := h s
  · rw [hrun]
    obtain ⟨hd, hok⟩ | ⟨hd, hout⟩ := hf x hx t
    · exact .inl ⟨⟨hc, hd⟩, hok⟩
    · exact .inr ⟨fun h => hd h.2, hout⟩
  · rw [hrun]
    exact .inr ⟨fun h => hc h.1, t, rfl⟩

theorem Gives.bind_ends {f : α → Modelling R S β} (h : Gives a P) (hf : ∀ x, P x → Ends d (f x) Q) :
    Ends d (a >>= f) Q := (h.ends.bind hf).congr (iff_of_eq (true_and d))

theorem Ends.bind_gives {f : α → Modelling R S β} (h : Ends c a P) (hf : ∀ x, P x → Gives (f x) Q) :
    Ends c (a >>= f) Q := (h.bind fun x hx => (hf x hx).ends).congr (iff_of_eq (and_true c))

/-- A loop over places goes through where all of its rounds do. -/
theorem ends_foldlM_range' {f : α → Nat → Modelling R S α} {c : Nat → Prop} {P : Nat → α → Prop} {k n : Nat}
    (h : ∀ i, k ≤ i → i < k + n → ∀ x, P i x → Ends (c i) (f x i) (P (i + 1))) {x : α} (hx : P k x) :
    Ends (∀ i, k ≤ i → i < k + n → c i) ((List.range' k n).foldlM f x) (P (k + n)) := by
  induction n generalizing k x with
  | zero =>
    apply (gives_pure hx).ends.congr
    constructor
    · intro _ i hle hlt
      omega
    · intro _
      trivial
  | succ n ih =>
    rw [List.range'_succ, List.foldlM_cons]
    have hfirst := h k (Nat.le_refl k) (by omega) x hx
    have hrest (y : α) (hy : P (k + 1) y) := ih (fun i hle hlt => h i (by omega) (by omega)) hy
    have hplaces : k + 1 + n = k + (n + 1) := by omega
    rw [hplaces] at hrest
    apply (hfirst.bind hrest).congr
    constructor
    · rintro ⟨hk, hlater⟩ i hle hlt
      by_cases hik : i = k
      · exact hik ▸ hk
      · exact hlater i (by omega) hlt
    · intro hall
      exact ⟨hall k (Nat.le_refl k) (by omega), fun i hle hlt => hall i (by omega) hlt⟩

end PayoffPricing.Modelling
