import PayoffPricing.Proofs.Script.Branching
import PayoffPricing.Proofs.Script.Everywhere
/-!
Frames of smoothed evaluation. A statement is confined to some slots when it writes no others and every conditional
statement in it notes all that its branches write. Analysis keeps statements confined. Whatever a confined statement
finds at the levels of nesting, and however its run ends, it changes no slot that it is not confined to.
-/

namespace PayoffPricing.Script

namespace Statement

variable {R : Type} {slots more : List Nat}

mutual

/-- The statement writes no other slots than these, and its conditional statements note all that they write. -/
def Confined (slots : List Nat) : Statement R → Prop
  | assign v _ => v.slot ∈ slots
  | pays v _ => v.slot ∈ slots
  | branch _ body otherwise affected =>
    (∀ i ∈ affected, i ∈ slots) ∧ ConfinedBlock affected body ∧ ConfinedBlock affected otherwise
  | sequence body => ConfinedBlock slots body

def ConfinedBlock (slots : List Nat) : List (Statement R) → Prop
  | [] => True
  | s :: rest => s.Confined slots ∧ ConfinedBlock slots rest

end

mutual

theorem Confined.mono (hm : ∀ i ∈ slots, i ∈ more) : (s : Statement R) → s.Confined slots → s.Confined more
  | assign v _, h => hm v.slot h
  | pays v _, h => hm v.slot h
  | branch _ _ _ _, h => ⟨fun i hi => hm i (h.1 i hi), h.2⟩
  | sequence body, h => ConfinedBlock.mono hm body h

theorem ConfinedBlock.mono (hm : ∀ i ∈ slots, i ∈ more) :
    (body : List (Statement R)) → ConfinedBlock slots body → ConfinedBlock more body
  | [], _ => trivial
  | s :: rest, h => ⟨Confined.mono hm s h.1, ConfinedBlock.mono hm rest h.2⟩

end

mutual

theorem confined_markAffected : (s : Statement R) → {slots : List Nat} → (∀ i ∈ s.writes, i ∈ slots) →
    s.markAffected.Confined slots
  | assign v _, _, h => h v.slot (List.mem_singleton_self _)
  | pays v _, _, h => h v.slot (List.mem_singleton_self _)
  | branch _ body otherwise _, _, h => by
    refine ⟨fun i hi => h i (mem_slotSet.1 hi), ?_, ?_⟩
    · exact confinedBlock_markAffectedBlock body fun i hi => mem_slotSet.2 (List.mem_append_left _ hi)
    · exact confinedBlock_markAffectedBlock otherwise fun i hi => mem_slotSet.2 (List.mem_append_right _ hi)
  | sequence body, _, h => confinedBlock_markAffectedBlock body h

theorem confinedBlock_markAffectedBlock : (body : List (Statement R)) → {slots : List Nat} →
    (∀ i ∈ blockWrites body, i ∈ slots) → ConfinedBlock slots (markAffectedBlock body)
  | [], _, _ => trivial
  | s :: rest, _, h => ⟨confined_markAffected s fun i hi => h i (List.mem_append_left _ hi),
      confinedBlock_markAffectedBlock rest fun i hi => h i (List.mem_append_right _ hi)⟩

end

mutual

theorem confined_bare : (s : Statement R) → {slots : List Nat} → (s.bare.Confined slots ↔ s.Confined slots)
  | assign _ _, _ => Iff.rfl
  | pays _ _, _ => Iff.rfl
  | branch _ body otherwise _, _ =>
    and_congr_right fun _ => and_congr (confinedBlock_bareBlock body) (confinedBlock_bareBlock otherwise)
  | sequence body, _ => confinedBlock_bareBlock body

theorem confinedBlock_bareBlock : (body : List (Statement R)) → {slots : List Nat} →
    (ConfinedBlock slots (bareBlock body) ↔ ConfinedBlock slots body)
  | [], _ => Iff.rfl
  | s :: rest, _ => and_congr (confined_bare s) (confinedBlock_bareBlock rest)

end

mutual

theorem confined_collapse : (s : Statement R) → {slots : List Nat} → s.Confined slots → s.collapse.1.Confined slots
  | assign _ _, _, h => h
  | pays _ _, _, h => h
  | branch c body otherwise affected, slots, h => by
    have hbody := confinedBlock_collapseBlock body h.2.1
    have hother := confinedBlock_collapseBlock otherwise h.2.2
    simp only [collapse]
    split
    · exact hbody.mono h.1
    · exact hother.mono h.1
    · exact ⟨h.1, hbody, hother⟩
  | sequence body, _, h => confinedBlock_collapseBlock body h

theorem confinedBlock_collapseBlock : (body : List (Statement R)) → {slots : List Nat} → ConfinedBlock slots body →
    ConfinedBlock slots (collapseBlock body).1
  | [], _, _ => trivial
  | s :: rest, _, h => ⟨confined_collapse s h.1, confinedBlock_collapseBlock rest h.2⟩

end

section Infer

variable [Scalar R] {fuzzy : Bool}

mutual

theorem confined_rebuilt : {s s' : Statement R} → {slots : List Nat} → Rebuilt fuzzy s s' → s.Confined slots →
    s'.Confined slots
  | _, _, _, .same _, h => h
  | _, _, _, .branch _ _ _ hbody hother, ⟨hn, hb, ho⟩ =>
    ⟨hn, confinedBlock_rebuilt hbody hb, confinedBlock_rebuilt hother ho⟩
  | _, _, _, .sequence hbody, h => confinedBlock_rebuilt hbody h

theorem confinedBlock_rebuilt : {body body' : List (Statement R)} → {slots : List Nat} →
    RebuiltBlock fuzzy body body' → ConfinedBlock slots body → ConfinedBlock slots body'
  | _, _, _, .same _, h => h
  | _, _, _, .cons hs hr, h => ⟨confined_rebuilt hs h.1, confinedBlock_rebuilt hr h.2⟩

end

end Infer

end Statement

open Statement

variable {R S T V α β : Type} {slots : List Nat}

namespace Variables

/-- The step changes no other slots than these. -/
def Keeps (slots : List Nat) (step : Variables T → Evaluation R S (Variables T)) : Prop :=
  ∀ (values after : Variables T) (r r' : S), (step values).exec r = (.ok after, r') →
    Variables.SameOff slots after values

variable {slot : Nat}

theorem keeps_store (hslot : slot ∈ slots) (x : T) :
    Keeps slots fun values => (values.store slot x : Evaluation R S _) :=
  fun _ _ _ _ hrun => (exec_store_eq_ok hrun).mono fun _ hi => List.mem_singleton.1 hi ▸ hslot

theorem keeps_bind {compute : Variables T → Evaluation R S α} {step : α → Variables T → Evaluation R S (Variables T)}
    (h : ∀ a, Keeps slots (step a)) : Keeps slots fun values => compute values >>= fun a => step a values := by
  intro values after r r' hrun
  simp only [Evaluation.exec_bind] at hrun
  split at hrun
  · exact h _ _ _ _ _ hrun
  · cases hrun

theorem keeps_foldlM {entries : List β} {step : Variables T → β → Evaluation R S (Variables T)}
    (h : ∀ e ∈ entries, Keeps slots fun values => step values e) :
    Keeps slots fun values => entries.foldlM step values := by
  induction entries with
  | nil =>
    intro values after r r' hrun
    cases hrun
    exact .refl _ _
  | cons e entries ih =>
    rw [List.forall_mem_cons] at h
    intro values after r r' hrun
    simp only [List.foldlM_cons, Evaluation.exec_bind] at hrun
    split at hrun
    · rename_i hfirst
      exact (ih h.2 _ _ _ _ hrun).trans (h.1 _ _ _ _ hfirst)
    · cases hrun

theorem keeps_storeAll (hslots : ∀ i ∈ slots, i ∈ more) (xs : List T) :
    Keeps more fun values => (values.storeAll (slots.zip xs) : Evaluation R S _) :=
  keeps_foldlM fun e he => keeps_store (hslots e.1 (List.of_mem_zip he).1) e.2

end Variables

namespace Process

/-- Wherever the process starts and however it ends, the variables in view are the same but for these slots. -/
def Touches (view : V → Variables T) (slots : List Nat) (process : Process R S V α) : Prop :=
  ∀ v r, Variables.SameOff slots (view (process.exec v r).1.2) (view v)

variable {view : V → Variables T}

theorem touches_of_eq {process : Process R S V α} (h : ∀ v r, view (process.exec v r).1.2 = view v) :
    Touches view slots process := by
  intro v r
  rw [h]
  exact .refl _ _

theorem Touches.bind {process : Process R S V α} {next : α → Process R S V β} (h : Touches view slots process)
    (hn : ∀ a, Touches view slots (next a)) : Touches view slots (process >>= next) := by
  intro v r
  have hfirst := h v r
  rw [exec_bind]
  generalize process.exec v r = result at hfirst ⊢
  obtain ⟨⟨_ | a, w⟩, r'⟩ := result
  · exact hfirst
  · exact (hn a w r').trans hfirst

theorem touches_pure (a : α) : Touches view slots (pure a : Process R S V α) := touches_of_eq fun _ _ => rfl

theorem touches_get : Touches view slots (get : Process R S V V) := touches_of_eq fun _ _ => rfl

theorem touches_ofEvaluation (action : Evaluation R S α) :
    Touches view slots (ofEvaluation action : Process R S V α) := touches_of_eq fun _ _ => rfl

end Process

open Process

namespace Fuzzy

theorem touches_onVariables {step : Variables T → Evaluation R S (Variables T)} (h : Variables.Keeps slots step) :
    Touches State.values slots (onVariables step) := by
  intro s r
  simp only [onVariables, exec_bind, exec_get, exec_ofEvaluation, exec_set]
  generalize hstep : (step s.values).exec r = result
  obtain ⟨_ | values, r₁⟩ := result
  · exact .refl _ _
  · exact h _ _ _ _ hstep

variable [Scalar R] [Quantity R S T] {width : R} {sample : Sample T} {affected : List Nat}

theorem keeps_blend (haffected : ∀ i ∈ affected, i ∈ slots) (d : T) (after : List T) :
    Variables.Keeps slots fun values => (blend d affected after values : Evaluation R S _) := by
  apply Variables.keeps_bind
  intro rest
  apply Variables.keeps_foldlM
  rintro ⟨slot, x⟩ he
  refine Variables.keeps_bind fun first => Variables.keeps_bind fun held => ?_
  refine Variables.keeps_bind fun second => Variables.keeps_bind fun sum => ?_
  exact Variables.keeps_store (haffected slot (List.of_mem_zip he).1) sum

theorem keeps_pay {slot : Nat} (hslot : slot ∈ slots) (paid numeraire : T) :
    Variables.Keeps slots fun values => (values.pay slot paid numeraire : Evaluation R S _) := by
  refine Variables.keeps_bind fun old => Variables.keeps_bind fun payment => ?_
  exact Variables.keeps_bind fun sum => Variables.keeps_store hslot sum

mutual

/-- A run of a confined statement changes no slot that it is not confined to. -/
theorem touches_run : (s : Statement R) → {slots : List Nat} → s.Confined slots →
    Touches State.values slots (run width sample s : Process R S (State T) Unit)
  | .assign v e, _, h => by
    simp only [run]
    apply touches_onVariables
    exact Variables.keeps_bind fun x => Variables.keeps_store h x
  | .pays v e, _, h => by
    simp only [run]
    apply touches_onVariables
    exact Variables.keeps_bind fun paid => keeps_pay h paid sample.numeraire
  | .branch c body otherwise affected, slots, h => by
    have hbody : Touches State.values slots (runBlock width sample body : Process R S (State T) Unit) :=
      touches_runBlock body (h.2.1.mono h.1)
    have hother : Touches State.values slots (runBlock width sample otherwise : Process R S (State T) Unit) :=
      touches_runBlock otherwise (h.2.2.mono h.1)
    simp only [run]
    refine touches_get.bind fun _ => (touches_ofEvaluation _).bind fun d => ?_
    split
    · exact hbody
    split
    · exact hother
    -- Both branches, what is put back between them and what is blended after them change noted slots only.
    have henter : Touches State.values slots (enter : Process R S (State T) Nat) := touches_of_eq fun _ _ => rfl
    refine henter.bind fun level => touches_get.bind fun _ => (touches_ofEvaluation _).bind fun before => ?_
    refine hbody.bind fun _ => touches_get.bind fun _ => (touches_ofEvaluation _).bind fun after => ?_
    refine (touches_onVariables (Variables.keeps_storeAll h.1 before)).bind fun _ => ?_
    refine hother.bind fun _ => (touches_onVariables (keeps_blend h.1 d after)).bind fun _ => ?_
    exact touches_of_eq fun _ _ => rfl
  | .sequence body, _, h => by
    simp only [run]
    exact touches_runBlock body h

theorem touches_runBlock : (body : List (Statement R)) → {slots : List Nat} → ConfinedBlock slots body →
    Touches State.values slots (runBlock width sample body : Process R S (State T) Unit)
  | [], _, _ => by
    simp only [runBlock]
    exact touches_pure ()
  | s :: rest, _, h => by
    simp only [runBlock]
    exact (touches_run s h.1).bind fun _ => touches_runBlock rest h.2

end

theorem keeps_runBlock (body : List (Statement R)) {slots : List Nat} (h : ConfinedBlock slots body) (s s' : State T)
    (r r' : S) (a : Unit) (hrun : (runBlock width sample body).exec s r = ((.ok a, s'), r')) :
    Variables.SameOff slots s'.values s.values := by
  have htouches : Variables.SameOff slots ((runBlock width sample body).exec s r).1.2.values s.values :=
    touches_runBlock body h s r
  rwa [hrun] at htouches

end Fuzzy

end PayoffPricing.Script
