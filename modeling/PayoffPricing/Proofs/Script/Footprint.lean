import PayoffPricing.Proofs.Script.Frames
import PayoffPricing.Proofs.Script.MachineAgreement
/-!
Footprints. However a run of a statement ends, and whether it is exact, smoothed, compiled or one on domains, it leaves
alone all slots that the statement is not confined to.
-/

namespace PayoffPricing.Script

variable {R S T β : Type} {slots : List Nat}

namespace Process

/-- A value that is computed from the variables, and a change of the variables by it. -/
theorem touches_write {compute : Variables T → Evaluation R S β}
    {change : β → Variables T → Evaluation R S (Variables T)} (h : ∀ x, Variables.Keeps slots (change x)) :
    Touches id slots (do
      let values ← get
      let x ← ofEvaluation (compute values)
      set (← ofEvaluation (change x values)) : Process R S (Variables T) Unit) := by
  intro values r
  simp only [exec_bind, exec_get, exec_ofEvaluation]
  generalize (compute values).exec r = computed
  obtain ⟨_ | x, r₁⟩ := computed
  · exact .refl _ _
  · simp only
    generalize hchange : (change x values).exec r₁ = changed
    obtain ⟨_ | after, r₂⟩ := changed
    · exact .refl _ _
    · exact h x _ _ _ _ hchange

end Process

open Process

section Runs

variable [Scalar R] [Quantity R S T] {sample : Sample T}

namespace Statement

mutual

theorem touches_run : (s : Statement R) → {slots : List Nat} → s.Confined slots →
    Touches id slots (run sample s : Process R S (Variables T) Unit)
  | assign v e, _, h => by
    simp only [run]
    exact touches_write fun x => Variables.keeps_store h x
  | pays v e, _, h => by
    simp only [run]
    exact touches_write fun paid => Fuzzy.keeps_pay h paid sample.numeraire
  | branch c body otherwise affected, slots, h => by
    simp only [run]
    refine touches_get.bind fun values => (touches_ofEvaluation _).bind fun holds => ?_
    split
    · exact touches_runBlock body (h.2.1.mono h.1)
    · exact touches_runBlock otherwise (h.2.2.mono h.1)
  | sequence body, _, h => by
    simp only [run]
    exact touches_runBlock body h

theorem touches_runBlock : (body : List (Statement R)) → {slots : List Nat} → ConfinedBlock slots body →
    Touches id slots (runBlock sample body : Process R S (Variables T) Unit)
  | [], _, _ => by
    simp only [runBlock]
    exact touches_pure ()
  | s :: rest, _, h => by
    simp only [runBlock]
    exact (touches_run s h.1).bind fun _ => touches_runBlock rest h.2

end

end Statement

/-- Bytecode touches what the event touches that it was compiled from. -/
theorem Machine.touches_run [FaithfulScalar R] [FaithfulQuantity R S T] {event : Event R}
    (harities : Statement.blockHasArities event = true) (h : Statement.ConfinedBlock slots event) :
    Touches Machine.values slots (run (Program.ofEvent event) sample : Process R S (Machine T) Unit) := by
  intro m r
  have hvalues : ((run (Program.ofEvent event) sample).exec m r).1.2.values =
      ((Statement.runBlock sample event : Process R S (Variables T) Unit).exec m.values r).1.2 :=
    congrArg (fun ending => ending.1.2) (ending_run harities m r)
  rw [hvalues]
  exact Statement.touches_runBlock event h m.values r

end Runs

namespace Domains

variable {σ : Type}

/-- Wherever the step starts, it leaves the domains of all slots but these alone. -/
def Touches (slots : List Nat) (step : StateM (Domains R) σ) : Prop :=
  ∀ domains, Variables.SameOff slots (step domains).2 domains

theorem Touches.bind {step : StateM (Domains R) σ} {next : σ → StateM (Domains R) β} (h : Touches slots step)
    (hn : ∀ a, Touches slots (next a)) : Touches slots (step >>= next) := fun domains =>
  (hn _ _).trans (h domains)

theorem touches_pure (a : σ) : Touches slots (pure a : StateM (Domains R) σ) := fun _ => .refl _ _

theorem touches_get : Touches slots (get : StateM (Domains R) (Domains R)) := fun _ => .refl _ _

theorem touches_store {slot : Nat} (hslot : slot ∈ slots) (d : Domain R) : Touches slots (store slot d) := by
  intro domains
  rw [store]
  split
  · exact (Variables.sameOff_set domains slot d).mono fun _ hi => List.mem_singleton.1 hi ▸ hslot
  · exact .refl _ _

theorem sameOff_storeAll (entries : List (Nat × Domain R)) (domains : Domains R) :
    Variables.SameOff (entries.map Prod.fst) (storeAll entries domains) domains := by
  induction entries generalizing domains with
  | nil => exact .refl _ _
  | cons e entries ih =>
    have hfirst : Variables.SameOff ((e :: entries).map Prod.fst) (domains.setIfInBounds e.1 e.2) domains := by
      refine (Variables.sameOff_set domains e.1 e.2).mono fun i hi => ?_
      rw [List.mem_singleton.1 hi]
      exact List.mem_cons_self
    exact ((ih _).mono fun i hi => List.mem_cons_of_mem _ hi).trans hfirst

theorem touches_storeAll {affected : List Nat} (h : ∀ i ∈ affected, i ∈ slots) (ds : List (Domain R)) :
    Touches slots (modify (storeAll (affected.zip ds)) : StateM (Domains R) PUnit) := by
  intro domains
  refine (sameOff_storeAll (affected.zip ds) domains).mono fun i hi => ?_
  obtain ⟨e, he, rfl⟩ := List.mem_map.1 hi
  exact h e.1 (List.of_mem_zip he).1

end Domains

namespace Statement

open Domains

variable [Scalar R] {fuzzy : Bool}

mutual

theorem touches_infer : (s : Statement R) → {slots : List Nat} → s.Confined slots →
    Domains.Touches slots (s.infer fuzzy)
  | assign v e, _, h => by
    simp only [infer]
    refine Domains.touches_get.bind fun domains => ?_
    split
    · exact Domains.touches_pure _
    · exact (touches_store h _).bind fun _ => Domains.touches_pure _
  | pays v e, _, h => by
    simp only [infer]
    refine Domains.touches_get.bind fun domains => ?_
    split
    · exact Domains.touches_pure _
    · exact (touches_store h _).bind fun _ => Domains.touches_pure _
  | branch c body otherwise affected, slots, h => by
    have hbody : Domains.Touches slots (inferBlock fuzzy body) := touches_inferBlock body (h.2.1.mono h.1)
    have hother : Domains.Touches slots (inferBlock fuzzy otherwise) := touches_inferBlock otherwise (h.2.2.mono h.1)
    simp only [infer]
    refine Domains.touches_get.bind fun domains => ?_
    split
    · exact Domains.touches_pure _
    split
    · exact hbody.bind fun _ => Domains.touches_pure _
    · exact hother.bind fun _ => Domains.touches_pure _
    refine Domains.touches_get.bind fun _ => ?_
    split
    · exact Domains.touches_pure _
    refine hbody.bind fun _ => ?_
    split
    · exact Domains.touches_pure _
    refine Domains.touches_get.bind fun _ => ?_
    split
    · exact Domains.touches_pure _
    refine (touches_storeAll h.1 _).bind fun _ => hother.bind fun _ => ?_
    split
    · exact Domains.touches_pure _
    refine Domains.touches_get.bind fun _ => ?_
    split
    · exact Domains.touches_pure _
    · exact (touches_storeAll h.1 _).bind fun _ => Domains.touches_pure _
  | sequence body, _, h => by
    simp only [infer]
    exact (touches_inferBlock body h).bind fun _ => Domains.touches_pure _

theorem touches_inferBlock : (body : List (Statement R)) → {slots : List Nat} → ConfinedBlock slots body →
    Domains.Touches slots (inferBlock fuzzy body)
  | [], _, _ => by
    simp only [inferBlock]
    exact Domains.touches_pure _
  | s :: rest, _, h => by
    simp only [inferBlock]
    refine (touches_infer s h.1).bind fun _ => ?_
    split
    · exact Domains.touches_pure _
    · exact (touches_inferBlock rest h.2).bind fun _ => Domains.touches_pure _

end

end Statement

end PayoffPricing.Script
