import Mathlib.Data.List.Basic
import PayoffPricing.Proofs.Script.Bare
import PayoffPricing.Script.Effects
import PayoffPricing.Script.Exact
/-!
What conditional statements are noted to write is what they write, and the notes change no run.
-/

namespace PayoffPricing.Script

theorem mem_insertSlot {i n : Nat} {slots : List Nat} : i ∈ insertSlot n slots ↔ i = n ∨ i ∈ slots := by
  induction slots with
  | nil => simp [insertSlot]
  | cons m ms ih =>
    unfold insertSlot
    split_ifs with hlt heq
    · simp
    · subst heq
      simp
    · rw [List.mem_cons, ih, List.mem_cons]
      tauto

theorem mem_slotSet {i : Nat} {slots : List Nat} : i ∈ slotSet slots ↔ i ∈ slots := by
  induction slots with
  | nil => rfl
  | cons n slots ih =>
    rw [List.mem_cons, ← ih]
    exact mem_insertSlot

theorem pairwise_insertSlot {n : Nat} {slots : List Nat} (h : slots.Pairwise (· < ·)) :
    (insertSlot n slots).Pairwise (· < ·) := by
  induction slots with
  | nil => simp [insertSlot]
  | cons m ms ih =>
    rw [List.pairwise_cons] at h
    unfold insertSlot
    split_ifs with hlt heq
    · refine List.pairwise_cons.2 ⟨fun i hi => ?_, List.pairwise_cons.2 h⟩
      rcases List.mem_cons.1 hi with rfl | hi
      · exact hlt
      · exact Nat.lt_trans hlt (h.1 i hi)
    · exact List.pairwise_cons.2 h
    · refine List.pairwise_cons.2 ⟨fun i hi => ?_, ih h.2⟩
      rcases mem_insertSlot.1 hi with rfl | hi
      · omega
      · exact h.1 i hi

theorem pairwise_slotSet (slots : List Nat) : (slotSet slots).Pairwise (· < ·) := by
  induction slots with
  | nil => exact .nil
  | cons n slots ih => exact pairwise_insertSlot ih

namespace Statement

variable {R : Type}

mutual

/-- Every conditional statement lists the slots that its branches write, and no others. -/
def Marked : Statement R → Prop
  | assign _ _ => True
  | pays _ _ => True
  | branch _ body otherwise affected => (∀ i, i ∈ affected ↔ i ∈ blockWrites body ++ blockWrites otherwise) ∧
      MarkedBlock body ∧ MarkedBlock otherwise
  | sequence body => MarkedBlock body

def MarkedBlock : List (Statement R) → Prop
  | [] => True
  | s :: rest => s.Marked ∧ MarkedBlock rest

end

mutual

theorem writes_markAffected : (s : Statement R) → s.markAffected.writes = s.writes
  | assign _ _ => rfl
  | pays _ _ => rfl
  | branch _ body otherwise _ => by
    simp only [markAffected, writes, blockWrites_markAffected]
  | sequence body => blockWrites_markAffected body

theorem blockWrites_markAffected : (body : List (Statement R)) →
    blockWrites (markAffectedBlock body) = blockWrites body
  | [] => rfl
  | s :: rest => by
    simp only [markAffectedBlock, blockWrites, writes_markAffected, blockWrites_markAffected]

end

mutual

theorem marked_markAffected : (s : Statement R) → s.markAffected.Marked
  | assign _ _ => trivial
  | pays _ _ => trivial
  | branch _ body otherwise _ => by
    refine ⟨fun i => ?_, marked_markAffectedBlock body, marked_markAffectedBlock otherwise⟩
    rw [mem_slotSet, blockWrites_markAffected, blockWrites_markAffected]
  | sequence body => marked_markAffectedBlock body

theorem marked_markAffectedBlock : (body : List (Statement R)) → MarkedBlock (markAffectedBlock body)
  | [] => trivial
  | s :: rest => ⟨marked_markAffected s, marked_markAffectedBlock rest⟩

end

variable {S T : Type} [Scalar R] [Quantity R S T] (sample : Sample T)

mutual

theorem run_markAffected : (s : Statement R) →
    (s.markAffected.bare.run sample : Process R S (Variables T) Unit) = s.bare.run sample
  | assign _ _ => rfl
  | pays _ _ => rfl
  | branch _ body otherwise _ => by
    simp only [markAffected, bare, run, runBlock_markAffected body, runBlock_markAffected otherwise]
  | sequence body => runBlock_markAffected body

theorem runBlock_markAffected : (body : List (Statement R)) →
    (runBlock sample (bareBlock (markAffectedBlock body)) : Process R S (Variables T) Unit) =
      runBlock sample (bareBlock body)
  | [] => rfl
  | s :: rest => by
    simp only [markAffectedBlock, bareBlock, runBlock, run_markAffected s, runBlock_markAffected rest]

end

end Statement

end PayoffPricing.Script
