import PayoffPricing.Proofs.Script.Emission
import PayoffPricing.Script.Exact
/-!
Fragments of code. A fragment computes what an evaluation computes when the machine, from the first
word of the fragment on, shows what it shows after the last word with the value put in its place.
Fragments are put together in the way evaluations are.
-/

namespace PayoffPricing.Script

open Machine

variable {R S T α β : Type} [Scalar R] [Quantity R S T]

/-- From place `i`, in the machine that `ready` prepares, the code up to place `j` computes `action`
on the variables and leaves its value as `done` says. -/
def Computes (p : Program R) (sample : Sample T) (i j : Nat) (ready : Machine T → Machine T)
    (action : Variables T → Evaluation R S α) (done : α → Machine T → Machine T) : Prop :=
  ∀ last, j ≤ last → ∀ (m : Machine T) (s : S),
    outcome p sample last i (ready m) s = match (action m.values).exec s with
      | (.ok a, s) => outcome p sample last j (done a m) s
      | (.error e, s) => (.error e, m.values, s)

/-- The words compute `action` in every program that has them and the given constants. -/
def Implements (final : Array R) (sample : Sample T) (code : List Nat)
    (ready : Machine T → Machine T) (action : Variables T → Evaluation R S α)
    (done : α → Machine T → Machine T) : Prop :=
  ∀ (p : Program R) (i : Nat), p.constants = final → p.HasCode i code →
    Computes p sample i (i + code.length) ready action done

namespace Implements

variable {final : Array R} {sample : Sample T} {code more : List Nat}
  {ready : Machine T → Machine T} {action : Variables T → Evaluation R S α}
  {done : α → Machine T → Machine T}

/-- No code, for a value that is known beforehand and in its place. -/
theorem nil (a : α) (h : ∀ m, ready m = done a m) (ha : ∀ v, action v = pure a) :
    Implements final sample [] ready action done := by
  intro p i _ _ last _ m s
  simp [h, ha]

theorem append {next : α → Variables T → Evaluation R S β} {finish : β → Machine T → Machine T}
    (hfirst : Implements final sample code ready action done)
    (hnext : ∀ a, Implements final sample more (done a) (next a) finish) :
    Implements final sample (code ++ more) ready (fun v => action v >>= fun a => next a v) finish := by
  intro p i hp hc last hlast m s
  rw [Program.hasCode_append] at hc
  rw [List.length_append, ← Nat.add_assoc] at hlast ⊢
  rw [hfirst p i hp hc.1 last (by omega), Evaluation.exec_bind]
  rcases (action m.values).exec s with ⟨_ | a, s⟩
  · rfl
  · exact hnext a p _ hp hc.2 last hlast m s

/-- What is computed may be said in another way. -/
theorem congr {other : Variables T → Evaluation R S α}
    (h : Implements final sample code ready action done) (he : ∀ v, action v = other v) :
    Implements final sample code ready other done := funext he ▸ h

/-- What a fragment computes does not depend on what lies below its operands. -/
theorem frame (h : Implements final sample code ready action done) (f : Machine T → Machine T)
    (hf : ∀ m, (f m).values = m.values) :
    Implements final sample code (fun m => ready (f m)) action fun a m => done a (f m) := by
  intro p i hp hc last hlast m s
  rw [h p i hp hc last hlast (f m) s, hf]

/-- An instruction that computes on the operands it finds. -/
theorem instruction (op : Opcode) {operands : List Nat} (hs : op ≠ .skip ∧ op ≠ .select)
    (hlength : operands.length = op.operands)
    (h : ∀ (p : Program R) (i : Nat), p.constants = final → p.HasCode (i + 1) operands → ∀ m s,
      (execute p sample i op).exec (ready m) s = match (action m.values).exec s with
        | (.ok a, s) => ((.ok (), done a m), s)
        | (.error e, s) => ((.error e, m), s)) :
    Implements final sample (op.word :: operands) ready action done := by
  intro p i hp hc last hlast m s
  rw [List.length_cons, hlength, Nat.add_comm op.operands, ← Nat.add_assoc] at hlast ⊢
  rw [outcome_execute (by omega) hc.1 hs, h p i hp hc.2]
  rcases (action m.values).exec s with ⟨_ | a, s⟩ <;> rfl

end Implements

end PayoffPricing.Script
