import PayoffPricing.Proofs.Script.Process
import PayoffPricing.Script.Machine
/-!
Steps of the stack machine. What a run shows is its result, the variables and the record; the
stacks count only when it succeeds, since a failed run leaves them as they were met.
-/

namespace PayoffPricing.Script

theorem Opcode.ofWord?_word (op : Opcode) : ofWord? op.word = some op := by
  cases op <;> rfl

namespace Machine

variable {R S T : Type}

/-- The machine with one more number. -/
def pushed (m : Machine T) (x : T) : Machine T := { m with numbers := x :: m.numbers }

/-- The machine with one more outcome. -/
def decided (m : Machine T) (b : Bool) : Machine T := { m with outcomes := b :: m.outcomes }

/-- The machine with other values of the variables. -/
def holding (m : Machine T) (values : Variables T) : Machine T := { m with values := values }

@[simp]
theorem pushed_values (m : Machine T) (x : T) : (m.pushed x).values = m.values := rfl

@[simp]
theorem decided_values (m : Machine T) (b : Bool) : (m.decided b).values = m.values := rfl

@[simp]
theorem holding_values (m : Machine T) (values : Variables T) :
    (m.holding values).values = values := rfl

@[simp]
theorem holding_self (m : Machine T) : m.holding m.values = m := rfl

@[simp]
theorem holding_holding (m : Machine T) (v w : Variables T) :
    (m.holding v).holding w = m.holding w := rfl

/-- What a run shows. -/
abbrev Shown (R S T : Type) := Except (Fault (ScriptError R)) (Machine T) × Variables T × S

def shown : (Except (Fault (ScriptError R)) Unit × Machine T) × S → Shown R S T
  | ((.ok _, m), s) => (.ok m, m.values, s)
  | ((.error e, m), s) => (.error e, m.values, s)

@[simp]
theorem exec_pushNumber (x : T) (m : Machine T) (s : S) :
    (pushNumber x : Process R S (Machine T) Unit).exec m s = ((.ok (), m.pushed x), s) := rfl

@[simp]
theorem exec_pushOutcome (b : Bool) (m : Machine T) (s : S) :
    (pushOutcome b : Process R S (Machine T) Unit).exec m s = ((.ok (), m.decided b), s) := rfl

@[simp]
theorem exec_popNumber (x : T) (m : Machine T) (s : S) :
    (popNumber : Process R S (Machine T) T).exec (m.pushed x) s = ((.ok x, m), s) := rfl

@[simp]
theorem exec_popOutcome (b : Bool) (m : Machine T) (s : S) :
    (popOutcome : Process R S (Machine T) Bool).exec (m.decided b) s = ((.ok b, m), s) := rfl

@[simp]
theorem exec_onTop (f : T → Evaluation R S T) (x : T) (m : Machine T) (s : S) :
    (onTop f).exec (m.pushed x) s = match (f x).exec s with
      | (.ok y, s) => ((.ok (), m.pushed y), s)
      | (.error e, s) => ((.error e, m), s) := by
  simp only [onTop, Process.exec_bind, exec_popNumber, Process.exec_ofEvaluation]
  rcases (f x).exec s with ⟨_ | _, _⟩ <;> rfl

@[simp]
theorem exec_onTopTwo (f : T → T → Evaluation R S T) (x y : T) (m : Machine T) (s : S) :
    (onTopTwo f).exec ((m.pushed x).pushed y) s = match (f x y).exec s with
      | (.ok z, s) => ((.ok (), m.pushed z), s)
      | (.error e, s) => ((.error e, m), s) := by
  simp only [onTopTwo, Process.exec_bind, exec_popNumber, exec_onTop]

@[simp]
theorem exec_onOutcomes (f : Bool → Bool → Bool) (a b : Bool) (m : Machine T) (s : S) :
    (onOutcomes f : Process R S (Machine T) Unit).exec ((m.decided a).decided b) s =
      ((.ok (), m.decided (f a b)), s) := rfl

@[simp]
theorem exec_onVariables (step : Variables T → Evaluation R S (Variables T)) (m : Machine T)
    (s : S) :
    (onVariables step).exec m s = match (step m.values).exec s with
      | (.ok values, s) => ((.ok (), m.holding values), s)
      | (.error e, s) => ((.error e, m), s) := by
  simp only [onVariables, Process.exec_bind, Process.exec_get, Process.exec_ofEvaluation]
  rcases (step m.values).exec s with ⟨_ | _, _⟩ <;> rfl

theorem wordAt_eq {p : Program R} {i w : Nat} (h : p.code[i]? = some w) :
    (wordAt p i : Process R S (Machine T) Nat) = pure w := by
  rw [wordAt, h]

theorem exec_wordAt {p : Program R} {i w : Nat} (h : p.code[i]? = some w) (m : Machine T) (s : S) :
    (wordAt p i : Process R S (Machine T) Nat).exec m s = ((.ok w, m), s) := by
  rw [wordAt_eq h, Process.exec_pure]

/-- The constant that the word at a place refers to. -/
def Refers (p : Program R) (i : Nat) (v : R) : Prop :=
  ∃ w, p.code[i]? = some w ∧ p.constants[w]? = some v

theorem constantAt_eq {p : Program R} {i : Nat} {v : R} (h : Refers p i v) :
    (constantAt p i : Process R S (Machine T) R) = pure v := by
  obtain ⟨w, hw, hv⟩ := h
  rw [constantAt, wordAt_eq hw, pure_bind, hv]

theorem exec_constantAt {p : Program R} {i : Nat} {v : R} (h : Refers p i v) (m : Machine T)
    (s : S) : (constantAt p i : Process R S (Machine T) R).exec m s = ((.ok v, m), s) := by
  rw [constantAt_eq h, Process.exec_pure]

theorem shown_bind (x y : Process R S (Machine T) Unit) (m : Machine T) (s : S) :
    shown ((x >>= fun _ => y).exec m s) = match shown (x.exec m s) with
      | (.ok m, _, s) => shown (y.exec m s)
      | (.error e, v, s) => (.error e, v, s) := by
  rw [Process.exec_bind]
  rcases x.exec m s with ⟨⟨_ | _, _⟩, _⟩ <;> rfl

variable [Quantity R S T]

theorem exec_withConstant {p : Program R} {i : Nat} {v : R} (h : Refers p i v)
    (f : T → T → Evaluation R S T) (x : T) (m : Machine T) (s : S) :
    (withConstant p i f).exec (m.pushed x) s = match (f x (Valued.constant v)).exec s with
      | (.ok y, s) => ((.ok (), m.pushed y), s)
      | (.error e, s) => ((.error e, m), s) := by
  simp [withConstant, exec_constantAt h]

variable [Scalar R]

@[simp]
theorem exec_test (relation : Relation) (tolerance : R) (x : T) (m : Machine T) (s : S) :
    (test relation tolerance : Process R S (Machine T) Unit).exec (m.pushed x) s =
      ((.ok (), m.decided (Intrinsic.holds relation (Valued.value x) tolerance)), s) := rfl

section Runs

variable {p : Program R} {sample : Sample T} {last i : Nat}

theorem runFrom_stop (h : last ≤ i) : (runFrom p sample i last : Process R S (Machine T) Unit) = pure () := by
  rw [runFrom, if_neg (by omega)]

/-- An instruction that does not jump is run, and the next one follows. -/
theorem runFrom_execute {op : Opcode} (hi : i < last) (hw : p.code[i]? = some op.word)
    (hs : op ≠ .skip ∧ op ≠ .select) : (runFrom p sample i last : Process R S (Machine T) Unit) = (do
      execute p sample i op
      runFrom p sample (i + 1 + op.operands) last) := by
  rw [runFrom, if_pos hi]
  split
  · simp_all
  · next w hcode =>
    obtain rfl : op.word = w := by simpa using hw.symm.trans hcode
    rw [Opcode.ofWord?_word]
    cases op <;> simp_all

/-- A conditional jump: over the body when the outcome is negative. -/
theorem runFrom_skip {target : Nat} (hi : i < last) (hw : p.code[i]? = some Opcode.skip.word)
    (ht : p.code[i + 1]? = some target) (hit : i < target) :
    (runFrom p sample i last : Process R S (Machine T) Unit) = (do
      if ← popOutcome then runFrom p sample (i + 2) last else runFrom p sample target last) := by
  rw [runFrom, if_pos hi]
  split
  · simp_all
  · next w hcode =>
    obtain rfl : Opcode.skip.word = w := by simpa using hw.symm.trans hcode
    rw [Opcode.ofWord?_word]
    simp [wordAt_eq ht, hit]

/-- A selection: the first branch is a run of its own, up to the second one. -/
theorem runFrom_select {second stop : Nat} (hi : i < last)
    (hw : p.code[i]? = some Opcode.select.word) (hsecond : p.code[i + 1]? = some second)
    (hstop : p.code[i + 2]? = some stop) (his : i < second) (hit : i < stop) :
    (runFrom p sample i last : Process R S (Machine T) Unit) = (do
      if ← popOutcome then
        runFrom p sample (i + 3) second
        runFrom p sample stop last
      else runFrom p sample second last) := by
  rw [runFrom, if_pos hi]
  split
  · simp_all
  · next w hcode =>
    obtain rfl : Opcode.select.word = w := by simpa using hw.symm.trans hcode
    rw [Opcode.ofWord?_word]
    simp [wordAt_eq hsecond, wordAt_eq hstop, his, hit]

end Runs

/-- What the machine shows when it runs from place `i` to `last`. -/
def outcome (p : Program R) (sample : Sample T) (last i : Nat) (m : Machine T) (s : S) :
    Shown R S T :=
  shown ((runFrom p sample i last).exec m s)

variable {p : Program R} {sample : Sample T} {last i : Nat} {m : Machine T} {s : S}

theorem outcome_stop (h : last ≤ i) : outcome p sample last i m s = (.ok m, m.values, s) := by
  rw [outcome, runFrom_stop h]
  rfl

theorem outcome_execute {op : Opcode} (hi : i < last) (hw : p.code[i]? = some op.word)
    (hs : op ≠ .skip ∧ op ≠ .select) :
    outcome p sample last i m s = match (execute p sample i op).exec m s with
      | ((.ok _, m), s) => outcome p sample last (i + 1 + op.operands) m s
      | ((.error e, m), s) => (.error e, m.values, s) := by
  rw [outcome, runFrom_execute hi hw hs, Process.exec_bind]
  rcases (execute p sample i op).exec m s with ⟨⟨_ | _, _⟩, _⟩ <;> rfl

theorem outcome_skip {target : Nat} (hi : i < last) (hw : p.code[i]? = some Opcode.skip.word)
    (ht : p.code[i + 1]? = some target) (hit : i < target) (b : Bool) :
    outcome p sample last i (m.decided b) s =
      outcome p sample last (if b then i + 2 else target) m s := by
  rw [outcome, runFrom_skip hi hw ht hit, Process.exec_bind, exec_popOutcome]
  cases b <;> rfl

theorem outcome_select {second stop : Nat} (hi : i < last)
    (hw : p.code[i]? = some Opcode.select.word) (hsecond : p.code[i + 1]? = some second)
    (hstop : p.code[i + 2]? = some stop) (his : i < second) (hit : i < stop) (b : Bool) :
    outcome p sample last i (m.decided b) s =
      if b then match outcome p sample second (i + 3) m s with
        | (.ok m, _, s) => outcome p sample last stop m s
        | (.error e, v, s) => (.error e, v, s)
      else outcome p sample last second m s := by
  rw [outcome, runFrom_select hi hw hsecond hstop his hit, Process.exec_bind, exec_popOutcome]
  cases b
  · rfl
  · exact shown_bind ..

end Machine

end PayoffPricing.Script
