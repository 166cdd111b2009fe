import PayoffPricing.Proofs.Exact
import PayoffPricing.Proofs.Product.Events
import PayoffPricing.Proofs.Script.Compilation
/-!
The stack machine agrees with the tree. A compiled event changes the variables and the record as the
event itself does, and fails where it fails and as it fails.
-/

namespace PayoffPricing.Script

open Machine

variable {R S T : Type} [Scalar R] [Quantity R S T] {sample : Sample T}

/-- From place `i`, the code up to place `j` changes the variables as `action` does. -/
def Performs (p : Program R) (sample : Sample T) (i j : Nat)
    (action : Process R S (Variables T) Unit) : Prop :=
  ∀ last, j ≤ last → ∀ (m : Machine T) (s : S),
    outcome p sample last i m s = match action.exec m.values s with
      | ((.ok _, values), s) => outcome p sample last j (m.holding values) s
      | ((.error e, values), s) => (.error e, values, s)

/-- The words perform `action` when they stand at place `start`, since they jump to fixed places. -/
def Realizes (start : Nat) (sample : Sample T) (action : Process R S (Variables T) Unit)
    (final : Array R) (code : List Nat) : Prop :=
  ∀ p : Program R, p.constants = final → p.HasCode start code →
    Performs p sample start (start + code.length) action

namespace Realizes

variable {start : Nat} {final : Array R} {code more test : List Nat}
  {action next : Process R S (Variables T) Unit}

theorem nil : Realizes start sample (pure () : Process R S (Variables T) Unit) final [] :=
  fun _ _ _ _ _ _ _ => rfl

theorem append (hfirst : Realizes start sample action final code)
    (hnext : Realizes (start + code.length) sample next final more) :
    Realizes start sample (action >>= fun _ => next) final (code ++ more) := by
  intro p hp hc last hlast m s
  rw [Program.hasCode_append] at hc
  rw [List.length_append, ← Nat.add_assoc] at hlast ⊢
  rw [hfirst p hp hc.1 last (by omega), Process.exec_bind]
  rcases action.exec m.values s with ⟨⟨_ | _, values⟩, s⟩
  · rfl
  · exact hnext p hp hc.2 last hlast (m.holding values) s

variable {c : Cond R} {body otherwise : List (Statement R)} {affected : List Nat}

/-- A test, and code that is jumped over when it fails. -/
theorem skip (htest : c.Decides (S := S) sample final test)
    (hbody : Realizes (S := S) (start + test.length + 2) sample
      (Statement.runBlock sample body) final code) :
    Realizes (S := S) start sample ((Statement.branch c body [] affected).run sample) final
      (test ++ [Opcode.skip.word, start + test.length + 2 + code.length] ++ code) := by
  intro p hp hc last hlast m s
  simp only [Program.hasCode_append, Program.hasCode_cons, List.length_append, List.length_cons,
    List.length_nil, ← Nat.add_assoc] at hc hlast ⊢
  obtain ⟨⟨hct, hskip, hplace, -⟩, hcb⟩ := hc
  have htested : outcome p sample last start m s = _ := htest p start hp hct last (by omega) m s
  rw [htested]
  simp only [Statement.run, Process.exec_bind, Process.exec_get, Process.exec_ofEvaluation]
  rcases (c.eval m.values sample : Evaluation R S Bool).exec s with ⟨_ | b, s⟩
  · rfl
  dsimp only
  rw [outcome_skip (by omega) hskip hplace (by omega)]
  cases b with
  | false => rfl
  | true => exact hbody p hp hcb last (by omega) m s

/-- A test, and code for either outcome; the first one ends in a jump over the second one. -/
theorem select {others : List Nat} (htest : c.Decides (S := S) sample final test)
    (hbody : Realizes (S := S) (start + test.length + 3) sample
      (Statement.runBlock sample body) final code)
    (hothers : Realizes (S := S) (start + test.length + 3 + code.length) sample
      (Statement.runBlock sample otherwise) final others) :
    Realizes (S := S) start sample ((Statement.branch c body otherwise affected).run sample) final
      (test ++ [Opcode.select.word, start + test.length + 3 + code.length,
        start + test.length + 3 + code.length + others.length] ++ code ++ others) := by
  intro p hp hc last hlast m s
  simp only [Program.hasCode_append, Program.hasCode_cons, List.length_append, List.length_cons,
    List.length_nil, ← Nat.add_assoc] at hc hlast ⊢
  obtain ⟨⟨⟨hct, hselect, hsecond, hstop, -⟩, hcb⟩, hco⟩ := hc
  have htested : outcome p sample last start m s = _ := htest p start hp hct last (by omega) m s
  rw [htested]
  simp only [Statement.run, Process.exec_bind, Process.exec_get, Process.exec_ofEvaluation]
  rcases (c.eval m.values sample : Evaluation R S Bool).exec s with ⟨_ | b, s⟩
  · rfl
  dsimp only
  rw [outcome_select (by omega) hselect hsecond hstop (by omega) (by omega)]
  cases b with
  | false => exact hothers p hp hco last (by omega) m s
  | true =>
    -- The nested run ends where the second branch starts.
    have hrun := hbody p hp hcb (start + test.length + 3 + code.length) (by omega) m s
    simp only [if_true, hrun]
    rcases (Statement.runBlock sample body).exec m.values s with ⟨⟨_ | _, values⟩, s⟩
    · rfl
    · dsimp only
      rw [outcome_stop (by omega)]

end Realizes

namespace Statement

/-- A write of the value of an expression, in a way that `change` says. -/
def write (sample : Sample T) (e : Expr R)
    (change : Variables T → T → Evaluation R S (Variables T)) :
    Process R S (Variables T) Unit := do
  let values ← get
  let x ← Process.ofEvaluation (e.eval values sample)
  set (← Process.ofEvaluation (change values x))

theorem exec_write (e : Expr R) (change : Variables T → T → Evaluation R S (Variables T))
    (values : Variables T) (s : S) :
    (write sample e change).exec values s =
      match (e.eval values sample >>= change values).exec s with
      | (.ok after, s) => ((.ok (), after), s)
      | (.error e, s) => ((.error e, values), s) := by
  simp only [write, Process.exec_bind, Process.exec_get, Process.exec_ofEvaluation,
    Evaluation.exec_bind]
  rcases (e.eval values sample : Evaluation R S T).exec s with ⟨_ | x, s⟩
  · rfl
  · dsimp only
    rcases (change values x).exec s with ⟨_ | _, _⟩ <;> rfl

section Writes

variable (slot : Nat)

/-- An instruction that ends in a step on the variables. -/
theorem implements_onVariables (op : Opcode) {operands : List Nat} {final : Array R}
    {ready : Machine T → Machine T} {step : Variables T → Evaluation R S (Variables T)}
    (hs : op ≠ .skip ∧ op ≠ .select) (hlength : operands.length = op.operands)
    (h : ∀ (p : Program R) (i : Nat), p.constants = final → p.HasCode (i + 1) operands → ∀ m s,
      (execute p sample i op).exec (ready m) s = (onVariables step).exec m s) :
    Implements final sample (op.word :: operands) ready step fun values m => m.holding values := by
  refine .instruction op hs hlength fun p i hp hc m s => ?_
  rw [h p i hp hc, exec_onVariables]
  rcases (step m.values).exec s with ⟨_ | _, _⟩ <;> rfl

theorem implements_store (x : T) (final : Array R) :
    Implements (S := S) final sample [Opcode.store.word, slot] (·.pushed x)
      (fun values => values.store slot x) fun values m => m.holding values :=
  implements_onVariables .store (by decide) rfl fun p i _ hc m s => by
    simp only [execute, Process.exec_bind, exec_wordAt hc.1, exec_popNumber]

theorem implements_pay (x : T) (final : Array R) :
    Implements (S := S) final sample [Opcode.pay.word, slot] (·.pushed x)
      (fun values => values.pay slot x sample.numeraire) fun values m => m.holding values :=
  implements_onVariables .pay (by decide) rfl fun p i _ hc m s => by
    simp only [execute, Process.exec_bind, exec_wordAt hc.1, exec_popNumber]

theorem implements_storeConst (c : R) (final : Array R) (place : Nat)
    (h : final[place]? = some c) :
    Implements (S := S) final sample [Opcode.storeConst.word, slot, place] id
      (fun values => values.store slot (Valued.constant c)) fun values m => m.holding values :=
  implements_onVariables .storeConst (by decide) rfl fun p i hp hc m s => by
    simp only [execute, Process.exec_bind, exec_wordAt hc.1,
      exec_constantAt ⟨place, hc.2.1, hp ▸ h⟩, id_eq]

theorem implements_payConst (c : R) (final : Array R) (place : Nat)
    (h : final[place]? = some c) :
    Implements (S := S) final sample [Opcode.payConst.word, slot, place] id
      (fun values => values.pay slot (Valued.constant c) sample.numeraire)
      fun values m => m.holding values :=
  implements_onVariables .payConst (by decide) rfl fun p i hp hc m s => by
    simp only [execute, Process.exec_bind, exec_wordAt hc.1,
      exec_constantAt ⟨place, hc.2.1, hp ▸ h⟩, id_eq]

end Writes

section

variable [FaithfulScalar R] [FaithfulQuantity R S T]

theorem emits_compileWrite {plain fixed : Opcode} {v : Variable} {e : Expr R} {start : Nat}
    {change : Variables T → T → Evaluation R S (Variables T)} (he : e.hasArities = true)
    (hplain : ∀ x : T, ∀ final, Implements final sample [plain.word, v.slot] (·.pushed x)
      (fun values => change values x) fun values m => m.holding values)
    (hfixed : ∀ c final place, final[place]? = some c →
      Implements final sample [fixed.word, v.slot, place] id
        (fun values => change values (Valued.constant c)) fun values m => m.holding values) :
    Emits (compileWrite plain fixed v e) (Realizes start sample (write sample e change)) := by
  have realizes {final : Array R} {code : List Nat}
      (h : Implements final sample code id (fun values => e.eval values sample >>= change values)
        fun values m => m.holding values) :
      Realizes start sample (write sample e change) final code := by
    intro p hp hc last hlast m s
    have hrun : outcome p sample last start m s = _ := h p start hp hc last hlast m s
    rw [hrun, exec_write]
    rcases (e.eval m.values sample >>= change m.values).exec s with ⟨_ | _, _⟩ <;> rfl
  cases hknown : e.known? with
  | some c =>
    simp only [compileWrite, hknown]
    refine (emits_placeOf c).bind fun place => .pure fun final hplace => realizes ?_
    refine (hfixed c final place hplace).congr fun values => ?_
    simp [Expr.eval_of_known hknown]
  | none =>
    simp only [compileWrite, hknown]
    have hpush : Emits e.compile (e.Pushes (S := S) sample) := Expr.emits_compile e he
    exact hpush.bind fun code => .pure fun final hcode => realizes
      (hcode.append fun x => hplain x final)

-- The linter does not see that the two theorems call each other.
set_option linter.unusedSectionVars false in
mutual

theorem emits_compile (start : Nat) : ∀ st : Statement R, st.hasArities = true →
    Emits (st.compile start) (Realizes (S := S) start sample (st.run sample))
  | assign v e, h => emits_compileWrite h (implements_store v.slot) (implements_storeConst v.slot)
  | pays v e, h => emits_compileWrite h (implements_pay v.slot) (implements_payConst v.slot)
  | branch c body [] _, h => by
    simp only [hasArities, Bool.and_eq_true] at h
    have hc : Emits c.compile (c.Decides (S := S) sample) := Cond.emits_compile c h.1.1
    refine hc.bind fun test => (emits_compileBlock _ body h.1.2).bind fun code =>
      .pure fun final hcode htest => ?_
    exact .skip htest hcode
  | branch c body (st :: rest) _, h => by
    simp only [hasArities, Bool.and_eq_true] at h
    have hc : Emits c.compile (c.Decides (S := S) sample) := Cond.emits_compile c h.1.1
    refine hc.bind fun test => (emits_compileBlock _ body h.1.2).bind fun code =>
      (emits_compileBlock _ (st :: rest) h.2).bind fun others =>
      .pure fun final hothers hcode htest => ?_
    exact .select htest hcode hothers
  | sequence body, h => emits_compileBlock start body h

theorem emits_compileBlock (start : Nat) : ∀ block : List (Statement R), blockHasArities block = true →
    Emits (compileBlock start block) (Realizes (S := S) start sample (runBlock sample block))
  | [], _ => .pure fun _ => .nil
  | s :: rest, h => by
    rw [blockHasArities, Bool.and_eq_true] at h
    refine (emits_compile start s h.1).bind fun code =>
      (emits_compileBlock (start + code.length) rest h.2).bind fun more =>
      .pure fun final hmore hcode => ?_
    exact hcode.append hmore

end

end

end Statement

namespace Machine

/-- A run, without the stacks it leaves. -/
def ending : (Except (Fault (ScriptError R)) Unit × Machine T) × S →
    (Except (Fault (ScriptError R)) Unit × Variables T) × S
  | ((result, m), s) => ((result, m.values), s)

omit [Scalar R] [Quantity R S T] in
theorem ending_eq {r : (Except (Fault (ScriptError R)) Unit × Machine T) × S}
    {q : (Except (Fault (ScriptError R)) Unit × Variables T) × S}
    (h : shown r = match q with
      | ((.ok _, values), s) => (.ok ⟨values, [], []⟩, values, s)
      | ((.error e, values), s) => (.error e, values, s)) : ending r = q := by
  obtain ⟨⟨_ | _, _⟩, _⟩ := r <;> obtain ⟨⟨_ | _, _⟩, _⟩ := q <;>
    simp_all [shown, ending]

variable [FaithfulScalar R] [FaithfulQuantity R S T]

/-- The bytecode of an event does what the event does. -/
theorem ending_run {event : Event R} (h : Statement.blockHasArities event = true)
    (m : Machine T) (s : S) :
    ending ((run (Program.ofEvent event) sample).exec m s) =
      (Statement.runBlock sample event).exec m.values s := by
  have hcode : Realizes (S := S) 0 sample (Statement.runBlock sample event)
      (Program.ofEvent event).constants (Program.ofEvent event).code.toList :=
    (Statement.emits_compileBlock 0 event h #[]).2 _ (List.prefix_refl _)
  have hrun := hcode _ rfl (Program.hasCode_toList _) (Program.ofEvent event).code.size (by simp)
    ⟨m.values, [], []⟩ s
  apply ending_eq
  rw [run, Process.exec_bind, Process.exec_modify]
  refine hrun.trans ?_
  rcases (Statement.runBlock sample event).exec m.values s with ⟨⟨_ | _, _⟩, _⟩
  · rfl
  · simp [outcome_stop, holding]

/-- Event after event, the bytecode does what the events do. -/
theorem ending_runEvents (events : List (Event R))
    (h : ∀ event ∈ events, Statement.blockHasArities event = true) (scenario : Scenario T)
    (m : Machine T) (s : S) :
    ending ((Evaluator.runEvents run (events.map Program.ofEvent) scenario).exec m s) =
      (Evaluator.runEvents (fun event sample => Statement.runBlock sample event) events
        scenario).exec m.values s := by
  obtain ⟨samples⟩ := scenario
  induction events generalizing samples m s with
  | nil => rfl
  | cons event rest ih =>
    cases samples with
    | nil => rfl
    | cons sample samples =>
      rw [List.forall_mem_cons] at h
      simp only [List.map_cons, Evaluator.runEvents_cons, Process.exec_bind]
      rw [← ending_run h.1]
      rcases (run (Program.ofEvent event) sample).exec m s with ⟨⟨_ | _, m⟩, s⟩
      · rfl
      · exact ih h.2 m s samples

/-- Compiled events do what the events do, on plain scalars and on recorded numbers: they end alike,
with the same values of the variables and the same record. -/
theorem compiled_events_agree {R : Type} [Scalar R] [FaithfulScalar R] (events : List (Event R))
    (h : ∀ event ∈ events, Statement.blockHasArities event = true) :
    (∀ (scenario : Scenario R) (m : Machine R) (s : Unit),
      ending ((Evaluator.runEvents run (events.map Program.ofEvent) scenario).exec m s) =
        (Evaluator.runEvents (fun event sample => Statement.runBlock sample event) events
          scenario).exec m.values s) ∧
    ∀ (scenario : Scenario (Number R)) (m : Machine (Number R)) (t : Tape R),
      ending ((Evaluator.runEvents run (events.map Program.ofEvent) scenario).exec m t) =
        (Evaluator.runEvents (fun event sample => Statement.runBlock sample event) events
          scenario).exec m.values t :=
  ⟨fun scenario m s => ending_runEvents events h scenario m s,
    fun scenario m t => ending_runEvents events h scenario m t⟩

/-- `IF SPOT() > 1 THEN V = MAX(1, SPOT() - 1) ENDIF V PAYS V`, for the first variable `V`. -/
noncomputable def flooredEvent : Event ℝ :=
  [.branch (.compare none (.new .above (.difference .spot (.literal 1)) none))
    [.assign ⟨"V", 0⟩ (.call none .max [.literal 1, .difference .spot (.literal 1)])] [] [0],
    .pays ⟨"V", 0⟩ (.read none ⟨"V", 0⟩)]

theorem compiled_events_agree_floored :
    (∀ event ∈ [flooredEvent], Statement.blockHasArities event = true) ∧
      ending ((Evaluator.runEvents (S := Unit) run ([flooredEvent].map Program.ofEvent)
          #[⟨(3 : ℝ), 1, #[], #[]⟩]).exec ⟨#[0], [], []⟩ ()) =
        (Evaluator.runEvents (fun event sample => Statement.runBlock sample event) [flooredEvent]
          #[⟨(3 : ℝ), 1, #[], #[]⟩]).exec #[0] () := by
  have h : ∀ event ∈ [flooredEvent], Statement.blockHasArities event = true := by
    simp [flooredEvent, Statement.blockHasArities, Statement.hasArities, Cond.hasArities,
      Comparison.new, Expr.difference, Expr.hasArities, Expr.haveArities, Function.takes,
      Function.arity]
  exact ⟨h, (compiled_events_agree [flooredEvent] h).1 _ ⟨#[0], [], []⟩ ()⟩

end Machine

end PayoffPricing.Script
