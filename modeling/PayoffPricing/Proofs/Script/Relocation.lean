import PayoffPricing.Proofs.Script.Emission
/-!
Relocation of code. What the code of an expression or a condition does depends neither on the place where it stands
nor on the other constants of the pool, whatever the tree is.
-/

namespace PayoffPricing.Script

open Machine

variable {R S T : Type} [Scalar R] [Quantity R S T] {sample : Sample T} {final : Array R}
  {a b : Process R S (Machine T) Unit}

/-- The words, from place `i` on, run `action` in every program that has them there and the given constants. -/
def Enacts (sample : Sample T) (action : Process R S (Machine T) Unit) (i : Nat) (final : Array R)
    (code : List Nat) : Prop :=
  ∀ p : Program R, p.constants = final → p.HasCode i code → ∀ last, i + code.length ≤ last →
    runFrom p sample i last = action >>= fun _ => runFrom p sample (i + code.length) last

theorem Enacts.nil (sample : Sample T) (i : Nat) (final : Array R) :
    Enacts sample (pure () : Process R S (Machine T) Unit) i final [] := fun _ _ _ _ _ => rfl

theorem Enacts.append {i : Nat} {code more : List Nat} (h : Enacts sample a i final code)
    (h' : Enacts sample b (i + code.length) final more) :
    Enacts sample (a >>= fun _ => b) i final (code ++ more) := by
  intro p hp hc last hlast
  rw [Program.hasCode_append] at hc
  rw [List.length_append, ← Nat.add_assoc] at hlast ⊢
  rw [h p hp hc.1 last (by omega), h' p hp hc.2 last hlast, bind_assoc]

/-- The words run `action` wherever they stand. -/
def Acts (sample : Sample T) (action : Process R S (Machine T) Unit) (final : Array R) (code : List Nat) : Prop :=
  ∀ i, Enacts sample action i final code

namespace Acts

theorem append {code more : List Nat} (h : Acts sample a final code) (h' : Acts sample b final more) :
    Acts sample (a >>= fun _ => b) final (code ++ more) := fun i => (h i).append (h' _)

theorem instruction (op : Opcode) {operands : List Nat} (hs : op ≠ .skip ∧ op ≠ .select)
    (hlength : operands.length = op.operands)
    (h : ∀ (p : Program R) (i : Nat), p.constants = final → p.HasCode (i + 1) operands → execute p sample i op = a) :
    Acts sample a final (op.word :: operands) := by
  intro i p hp hc last hlast
  rw [List.length_cons, hlength, Nat.add_comm op.operands, ← Nat.add_assoc] at hlast ⊢
  rw [runFrom_execute (by omega) hc.1 hs, h p i hp hc.2]

/-- An instruction without operands. -/
theorem plain (op : Opcode) (hs : op ≠ .skip ∧ op ≠ .select) (hn : op.operands = 0)
    (h : ∀ p i, execute p sample i op = a) : Acts sample a final [op.word] :=
  .instruction op hs (by simp [hn]) fun p i _ _ => h p i

/-- An instruction whose second operand is a constant. -/
theorem withConstant (op : Opcode) (hs : op ≠ .skip ∧ op ≠ .select) (hn : op.operands = 1) (f : T → T → Evaluation R S T)
    (h : ∀ p i, execute p sample i op = Machine.withConstant p (i + 1) f) {place : Nat} {v : R}
    (hplace : final[place]? = some v) :
    Acts sample (onTop fun x => f x (Valued.constant v)) final [op.word, place] := by
  refine .instruction op hs (by simp [hn]) fun p i hp hc => ?_
  rw [h, Machine.withConstant, constantAt_eq ⟨place, hc.1, hp ▸ hplace⟩, pure_bind]

theorem opcode (op : Operator) : Acts (S := S) sample (onTopTwo (Intrinsic.binary op)) final [op.opcode.word] := by
  cases op <;> exact .plain _ (by decide) rfl fun _ _ => rfl

theorem opcodeConst (op : Operator) {place : Nat} {v : R} (hplace : final[place]? = some v) :
    Acts (S := S) sample (onTop fun x => Intrinsic.binary op x (Valued.constant v)) final [op.opcodeConst.word, place] := by
  cases op <;> exact .withConstant _ (by decide) rfl _ (fun _ _ => rfl) hplace

/-- What an operator does with a left operand from the pool; sums and products take it as the right one. -/
def constLeft (op : Operator) (v : R) (x : T) : Evaluation R S T :=
  match op with
  | .add => Intrinsic.binary .add x (Valued.constant v)
  | .mul => Intrinsic.binary .mul x (Valued.constant v)
  | op => Intrinsic.binary op (Valued.constant v) x

theorem constOpcode (op : Operator) {place : Nat} {v : R} (hplace : final[place]? = some v) :
    Acts (S := S) sample (onTop (constLeft op v)) final [op.constOpcode.word, place] := by
  cases op with
  | add => exact .withConstant .addConst (by decide) rfl _ (fun _ _ => rfl) hplace
  | mul => exact .withConstant .mulConst (by decide) rfl _ (fun _ _ => rfl) hplace
  | sub => exact .withConstant .constSub (by decide) rfl (fun x c => Intrinsic.binary .sub c x) (fun _ _ => rfl) hplace
  | div => exact .withConstant .constDiv (by decide) rfl (fun x c => Intrinsic.binary .div c x) (fun _ _ => rfl) hplace
  | pow => exact .withConstant .constPow (by decide) rfl (fun x c => Intrinsic.binary .pow c x) (fun _ _ => rfl) hplace

end Acts

namespace Expr

variable [RepresentedScalar R]

variable (S) in
/-- The code of the expression acts alike wherever it stands. -/
def Relocates (sample : Sample T) (e : Expr R) : Prop :=
  ∃ action : Process R S (Machine T) Unit, Emits e.compile (Acts sample action)

theorem emits_constant (sample : Sample T) (v : R) : Emits (compileConst v)
    (Acts sample (pushNumber (Valued.constant v) : Process R S (Machine T) Unit)) := by
  refine (emits_placeOf v).bind fun place => .pure fun final hplace => ?_
  refine .instruction .const (by decide) rfl fun p i hp hc => ?_
  rw [execute, constantAt_eq ⟨place, hc.1, hp ▸ hplace⟩, pure_bind]

theorem relocates_binary (op : Operator) {lhs rhs : Expr R} (hl : lhs.Relocates S sample) (hr : rhs.Relocates S sample) :
    (binary none op lhs rhs).Relocates S sample := by
  obtain ⟨a, ha⟩ := hl
  obtain ⟨b, hb⟩ := hr
  unfold Relocates
  cases hknown : rhs.known? with
  | some v =>
    simp only [compile, hknown]
    exact ⟨_, ha.bind fun code => (emits_placeOf v).bind fun place => .pure fun final hplace hcode =>
      hcode.append (.opcodeConst op hplace)⟩
  | none =>
    cases hfixed : lhs.known? with
    | some v =>
      simp only [compile, hknown, hfixed]
      exact ⟨_, hb.bind fun code => (emits_placeOf v).bind fun place => .pure fun final hplace hcode =>
        hcode.append (.constOpcode op hplace)⟩
    | none =>
      simp only [compile, hknown, hfixed]
      exact ⟨_, ha.bind fun code => hb.bind fun more => .pure fun final hmore hcode =>
        (hcode.append hmore).append (.opcode op)⟩

omit [RepresentedScalar R] in
theorem relocates_list {es : List (Expr R)} (h : ∀ e ∈ es, e.Relocates S sample) :
    ∃ action : Process R S (Machine T) Unit, Emits (compileList es) (Acts sample action) := by
  induction es with
  | nil => exact ⟨_, .pure fun final i => .nil sample i final⟩
  | cons e es ih =>
    obtain ⟨a, ha⟩ := h e List.mem_cons_self
    obtain ⟨b, hb⟩ := ih fun d hd => h d (List.mem_cons_of_mem e hd)
    exact ⟨_, ha.bind fun code => hb.bind fun more => .pure fun final hmore hcode => hcode.append hmore⟩

theorem relocates_chain {plain fixed : Opcode} {es : List (Expr R)}
    (hplain : ∃ a : Process R S (Machine T) Unit, ∀ final, Acts sample a final [plain.word])
    (hfixed : ∀ v, ∃ a : Process R S (Machine T) Unit, ∀ (final : Array R) (place : Nat), final[place]? = some v →
      Acts sample a final [fixed.word, place])
    (h : ∀ e ∈ es, e.Relocates S sample) :
    ∃ action : Process R S (Machine T) Unit, Emits (compileChain plain fixed es) (Acts sample action) := by
  induction es with
  | nil => exact ⟨_, .pure fun final i => .nil sample i final⟩
  | cons e es ih =>
    obtain ⟨rest, hrest⟩ := ih fun d hd => h d (List.mem_cons_of_mem e hd)
    cases hknown : e.known? with
    | some v =>
      obtain ⟨a, ha⟩ := hfixed v
      simp only [compileChain, hknown]
      exact ⟨_, (emits_placeOf v).bind fun place => hrest.bind fun more => .pure fun final hmore hplace =>
        (ha final place hplace).append hmore⟩
    | none =>
      obtain ⟨a, ha⟩ := h e List.mem_cons_self
      obtain ⟨pick, hpick⟩ := hplain
      simp only [compileChain, hknown]
      exact ⟨_, ha.bind fun code => hrest.bind fun more => .pure fun final hmore hcode =>
        hcode.append ((hpick final).append hmore)⟩

/-- The least or the greatest of several numbers. -/
theorem relocates_extreme {f : Function} {plain fixed : Opcode} {x : Expr R} {rest : List (Expr R)}
    (hc : (call none f (x :: rest)).compile = (do return (← x.compile) ++ (← compileChain plain fixed rest)))
    (hplain : ∃ a : Process R S (Machine T) Unit, ∀ final, Acts sample a final [plain.word])
    (hfixed : ∀ v, ∃ a : Process R S (Machine T) Unit, ∀ (final : Array R) (place : Nat), final[place]? = some v →
      Acts sample a final [fixed.word, place])
    (h : ∀ e ∈ x :: rest, e.Relocates S sample) : (call none f (x :: rest)).Relocates S sample := by
  obtain ⟨a, ha⟩ := h x List.mem_cons_self
  obtain ⟨b, hb⟩ := relocates_chain hplain hfixed fun d hd => h d (List.mem_cons_of_mem x hd)
  rw [Relocates, hc]
  exact ⟨_, ha.bind fun code => hb.bind fun more => .pure fun final hmore hcode => hcode.append hmore⟩

omit [RepresentedScalar R] in
/-- Functions whose arguments are all on the stack. -/
theorem relocates_plain {f : Function} {op : Opcode} {args : List (Expr R)}
    (hc : (call none f args).compile = (do return (← compileList args) ++ [op.word]))
    (ho : ∃ a : Process R S (Machine T) Unit, ∀ final, Acts sample a final [op.word])
    (h : ∀ e ∈ args, e.Relocates S sample) : (call none f args).Relocates S sample := by
  obtain ⟨a, ha⟩ := relocates_list h
  obtain ⟨b, hb⟩ := ho
  rw [Relocates, hc]
  exact ⟨_, ha.bind fun code => .pure fun final hcode => hcode.append (hb final)⟩

theorem relocates_call (f : Function) {args : List (Expr R)} (h : ∀ e ∈ args, e.Relocates S sample) :
    (call none f args).Relocates S sample := by
  match f, args with
  | .min, [] => exact ⟨_, .pure fun final i => .nil sample i final⟩
  | .max, [] => exact ⟨_, .pure fun final i => .nil sample i final⟩
  | .min, x :: rest =>
    exact relocates_extreme rfl ⟨_, fun _ => .plain .min (by decide) rfl fun _ _ => rfl⟩
      (fun _ => ⟨_, fun _ _ => .withConstant .minConst (by decide) rfl (fun x y => pure (Quantity.min x y)) fun _ _ => rfl⟩) h
  | .max, x :: rest =>
    exact relocates_extreme rfl ⟨_, fun _ => .plain .max (by decide) rfl fun _ _ => rfl⟩
      (fun _ => ⟨_, fun _ _ => .withConstant .maxConst (by decide) rfl (fun x y => pure (Quantity.max x y)) fun _ _ => rfl⟩) h
  | .log, args => exact relocates_plain rfl ⟨_, fun _ => .plain .log (by decide) rfl fun _ _ => rfl⟩ h
  | .sqrt, args => exact relocates_plain rfl ⟨_, fun _ => .plain .sqrt (by decide) rfl fun _ _ => rfl⟩ h
  | .exp, args => exact relocates_plain rfl ⟨_, fun _ => .plain .exp (by decide) rfl fun _ _ => rfl⟩ h
  | .smooth, args => exact relocates_plain rfl ⟨_, fun _ => .plain .smooth (by decide) rfl fun _ _ => rfl⟩ h

-- The linter does not see that the two theorems call each other.
set_option linter.unusedSectionVars false in
mutual

theorem relocates : ∀ e : Expr R, e.Relocates S sample
  | literal v => ⟨_, emits_constant sample v⟩
  | read (some v) _ => ⟨_, emits_constant sample v⟩
  | neg (some v) _ => ⟨_, emits_constant sample v⟩
  | plus (some v) _ => ⟨_, emits_constant sample v⟩
  | binary (some v) _ _ _ => ⟨_, emits_constant sample v⟩
  | call (some v) _ _ => ⟨_, by rw [compile]; exact emits_constant sample v⟩
  | spot => ⟨_, .pure fun _ => .plain .spot (by decide) rfl fun _ _ => rfl⟩
  | read none x => by
    refine ⟨do pushNumber (← Process.ofEvaluation ((← get).values.fetch (R := R) (S := S) x.slot)),
      .pure fun _ => .instruction .load (by decide) rfl fun p i _ hc => ?_⟩
    rw [execute, wordAt_eq hc.1, pure_bind]
  | neg none arg => by
    obtain ⟨a, ha⟩ := relocates arg
    exact ⟨_, ha.bind fun code => .pure fun final hcode => hcode.append (.plain .neg (by decide) rfl fun _ _ => rfl)⟩
  | plus none arg => relocates arg
  | binary none op lhs rhs => relocates_binary op (relocates lhs) (relocates rhs)
  | call none f args => relocates_call f (relocates_all args)

theorem relocates_all : ∀ es : List (Expr R), ∀ e ∈ es, e.Relocates S sample
  | [] => by simp
  | d :: ds => List.forall_mem_cons.2 ⟨relocates d, relocates_all ds⟩

end

end Expr

namespace Cond

theorem acts_outcome (sample : Sample T) (final : Array R) (b : Bool) :
    Acts sample (pushOutcome b : Process R S (Machine T) Unit) final [compile.outcome b] := by
  cases b with
  | true => exact .plain .yes (by decide) rfl fun _ _ => rfl
  | false => exact .plain .no (by decide) rfl fun _ _ => rfl

theorem acts_test (r : Relation) {place : Nat} {tolerance : R} (hplace : final[place]? = some tolerance) :
    Acts sample (test r tolerance : Process R S (Machine T) Unit) final [r.opcode.word, place] := by
  refine .instruction r.opcode (by cases r <;> decide) (by cases r <;> rfl) fun p i hp hc => ?_
  have hexec : execute (S := S) p sample i r.opcode = (do test r (← constantAt p (i + 1))) := by
    cases r <;> rfl
  rw [hexec, constantAt_eq ⟨place, hc.1, hp ▸ hplace⟩, pure_bind]

variable (S) in
/-- The code of the condition acts alike wherever it stands. -/
def Relocates (sample : Sample T) (c : Cond R) : Prop :=
  ∃ action : Process R S (Machine T) Unit, Emits c.compile (Acts sample action)

theorem relocates_of_decided {c : Cond R} {b : Bool} (h : c.decided? = some b) :
    Emits c.compile (Acts sample (pushOutcome b : Process R S (Machine T) Unit)) := by
  have hcode : c.compile = return [compile.outcome b] := by
    cases c <;> simp_all [decided?, compile]
  rw [hcode]
  exact .pure fun final => acts_outcome sample final b

theorem relocates [RepresentedScalar R] (c : Cond R) : c.Relocates S sample := by
  induction c with
  | literal b => exact ⟨_, relocates_of_decided rfl⟩
  | compare decided c =>
    cases decided with
    | some b => exact ⟨_, relocates_of_decided rfl⟩
    | none =>
      unfold Relocates
      cases hknown : c.arg.known? with
      | some v =>
        simp only [compile, hknown]
        exact ⟨_, .pure fun final => acts_outcome sample final _⟩
      | none =>
        obtain ⟨a, ha⟩ : c.arg.Relocates S sample := c.arg.relocates
        simp only [compile, hknown]
        exact ⟨_, ha.bind fun code => (emits_placeOf _).bind fun place => .pure fun final hplace hcode =>
          hcode.append (acts_test c.relation hplace)⟩
  | not decided arg ih =>
    cases decided with
    | some b => exact ⟨_, relocates_of_decided rfl⟩
    | none =>
      obtain ⟨a, ha⟩ := ih
      exact ⟨_, ha.bind fun code => .pure fun final hcode => hcode.append (.plain .not (by decide) rfl fun _ _ => rfl)⟩
  | and decided lhs rhs ihl ihr =>
    cases decided with
    | some b => exact ⟨_, relocates_of_decided rfl⟩
    | none =>
      obtain ⟨a, ha⟩ := ihl
      obtain ⟨b, hb⟩ := ihr
      exact ⟨_, ha.bind fun code => hb.bind fun more => .pure fun final hmore hcode =>
        (hcode.append hmore).append (.plain .and (by decide) rfl fun _ _ => rfl)⟩
  | or decided lhs rhs ihl ihr =>
    cases decided with
    | some b => exact ⟨_, relocates_of_decided rfl⟩
    | none =>
      obtain ⟨a, ha⟩ := ihl
      obtain ⟨b, hb⟩ := ihr
      exact ⟨_, ha.bind fun code => hb.bind fun more => .pure fun final hmore hcode =>
        (hcode.append hmore).append (.plain .or (by decide) rfl fun _ _ => rfl)⟩

end Cond

namespace Enacts

variable {c : Process R S (Machine T) Unit} {i : Nat} {test code others : List Nat}

/-- A body behind a conditional jump. -/
theorem skip (ht : Acts sample c final test) (hcode : Enacts sample a (i + test.length + 2) final code) :
    Enacts sample (do c; if ← popOutcome then a else pure ()) i final
      (test ++ [Opcode.skip.word, i + test.length + 2 + code.length] ++ code) := by
  intro p hp hc last hlast
  simp only [Program.hasCode_append, Program.hasCode_cons, List.length_append, List.length_cons,
    List.length_nil, ← Nat.add_assoc] at hc hlast ⊢
  obtain ⟨⟨hct, hskip, hplace, -⟩, hcb⟩ := hc
  rw [ht i p hp hct last (by omega), runFrom_skip (by omega) hskip hplace (by omega), bind_assoc]
  refine congrArg _ (funext fun _ => ?_)
  rw [bind_assoc]
  refine congrArg _ (funext fun b => ?_)
  cases b with
  | true => exact hcode p hp hcb last (by omega)
  | false => rfl

/-- Two branches behind a selection. -/
theorem select (ht : Acts sample c final test) (hcode : Enacts sample a (i + test.length + 3) final code)
    (hothers : Enacts sample b (i + test.length + 3 + code.length) final others) :
    Enacts sample (do c; if ← popOutcome then a else b) i final
      (test ++ [Opcode.select.word, i + test.length + 3 + code.length,
        i + test.length + 3 + code.length + others.length] ++ code ++ others) := by
  intro p hp hc last hlast
  simp only [Program.hasCode_append, Program.hasCode_cons, List.length_append, List.length_cons,
    List.length_nil, ← Nat.add_assoc] at hc hlast ⊢
  obtain ⟨⟨⟨hct, hselect, hsecond, hstop, -⟩, hcb⟩, hco⟩ := hc
  rw [ht i p hp hct last (by omega), runFrom_select (by omega) hselect hsecond hstop (by omega) (by omega), bind_assoc]
  refine congrArg _ (funext fun _ => ?_)
  rw [bind_assoc]
  refine congrArg _ (funext fun b => ?_)
  cases b with
  | true =>
    -- The nested run ends where the second branch starts.
    have hrun := hcode p hp hcb (i + test.length + 3 + code.length) (by omega)
    simp only [if_true]
    rw [hrun, runFrom_stop (Nat.le_refl _), bind_assoc]
    rfl
  | false => exact hothers p hp hco last (by omega)

end Enacts

namespace Statement

variable [RepresentedScalar R]

theorem relocates_write {plain fixed : Opcode} {v : Variable} (e : Expr R)
    (hplain : ∃ a : Process R S (Machine T) Unit, ∀ final, Acts sample a final [plain.word, v.slot])
    (hfixed : ∀ x, ∃ a : Process R S (Machine T) Unit, ∀ (final : Array R) (place : Nat), final[place]? = some x →
      Acts sample a final [fixed.word, v.slot, place]) :
    ∃ action : Process R S (Machine T) Unit, Emits (compileWrite plain fixed v e) (Acts sample action) := by
  unfold compileWrite
  cases hknown : e.known? with
  | some x =>
    obtain ⟨a, ha⟩ := hfixed x
    exact ⟨a, (emits_placeOf x).bind fun place => .pure fun final hplace => ha final place hplace⟩
  | none =>
    obtain ⟨a, ha⟩ : e.Relocates S sample := e.relocates
    obtain ⟨b, hb⟩ := hplain
    exact ⟨_, ha.bind fun code => .pure fun final hcode => hcode.append (hb final)⟩

variable (sample) in
theorem relocates_assign (v : Variable) (e : Expr R) :
    ∃ action : Process R S (Machine T) Unit, Emits (compileWrite .store .storeConst v e) (Acts sample action) := by
  refine relocates_write e ⟨do let x ← popNumber; onVariables fun values => values.store v.slot x, fun final => ?_⟩
    fun x => ⟨onVariables fun values => values.store v.slot (Valued.constant x), fun final place hplace => ?_⟩
  · refine .instruction .store (by decide) rfl fun p i _ hc => ?_
    rw [execute, wordAt_eq hc.1, pure_bind]
  · refine .instruction .storeConst (by decide) rfl fun p i hp hc => ?_
    rw [execute, wordAt_eq hc.1, constantAt_eq ⟨place, hc.2.1, hp ▸ hplace⟩, pure_bind, pure_bind]

variable (sample) in
theorem relocates_pays (v : Variable) (e : Expr R) :
    ∃ action : Process R S (Machine T) Unit, Emits (compileWrite .pay .payConst v e) (Acts sample action) := by
  refine relocates_write e
    ⟨do let x ← popNumber; onVariables fun values => values.pay v.slot x sample.numeraire, fun final => ?_⟩
    fun x => ⟨onVariables fun values => values.pay v.slot (Valued.constant x) sample.numeraire,
      fun final place hplace => ?_⟩
  · refine .instruction .pay (by decide) rfl fun p i _ hc => ?_
    rw [execute, wordAt_eq hc.1, pure_bind]
  · refine .instruction .payConst (by decide) rfl fun p i hp hc => ?_
    rw [execute, wordAt_eq hc.1, constantAt_eq ⟨place, hc.2.1, hp ▸ hplace⟩, pure_bind, pure_bind]

end Statement

end PayoffPricing.Script
