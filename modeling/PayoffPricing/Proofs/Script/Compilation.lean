import PayoffPricing.Proofs.Script.Arity
import PayoffPricing.Proofs.Script.Fragment
/-!
Compiled expressions and conditions compute what their trees do.
-/

namespace PayoffPricing.Script

open Machine

variable {R S T : Type} [Scalar R] [Quantity R S T] {final : Array R} {sample : Sample T}

theorem implements_unary (op : Opcode) (hs : op ≠ .skip ∧ op ≠ .select) (hn : op.operands = 0)
    (f : T → Evaluation R S T) (h : ∀ p i, execute p sample i op = onTop f) (x : T) :
    Implements final sample [op.word] (·.pushed x) (fun _ => f x) fun y m => m.pushed y := by
  refine .instruction op hs (by simp [hn]) fun p i _ _ m s => ?_
  rw [h]
  exact exec_onTop ..

theorem implements_binary (op : Opcode) (hs : op ≠ .skip ∧ op ≠ .select) (hn : op.operands = 0)
    (f : T → T → Evaluation R S T) (h : ∀ p i, execute p sample i op = onTopTwo f) (x y : T) :
    Implements final sample [op.word] (fun m => (m.pushed x).pushed y) (fun _ => f x y)
      fun z m => m.pushed z := by
  refine .instruction op hs (by simp [hn]) fun p i _ _ m s => ?_
  rw [h]
  exact exec_onTopTwo ..

theorem implements_withConstant (op : Opcode) (hs : op ≠ .skip ∧ op ≠ .select)
    (hn : op.operands = 1) (f : T → T → Evaluation R S T)
    (h : ∀ p i, execute p sample i op = withConstant p (i + 1) f) {place : Nat} {v : R}
    (hplace : final[place]? = some v) (x : T) :
    Implements final sample [op.word, place] (·.pushed x) (fun _ => f x (Valued.constant v))
      fun y m => m.pushed y := by
  refine .instruction op hs (by simp [hn]) fun p i hp hc m s => ?_
  rw [h]
  exact exec_withConstant ⟨place, hc.1, hp ▸ hplace⟩ ..

namespace Expr

/-- The words push the value of an expression. -/
abbrev Pushes (sample : Sample T) (e : Expr R) (final : Array R) (code : List Nat) : Prop :=
  Implements (S := S) final sample code id (fun v => e.eval v sample) fun x m => m.pushed x

theorem eval_of_known {e : Expr R} {v : R} (h : e.known? = some v) (values : Variables T) :
    (e.eval values sample : Evaluation R S T) = pure (Valued.constant v) := by
  cases e <;> simp_all [known?, eval]

omit [Quantity R S T] in
theorem compile_of_known {e : Expr R} {v : R} (h : e.known? = some v) :
    e.compile = compileConst v := by
  cases e with
  | call known f args => cases known <;> simp_all [known?, compile]
  | _ => simp_all [known?, compile]

theorem implements_opcodeConst (op : Operator) {place : Nat} {v : R}
    (hplace : final[place]? = some v) (x : T) :
    Implements (S := S) final sample [op.opcodeConst.word, place] (·.pushed x)
      (fun _ => Intrinsic.binary op x (Valued.constant v)) fun z m => m.pushed z := by
  cases op <;> exact implements_withConstant _ (by decide) rfl _ (fun _ _ => rfl) hplace x

theorem implements_opcode (op : Operator) (x y : T) :
    Implements (S := S) final sample [op.opcode.word] (fun m => (m.pushed x).pushed y)
      (fun _ => Intrinsic.binary op x y) fun z m => m.pushed z := by
  cases op <;> exact implements_binary _ (by decide) rfl _ (fun _ _ => rfl) x y

/-- The words of a chain put a pick among the top of the stack and the values in its place. -/
abbrev Picks (sample : Sample T) (f : Function) (es : List (Expr R)) (final : Array R)
    (code : List Nat) : Prop :=
  ∀ x : T, Implements (S := S) final sample code (·.pushed x)
    (fun v => return (← evalList v sample es).foldl (Intrinsic.pick f) x) fun y m => m.pushed y

section

variable [FaithfulQuantity R S T]

/-- The operators with the left operand from the pool; sums and products take it as the right one. -/
theorem implements_constOpcode (op : Operator) {place : Nat} {v : R}
    (hplace : final[place]? = some v) (y : T) :
    Implements (S := S) final sample [op.constOpcode.word, place] (·.pushed y)
      (fun _ => Intrinsic.binary op (Valued.constant v) y) fun z m => m.pushed z := by
  cases op with
  | add =>
    refine (implements_withConstant .addConst (by decide) rfl _ (fun _ _ => rfl) hplace y).congr
      fun _ => ?_
    simp [Intrinsic.binary, FaithfulQuantity.add_constant]
  | mul =>
    refine (implements_withConstant .mulConst (by decide) rfl _ (fun _ _ => rfl) hplace y).congr
      fun _ => ?_
    simp [Intrinsic.binary, FaithfulQuantity.mul_constant]
  | sub =>
    exact implements_withConstant .constSub (by decide) rfl
      (fun x c => Intrinsic.binary .sub c x) (fun _ _ => rfl) hplace y
  | div =>
    exact implements_withConstant .constDiv (by decide) rfl
      (fun x c => Intrinsic.binary .div c x) (fun _ _ => rfl) hplace y
  | pow =>
    exact implements_withConstant .constPow (by decide) rfl
      (fun x c => Intrinsic.binary .pow c x) (fun _ _ => rfl) hplace y

end

variable [FaithfulScalar R]

theorem emits_compileConst (v : R) :
    Emits (compileConst v) fun final code => Implements (S := S) final sample code id
      (fun _ => pure (Valued.constant v)) fun (x : T) m => m.pushed x := by
  refine (emits_placeOf v).bind fun place => .pure fun final hplace => ?_
  refine .instruction .const (by decide) rfl fun p i hp hc m s => ?_
  simp [execute, exec_constantAt ⟨place, hc.1, hp ▸ hplace⟩]

theorem emits_of_known {e : Expr R} {v : R} (h : e.known? = some v) :
    Emits e.compile (e.Pushes (S := S) sample) := by
  rw [compile_of_known h]
  refine (emits_compileConst v).mono fun final code hcode => hcode.congr fun values => ?_
  rw [eval_of_known h]

theorem emits_compileChain (f : Function) {plain fixed : Opcode} {es : List (Expr R)}
    (hp : ∀ x y : T, ∀ final, Implements (S := S) final sample [plain.word]
      (fun m => (m.pushed x).pushed y) (fun _ => pure (Intrinsic.pick f x y)) fun z m => m.pushed z)
    (hf : ∀ (x : T) v final place, final[place]? = some v → Implements (S := S) final sample
      [fixed.word, place] (·.pushed x) (fun _ => pure (Intrinsic.pick f x (Valued.constant v)))
      fun z m => m.pushed z)
    (hes : ∀ e ∈ es, Emits e.compile (e.Pushes (S := S) sample)) :
    Emits (compileChain plain fixed es) (Picks (S := S) sample f es) := by
  induction es with
  | nil => exact .pure fun final x => .nil x (fun _ => rfl) fun _ => by simp [evalList]
  | cons e es ih =>
    have hrest := ih fun d hd => hes d (List.mem_cons_of_mem e hd)
    cases hknown : e.known? with
    | some v =>
      simp only [compileChain, hknown]
      refine (emits_placeOf v).bind fun place => hrest.bind fun rest =>
        .pure fun final hrest hplace x => ?_
      refine ((hf x v final place hplace).append fun y => hrest y).congr fun values => ?_
      simp [evalList, eval_of_known hknown]
    | none =>
      simp only [compileChain, hknown]
      refine (hes e (by simp)).bind fun code => hrest.bind fun rest =>
        .pure fun final hrest hcode x => ?_
      refine ((hcode.frame (·.pushed x) fun _ => rfl).append fun y =>
        (hp x y final).append fun z => hrest z).congr fun values => ?_
      simp [evalList]

variable [FaithfulQuantity R S T]

theorem emits_binary {op : Operator} {lhs rhs : Expr R}
    (hl : Emits lhs.compile (lhs.Pushes (S := S) sample))
    (hr : Emits rhs.compile (rhs.Pushes (S := S) sample)) :
    Emits (binary none op lhs rhs).compile ((binary none op lhs rhs).Pushes (S := S) sample) := by
  cases hknown : rhs.known? with
  | some v =>
    simp only [compile, hknown]
    refine hl.bind fun code => (emits_placeOf v).bind fun place => .pure fun final hplace hcode => ?_
    refine (hcode.append fun x => implements_opcodeConst op hplace x).congr fun values => ?_
    simp [eval, eval_of_known hknown]
  | none =>
    cases hfixed : lhs.known? with
    | some v =>
      simp only [compile, hknown, hfixed]
      refine hr.bind fun code => (emits_placeOf v).bind fun place =>
        .pure fun final hplace hcode => ?_
      refine (hcode.append fun y => implements_constOpcode op hplace y).congr fun values => ?_
      simp [eval, eval_of_known hfixed]
    | none =>
      simp only [compile, hknown, hfixed]
      refine hl.bind fun code => hr.bind fun more => .pure fun final hmore hcode => ?_
      rw [List.append_assoc]
      refine (hcode.append fun x => (hmore.frame (·.pushed x) fun _ => rfl).append fun y =>
        implements_opcode op x y).congr fun values => ?_
      simp [eval]

omit [FaithfulScalar R] [FaithfulQuantity R S T] in
theorem implements_smooth (x above below width : T) :
    Implements (S := S) final sample [Opcode.smooth.word]
      (fun m => (((m.pushed x).pushed above).pushed below).pushed width)
      (fun _ => Intrinsic.smooth x above below width) fun y m => m.pushed y := by
  refine .instruction .smooth (by decide) rfl fun p i _ _ m s => ?_
  simp only [execute, Process.exec_bind, exec_popNumber]
  exact exec_onTop ..

omit [FaithfulScalar R] [FaithfulQuantity R S T] in
/-- Functions of one number. -/
theorem emits_unary (f : Function) {op : Opcode} {x : Expr R}
    (hc : (call none f [x]).compile = (do return (← compileList [x]) ++ [op.word]))
    (he : ∀ values, ((call none f [x]).eval values sample : Evaluation R S T) =
      x.eval values sample >>= Intrinsic.unary f)
    (ho : ∀ y : T, ∀ final, Implements (S := S) final sample [op.word] (·.pushed y)
      (fun _ => Intrinsic.unary f y) fun z m => m.pushed z)
    (hx : Emits x.compile (x.Pushes (S := S) sample)) :
    Emits (call none f [x]).compile ((call none f [x]).Pushes (S := S) sample) := by
  rw [hc]
  simp only [compileList, bind_assoc, pure_bind, List.append_nil]
  refine hx.bind fun code => .pure fun final hcode => ?_
  exact (hcode.append fun y => ho y final).congr fun values => (he values).symm

omit [FaithfulQuantity R S T] in
/-- The least or the greatest of several numbers. -/
theorem emits_extreme (f : Function) {plain fixed : Opcode} {x : Expr R} {rest : List (Expr R)}
    (hc : (call none f (x :: rest)).compile =
      (do return (← x.compile) ++ (← compileChain plain fixed rest)))
    (he : ∀ values, ((call none f (x :: rest)).eval values sample : Evaluation R S T) = (do
      let first ← x.eval values sample
      return (← evalList values sample rest).foldl (Intrinsic.pick f) first))
    (hplain : ∀ x y : T, ∀ final, Implements (S := S) final sample [plain.word]
      (fun m => (m.pushed x).pushed y) (fun _ => pure (Intrinsic.pick f x y)) fun z m => m.pushed z)
    (hfixed : ∀ (x : T) v final place, final[place]? = some v → Implements (S := S) final sample
      [fixed.word, place] (·.pushed x) (fun _ => pure (Intrinsic.pick f x (Valued.constant v)))
      fun z m => m.pushed z)
    (hes : ∀ e ∈ x :: rest, Emits e.compile (e.Pushes (S := S) sample)) :
    Emits (call none f (x :: rest)).compile ((call none f (x :: rest)).Pushes (S := S) sample) := by
  have hrest := emits_compileChain f hplain hfixed fun e he => hes e (List.mem_cons_of_mem x he)
  rw [hc]
  refine (hes x (by simp)).bind fun code => hrest.bind fun more => .pure fun final hmore hcode => ?_
  exact (hcode.append fun y => hmore y).congr fun values => (he values).symm

omit [FaithfulScalar R] [FaithfulQuantity R S T] in
theorem emits_smooth {x above below width : Expr R}
    (hx : Emits x.compile (x.Pushes (S := S) sample))
    (ha : Emits above.compile (above.Pushes (S := S) sample))
    (hb : Emits below.compile (below.Pushes (S := S) sample))
    (hw : Emits width.compile (width.Pushes (S := S) sample)) :
    Emits (call none .smooth [x, above, below, width]).compile
      ((call none .smooth [x, above, below, width]).Pushes (S := S) sample) := by
  simp only [compile, compileList, bind_assoc, pure_bind, List.append_nil]
  refine hx.bind fun xs => ha.bind fun as => hb.bind fun bs => hw.bind fun ws =>
    .pure fun final hws hbs has hxs => ?_
  simp only [List.append_assoc]
  refine (hxs.append fun x => (has.frame (·.pushed x) fun _ => rfl).append fun a =>
    (hbs.frame (fun m => (m.pushed x).pushed a) fun _ => rfl).append fun b =>
    (hws.frame (fun m => ((m.pushed x).pushed a).pushed b) fun _ => rfl).append fun w =>
    implements_smooth x a b w).congr fun values => ?_
  simp [eval]

omit [FaithfulQuantity R S T] in
theorem emits_call {f : Function} {args : List (Expr R)} (hf : f.takes args.length = true)
    (hargs : ∀ e ∈ args, Emits e.compile (e.Pushes (S := S) sample)) :
    Emits (call none f args).compile ((call none f args).Pushes (S := S) sample) := by
  match f, args with
  | .log, [x] =>
    exact emits_unary .log rfl (fun _ => rfl)
      (fun y _ => implements_unary .log (by decide) rfl _ (fun _ _ => rfl) y) (hargs x (by simp))
  | .sqrt, [x] =>
    exact emits_unary .sqrt rfl (fun _ => rfl)
      (fun y _ => implements_unary .sqrt (by decide) rfl _ (fun _ _ => rfl) y) (hargs x (by simp))
  | .exp, [x] =>
    exact emits_unary .exp rfl (fun _ => rfl)
      (fun y _ => implements_unary .exp (by decide) rfl _ (fun _ _ => rfl) y) (hargs x (by simp))
  | .min, x :: rest =>
    exact emits_extreme .min rfl (fun _ => rfl)
      (fun x y _ => implements_binary .min (by decide) rfl _ (fun _ _ => rfl) x y)
      (fun x v _ _ hplace => implements_withConstant .minConst (by decide) rfl
        (fun x y => pure (Intrinsic.pick .min x y)) (fun _ _ => rfl) hplace x) hargs
  | .max, x :: rest =>
    exact emits_extreme .max rfl (fun _ => rfl)
      (fun x y _ => implements_binary .max (by decide) rfl _ (fun _ _ => rfl) x y)
      (fun x v _ _ hplace => implements_withConstant .maxConst (by decide) rfl
        (fun x y => pure (Intrinsic.pick .max x y)) (fun _ _ => rfl) hplace x) hargs
  | .smooth, [x, above, below, width] =>
    exact emits_smooth (hargs x (by simp)) (hargs above (by simp)) (hargs below (by simp))
      (hargs width (by simp))

-- The linter does not see that the two theorems call each other.
set_option linter.unusedSectionVars false in
mutual

theorem emits_compile : ∀ e : Expr R, e.hasArities = true → Emits e.compile (e.Pushes (S := S) sample)
  | literal _, _ => emits_of_known rfl
  | read (some _) _, _ => emits_of_known rfl
  | neg (some _) _, _ => emits_of_known rfl
  | plus (some _) _, _ => emits_of_known rfl
  | binary (some _) _ _ _, _ => emits_of_known rfl
  | call (some _) _ _, _ => emits_of_known rfl
  | spot, _ => .pure fun _ => .instruction .spot (by decide) rfl fun _ _ _ _ _ _ => rfl
  | read none x, _ => .pure fun _ => .instruction .load (by decide) rfl fun p i _ hc m s => by
    simp only [execute, Process.exec_bind, exec_wordAt hc.1, Process.exec_get,
      Process.exec_ofEvaluation, eval, id_eq]
    rcases (m.values.fetch x.slot : Evaluation R S T).exec s with ⟨_ | _, _⟩ <;> rfl
  | neg none arg, h => by
    refine (emits_compile arg h).bind fun code => .pure fun final hcode => ?_
    exact (hcode.append fun y => implements_unary .neg (by decide) rfl _ (fun _ _ => rfl) y).congr
      fun _ => rfl
  | plus none arg, h => emits_compile arg h
  | binary none op lhs rhs, h => by
    rw [hasArities, Bool.and_eq_true] at h
    exact emits_binary (emits_compile lhs h.1) (emits_compile rhs h.2)
  | call none f args, h => by
    rw [hasArities, Bool.and_eq_true] at h
    exact emits_call h.1 (emits_all args h.2)

theorem emits_all : ∀ es : List (Expr R), haveArities es = true →
    ∀ e ∈ es, Emits e.compile (e.Pushes (S := S) sample)
  | [], _ => by simp
  | d :: ds, h => by
    rw [haveArities, Bool.and_eq_true] at h
    exact List.forall_mem_cons.2 ⟨emits_compile d h.1, emits_all ds h.2⟩

end

end Expr

namespace Cond

/-- The words push the outcome of a condition. -/
abbrev Decides (sample : Sample T) (c : Cond R) (final : Array R) (code : List Nat) : Prop :=
  Implements (S := S) final sample code id (fun v => c.eval v sample) fun b m => m.decided b

theorem implements_outcome (b : Bool) :
    Implements (S := S) final sample [compile.outcome b] id (fun _ => pure b)
      fun b m => m.decided b := by
  cases b with
  | true => exact .instruction .yes (by decide) rfl fun _ _ _ _ _ _ => rfl
  | false => exact .instruction .no (by decide) rfl fun _ _ _ _ _ _ => rfl

theorem implements_test (r : Relation) {place : Nat} {tolerance : R}
    (hplace : final[place]? = some tolerance) (x : T) :
    Implements (S := S) final sample [r.opcode.word, place] (·.pushed x)
      (fun _ => pure (Intrinsic.holds r (Valued.value x) tolerance)) fun b m => m.decided b := by
  refine .instruction r.opcode (by cases r <;> decide) (by cases r <;> rfl) fun p i hp hc m s => ?_
  have hexec : execute (S := S) p sample i r.opcode = (do test r (← constantAt p (i + 1))) := by
    cases r <;> rfl
  simp [hexec, exec_constantAt ⟨place, hc.1, hp ▸ hplace⟩]

theorem implements_outcomes (op : Opcode) (hs : op ≠ .skip ∧ op ≠ .select) (hn : op.operands = 0)
    (f : Bool → Bool → Bool) (h : ∀ p i, execute (S := S) p sample i op = onOutcomes f)
    (a b : Bool) :
    Implements (S := S) final sample [op.word] (fun m => (m.decided a).decided b)
      (fun _ => pure (f a b)) fun c m => m.decided c := by
  refine .instruction op hs (by simp [hn]) fun p i _ _ m s => ?_
  rw [h, exec_onOutcomes]
  rfl

variable [FaithfulScalar R] [FaithfulQuantity R S T]

theorem emits_compile (c : Cond R) (h : c.hasArities = true) :
    Emits c.compile (c.Decides (S := S) sample) := by
  induction c with
  | literal b => exact .pure fun _ => implements_outcome b
  | compare decided c =>
    cases decided with
    | some b => exact .pure fun _ => implements_outcome b
    | none =>
      cases hknown : c.arg.known? with
      | some v =>
        simp only [compile, hknown]
        refine .pure fun _ => (implements_outcome _).congr fun values => ?_
        simp [eval, Expr.eval_of_known hknown, FaithfulQuantity.value_constant (S := S) (T := T)]
      | none =>
        simp only [compile, hknown]
        have harg : Emits c.arg.compile (c.arg.Pushes (S := S) sample) :=
          Expr.emits_compile c.arg h
        refine harg.bind fun code => (emits_placeOf _).bind fun place =>
          .pure fun final hplace hcode => ?_
        exact (hcode.append fun x => implements_test c.relation hplace x).congr fun _ => rfl
  | not decided arg ih =>
    cases decided with
    | some b => exact .pure fun _ => implements_outcome b
    | none =>
      refine (ih h).bind fun code => .pure fun final hcode => ?_
      have hnot (b : Bool) : Implements (S := S) final sample [Opcode.not.word] (·.decided b)
          (fun _ => pure !b) fun b m => m.decided b :=
        .instruction .not (by decide) rfl fun _ _ _ _ _ _ => rfl
      exact (hcode.append hnot).congr fun _ => rfl
  | and decided lhs rhs ihl ihr =>
    cases decided with
    | some b => exact .pure fun _ => implements_outcome b
    | none =>
      rw [hasArities, Bool.and_eq_true] at h
      refine (ihl h.1).bind fun code => (ihr h.2).bind fun more => .pure fun final hmore hcode => ?_
      rw [List.append_assoc]
      exact (hcode.append fun a => (hmore.frame (·.decided a) fun _ => rfl).append fun b =>
        implements_outcomes .and (by decide) rfl (· && ·) (fun _ _ => rfl) a b).congr fun _ => rfl
  | or decided lhs rhs ihl ihr =>
    cases decided with
    | some b => exact .pure fun _ => implements_outcome b
    | none =>
      rw [hasArities, Bool.and_eq_true] at h
      refine (ihl h.1).bind fun code => (ihr h.2).bind fun more => .pure fun final hmore hcode => ?_
      rw [List.append_assoc]
      exact (hcode.append fun a => (hmore.frame (·.decided a) fun _ => rfl).append fun b =>
        implements_outcomes .or (by decide) rfl (· || ·) (fun _ _ => rfl) a b).congr fun _ => rfl

end Cond

end PayoffPricing.Script
