import PayoffPricing.Proofs.Script.CodeTyping
import PayoffPricing.Proofs.Script.Compilation
/-!
Events that fit their table are compiled to typed code, within the heights that compilation foresees.
-/

namespace PayoffPricing.Script

open Program

variable {R : Type} {n k b : Nat} {limit : Heights}

/-- The words take stacks of some heights to stacks of others, in every program that has them and the constants. -/
def Types (n : Nat) (limit : Heights) (final : Array R) (code : List Nat) (h h' : Heights) : Prop :=
  ∀ (p : Program R) (i : Nat), p.constants = final → p.HasCode i code → p.Typed n limit i h (i + code.length) h'

namespace Types

variable {final : Array R} {code more : List Nat} {h h' h'' : Heights}

theorem nil : Types n limit final [] h h := fun _ _ _ _ => .nil

theorem append (hfirst : Types n limit final code h h') (hmore : Types n limit final more h' h'') :
    Types n limit final (code ++ more) h h'' := by
  intro p i hp hc
  rw [Program.hasCode_append] at hc
  rw [List.length_append, ← Nat.add_assoc]
  exact .append (hfirst p i hp hc.1) (hmore p _ hp hc.2)

/-- An instruction with its operands, on stacks that hold what it takes. -/
theorem instruction (op : Opcode) {operands : List Nat} (hj : op ≠ .skip ∧ op ≠ .select)
    (hlength : operands.length = op.operands)
    (hp : ∀ (p : Program R) (i : Nat), p.constants = final → p.HasCode (i + 1) operands → p.OperandsAt n i op)
    (hk : k + op.effect.taken.numbers ≤ limit.numbers) (hb : b + op.effect.taken.outcomes ≤ limit.outcomes) :
    Types n limit final (op.word :: operands) ⟨k + op.effect.taken.numbers, b + op.effect.taken.outcomes⟩
      ⟨k + op.effect.put.numbers, b + op.effect.put.outcomes⟩ := by
  intro p i hpool hc
  rw [List.length_cons, hlength, Nat.add_comm op.operands, ← Nat.add_assoc]
  exact .instruction op hc.1 hj (hp p i hpool hc.2) hk hb

theorem plain (op : Opcode) (hj : op ≠ .skip ∧ op ≠ .select) (hlength : op.operands = 0)
    (hp : ∀ (p : Program R) (i : Nat), p.OperandsAt n i op)
    (hk : k + op.effect.taken.numbers ≤ limit.numbers) (hb : b + op.effect.taken.outcomes ≤ limit.outcomes) :
    Types n limit final [op.word] ⟨k + op.effect.taken.numbers, b + op.effect.taken.outcomes⟩
      ⟨k + op.effect.put.numbers, b + op.effect.put.outcomes⟩ :=
  instruction op hj hlength.symm (fun p i _ _ => hp p i) hk hb

theorem fixed (op : Opcode) (hj : op ≠ .skip ∧ op ≠ .select) (hlength : op.operands = 1)
    (hp : ∀ (p : Program R) (i : Nat), p.ConstantAt (i + 1) → p.OperandsAt n i op)
    (hk : k + op.effect.taken.numbers ≤ limit.numbers) (hb : b + op.effect.taken.outcomes ≤ limit.outcomes)
    {place : Nat} (hplace : ∃ v, final[place]? = some v) :
    Types n limit final [op.word, place] ⟨k + op.effect.taken.numbers, b + op.effect.taken.outcomes⟩
      ⟨k + op.effect.put.numbers, b + op.effect.put.outcomes⟩ := by
  refine instruction op hj hlength.symm (fun p i hpool hc => hp p i ?_) hk hb
  obtain ⟨v, hv⟩ := hplace
  exact ⟨v, place, hc.1, hpool ▸ hv⟩

theorem onNumbers (op : Opcode) {count : Nat} (heffect : op.effect = ⟨⟨count, 0⟩, ⟨1, 0⟩⟩)
    (hj : op ≠ .skip ∧ op ≠ .select) (hlength : op.operands = 0)
    (hp : ∀ (p : Program R) (i : Nat), p.OperandsAt n i op) (hk : k + count ≤ limit.numbers)
    (hb : b ≤ limit.outcomes) : Types n limit final [op.word] ⟨k + count, b⟩ ⟨k + 1, b⟩ := by
  have h : Types n limit final [op.word] _ _ := plain (k := k) (b := b) op hj hlength hp (by rw [heffect]; exact hk)
    (by rw [heffect]; exact hb)
  rwa [heffect] at h

theorem withConstant (op : Opcode) (heffect : op.effect = ⟨⟨1, 0⟩, ⟨1, 0⟩⟩) (hj : op ≠ .skip ∧ op ≠ .select)
    (hlength : op.operands = 1) (hp : ∀ (p : Program R) (i : Nat), p.ConstantAt (i + 1) → p.OperandsAt n i op)
    (hk : k + 1 ≤ limit.numbers) (hb : b ≤ limit.outcomes) {place : Nat} (hplace : ∃ v, final[place]? = some v) :
    Types n limit final [op.word, place] ⟨k + 1, b⟩ ⟨k + 1, b⟩ := by
  have h := fixed (k := k) (b := b) op hj hlength hp (by rw [heffect]; exact hk) (by rw [heffect]; exact hb) hplace
  rwa [heffect] at h

end Types

variable [Scalar R]

theorem emits_place (v : R) : Emits (placeOf v) fun final place => ∃ c, final[place]? = some c := by
  intro pool
  have hread (place : Nat) (pool final : Array R) (hf : pool.toList <+: final.toList) (hlt : place < pool.size) :
      ∃ c, final[place]? = some c := by
    have hle : pool.size ≤ final.size := by simpa using hf.length_le
    exact ⟨final[place], Array.getElem?_eq_getElem (Nat.lt_of_lt_of_le hlt hle)⟩
  simp only [placeOf]
  split
  · next place hplace =>
    obtain ⟨hlt, -, -⟩ := Array.findIdx?_eq_some_iff_getElem.1 hplace
    exact ⟨List.prefix_refl _, fun final hf => hread place pool final hf hlt⟩
  · exact ⟨by simp, fun final hf => hread pool.size (pool.push v) final hf (by simp)⟩

namespace Expr

/-- The words put one number on stacks that leave room for the height of the expression. -/
abbrev TypesPush (n : Nat) (limit : Heights) (height : Nat) (final : Array R) (code : List Nat) : Prop :=
  ∀ k b, k + height ≤ limit.numbers → b ≤ limit.outcomes → Types n limit final code ⟨k, b⟩ ⟨k + 1, b⟩

omit [Scalar R] in
theorem height_of_known {e : Expr R} {v : R} (h : e.known? = some v) : e.height = 1 := by
  cases e with
  | literal | spot | read => rfl
  | neg known | plus known | binary known | call known =>
    obtain rfl : known = some v := h
    rfl

theorem emits_const (v : R) : Emits (compileConst v) (TypesPush n limit 1) :=
  (emits_place v).bind fun _ => .pure fun _ hplace _ _ hk hb =>
    .fixed .const (by decide) rfl (fun _ _ h => h) (Nat.le_of_succ_le hk) hb hplace

theorem emits_known {e : Expr R} {v : R} (h : e.known? = some v) : Emits e.compile (TypesPush n limit e.height) := by
  rw [compile_of_known h, height_of_known h]
  exact emits_const v

theorem emits_list {es : List (Expr R)} (below : Nat)
    (hes : ∀ e ∈ es, Emits e.compile (TypesPush n limit e.height)) :
    Emits (compileList es) fun final code => ∀ k b, k + listHeight below es ≤ limit.numbers → b ≤ limit.outcomes →
      Types n limit final code ⟨k + below, b⟩ ⟨k + below + es.length, b⟩ := by
  induction es generalizing below with
  | nil => exact .pure fun _ _ _ _ _ => .nil
  | cons e es ih =>
    rw [List.forall_mem_cons] at hes
    refine hes.1.bind fun code => (ih (below + 1) hes.2).bind fun more => .pure fun final hmore hcode k b hk hb => ?_
    have hfirst : k + below + e.height ≤ limit.numbers := by
      simp only [listHeight] at hk
      omega
    have hrest : k + listHeight (below + 1) es ≤ limit.numbers := by
      simp only [listHeight] at hk
      omega
    have hlength : k + below + (e :: es).length = k + (below + 1) + es.length := by
      simp only [List.length_cons]
      omega
    rw [hlength]
    exact (hcode (k + below) b hfirst hb).append (hmore k b hrest hb)

theorem emits_chain {plain fixed : Opcode} {es : List (Expr R)}
    (hplain : ∀ final k b, k + 2 ≤ limit.numbers → b ≤ limit.outcomes →
      Types (R := R) n limit final [plain.word] ⟨k + 2, b⟩ ⟨k + 1, b⟩)
    (hfixed : ∀ final place k b, (∃ v, final[place]? = some v) → k + 1 ≤ limit.numbers → b ≤ limit.outcomes →
      Types (R := R) n limit final [fixed.word, place] ⟨k + 1, b⟩ ⟨k + 1, b⟩)
    (hes : ∀ e ∈ es, 1 ≤ e.height ∧ Emits e.compile (TypesPush n limit e.height)) :
    Emits (compileChain plain fixed es) fun final code => ∀ k b, k + 1 ≤ limit.numbers →
      k + chainHeight es ≤ limit.numbers → b ≤ limit.outcomes →
      Types n limit final code ⟨k + 1, b⟩ ⟨k + 1, b⟩ := by
  induction es with
  | nil => exact .pure fun _ _ _ _ _ _ => .nil
  | cons e es ih =>
    rw [List.forall_mem_cons] at hes
    cases hknown : e.known? with
    | some v =>
      simp only [compileChain, chainHeight, hknown]
      refine (emits_place v).bind fun place => (ih hes.2).bind fun rest => .pure fun final hrest hplace k b hk hc hb => ?_
      exact (hfixed final place k b hplace hk hb).append (hrest k b hk hc hb)
    | none =>
      simp only [compileChain, chainHeight, hknown]
      refine hes.1.2.bind fun code => (ih hes.2).bind fun rest => .pure fun final hrest hcode k b hk hc hb => ?_
      have hheight := hes.1.1
      refine (hcode (k + 1) b (by omega) hb).append ?_
      exact (hplain final k b (by omega) hb).append (hrest k b hk (by omega) hb)

section Heights

omit [Scalar R]

theorem le_listHeight (below : Nat) (es : List (Expr R)) : below + es.length ≤ listHeight below es := by
  induction es generalizing below with
  | nil => exact Nat.le_refl _
  | cons e es ih =>
    have := ih (below + 1)
    simp only [listHeight, List.length_cons]
    omega

theorem height_pos : (e : Expr R) → e.Fits n → 1 ≤ e.height
  | literal _, _ => Nat.le_refl _
  | spot, _ => Nat.le_refl _
  | read _ _, _ => Nat.le_refl _
  | neg (some _) _, _ => Nat.le_refl _
  | neg none arg, h => height_pos arg h
  | plus (some _) _, _ => Nat.le_refl _
  | plus none arg, h => height_pos arg h
  | binary (some _) _ _ _, _ => Nat.le_refl _
  | binary none _ lhs rhs, h => by
    have hl := height_pos lhs h.1
    have hr := height_pos rhs h.2
    simp only [height]
    split
    · exact hl
    · exact hr
    · omega
  | call (some _) _ _, _ => Nat.le_refl _
  | call none f args, h => by
    obtain ⟨hf, hargs⟩ := h
    match f, args with
    | .log, [x] | .sqrt, [x] | .exp, [x] | .smooth, [x, above, below, width] =>
      exact Nat.le_trans (by simp) (le_listHeight 0 _)
    | .min, x :: rest | .max, x :: rest =>
      exact Nat.le_trans (height_pos x hargs.1) (Nat.le_max_left _ _)

end Heights

theorem emits_typedBinary {op : Operator} {lhs rhs : Expr R} (hl : Emits lhs.compile (TypesPush n limit lhs.height))
    (hr : Emits rhs.compile (TypesPush n limit rhs.height)) (hlpos : 1 ≤ lhs.height) (hrpos : 1 ≤ rhs.height) :
    Emits (binary none op lhs rhs).compile (TypesPush n limit (binary none op lhs rhs).height) := by
  have hright {final : Array R} {place k b : Nat} (hplace : ∃ v, final[place]? = some v)
      (hk : k + 1 ≤ limit.numbers) (hb : b ≤ limit.outcomes) :
      Types n limit final [op.opcodeConst.word, place] ⟨k + 1, b⟩ ⟨k + 1, b⟩ :=
    .withConstant op.opcodeConst (by cases op <;> rfl) (by cases op <;> decide) (by cases op <;> rfl)
      (by cases op <;> exact fun _ _ h => h) hk hb hplace
  have hleft {final : Array R} {place k b : Nat} (hplace : ∃ v, final[place]? = some v)
      (hk : k + 1 ≤ limit.numbers) (hb : b ≤ limit.outcomes) :
      Types n limit final [op.constOpcode.word, place] ⟨k + 1, b⟩ ⟨k + 1, b⟩ :=
    .withConstant op.constOpcode (by cases op <;> rfl) (by cases op <;> decide) (by cases op <;> rfl)
      (by cases op <;> exact fun _ _ h => h) hk hb hplace
  have hplain {final : Array R} {k b : Nat} (hk : k + 2 ≤ limit.numbers) (hb : b ≤ limit.outcomes) :
      Types n limit final [op.opcode.word] ⟨k + 2, b⟩ ⟨k + 1, b⟩ :=
    .onNumbers op.opcode (by cases op <;> rfl) (by cases op <;> decide) (by cases op <;> rfl)
      (by cases op <;> exact fun _ _ => trivial) hk hb
  cases hknown : rhs.known? with
  | some v =>
    simp only [compile, height, hknown]
    refine hl.bind fun code => (emits_place v).bind fun place => .pure fun final hplace hcode k b hk hb => ?_
    exact (hcode k b hk hb).append (hright hplace (by omega) hb)
  | none =>
    cases hsome : lhs.known? with
    | some v =>
      simp only [compile, height, hknown, hsome]
      refine hr.bind fun code => (emits_place v).bind fun place => .pure fun final hplace hcode k b hk hb => ?_
      exact (hcode k b hk hb).append (hleft hplace (by omega) hb)
    | none =>
      simp only [compile, height, hknown, hsome]
      refine hl.bind fun code => hr.bind fun more => .pure fun final hmore hcode k b hk hb => ?_
      exact ((hcode k b (by omega) hb).append (hmore (k + 1) b (by omega) hb)).append (hplain (by omega) hb)

theorem emits_typedCall {f : Function} {args : List (Expr R)} (hf : f.takes args.length = true)
    (hargs : ∀ e ∈ args, 1 ≤ e.height ∧ Emits e.compile (TypesPush n limit e.height)) :
    Emits (call none f args).compile (TypesPush n limit (call none f args).height) := by
  have hall := emits_list 0 fun e he => (hargs e he).2
  have hlength := le_listHeight 0 args
  -- The words of the arguments, and then an instruction that takes all of them.
  have happly (o : Opcode) (hj : o ≠ .skip ∧ o ≠ .select) (ho : o.operands = 0)
      (hp : ∀ (p : Program R) (i : Nat), p.OperandsAt n i o) (heffect : o.effect = ⟨⟨args.length, 0⟩, ⟨1, 0⟩⟩) :
      Emits (do return (← compileList args) ++ [o.word]) (TypesPush n limit (listHeight 0 args)) := by
    refine hall.bind fun code => .pure fun final hcode k b hk hb => ?_
    have hput := hcode k b hk hb
    simp only [Nat.add_zero] at hput
    exact hput.append (.onNumbers o heffect hj ho hp (by omega) hb)
  -- The words of the first argument, and then those that combine it with the others.
  have hpick (plain fixed : Opcode) (x : Expr R) (rest : List (Expr R)) (hes : x :: rest = args)
      (hplain : ∀ final k b, k + 2 ≤ limit.numbers → b ≤ limit.outcomes →
        Types (R := R) n limit final [plain.word] ⟨k + 2, b⟩ ⟨k + 1, b⟩)
      (hfixed : ∀ final place k b, (∃ v, final[place]? = some v) → k + 1 ≤ limit.numbers → b ≤ limit.outcomes →
        Types (R := R) n limit final [fixed.word, place] ⟨k + 1, b⟩ ⟨k + 1, b⟩) :
      Emits (do return (← x.compile) ++ (← compileChain plain fixed rest))
        (TypesPush n limit (max x.height (chainHeight rest))) := by
    subst hes
    rw [List.forall_mem_cons] at hargs
    refine hargs.1.2.bind fun code => (emits_chain hplain hfixed hargs.2).bind fun more =>
      .pure fun final hmore hcode k b hk hb => ?_
    have hpos := hargs.1.1
    exact (hcode k b (by omega) hb).append (hmore k b (by omega) (by omega) hb)
  match f, args with
  | .log, [x] => exact happly .log (by decide) rfl (fun _ _ => trivial) rfl
  | .sqrt, [x] => exact happly .sqrt (by decide) rfl (fun _ _ => trivial) rfl
  | .exp, [x] => exact happly .exp (by decide) rfl (fun _ _ => trivial) rfl
  | .smooth, [x, above, below, width] => exact happly .smooth (by decide) rfl (fun _ _ => trivial) rfl
  | .min, x :: rest =>
    exact hpick .min .minConst x rest rfl
      (fun _ _ _ hk hb => .onNumbers .min rfl (by decide) rfl (fun _ _ => trivial) hk hb)
      (fun _ _ _ _ hplace hk hb => .withConstant .minConst rfl (by decide) rfl (fun _ _ h => h) hk hb hplace)
  | .max, x :: rest =>
    exact hpick .max .maxConst x rest rfl
      (fun _ _ _ hk hb => .onNumbers .max rfl (by decide) rfl (fun _ _ => trivial) hk hb)
      (fun _ _ _ _ hplace hk hb => .withConstant .maxConst rfl (by decide) rfl (fun _ _ h => h) hk hb hplace)

mutual

theorem emits_typed : (e : Expr R) → e.Fits n → Emits e.compile (TypesPush n limit e.height)
  | literal _, _ => emits_known rfl
  | read (some _) _, _ => emits_known rfl
  | neg (some _) _, _ => emits_known rfl
  | plus (some _) _, _ => emits_known rfl
  | binary (some _) _ _ _, _ => emits_known rfl
  | call (some _) _ _, _ => emits_known rfl
  | spot, _ => .pure fun _ _ _ hk hb =>
    .plain .spot (by decide) rfl (fun _ _ => trivial) (Nat.le_of_succ_le hk) hb
  | read none x, h => .pure fun _ _ _ hk hb =>
    .instruction .load (by decide) rfl (fun _ _ _ hc => ⟨x.slot, hc.1, h⟩) (Nat.le_of_succ_le hk) hb
  | neg none arg, h => (emits_typed arg h).bind fun code => .pure fun _ hcode k b hk hb => by
    have hpos := height_pos arg h
    simp only [height] at hk
    exact (hcode k b hk hb).append (.onNumbers .neg rfl (by decide) rfl (fun _ _ => trivial) (by omega) hb)
  | plus none arg, h => emits_typed arg h
  | binary none op lhs rhs, h =>
    emits_typedBinary (emits_typed lhs h.1) (emits_typed rhs h.2) (height_pos lhs h.1) (height_pos rhs h.2)
  | call none f args, h => emits_typedCall h.1 (emits_allTyped args h.2)

theorem emits_allTyped : (es : List (Expr R)) → FitAll n es →
    ∀ e ∈ es, 1 ≤ e.height ∧ Emits e.compile (TypesPush n limit e.height)
  | [], _ => by simp
  | d :: ds, h => List.forall_mem_cons.2 ⟨⟨height_pos d h.1, emits_typed d h.1⟩, emits_allTyped ds h.2⟩

end

end Expr

namespace Cond

/-- The words put one outcome on stacks that leave room for the heights of the condition. -/
abbrev TypesOutcome (n : Nat) (limit : Heights) (c : Cond R) (final : Array R) (code : List Nat) : Prop :=
  ∀ k b, k + c.height ≤ limit.numbers → b + c.outcomeHeight ≤ limit.outcomes →
    Types n limit final code ⟨k, b⟩ ⟨k, b + 1⟩

omit [Scalar R] in
theorem outcomeHeight_pos (c : Cond R) : 1 ≤ c.outcomeHeight := by
  induction c with
  | literal | compare => exact Nat.le_refl _
  | not decided arg ih =>
    cases decided with
    | some _ => exact Nat.le_refl _
    | none => exact ih
  | and decided lhs rhs ih | or decided lhs rhs ih =>
    cases decided with
    | some _ => exact Nat.le_refl _
    | none => exact Nat.le_trans ih (Nat.le_max_left _ _)

omit [Scalar R] in
theorem types_outcome (c : Bool) (final : Array R) (hk : k ≤ limit.numbers) (hb : b ≤ limit.outcomes) :
    Types n limit final [compile.outcome c] ⟨k, b⟩ ⟨k, b + 1⟩ := by
  cases c with
  | true => exact .plain .yes (by decide) rfl (fun _ _ => trivial) hk hb
  | false => exact .plain .no (by decide) rfl (fun _ _ => trivial) hk hb

omit [Scalar R] in
theorem types_test (r : Relation) {final : Array R} {place : Nat} (hplace : ∃ v, final[place]? = some v)
    (hk : k + 1 ≤ limit.numbers) (hb : b ≤ limit.outcomes) :
    Types n limit final [r.opcode.word, place] ⟨k + 1, b⟩ ⟨k, b + 1⟩ := by
  cases r with
  | equal => exact .fixed .equal (by decide) rfl (fun _ _ h => h) hk hb hplace
  | above => exact .fixed .above (by decide) rfl (fun _ _ h => h) hk hb hplace
  | aboveOrEqual => exact .fixed .aboveOrEqual (by decide) rfl (fun _ _ h => h) hk hb hplace

omit [Scalar R] in
theorem emits_typedOutcome (o : Bool) {c : Cond R} (hc : c.outcomeHeight = 1) :
    Emits (pure [compile.outcome o]) (TypesOutcome n limit c) :=
  .pure fun final k b hk hb => types_outcome o final (by omega) (by omega)

/-- The words of two conditions, and then an instruction that joins their outcomes. -/
theorem emits_typedBoth {lhs rhs : Cond R} (op : Opcode)
    (hop : ∀ {final : Array R} {k b : Nat}, k ≤ limit.numbers → b + 2 ≤ limit.outcomes →
      Types n limit final [op.word] ⟨k, b + 2⟩ ⟨k, b + 1⟩)
    (hl : Emits lhs.compile (lhs.TypesOutcome n limit)) (hr : Emits rhs.compile (rhs.TypesOutcome n limit)) :
    Emits (do
        let code ← lhs.compile
        return code ++ (← rhs.compile) ++ [op.word]) fun final code => ∀ k b,
      k + max lhs.height rhs.height ≤ limit.numbers →
      b + max lhs.outcomeHeight (rhs.outcomeHeight + 1) ≤ limit.outcomes →
      Types n limit final code ⟨k, b⟩ ⟨k, b + 1⟩ := by
  refine hl.bind fun code => hr.bind fun more => .pure fun final hmore hcode k b hk hb => ?_
  have hlpos := lhs.outcomeHeight_pos
  have hrpos := rhs.outcomeHeight_pos
  refine ((hcode k b (by omega) (by omega)).append (hmore k (b + 1) (by omega) (by omega))).append ?_
  exact hop (by omega) (by omega)

theorem emits_typed (c : Cond R) (h : c.Fits n) : Emits c.compile (c.TypesOutcome n limit) := by
  induction c with
  | literal b => exact emits_typedOutcome b rfl
  | compare decided c =>
    cases decided with
    | some b => exact emits_typedOutcome b rfl
    | none =>
      cases hknown : c.arg.known? with
      | some v =>
        simp only [compile, hknown]
        exact emits_typedOutcome _ rfl
      | none =>
        simp only [compile, hknown]
        have harg : Emits c.arg.compile (Expr.TypesPush n limit c.arg.height) := c.arg.emits_typed h
        refine harg.bind fun code => (emits_place _).bind fun place =>
          .pure fun final hplace hcode k b hk hb => ?_
        simp only [height, hknown, Option.elim_none, outcomeHeight] at hk hb
        have hpos := c.arg.height_pos h
        exact (hcode k b hk (by omega)).append (types_test _ hplace (by omega) (by omega))
  | not decided arg ih =>
    cases decided with
    | some b => exact emits_typedOutcome b rfl
    | none =>
      refine (ih h).bind fun code => .pure fun final hcode k b hk hb => ?_
      have hpos := arg.outcomeHeight_pos
      simp only [height, outcomeHeight] at hk hb
      exact (hcode k b hk hb).append (.plain .not (by decide) rfl (fun _ _ => trivial) (Nat.le_of_add_right_le hk)
        (Nat.le_trans (Nat.add_le_add_left hpos b) hb))
  | and decided lhs rhs ihl ihr =>
    cases decided with
    | some b => exact emits_typedOutcome b rfl
    | none =>
      exact emits_typedBoth .and (fun hk hb => .plain .and (by decide) rfl (fun _ _ => trivial) hk hb) (ihl h.1)
        (ihr h.2)
  | or decided lhs rhs ihl ihr =>
    cases decided with
    | some b => exact emits_typedOutcome b rfl
    | none =>
      exact emits_typedBoth .or (fun hk hb => .plain .or (by decide) rfl (fun _ _ => trivial) hk hb) (ihl h.1)
        (ihr h.2)

end Cond

/-- Standing at a place of the stream, the words leave empty stacks empty. -/
def TypesAt (n : Nat) (limit : Heights) (start : Nat) (final : Array R) (code : List Nat) : Prop :=
  ∀ p : Program R, p.constants = final → p.HasCode start code →
    p.Typed n limit start ⟨0, 0⟩ (start + code.length) ⟨0, 0⟩

namespace TypesAt

variable {final : Array R} {code more test : List Nat} {start : Nat}

omit [Scalar R]

theorem append (hfirst : TypesAt n limit start final code) (hmore : TypesAt n limit (start + code.length) final more) :
    TypesAt n limit start final (code ++ more) := by
  intro p hp hc
  rw [Program.hasCode_append] at hc
  rw [List.length_append, ← Nat.add_assoc]
  exact .append (hfirst p hp hc.1) (hmore p hp hc.2)

theorem skip (htest : Types n limit final test ⟨0, 0⟩ ⟨0, 1⟩) (hlimit : 1 ≤ limit.outcomes)
    (hcode : TypesAt n limit (start + test.length + 2) final code) :
    TypesAt n limit start final (test ++ [Opcode.skip.word, start + test.length + 2 + code.length] ++ code) := by
  intro p hp hc
  simp only [Program.hasCode_append, Program.hasCode_cons, List.length_append, List.length_cons,
    List.length_nil, ← Nat.add_assoc] at hc ⊢
  obtain ⟨⟨hct, hskip, hplace, -⟩, hcb⟩ := hc
  exact .append (htest p start hp hct) (.skip hskip hplace (Nat.zero_le _) hlimit (hcode p hp hcb))

theorem select {others : List Nat} (htest : Types n limit final test ⟨0, 0⟩ ⟨0, 1⟩) (hlimit : 1 ≤ limit.outcomes)
    (hcode : TypesAt n limit (start + test.length + 3) final code)
    (hothers : TypesAt n limit (start + test.length + 3 + code.length) final others) :
    TypesAt n limit start final (test ++ [Opcode.select.word, start + test.length + 3 + code.length,
      start + test.length + 3 + code.length + others.length] ++ code ++ others) := by
  intro p hp hc
  simp only [Program.hasCode_append, Program.hasCode_cons, List.length_append, List.length_cons,
    List.length_nil, ← Nat.add_assoc] at hc ⊢
  obtain ⟨⟨⟨hct, hselect, hsecond, hstop, -⟩, hcb⟩, hco⟩ := hc
  exact .append (htest p start hp hct)
    (.select hselect hsecond hstop (Nat.zero_le _) hlimit (hcode p hp hcb) (hothers p hp hco))

end TypesAt

namespace Statement

theorem emits_typedWrite {plain fixed : Opcode} {v : Variable} {e : Expr R} {start : Nat} (he : e.Fits n)
    (hlimit : e.known?.elim e.height (fun _ => 0) ≤ limit.numbers)
    (hplain : ∀ final, 1 ≤ limit.numbers → Types (R := R) n limit final [plain.word, v.slot] ⟨1, 0⟩ ⟨0, 0⟩)
    (hfixed : ∀ final place, (∃ c, final[place]? = some c) →
      Types (R := R) n limit final [fixed.word, v.slot, place] ⟨0, 0⟩ ⟨0, 0⟩) :
    Emits (compileWrite plain fixed v e) (TypesAt n limit start) := by
  cases hknown : e.known? with
  | some c =>
    simp only [compileWrite, hknown]
    exact (emits_place c).bind fun place => .pure fun final hplace p hp hc => hfixed final place hplace p start hp hc
  | none =>
    simp only [compileWrite, hknown]
    rw [hknown] at hlimit
    have hpush : Emits e.compile (Expr.TypesPush n limit e.height) := e.emits_typed he
    refine hpush.bind fun code => .pure fun final hcode p hp hc => ?_
    have hpos := e.height_pos he
    simp only [Option.elim_none] at hlimit
    exact ((hcode 0 0 (by omega) (Nat.zero_le _)).append (hplain final (by omega))) p start hp hc

mutual

theorem emits_typed (start : Nat) : (st : Statement R) → st.Fits n → Heights.Within ⟨st.height, st.outcomeHeight⟩ limit →
    Emits (st.compile start) (TypesAt n limit start)
  | assign v e, h, hr => emits_typedWrite h.2 hr.numbers
      (fun _ hk => .instruction .store (by decide) rfl (fun _ _ _ hc => ⟨v.slot, hc.1, h.1⟩) hk (Nat.zero_le _))
      (fun _ place ⟨c, hplace⟩ => .instruction .storeConst (by decide) rfl
        (fun _ _ hp hc => ⟨⟨v.slot, hc.1, h.1⟩, c, place, hc.2.1, hp ▸ hplace⟩) (Nat.zero_le _) (Nat.zero_le _))
  | pays v e, h, hr => emits_typedWrite h.2 hr.numbers
      (fun _ hk => .instruction .pay (by decide) rfl (fun _ _ _ hc => ⟨v.slot, hc.1, h.1⟩) hk (Nat.zero_le _))
      (fun _ place ⟨c, hplace⟩ => .instruction .payConst (by decide) rfl
        (fun _ _ hp hc => ⟨⟨v.slot, hc.1, h.1⟩, c, place, hc.2.1, hp ▸ hplace⟩) (Nat.zero_le _) (Nat.zero_le _))
  | branch c body [] _, h, hr => by
    have hc : Emits c.compile (c.TypesOutcome n limit) := c.emits_typed h.1
    have htest := hr.left
    have hpos := c.outcomeHeight_pos
    refine hc.bind fun test => (emits_typedBlock _ body h.2.1 hr.right.left).bind fun code =>
      .pure fun final hcode htyped => ?_
    refine .skip (htyped 0 0 ?_ ?_) (Nat.le_trans hpos htest.outcomes) hcode
    · rw [Nat.zero_add]
      exact htest.numbers
    · rw [Nat.zero_add]
      exact htest.outcomes
  | branch c body (st :: rest) _, h, hr => by
    have hc : Emits c.compile (c.TypesOutcome n limit) := c.emits_typed h.1
    have htest := hr.left
    have hpos := c.outcomeHeight_pos
    refine hc.bind fun test => (emits_typedBlock _ body h.2.1 hr.right.left).bind fun code =>
      (emits_typedBlock _ (st :: rest) h.2.2.1 hr.right.right).bind fun others =>
      .pure fun final hothers hcode htyped => ?_
    refine .select (htyped 0 0 ?_ ?_) (Nat.le_trans hpos htest.outcomes) hcode hothers
    · rw [Nat.zero_add]
      exact htest.numbers
    · rw [Nat.zero_add]
      exact htest.outcomes
  | sequence body, h, hr => emits_typedBlock start body h hr

theorem emits_typedBlock (start : Nat) : (block : List (Statement R)) → FitsBlock n block →
    Heights.Within ⟨blockHeight block, blockOutcomeHeight block⟩ limit →
    Emits (compileBlock start block) (TypesAt n limit start)
  | [], _, _ => .pure fun _ _ _ _ => .nil
  | s :: rest, h, hr => by
    refine (emits_typed start s h.1 hr.left).bind fun code =>
      (emits_typedBlock (start + code.length) rest h.2 hr.right).bind fun more => .pure fun final hmore hcode => ?_
    exact hcode.append hmore

end

end Statement

/-- The bytecode of an event that fits a table, from empty stacks to empty stacks. -/
theorem Program.typed_ofEvent {event : Event R} (h : Statement.FitsBlock n event) :
    (Program.ofEvent event).Typed n ⟨(Program.ofEvent event).height, (Program.ofEvent event).outcomeHeight⟩ 0 ⟨0, 0⟩
      (Program.ofEvent event).code.size ⟨0, 0⟩ := by
  have hcode : TypesAt n ⟨(Program.ofEvent event).height, (Program.ofEvent event).outcomeHeight⟩ 0
      (Program.ofEvent event).constants (Program.ofEvent event).code.toList :=
    (Statement.emits_typedBlock 0 event h ⟨Nat.le_refl _, Nat.le_refl _⟩ #[]).2 _ (List.prefix_refl _)
  have htyped := hcode (Program.ofEvent event) rfl (Program.hasCode_toList _)
  rwa [Nat.zero_add, Array.length_toList] at htyped

end PayoffPricing.Script
