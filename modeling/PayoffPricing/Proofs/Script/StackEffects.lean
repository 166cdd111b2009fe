import PayoffPricing.Proofs.Script.Machine
import PayoffPricing.Proofs.Script.Safety
/-!
What instructions take from the stacks and put on them. An instruction whose operands are in the stream and that
finds what it takes stops for an argument outside a domain only.
-/

namespace PayoffPricing.Script

variable {R S T α β : Type}

/-- The heights of the two stacks. -/
structure Heights where
  numbers : Nat
  outcomes : Nat

/-- Neither stack is higher than a limit. -/
structure Heights.Within (h limit : Heights) : Prop where
  numbers : h.numbers ≤ limit.numbers
  outcomes : h.outcomes ≤ limit.outcomes

section Within

variable {k k' b b' : Nat} {limit : Heights}

theorem Heights.Within.left (h : Within ⟨max k k', max b b'⟩ limit) : Within ⟨k, b⟩ limit where
  numbers := Nat.le_trans (Nat.le_max_left _ _) h.numbers
  outcomes := Nat.le_trans (Nat.le_max_left _ _) h.outcomes

theorem Heights.Within.right (h : Within ⟨max k k', max b b'⟩ limit) : Within ⟨k', b'⟩ limit where
  numbers := Nat.le_trans (Nat.le_max_right _ _) h.numbers
  outcomes := Nat.le_trans (Nat.le_max_right _ _) h.outcomes

end Within

/-- What an instruction takes from the stacks and what it puts on them. -/
structure Effect where
  taken : Heights
  put : Heights

namespace Opcode

def effect : Opcode → Effect
  | add | sub | mul | div | pow | max | min => ⟨⟨2, 0⟩, ⟨1, 0⟩⟩
  | addConst | subConst | constSub | mulConst | divConst | constDiv | powConst | constPow | maxConst | minConst
  | neg | sqrt | log | exp => ⟨⟨1, 0⟩, ⟨1, 0⟩⟩
  | spot | load | const => ⟨⟨0, 0⟩, ⟨1, 0⟩⟩
  | store | pay => ⟨⟨1, 0⟩, ⟨0, 0⟩⟩
  | storeConst | payConst => ⟨⟨0, 0⟩, ⟨0, 0⟩⟩
  | equal | above | aboveOrEqual => ⟨⟨1, 0⟩, ⟨0, 1⟩⟩
  | and | or => ⟨⟨0, 2⟩, ⟨0, 1⟩⟩
  | not => ⟨⟨0, 1⟩, ⟨0, 1⟩⟩
  | yes | no => ⟨⟨0, 0⟩, ⟨0, 1⟩⟩
  | smooth => ⟨⟨4, 0⟩, ⟨1, 0⟩⟩
  | skip | select => ⟨⟨0, 1⟩, ⟨0, 0⟩⟩

end Opcode

namespace Program

/-- The word at a place of the stream refers to a constant of the pool. -/
def ConstantAt (p : Program R) (i : Nat) : Prop := ∃ v, Machine.Refers p i v

/-- The word at a place of the stream is a slot below `n`. -/
def SlotAt (p : Program R) (n i : Nat) : Prop := ∃ slot, p.code[i]? = some slot ∧ slot < n

/-- The operands of an instruction at place `i` that does not jump are constants and slots. -/
def OperandsAt (p : Program R) (n i : Nat) : Opcode → Prop
  | .addConst | .subConst | .constSub | .mulConst | .divConst | .constDiv | .powConst | .constPow | .maxConst
  | .minConst | .const | .equal | .above | .aboveOrEqual => p.ConstantAt (i + 1)
  | .load | .store | .pay => p.SlotAt n (i + 1)
  | .storeConst | .payConst => p.SlotAt n (i + 1) ∧ p.ConstantAt (i + 2)
  | _ => True

end Program

namespace Machine

/-- The table has `n` slots and the stacks have the given heights. -/
structure Fits (n : Nat) (h : Heights) (m : Machine T) : Prop where
  size : m.values.size = n
  numbers : m.numbers.length = h.numbers
  outcomes : m.outcomes.length = h.outcomes

/-- From stacks of some heights to stacks of others; otherwise an argument was outside a domain, and the table keeps
its size. -/
def Shifts (n : Nat) (h h' : Heights) (action : Process R S (Machine T) α) (good : α → Prop) : Prop :=
  ∀ m s, m.Fits n h → match (action.exec m s).1 with
    | (.ok a, m) => good a ∧ m.Fits n h'
    | (.error e, m) => IsDomainError e ∧ m.values.size = n

namespace Shifts

variable {n k b : Nat} {h h' h'' : Heights} {good : α → Prop} {after : β → Prop}

theorem pure {a : α} (ha : good a) : Shifts n h h (Pure.pure a : Process R S (Machine T) α) good :=
  fun _ _ hm => ⟨ha, hm⟩

theorem bind {action : Process R S (Machine T) α} {next : α → Process R S (Machine T) β}
    (hs : Shifts n h h' action good) (hn : ∀ a, good a → Shifts n h' h'' (next a) after) :
    Shifts n h h'' (action >>= next) after := by
  intro m s hm
  have hs := hs m s hm
  rw [Process.exec_bind]
  generalize action.exec m s = result at hs ⊢
  obtain ⟨⟨_ | a, m⟩, s⟩ := result
  · exact hs
  · exact hn a hs.1 m s hs.2

theorem ofEvaluation {action : Evaluation R S α} (ha : action.Safe good) :
    Shifts n h h (Process.ofEvaluation action : Process R S (Machine T) α) good := by
  intro m s hm
  have ha := ha s
  rw [Process.exec_ofEvaluation]
  generalize action.exec s = result at ha ⊢
  obtain ⟨_ | a, s⟩ := result
  · exact ⟨ha, hm.size⟩
  · exact ⟨ha, hm⟩

theorem get : Shifts n h h (MonadState.get : Process R S (Machine T) (Machine T)) (Fits n h) := fun _ _ hm => ⟨hm, hm⟩

theorem pushNumber (x : T) : Shifts n ⟨k, b⟩ ⟨k + 1, b⟩ (pushNumber x : Process R S (Machine T) Unit) fun _ => True :=
  fun _ _ hm => ⟨trivial, hm.size, congrArg (· + 1) hm.numbers, hm.outcomes⟩

theorem pushOutcome (c : Bool) :
    Shifts n ⟨k, b⟩ ⟨k, b + 1⟩ (pushOutcome c : Process R S (Machine T) Unit) fun _ => True :=
  fun _ _ hm => ⟨trivial, hm.size, hm.numbers, congrArg (· + 1) hm.outcomes⟩

theorem popNumber : Shifts n ⟨k + 1, b⟩ ⟨k, b⟩ (popNumber : Process R S (Machine T) T) fun _ => True := by
  rintro ⟨values, _ | ⟨x, numbers⟩, outcomes⟩ s ⟨hsize, hnumbers, houtcomes⟩
  · cases hnumbers
  · exact ⟨trivial, hsize, Nat.succ.inj hnumbers, houtcomes⟩

theorem popOutcome : Shifts n ⟨k, b + 1⟩ ⟨k, b⟩ (popOutcome : Process R S (Machine T) Bool) fun _ => True := by
  rintro ⟨values, numbers, _ | ⟨c, outcomes⟩⟩ s ⟨hsize, hnumbers, houtcomes⟩
  · cases houtcomes
  · exact ⟨trivial, hsize, hnumbers, Nat.succ.inj houtcomes⟩

variable {f : T → Evaluation R S T} {g : T → T → Evaluation R S T} {p : Program R} {i : Nat}

theorem onTop (hf : ∀ x, (f x).Safe fun _ => True) : Shifts n ⟨k + 1, b⟩ ⟨k + 1, b⟩ (onTop f) fun _ => True :=
  popNumber.bind fun x _ => (ofEvaluation (hf x)).bind fun y _ => pushNumber y

theorem onTopTwo (hg : ∀ x y, (g x y).Safe fun _ => True) :
    Shifts n ⟨k + 2, b⟩ ⟨k + 1, b⟩ (onTopTwo g) fun _ => True :=
  popNumber.bind fun y _ => onTop fun x => hg x y

theorem onOutcomes (f : Bool → Bool → Bool) :
    Shifts n ⟨k, b + 2⟩ ⟨k, b + 1⟩ (onOutcomes f : Process R S (Machine T) Unit) fun _ => True :=
  popOutcome.bind fun _ _ => popOutcome.bind fun _ _ => pushOutcome _

theorem onVariables {step : Variables T → Evaluation R S (Variables T)}
    (hs : ∀ values, values.size = n → (step values).Safe fun after => after.size = n) :
    Shifts n h h (onVariables step) fun _ => True :=
  get.bind fun m hm => (ofEvaluation (hs m.values hm.size)).bind fun _ hsize _ _ _ =>
    ⟨trivial, hsize, hm.numbers, hm.outcomes⟩

theorem wordAt (hw : p.SlotAt n i) :
    Shifts n h h (wordAt p i : Process R S (Machine T) Nat) fun slot => slot < n := by
  obtain ⟨slot, hcode, hslot⟩ := hw
  intro m s hm
  rw [exec_wordAt hcode]
  exact ⟨hslot, hm⟩

theorem constantAt (hc : p.ConstantAt i) :
    Shifts n h h (constantAt p i : Process R S (Machine T) R) fun _ => True := by
  obtain ⟨v, hv⟩ := hc
  intro m s hm
  rw [exec_constantAt hv]
  exact ⟨trivial, hm⟩

variable [Quantity R S T]

theorem withConstant (hc : p.ConstantAt i) (hg : ∀ x y, (g x y).Safe fun _ => True) :
    Shifts n ⟨k + 1, b⟩ ⟨k + 1, b⟩ (withConstant p i g) fun _ => True :=
  (constantAt hc).bind fun _ _ => onTop fun x => hg x _

variable [Scalar R]

theorem test (r : Relation) (tolerance : R) :
    Shifts n ⟨k + 1, b⟩ ⟨k, b + 1⟩ (test r tolerance : Process R S (Machine T) Unit) fun _ => True :=
  popNumber.bind fun _ _ => pushOutcome _

theorem compare (r : Relation) (hc : p.ConstantAt i) :
    Shifts n ⟨k + 1, b⟩ ⟨k, b + 1⟩ (do Machine.test r (← Machine.constantAt p i) : Process R S (Machine T) Unit)
      fun _ => True :=
  (constantAt hc).bind fun v _ => test r v

end Shifts

variable [Scalar R] [Quantity R S T] {p : Program R} {sample : Sample T} {n i k b : Nat} {op : Opcode}

/-- An instruction that does not jump changes the heights of the stacks as its effect says. -/
theorem shifts_execute (hj : op ≠ .skip ∧ op ≠ .select) (hp : p.OperandsAt n i op) :
    Shifts n ⟨k + op.effect.taken.numbers, b + op.effect.taken.outcomes⟩
      ⟨k + op.effect.put.numbers, b + op.effect.put.outcomes⟩
      (execute p sample i op : Process R S (Machine T) Unit) fun _ => True := by
  unfold execute
  cases op
  all_goals dsimp only [Opcode.effect]
  case add | sub | mul | div | pow => exact .onTopTwo (Intrinsic.safe_binary _)
  case max | min => exact .onTopTwo fun _ _ => .pure trivial
  case addConst | subConst | mulConst | divConst | powConst => exact .withConstant hp (Intrinsic.safe_binary _)
  case constSub | constDiv | constPow => exact .withConstant hp fun x c => Intrinsic.safe_binary _ c x
  case maxConst | minConst => exact .withConstant hp fun _ _ => .pure trivial
  case neg => exact .onTop fun _ => .record _
  case sqrt | log | exp => exact .onTop (Intrinsic.safe_unary rfl)
  case spot => exact .pushNumber _
  case load =>
    refine (Shifts.wordAt hp).bind fun slot hslot => Shifts.get.bind fun m hm => ?_
    exact (Shifts.ofEvaluation (Variables.safe_fetch (hm.size ▸ hslot))).bind fun x _ => .pushNumber x
  case const => exact (Shifts.constantAt hp).bind fun _ _ => .pushNumber _
  case store =>
    refine (Shifts.wordAt hp).bind fun slot hslot => Shifts.popNumber.bind fun x _ => .onVariables fun values hv => ?_
    exact (Variables.safe_store (hv ▸ hslot) x).mono fun _ h => h.trans hv
  case storeConst =>
    refine (Shifts.wordAt hp.1).bind fun slot hslot => (Shifts.constantAt hp.2).bind fun v _ =>
      .onVariables fun values hv => ?_
    exact (Variables.safe_store (hv ▸ hslot) _).mono fun _ h => h.trans hv
  case pay =>
    refine (Shifts.wordAt hp).bind fun slot hslot => Shifts.popNumber.bind fun x _ => .onVariables fun values hv => ?_
    exact (Variables.safe_pay (hv ▸ hslot) x _).mono fun _ h => h.trans hv
  case payConst =>
    refine (Shifts.wordAt hp.1).bind fun slot hslot => (Shifts.constantAt hp.2).bind fun v _ =>
      .onVariables fun values hv => ?_
    exact (Variables.safe_pay (hv ▸ hslot) _ _).mono fun _ h => h.trans hv
  case equal | above | aboveOrEqual => exact .compare _ hp
  case and | or => exact .onOutcomes _
  case not => exact Shifts.popOutcome.bind fun _ _ => .pushOutcome _
  case yes | no => exact .pushOutcome _
  case smooth =>
    exact Shifts.popNumber.bind fun _ _ => Shifts.popNumber.bind fun _ _ => Shifts.popNumber.bind fun _ _ =>
      .onTop fun x => Intrinsic.safe_smooth x _ _ _
  case skip => exact absurd rfl hj.1
  case select => exact absurd rfl hj.2

end Machine

end PayoffPricing.Script
