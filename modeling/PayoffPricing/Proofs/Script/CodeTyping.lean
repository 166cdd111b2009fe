import PayoffPricing.Proofs.Script.Emission
import PayoffPricing.Proofs.Script.StackEffects
/-!
Typed code: every instruction finds its operands and what it takes from the stacks, the stacks stay within limits,
and every jump goes forward to an instruction.
-/

namespace PayoffPricing.Script

variable {R : Type}

theorem Opcode.word_injective {a b : Opcode} (h : a.word = b.word) : a = b := by
  have ha := Opcode.ofWord?_word a
  rw [h, Opcode.ofWord?_word] at ha
  exact (Option.some.inj ha).symm

namespace Program

/-- The instructions from place `i` on lead to place `j`. -/
inductive Leads (p : Program R) : Nat → Nat → Prop
  | refl (i : Nat) : Leads p i i
  | step {i j : Nat} {op : Opcode} (hw : p.code[i]? = some op.word) (h : Leads p (i + 1 + op.operands) j) : Leads p i j

/-- The code from one place to another takes stacks of some heights to stacks of others, in a table of `n` slots. -/
inductive Typed (p : Program R) (n : Nat) (limit : Heights) : Nat → Heights → Nat → Heights → Prop
  | nil {i : Nat} {h : Heights} : Typed p n limit i h i h
  | append {i j l : Nat} {h h' h'' : Heights} (first : Typed p n limit i h j h') (rest : Typed p n limit j h' l h'') :
      Typed p n limit i h l h''
  | instruction {i k b : Nat} (op : Opcode) (hw : p.code[i]? = some op.word) (hj : op ≠ .skip ∧ op ≠ .select)
      (hp : p.OperandsAt n i op) (hk : k + op.effect.taken.numbers ≤ limit.numbers)
      (hb : b + op.effect.taken.outcomes ≤ limit.outcomes) :
      Typed p n limit i ⟨k + op.effect.taken.numbers, b + op.effect.taken.outcomes⟩ (i + 1 + op.operands)
        ⟨k + op.effect.put.numbers, b + op.effect.put.outcomes⟩
  | skip {i k b target : Nat} (hw : p.code[i]? = some Opcode.skip.word) (ht : p.code[i + 1]? = some target)
      (hk : k ≤ limit.numbers) (hb : b + 1 ≤ limit.outcomes)
      (body : Typed p n limit (i + 2) ⟨k, b⟩ target ⟨k, b⟩) : Typed p n limit i ⟨k, b + 1⟩ target ⟨k, b⟩
  | select {i k b second stop : Nat} (hw : p.code[i]? = some Opcode.select.word)
      (hsecond : p.code[i + 1]? = some second) (hstop : p.code[i + 2]? = some stop)
      (hk : k ≤ limit.numbers) (hb : b + 1 ≤ limit.outcomes)
      (body : Typed p n limit (i + 3) ⟨k, b⟩ second ⟨k, b⟩)
      (otherwise : Typed p n limit second ⟨k, b⟩ stop ⟨k, b⟩) : Typed p n limit i ⟨k, b + 1⟩ stop ⟨k, b⟩

section Jumps

variable {p : Program R} {n i j l : Nat} {limit h h' : Heights}

theorem Leads.trans (hi : p.Leads i j) (hj : p.Leads j l) : p.Leads i l := by
  induction hi with
  | refl => exact hj
  | step hw _ ih => exact .step hw (ih hj)

theorem Leads.le (hi : p.Leads i j) : i ≤ j := by
  induction hi with
  | refl => exact Nat.le_refl _
  | step _ _ ih => omega

/-- Of two places that the instructions lead to, the lower one leads to the other. -/
theorem Leads.tail (hj : p.Leads i j) (hl : p.Leads i l) (hle : j ≤ l) : p.Leads j l := by
  induction hj with
  | refl => exact hl
  | step hw hrest ih =>
    cases hl with
    | refl =>
      have := hrest.le
      omega
    | step hw' hl =>
      obtain rfl := Opcode.word_injective (Option.some.inj (hw.symm.trans hw'))
      exact ih hl hle

theorem Leads.eq_or_next {op : Opcode} (hw : p.code[i]? = some op.word) (hj : p.Leads i j) :
    j = i ∨ p.Leads (i + 1 + op.operands) j := by
  cases hj with
  | refl => exact .inl rfl
  | step hw' hj =>
    obtain rfl := Opcode.word_injective (Option.some.inj (hw.symm.trans hw'))
    exact .inr hj

theorem Typed.leads (ht : Typed p n limit i h j h') : p.Leads i j := by
  induction ht with
  | nil => exact .refl _
  | append _ _ ih ih' => exact ih.trans ih'
  | instruction op hw => exact .step hw (.refl _)
  | skip hw _ _ _ _ ih => exact .step hw ih
  | select hw _ _ _ _ _ _ ih ih' => exact .step hw (ih.trans ih')

/-- The operand is a place that lies ahead of `a` and leads to `j`, as `a` leads to it. -/
structure JumpsTo (p : Program R) (a operand target j : Nat) : Prop where
  operand : p.code[operand]? = some target
  forward : a < target
  reached : p.Leads a target
  leads : p.Leads target j

/-- The jumps at a place before `j` go forward to instructions before `j` or to `j` itself. -/
structure JumpsAhead (p : Program R) (j a : Nat) : Prop where
  skip : p.code[a]? = some Opcode.skip.word → ∃ target, p.JumpsTo a (a + 1) target j
  select : p.code[a]? = some Opcode.select.word → ∃ second stop,
    p.JumpsTo a (a + 1) second j ∧ p.JumpsTo a (a + 2) stop j

theorem JumpsTo.mono {a operand target : Nat} (ht : p.JumpsTo a operand target j) (hj : p.Leads j l) :
    p.JumpsTo a operand target l := ⟨ht.operand, ht.forward, ht.reached, ht.leads.trans hj⟩

theorem JumpsAhead.mono {a : Nat} (ha : p.JumpsAhead j a) (hj : p.Leads j l) : p.JumpsAhead l a where
  skip hw := (ha.skip hw).imp fun _ ht => ht.mono hj
  select hw := by
    obtain ⟨second, stop, h, h'⟩ := ha.select hw
    exact ⟨second, stop, h.mono hj, h'.mono hj⟩

/-- All jumps of typed code go forward to instructions. -/
theorem Typed.jumpsAhead (ht : Typed p n limit i h j h') : ∀ a, p.Leads i a → a < j → p.JumpsAhead j a := by
  induction ht with
  | nil =>
    intro a ha hlt
    have := ha.le
    omega
  | @append i j l _ _ _ first rest ih ih' =>
    intro a ha hlt
    rcases Nat.lt_or_ge a j with hj | hj
    · exact (ih a ha hj).mono rest.leads
    · exact ih' a (first.leads.tail ha hj) hlt
  | @instruction i k b op hw hj =>
    intro a ha hlt
    rcases ha.eq_or_next hw with rfl | ha
    · constructor
      · intro hskip
        exact absurd (Opcode.word_injective (Option.some.inj (hw.symm.trans hskip))) hj.1
      · intro hselect
        exact absurd (Opcode.word_injective (Option.some.inj (hw.symm.trans hselect))) hj.2
    · have := ha.le
      omega
  | @skip i k b target hw ht _ _ body ih =>
    intro a ha hlt
    rcases ha.eq_or_next hw with rfl | ha
    · refine ⟨fun _ => ⟨target, ht, hlt, .step hw body.leads, .refl _⟩, fun hselect => ?_⟩
      exact absurd (Opcode.word_injective (Option.some.inj (hw.symm.trans hselect))) (by decide)
    · exact ih a ha hlt
  | @select i k b second stop hw hsecond hstop _ _ body otherwise ih ih' =>
    intro a ha hlt
    have hbody := body.leads
    rcases ha.eq_or_next hw with rfl | ha
    · refine ⟨fun hskip => ?_, fun _ => ⟨second, stop, ⟨hsecond, ?_, .step hw hbody, otherwise.leads⟩,
        ⟨hstop, hlt, .step hw (hbody.trans otherwise.leads), .refl _⟩⟩⟩
      · exact absurd (Opcode.word_injective (Option.some.inj (hw.symm.trans hskip))) (by decide)
      · have := hbody.le
        omega
    · rcases Nat.lt_or_ge a second with hs | hs
      · exact (ih a ha hs).mono otherwise.leads
      · exact ih' a (hbody.tail ha hs) hlt

end Jumps

end Program

end PayoffPricing.Script
