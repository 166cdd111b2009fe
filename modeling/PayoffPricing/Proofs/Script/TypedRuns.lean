import Mathlib.Logic.Relation
import PayoffPricing.Proofs.Script.CodeTyping
/-!
Runs of typed code. Every step of a run keeps the stacks at heights for which the rest of the code is typed, so a
run stops for an argument outside a domain only, and it ends with stacks of the heights that the code leaves.
-/

namespace PayoffPricing.Script

open Machine

variable {R S T : Type}

namespace Program

/-- How typed code starts: it ends at once, or its first instruction finds what it takes and leads to typed code. -/
inductive Starts (p : Program R) (n : Nat) (limit : Heights) : Nat → Heights → Nat → Heights → Prop
  | nil {i : Nat} {h : Heights} : Starts p n limit i h i h
  | instruction {i j k b : Nat} {h' : Heights} (op : Opcode) (hw : p.code[i]? = some op.word)
      (hj : op ≠ .skip ∧ op ≠ .select) (hp : p.OperandsAt n i op)
      (rest : p.Typed n limit (i + 1 + op.operands) ⟨k + op.effect.put.numbers, b + op.effect.put.outcomes⟩ j h') :
      Starts p n limit i ⟨k + op.effect.taken.numbers, b + op.effect.taken.outcomes⟩ j h'
  | skip {i j k b target : Nat} {h' : Heights} (hw : p.code[i]? = some Opcode.skip.word)
      (ht : p.code[i + 1]? = some target) (body : p.Typed n limit (i + 2) ⟨k, b⟩ target ⟨k, b⟩)
      (rest : p.Typed n limit target ⟨k, b⟩ j h') : Starts p n limit i ⟨k, b + 1⟩ j h'
  | select {i j k b second stop : Nat} {h' : Heights} (hw : p.code[i]? = some Opcode.select.word)
      (hsecond : p.code[i + 1]? = some second) (hstop : p.code[i + 2]? = some stop)
      (hl : Heights.Within ⟨k, b⟩ limit) (body : p.Typed n limit (i + 3) ⟨k, b⟩ second ⟨k, b⟩)
      (otherwise : p.Typed n limit second ⟨k, b⟩ stop ⟨k, b⟩) (rest : p.Typed n limit stop ⟨k, b⟩ j h') :
      Starts p n limit i ⟨k, b + 1⟩ j h'

section Starts

variable {p : Program R} {n i j : Nat} {limit h h' : Heights}

theorem Typed.starts (ht : p.Typed n limit i h j h') : p.Starts n limit i h j h' := by
  induction ht with
  | nil => exact .nil
  | append _ rest ih ih' =>
    -- An empty part leaves the start to the part behind it.
    cases ih with
    | nil => exact ih'
    | instruction op hw hj hp next => exact .instruction op hw hj hp (next.append rest)
    | skip hw ht body next => exact .skip hw ht body (next.append rest)
    | select hw hsecond hstop hl body otherwise next =>
      exact .select hw hsecond hstop hl body otherwise (next.append rest)
  | instruction op hw hj hp => exact .instruction op hw hj hp .nil
  | skip hw ht _ _ body => exact .skip hw ht body .nil
  | select hw hsecond hstop hk hb body otherwise =>
    exact .select hw hsecond hstop ⟨hk, Nat.le_of_succ_le hb⟩ body otherwise .nil

theorem Typed.within (ht : p.Typed n limit i h j h') (hl : h'.Within limit) : h.Within limit := by
  induction ht with
  | nil => exact hl
  | append _ _ ih ih' => exact ih (ih' hl)
  | instruction op _ _ _ hk hb => exact ⟨hk, hb⟩
  | skip _ _ hk hb => exact ⟨hk, hb⟩
  | select _ _ _ hk hb => exact ⟨hk, hb⟩

variable {op : Opcode} {target second stop : Nat}

theorem opcode_unique {a b : Opcode} (ha : p.code[i]? = some a.word) (hb : p.code[i]? = some b.word) : a = b :=
  Opcode.word_injective (Option.some.inj (ha.symm.trans hb))

theorem Starts.of_execute (hs : p.Starts n limit i h j h') (hi : i < j) (hw : p.code[i]? = some op.word)
    (hj : op ≠ .skip ∧ op ≠ .select) : ∃ k b, h = ⟨k + op.effect.taken.numbers, b + op.effect.taken.outcomes⟩ ∧
      p.OperandsAt n i op ∧
      p.Typed n limit (i + 1 + op.operands) ⟨k + op.effect.put.numbers, b + op.effect.put.outcomes⟩ j h' := by
  cases hs with
  | nil => exact absurd hi (Nat.lt_irrefl i)
  | instruction op' hw' _ hp rest =>
    obtain rfl := opcode_unique hw hw'
    exact ⟨_, _, rfl, hp, rest⟩
  | skip hw' => exact absurd (opcode_unique hw hw') hj.1
  | select hw' => exact absurd (opcode_unique hw hw') hj.2

theorem Starts.of_skip (hs : p.Starts n limit i h j h') (hi : i < j) (hw : p.code[i]? = some Opcode.skip.word) :
    ∃ k b target, h = ⟨k, b + 1⟩ ∧ p.code[i + 1]? = some target ∧ p.Typed n limit (i + 2) ⟨k, b⟩ target ⟨k, b⟩ ∧
      p.Typed n limit target ⟨k, b⟩ j h' := by
  cases hs with
  | nil => exact absurd hi (Nat.lt_irrefl i)
  | instruction op hw' hj => exact absurd (opcode_unique hw' hw) hj.1
  | skip _ ht body rest => exact ⟨_, _, _, rfl, ht, body, rest⟩
  | select hw' => exact absurd (opcode_unique hw hw') (by decide)

theorem Starts.of_select (hs : p.Starts n limit i h j h') (hi : i < j) (hw : p.code[i]? = some Opcode.select.word) :
    ∃ k b second stop, h = ⟨k, b + 1⟩ ∧ p.code[i + 1]? = some second ∧ p.code[i + 2]? = some stop ∧
      Heights.Within ⟨k, b⟩ limit ∧ p.Typed n limit (i + 3) ⟨k, b⟩ second ⟨k, b⟩ ∧
      p.Typed n limit second ⟨k, b⟩ stop ⟨k, b⟩ ∧ p.Typed n limit stop ⟨k, b⟩ j h' := by
  cases hs with
  | nil => exact absurd hi (Nat.lt_irrefl i)
  | instruction op hw' hj => exact absurd (opcode_unique hw' hw) hj.2
  | skip hw' => exact absurd (opcode_unique hw hw') (by decide)
  | select _ hsecond hstop hl body otherwise rest =>
    exact ⟨_, _, _, _, rfl, hsecond, hstop, hl, body, otherwise, rest⟩

end Starts

/-- A place where an instruction starts, or the end of the stream. -/
structure Boundary (p : Program R) (i : Nat) : Prop where
  reached : p.Leads 0 i
  leads : p.Leads i p.code.size

/-- The bytecode of an event is typed from empty stacks to empty stacks, within the heights that it foresees. -/
abbrev IsTyped (p : Program R) (n : Nat) : Prop :=
  p.Typed n ⟨p.height, p.outcomeHeight⟩ 0 ⟨0, 0⟩ p.code.size ⟨0, 0⟩

end Program

namespace Machine

/-- A place of the stream, the place where the run ends, and the machine and the record there. -/
structure Configuration (S T : Type) where
  place : Nat
  last : Nat
  machine : Machine T
  record : S

variable [Scalar R] [Quantity R S T]

/-- One step of a run, by the instruction at the current place. A positive outcome of a selection starts a run of
the first branch, and when that has ended the second branch is jumped over. -/
inductive Step (p : Program R) (sample : Sample T) : Configuration S T → Configuration S T → Prop
  | execute {i last : Nat} {m m' : Machine T} {s s' : S} {op : Opcode} (hi : i < last)
      (hw : p.code[i]? = some op.word) (hj : op ≠ .skip ∧ op ≠ .select)
      (he : (execute p sample i op).exec m s = ((.ok (), m'), s')) :
      Step p sample ⟨i, last, m, s⟩ ⟨i + 1 + op.operands, last, m', s'⟩
  | pass {i last : Nat} {m : Machine T} {s : S} (hi : i < last) (hw : p.code[i]? = some Opcode.skip.word) :
      Step p sample ⟨i, last, m.decided true, s⟩ ⟨i + 2, last, m, s⟩
  | skip {i last target : Nat} {m : Machine T} {s : S} (hi : i < last) (hw : p.code[i]? = some Opcode.skip.word)
      (ht : p.code[i + 1]? = some target) : Step p sample ⟨i, last, m.decided false, s⟩ ⟨target, last, m, s⟩
  | first {i last second : Nat} {m : Machine T} {s : S} (hi : i < last)
      (hw : p.code[i]? = some Opcode.select.word) (hsecond : p.code[i + 1]? = some second) :
      Step p sample ⟨i, last, m.decided true, s⟩ ⟨i + 3, second, m, s⟩
  | rest {i last second stop : Nat} {m m' : Machine T} {s s' : S} (hi : i < last)
      (hw : p.code[i]? = some Opcode.select.word) (hsecond : p.code[i + 1]? = some second)
      (hstop : p.code[i + 2]? = some stop)
      (hrun : (runFrom p sample (i + 3) second).exec m s = ((.ok (), m'), s')) :
      Step p sample ⟨i, last, m.decided true, s⟩ ⟨stop, last, m', s'⟩
  | second {i last second : Nat} {m : Machine T} {s : S} (hi : i < last)
      (hw : p.code[i]? = some Opcode.select.word) (hsecond : p.code[i + 1]? = some second) :
      Step p sample ⟨i, last, m.decided false, s⟩ ⟨second, last, m, s⟩

/-- The configurations that a run comes to. -/
abbrev Reaches (p : Program R) (sample : Sample T) : Configuration S T → Configuration S T → Prop :=
  Relation.ReflTransGen (Step p sample)

/-- The instruction at the current place stops with an error, which leaves the given table and record. -/
def Configuration.FailsWith (p : Program R) (sample : Sample T) (c : Configuration S T)
    (e : Fault (ScriptError R)) (values : Variables T) (s : S) : Prop :=
  ∃ op m, p.code[c.place]? = some op.word ∧
    (execute p sample c.place op).exec c.machine c.record = ((.error e, m), s) ∧ m.values = values

/-- What a run shows is as it should be: at its end the stacks have the given heights, or an argument was outside a
domain; and steps lead to where the run ended or stopped. -/
def Ends (p : Program R) (sample : Sample T) (n : Nat) (h : Heights) (c : Configuration S T) : Shown R S T → Prop
  | (.ok m, _, s) => m.Fits n h ∧ Reaches p sample c ⟨c.last, c.last, m, s⟩
  | (.error e, values, s) => IsDomainError e ∧ values.size = n ∧
    ∃ c', Reaches p sample c c' ∧ c'.FailsWith p sample e values s

section Runs

variable {p : Program R} {sample : Sample T} {n i last : Nat} {limit h h' : Heights} {c c' : Configuration S T}
  {m : Machine T} {s : S}

theorem Ends.head (hs : Step p sample c c') (hlast : c'.last = c.last) {shown : Shown R S T}
    (he : Ends p sample n h c' shown) : Ends p sample n h c shown := by
  obtain ⟨_ | m, values, s⟩ := shown
  · obtain ⟨hdomain, hsize, c₁, hreaches, hfails⟩ := he
    exact ⟨hdomain, hsize, c₁, .head hs hreaches, hfails⟩
  · exact ⟨he.1, .head hs (hlast ▸ he.2)⟩

omit [Scalar R] [Quantity R S T] in
theorem Fits.exists_decided {k b : Nat} (hm : m.Fits n ⟨k, b + 1⟩) :
    ∃ (m' : Machine T) (outcome : Bool), m = m'.decided outcome ∧ m'.Fits n ⟨k, b⟩ := by
  obtain ⟨values, numbers, _ | ⟨outcome, outcomes⟩⟩ := m
  · cases hm.outcomes
  · exact ⟨⟨values, numbers, outcomes⟩, outcome, rfl, hm.size, hm.numbers, Nat.succ.inj hm.outcomes⟩

omit [Scalar R] [Quantity R S T] in
theorem Fits.of_decided {k b : Nat} {outcome : Bool} (hm : (m.decided outcome).Fits n ⟨k, b + 1⟩) :
    m.Fits n ⟨k, b⟩ := ⟨hm.size, hm.numbers, Nat.succ.inj hm.outcomes⟩

theorem exec_of_outcome {m' : Machine T} {values : Variables T} {s' : S}
    (h : outcome p sample last i m s = (.ok m', values, s')) :
    (runFrom p sample i last).exec m s = ((.ok (), m'), s') := by
  rw [outcome] at h
  generalize (runFrom p sample i last).exec m s = result at h ⊢
  obtain ⟨⟨_ | _, _⟩, _⟩ := result
  · cases h
  · cases h
    rfl

/-- A run of typed code, from stacks of the heights that it takes. -/
theorem ends_outcome (ht : p.Typed n limit i h last h') (hm : m.Fits n h) :
    Ends p sample n h' ⟨i, last, m, s⟩ (outcome p sample last i m s) := by
  -- All jumps go forward, so the induction is on what is left of the stream.
  induction hd : last - i using Nat.strong_induction_on generalizing i last h h' m s with
  | _ d ih =>
    subst hd
    cases ht.starts with
    | nil =>
      rw [outcome_stop (Nat.le_refl i)]
      exact ⟨hm, .refl⟩
    | instruction op hw hj hp rest =>
      have hle := rest.leads.le
      have hi : i < last := by omega
      have hshifts := (shifts_execute hj hp : Shifts n _ _ (execute p sample i op) _) m s hm
      rw [outcome_execute hi hw hj]
      generalize he : (execute p sample i op).exec m s = result at hshifts ⊢
      obtain ⟨⟨e | _, m'⟩, s'⟩ := result
      · exact ⟨hshifts.1, hshifts.2, _, .refl, op, m', hw, he, rfl⟩
      · exact .head (.execute hi hw hj he) rfl (ih _ (by omega) rest hshifts.2 rfl)
    | skip hw htarget body rest =>
      have hbody := body.leads.le
      have hle := rest.leads.le
      have hi : i < last := by omega
      obtain ⟨m, outcome, rfl, hm'⟩ := hm.exists_decided
      rw [outcome_skip hi hw htarget (by omega)]
      cases outcome with
      | false => exact .head (.skip hi hw htarget) rfl (ih _ (by omega) rest hm' rfl)
      | true => exact .head (.pass hi hw) rfl (ih _ (by omega) (body.append rest) hm' rfl)
    | @select _ k b second stop _ hw hsecond hstop _ body otherwise rest =>
      have hbody := body.leads.le
      have hother := otherwise.leads.le
      have hle := rest.leads.le
      have hi : i < last := by omega
      obtain ⟨m, outcome, rfl, hm'⟩ := hm.exists_decided
      rw [outcome_select hi hw hsecond hstop (by omega) (by omega)]
      cases outcome with
      | false => exact .head (.second hi hw hsecond) rfl (ih _ (by omega) (otherwise.append rest) hm' rfl)
      | true =>
        have hfirst : Ends p sample n _ ⟨i + 3, second, m, s⟩ (outcome p sample second (i + 3) m s) :=
          ih _ (by omega) body hm' rfl
        rw [if_pos rfl]
        generalize hrun : outcome p sample second (i + 3) m s = result at hfirst ⊢
        obtain ⟨e | m', values, s'⟩ := result
        · obtain ⟨hdomain, hsize, c, hreaches, hfails⟩ := hfirst
          exact ⟨hdomain, hsize, c, .head (.first hi hw hsecond) hreaches, hfails⟩
        · exact .head (.rest hi hw hsecond hstop (exec_of_outcome hrun)) rfl (ih _ (by omega) rest hfirst.1 rfl)

/-- The configuration is at an instruction or at the end of the run, the rest of the run is typed for the heights
of the stacks, and these are within the limit. -/
inductive OnCourse (p : Program R) (n : Nat) (limit : Heights) (c : Configuration S T) : Prop
  | intro {h h' : Heights} (reached : p.Leads 0 c.place) (leads : p.Leads c.last p.code.size)
      (typed : p.Typed n limit c.place h c.last h') (within : h'.Within limit) (fits : c.machine.Fits n h)

omit [Scalar R] [Quantity R S T] in
theorem OnCourse.boundary (hc : OnCourse p n limit c) : p.Boundary c.place := by
  obtain ⟨hreached, hleads, ht, -, -⟩ := hc
  exact ⟨hreached, ht.leads.trans hleads⟩

omit [Scalar R] [Quantity R S T] in
theorem OnCourse.within (hc : OnCourse p n limit c) :
    Heights.Within ⟨c.machine.numbers.length, c.machine.outcomes.length⟩ limit := by
  obtain ⟨-, -, ht, hl, hm⟩ := hc
  have hwithin := ht.within hl
  exact ⟨hm.numbers ▸ hwithin.numbers, hm.outcomes ▸ hwithin.outcomes⟩

theorem OnCourse.step (hc : OnCourse p n limit c) (hs : Step p sample c c') : OnCourse p n limit c' := by
  obtain ⟨hreached, hleads, ht, hl, hm⟩ := hc
  cases hs with
  | @execute i last m m' s s' op hi hw hj he =>
    obtain ⟨k, b, rfl, hp, rest⟩ := ht.starts.of_execute hi hw hj
    have hshifts := (shifts_execute hj hp : Shifts n _ _ (execute p sample i op) _) m s hm
    rw [he] at hshifts
    exact ⟨hreached.trans (.step hw (.refl _)), hleads, rest, hl, hshifts.2⟩
  | pass hi hw =>
    obtain ⟨k, b, target, rfl, ht, body, rest⟩ := ht.starts.of_skip hi hw
    exact ⟨hreached.trans (.step hw (.refl _)), hleads, body.append rest, hl, hm.of_decided⟩
  | skip hi hw ht' =>
    obtain ⟨k, b, target, rfl, ht, body, rest⟩ := ht.starts.of_skip hi hw
    obtain rfl := Option.some.inj (ht.symm.trans ht')
    exact ⟨hreached.trans (.step hw body.leads), hleads, rest, hl, hm.of_decided⟩
  | first hi hw hsecond' =>
    obtain ⟨k, b, second, stop, rfl, hsecond, hstop, hkb, body, otherwise, rest⟩ := ht.starts.of_select hi hw
    obtain rfl := Option.some.inj (hsecond.symm.trans hsecond')
    have hlast := otherwise.leads.trans (rest.leads.trans hleads)
    exact ⟨hreached.trans (.step hw (.refl _)), hlast, body, hkb, hm.of_decided⟩
  | @rest i last _ _ m m' s s' hi hw hsecond' hstop' hrun =>
    obtain ⟨k, b, second, stop, rfl, hsecond, hstop, hkb, body, otherwise, rest⟩ := ht.starts.of_select hi hw
    obtain rfl := Option.some.inj (hsecond.symm.trans hsecond')
    obtain rfl := Option.some.inj (hstop.symm.trans hstop')
    have hends : Ends p sample n ⟨k, b⟩ ⟨i + 3, second, m, s⟩ (outcome p sample second (i + 3) m s) :=
      ends_outcome body hm.of_decided
    rw [outcome, hrun] at hends
    have hstop := hreached.trans (.step hw (body.leads.trans otherwise.leads))
    exact ⟨hstop, hleads, rest, hl, hends.1⟩
  | second hi hw hsecond' =>
    obtain ⟨k, b, second, stop, rfl, hsecond, hstop, hkb, body, otherwise, rest⟩ := ht.starts.of_select hi hw
    obtain rfl := Option.some.inj (hsecond.symm.trans hsecond')
    exact ⟨hreached.trans (.step hw body.leads), hleads, otherwise.append rest, hl, hm.of_decided⟩

theorem OnCourse.reaches (hc : OnCourse p n limit c) (hs : Reaches p sample c c') : OnCourse p n limit c' := by
  induction hs with
  | refl => exact hc
  | tail _ hstep ih => exact ih.step hstep

/-- Where a run of the bytecode of an event starts: with both stacks empty. -/
def Configuration.start (p : Program R) (m : Machine T) (s : S) : Configuration S T :=
  ⟨0, p.code.size, ⟨m.values, [], []⟩, s⟩

omit [Scalar R] [Quantity R S T] in
theorem onCourse_start (hp : p.IsTyped n) (hm : m.values.size = n) (s : S) :
    OnCourse p n ⟨p.height, p.outcomeHeight⟩ (.start p m s) :=
  ⟨.refl 0, .refl _, hp, ⟨Nat.zero_le _, Nat.zero_le _⟩, hm, rfl, rfl⟩

theorem ends_run (hp : p.IsTyped n) (hm : m.values.size = n) :
    Ends p sample n ⟨0, 0⟩ (.start p m s) (shown ((run p sample).exec m s)) := by
  rw [run, Process.exec_bind, Process.exec_modify]
  exact ends_outcome hp ⟨hm, rfl, rfl⟩

theorem safe_run (hp : p.IsTyped n) : Process.Safe (fun m : Machine T => m.values.size = n)
    (run p sample : Process R S (Machine T) Unit) fun _ => True := by
  intro m s hm
  have hends : Ends p sample n ⟨0, 0⟩ (.start p m s) (shown ((run p sample).exec m s)) := ends_run hp hm
  generalize (run p sample).exec m s = result at hends ⊢
  obtain ⟨⟨_ | _, m⟩, s⟩ := result
  · exact ⟨hends.2.1, hends.1⟩
  · exact ⟨hends.1.size, trivial⟩

/-- A run of the bytecode of an event: it comes to instructions and to the end of the stream only, never with higher
stacks than foreseen. It ends with empty stacks, where its steps lead it, or it stops for an argument outside a
domain, at an instruction to which its steps lead it. -/
structure RunsWell (p : Program R) (sample : Sample T) (m : Machine T) (s : S) : Prop where
  visits : ∀ c, Reaches p sample (.start p m s) c → p.Boundary c.place ∧
    c.machine.numbers.length ≤ p.height ∧ c.machine.outcomes.length ≤ p.outcomeHeight
  ends : ∀ m' s', (run p sample).exec m s = ((.ok (), m'), s') → m'.numbers = [] ∧ m'.outcomes = [] ∧
    Reaches p sample (.start p m s) ⟨p.code.size, p.code.size, m', s'⟩
  stops : ∀ e m' s', (run p sample).exec m s = ((.error e, m'), s') → IsDomainError e ∧
    ∃ c, Reaches p sample (.start p m s) c ∧ c.FailsWith p sample e m'.values s'

theorem runsWell (hp : p.IsTyped n) (hm : m.values.size = n) : RunsWell p sample m s := by
  have hends : Ends p sample n ⟨0, 0⟩ (.start p m s) (shown ((run p sample).exec m s)) := ends_run hp hm
  constructor
  · intro c hc
    have hcourse := (onCourse_start hp hm s).reaches hc
    exact ⟨hcourse.boundary, hcourse.within.numbers, hcourse.within.outcomes⟩
  · intro m' s' hrun
    rw [hrun] at hends
    obtain ⟨hfits, hreaches⟩ := hends
    exact ⟨List.eq_nil_of_length_eq_zero hfits.numbers, List.eq_nil_of_length_eq_zero hfits.outcomes, hreaches⟩
  · intro e m' s' hrun
    rw [hrun] at hends
    obtain ⟨hdomain, -, hfails⟩ := hends
    exact ⟨hdomain, hfails⟩

end Runs

end Machine

end PayoffPricing.Script
