import PayoffPricing.Proofs.Script.Arity
import PayoffPricing.Proofs.Script.Effects
import PayoffPricing.Proofs.Script.Everywhere
import PayoffPricing.Proofs.Script.ParserSoundness
/-!
Events that fit a table of variables: calls have the arities of their functions, and all slots are in the table.
What is read from texts fits once it has slots, and the analysis of domains keeps it so.
-/

namespace PayoffPricing.Script

variable {R : Type} {n : Nat}

namespace Expr

mutual

/-- Calls have as many arguments as their functions take, and variables have slots below `n`. -/
def Fits (n : Nat) : Expr R → Prop
  | literal _ => True
  | spot => True
  | read _ v => v.slot < n
  | neg _ arg => arg.Fits n
  | plus _ arg => arg.Fits n
  | binary _ _ lhs rhs => lhs.Fits n ∧ rhs.Fits n
  | call _ f args => f.takes args.length = true ∧ FitAll n args

def FitAll (n : Nat) : List (Expr R) → Prop
  | [] => True
  | e :: es => e.Fits n ∧ FitAll n es

end

theorem haveArities_iff {es : List (Expr R)} : haveArities es = true ↔ ∀ e ∈ es, e.hasArities = true := by
  induction es with
  | nil => simp [haveArities]
  | cons e es ih => rw [haveArities, Bool.and_eq_true, ih, List.forall_mem_cons]

mutual

/-- Findings play no part. -/
theorem fits_bare : (e : Expr R) → (e.bare.Fits n ↔ e.Fits n)
  | literal _ => Iff.rfl
  | spot => Iff.rfl
  | read _ _ => Iff.rfl
  | neg _ arg => fits_bare arg
  | plus _ arg => fits_bare arg
  | binary _ _ lhs rhs => and_congr (fits_bare lhs) (fits_bare rhs)
  | call _ f args => by
    simp only [bare, Fits, length_bareList, fitAll_bareList args]

theorem fitAll_bareList : (es : List (Expr R)) → (FitAll n (bareList es) ↔ FitAll n es)
  | [] => Iff.rfl
  | e :: es => and_congr (fits_bare e) (fitAll_bareList es)

end

end Expr

namespace Cond

def Fits (n : Nat) : Cond R → Prop
  | literal _ => True
  | compare _ c => c.arg.Fits n
  | not _ arg => arg.Fits n
  | and _ lhs rhs => lhs.Fits n ∧ rhs.Fits n
  | or _ lhs rhs => lhs.Fits n ∧ rhs.Fits n

theorem fits_bare (c : Cond R) : c.bare.Fits n ↔ c.Fits n := by
  induction c with
  | literal b => exact Iff.rfl
  | compare decided c => exact c.arg.fits_bare
  | not decided arg ih => exact ih
  | and decided lhs rhs ihl ihr => exact and_congr ihl ihr
  | or decided lhs rhs ihl ihr => exact and_congr ihl ihr

theorem fits_collapse {c : Cond R} (h : c.Fits n) : c.collapse.Fits n := by
  induction c with
  | literal b => trivial
  | compare decided c =>
    cases decided with
    | none => exact h
    | some b => trivial
  | not decided arg ih =>
    cases decided with
    | none => exact ih h
    | some b => trivial
  | and decided lhs rhs ihl ihr =>
    cases decided with
    | none => exact ⟨ihl h.1, ihr h.2⟩
    | some b => trivial
  | or decided lhs rhs ihl ihr =>
    cases decided with
    | none => exact ⟨ihl h.1, ihr h.2⟩
    | some b => trivial

end Cond

namespace Statement

mutual

/-- Expressions fit, and all slots that are written or noted are below `n`. -/
def Fits (n : Nat) : Statement R → Prop
  | assign v e => v.slot < n ∧ e.Fits n
  | pays v e => v.slot < n ∧ e.Fits n
  | branch c body otherwise affected => c.Fits n ∧ FitsBlock n body ∧ FitsBlock n otherwise ∧ ∀ i ∈ affected, i < n
  | sequence body => FitsBlock n body

def FitsBlock (n : Nat) : List (Statement R) → Prop
  | [] => True
  | s :: rest => s.Fits n ∧ FitsBlock n rest

end

mutual

theorem fits_bare : (s : Statement R) → (s.bare.Fits n ↔ s.Fits n)
  | assign _ e => and_congr_right fun _ => e.fits_bare
  | pays _ e => and_congr_right fun _ => e.fits_bare
  | branch c body otherwise _ =>
    and_congr c.fits_bare (and_congr (fitsBlock_bareBlock body)
      (and_congr (fitsBlock_bareBlock otherwise) Iff.rfl))
  | sequence body => fitsBlock_bareBlock body

theorem fitsBlock_bareBlock : (body : List (Statement R)) → (FitsBlock n (bareBlock body) ↔ FitsBlock n body)
  | [] => Iff.rfl
  | s :: rest => and_congr (fits_bare s) (fitsBlock_bareBlock rest)

end

mutual

theorem lt_of_mem_writes : (s : Statement R) → s.Fits n → ∀ i ∈ s.writes, i < n
  | assign v _, h, i, hi => List.mem_singleton.1 hi ▸ h.1
  | pays v _, h, i, hi => List.mem_singleton.1 hi ▸ h.1
  | branch _ body otherwise _, h, i, hi => by
    rcases List.mem_append.1 hi with hi | hi
    · exact lt_of_mem_blockWrites body h.2.1 i hi
    · exact lt_of_mem_blockWrites otherwise h.2.2.1 i hi
  | sequence body, h, i, hi => lt_of_mem_blockWrites body h i hi

theorem lt_of_mem_blockWrites : (body : List (Statement R)) → FitsBlock n body → ∀ i ∈ blockWrites body, i < n
  | [], _, i, hi => by simp [blockWrites] at hi
  | s :: rest, h, i, hi => by
    rcases List.mem_append.1 hi with hi | hi
    · exact lt_of_mem_writes s h.1 i hi
    · exact lt_of_mem_blockWrites rest h.2 i hi

end

mutual

theorem fits_iff_holds : (s : Statement R) →
    (s.Fits n ↔ s.Holds (fun v e => v.slot < n ∧ e.Fits n) (Cond.Fits n) fun slots => ∀ i ∈ slots, i < n)
  | assign _ _ => Iff.rfl
  | pays _ _ => Iff.rfl
  | branch _ body otherwise _ => and_congr_right fun _ =>
    and_congr (fitsBlock_iff_holds body) (and_congr_left fun _ => fitsBlock_iff_holds otherwise)
  | sequence body => fitsBlock_iff_holds body

theorem fitsBlock_iff_holds : (body : List (Statement R)) →
    (FitsBlock n body ↔
      HoldsBlock (fun v e => v.slot < n ∧ e.Fits n) (Cond.Fits n) (fun slots => ∀ i ∈ slots, i < n) body)
  | [] => Iff.rfl
  | s :: rest => and_congr (fits_iff_holds s) (fitsBlock_iff_holds rest)

end

theorem fitsBlock_collapseBlock (body : List (Statement R)) (h : FitsBlock n body) :
    FitsBlock n (collapseBlock body).1 := by
  rw [fitsBlock_iff_holds] at h ⊢
  have hcollapse (c : Cond R) : c.Fits n → c.collapse.Fits n := Cond.fits_collapse
  exact holdsBlock_collapseBlock hcollapse body h

end Statement

section Parsed

variable {constants : Constants R} {us : List (Token R)}

open Grammar

theorem hasArities_of_derivesExpr {level : Level} {e : Expr R} (h : DerivesExpr constants level us e) :
    e.hasArities = true := by
  induction h with
  | number | constant | «variable» | spot => rfl
  | addition _ _ _ iha ihb | multiplication _ _ _ iha ihb | exponentiation _ _ iha ihb =>
    rw [Expr.hasArities, iha, ihb]
    rfl
  | sum _ ih | product _ ih | power _ ih | plus _ ih | minus _ ih | group _ ih => exact ih
  | call args _ hmin hmax _ ih =>
    have hargs : Expr.haveArities (args.map (·.2)) = true := by
      refine Expr.haveArities_iff.2 fun e he => ?_
      obtain ⟨a, ha, rfl⟩ := List.mem_map.1 he
      exact ih a ha
    simp [Expr.hasArities, Function.takes, hmin, hmax, hargs]

theorem Statement.blockHasArities_iff {body : List (Statement R)} :
    blockHasArities body = true ↔ ∀ s ∈ body, s.hasArities = true := by
  induction body with
  | nil => simp [blockHasArities]
  | cons s rest ih => rw [blockHasArities, Bool.and_eq_true, ih, List.forall_mem_cons]

variable [Scalar R]

theorem hasArities_of_derivesCond {level : CondLevel} {c : Cond R} (h : DerivesCond constants level us c) :
    c.hasArities = true := by
  induction h with
  | disjunction _ ih | conjunction _ ih | group _ ih => exact ih
  | or _ _ iha ihb | and _ _ iha ihb =>
    rw [Cond.hasArities, iha, ihb]
    rfl
  | comparison ha hb _ hc =>
    have ha := hasArities_of_derivesExpr ha
    have hb := hasArities_of_derivesExpr hb
    cases hc <;> simp [Cond.hasArities, Comparison.new, Expr.difference, Expr.hasArities, ha, hb]

theorem hasArities_of_derivesStatement {s : Statement R} (h : DerivesStatement constants us s) :
    s.hasArities = true := by
  induction h with
  | assign _ he | pays _ he => exact hasArities_of_derivesExpr he
  | branch body hc _ _ ih =>
    have hbody : Statement.blockHasArities (body.map (·.2)) = true :=
      Statement.blockHasArities_iff.2 (List.forall_mem_map.2 ih)
    simp [Statement.hasArities, Statement.blockHasArities, hasArities_of_derivesCond hc, hbody]
  | branchElse body otherwise hc _ _ _ ih ih' =>
    have hbody : Statement.blockHasArities (body.map (·.2)) = true :=
      Statement.blockHasArities_iff.2 (List.forall_mem_map.2 ih)
    have hother : Statement.blockHasArities (otherwise.map (·.2)) = true :=
      Statement.blockHasArities_iff.2 (List.forall_mem_map.2 ih')
    simp [Statement.hasArities, hasArities_of_derivesCond hc, hbody, hother]

theorem blockHasArities_parseEvent {text : String} {i : Nat} {ss : List (Statement R)}
    (h : parseEvent text i constants = .ok ss) : Statement.blockHasArities ss = true := by
  obtain ⟨ts, -, hts⟩ := Parser.parseEvent_eq_ok.1 h
  obtain ⟨parts, -, rfl, hd⟩ := Parser.derives_event ts hts
  exact Statement.blockHasArities_iff.2 (List.forall_mem_map.2 fun p hp => hasArities_of_derivesStatement (hd p hp))

end Parsed

section Slots

variable {α β : Type}

/-- A step of the assignment of slots adds to the names, and its result is as it should be in every table with a
slot for each of them. -/
def Slotted (step : StateM (Array String) α) (good : Nat → α → Prop) : Prop :=
  ∀ names, names.size ≤ (step names).2.size ∧ ∀ n, (step names).2.size ≤ n → good n (step names).1

namespace Slotted

variable {good : Nat → α → Prop}

theorem pure {a : α} (h : ∀ n, good n a) : Slotted (Pure.pure a) good :=
  fun _ => ⟨Nat.le_refl _, fun n _ => h n⟩

theorem bind {step : StateM (Array String) α} {next : α → StateM (Array String) β} {after : Nat → β → Prop}
    (hs : Slotted step good) (hn : ∀ a, Slotted (next a) fun n b => good n a → after n b) :
    Slotted (step >>= next) after := by
  intro names
  have ⟨grown, hgood⟩ := hs names
  have ⟨more, hafter⟩ := hn (step names).1 (step names).2
  exact ⟨Nat.le_trans grown more, fun n hle => hafter n hle (hgood n (Nat.le_trans more hle))⟩

end Slotted

theorem lt_of_idxOf? {names : Array String} {name : String} {slot : Nat} (h : names.idxOf? name = some slot) :
    slot < names.size := by
  rw [Array.idxOf?_eq_map_finIdxOf?_val] at h
  obtain ⟨i, -, rfl⟩ := Option.map_eq_some_iff.1 h
  exact i.isLt

theorem slotted_slotOf (name : String) : Slotted (slotOf name) fun n slot => slot < n := by
  intro names
  simp only [slotOf]
  split
  · next slot h =>
    exact ⟨Nat.le_refl _, fun n hle => Nat.lt_of_lt_of_le (lt_of_idxOf? h) hle⟩
  · simp only [Array.size_push]
    exact ⟨by omega, fun n hle => by omega⟩

theorem slotted_variable (v : Variable) : Slotted v.assignSlot fun n v => v.slot < n :=
  (slotted_slotOf v.name).bind fun _ => .pure fun _ h => h

namespace Expr

mutual

theorem slotted : (e : Expr R) → e.hasArities = true → Slotted e.assignSlots fun n e => e.Fits n
  | literal _, _ => .pure fun _ => trivial
  | spot, _ => .pure fun _ => trivial
  | read _ v, _ => (slotted_variable v).bind fun _ => .pure fun _ h => h
  | neg _ arg, h => (slotted arg h).bind fun _ => .pure fun _ h => h
  | plus _ arg, h => (slotted arg h).bind fun _ => .pure fun _ h => h
  | binary _ _ lhs rhs, h => by
    rw [hasArities, Bool.and_eq_true] at h
    exact (slotted lhs h.1).bind fun _ => (slotted rhs h.2).bind fun _ => .pure fun _ hr hl => ⟨hl, hr⟩
  | call _ f args, h => by
    rw [hasArities, Bool.and_eq_true] at h
    refine (slottedList args h.2).bind fun es => .pure fun _ hes => ⟨?_, hes.2⟩
    rw [hes.1]
    exact h.1

theorem slottedList : (es : List (Expr R)) → haveArities es = true →
    Slotted (assignSlotsList es) fun n ds => ds.length = es.length ∧ FitAll n ds
  | [], _ => .pure fun _ => ⟨rfl, trivial⟩
  | e :: es, h => by
    rw [haveArities, Bool.and_eq_true] at h
    refine (slotted e h.1).bind fun _ => (slottedList es h.2).bind fun _ => .pure fun _ hes he => ?_
    exact ⟨congrArg (· + 1) hes.1, he, hes.2⟩

end

end Expr

theorem Cond.slotted (c : Cond R) (h : c.hasArities = true) : Slotted c.assignSlots fun n c => c.Fits n := by
  induction c with
  | literal b => exact .pure fun _ => trivial
  | compare decided c => exact (Expr.slotted c.arg h).bind fun _ => .pure fun _ h => h
  | not decided arg ih => exact (ih h).bind fun _ => .pure fun _ h => h
  | and decided lhs rhs ihl ihr | or decided lhs rhs ihl ihr =>
    rw [hasArities, Bool.and_eq_true] at h
    exact (ihl h.1).bind fun _ => (ihr h.2).bind fun _ => .pure fun _ hr hl => ⟨hl, hr⟩

namespace Statement

mutual

/-- With slots and notes on what conditional statements may write, a statement fits the table. -/
theorem slotted : (s : Statement R) → s.hasArities = true → Slotted s.assignSlots fun n s => s.markAffected.Fits n
  | assign v e, h =>
    (slotted_variable v).bind fun _ => (Expr.slotted e h).bind fun _ => .pure fun _ he hv => ⟨hv, he⟩
  | pays v e, h =>
    (slotted_variable v).bind fun _ => (Expr.slotted e h).bind fun _ => .pure fun _ he hv => ⟨hv, he⟩
  | branch c body otherwise affected, h => by
    simp only [hasArities, Bool.and_eq_true] at h
    refine (Cond.slotted c h.1.1).bind fun _ => (slottedBlock body h.1.2).bind fun _ =>
      (slottedBlock otherwise h.2).bind fun _ => .pure fun n ho hb hc => ⟨hc, hb, ho, fun i hi => ?_⟩
    rcases List.mem_append.1 (mem_slotSet.1 hi) with hi | hi
    · exact lt_of_mem_blockWrites _ hb i (by rwa [blockWrites_markAffected])
    · exact lt_of_mem_blockWrites _ ho i (by rwa [blockWrites_markAffected])
  | sequence body, h => (slottedBlock body h).bind fun _ => .pure fun _ h => h

theorem slottedBlock : (body : List (Statement R)) → blockHasArities body = true →
    Slotted (assignSlotsBlock body) fun n body => FitsBlock n (markAffectedBlock body)
  | [], _ => .pure fun _ => trivial
  | s :: rest, h => by
    rw [blockHasArities, Bool.and_eq_true] at h
    exact (slotted s h.1).bind fun _ => (slottedBlock rest h.2).bind fun _ => .pure fun _ hr hs => ⟨hs, hr⟩

end

end Statement

theorem fits_markAffected_assignSlots {events : List (Event R)}
    (h : ∀ event ∈ events, Statement.blockHasArities event = true) :
    ∀ event ∈ (markAffected (assignSlots events).1).1, Statement.FitsBlock (assignSlots events).2.size event := by
  have hall : Slotted (events.mapM Statement.assignSlotsBlock) fun n results =>
      ∀ event ∈ results, Statement.FitsBlock n (Statement.markAffectedBlock event) := by
    induction events with
    | nil => exact .pure fun _ => by simp
    | cons event events ih =>
      rw [List.forall_mem_cons] at h
      rw [List.mapM_cons]
      refine (Statement.slottedBlock event h.1).bind fun _ => (ih h.2).bind fun _ => .pure fun _ hr he => ?_
      exact List.forall_mem_cons.2 ⟨he, hr⟩
  exact List.forall_mem_map.2 ((hall #[]).2 _ (Nat.le_refl _))

end Slots

section Analysis

variable [Scalar R] {fuzzy : Bool}

theorem Cond.fits_decide {domains : Domains R} {c : Cond R} (h : c.Fits n) : (c.decide fuzzy domains).term.Fits n := by
  induction c with
  | literal b => trivial
  | compare decided c =>
    have hwindow (d : Domain R) : (c.withWindow d).arg = c.arg := by
      unfold Comparison.withWindow
      repeat' split
      all_goals rfl
    simp only [Cond.decide]
    split
    · exact h
    split
    · exact h
    · cases fuzzy with
      | false => exact h
      | true => exact (congrArg (Expr.Fits n) (hwindow _)).mpr h
  | not decided arg ih => exact ih h
  | and decided lhs rhs ihl ihr | or decided lhs rhs ihl ihr =>
    simp only [Cond.decide]
    split
    · exact ⟨ihl h.1, h.2⟩
    · exact ⟨ihl h.1, ihr h.2⟩

theorem fits_inferEvents {events : List (Event R)} (h : ∀ event ∈ events, Statement.FitsBlock n event) :
    Gives (inferEvents fuzzy events) fun r => ∀ event ∈ r.term, Statement.FitsBlock n event := by
  simp only [Statement.fitsBlock_iff_holds] at h ⊢
  have hdecide (c : Cond R) (domains : Domains R) : c.Fits n → (c.decide fuzzy domains).term.Fits n := Cond.fits_decide
  exact Statement.holds_inferEvents hdecide h

end Analysis

end PayoffPricing.Script
