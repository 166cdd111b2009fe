import PayoffPricing.Proofs.Script.Bound
import PayoffPricing.Proofs.Product.Fitting
/-!
Windows of comparisons. Tolerances come from numerals, so that they are not negative, and the window that domain
analysis notes at a comparison has its ends on either side of zero. What is done to events before they run keeps both.
-/

namespace PayoffPricing.Script

variable {R : Type} [ExactScalar R]

namespace Comparison

/-- The tolerance is not negative, and a window has zero in it and a width. -/
structure Windowed (c : Comparison R) : Prop where
  tolerance : 0 ≤ c.toleranceOrDefault
  lt : c.discrete = true → c.left < c.right
  left : c.discrete = true → c.left ≤ 0
  right : c.discrete = true → 0 ≤ c.right

variable {c : Comparison R}

theorem Windowed.of_plain (ht : 0 ≤ c.toleranceOrDefault) (hd : c.discrete = false) : c.Windowed where
  tolerance := ht
  lt h := by simp [hd] at h
  left h := by simp [hd] at h
  right h := by simp [hd] at h

theorem Windowed.of_window {left right : R} (ht : 0 ≤ c.toleranceOrDefault) (hl : left ≤ 0) (hr : 0 ≤ right)
    (hlt : left < right) : { c with discrete := true, left := left, right := right }.Windowed where
  tolerance := ht
  lt _ := hlt
  left _ := hl
  right _ := hr

theorem halfWindow_pos : (0 : R) < halfWindow := by
  have h : (halfWindow : R) = 1 / 2 := ExactScalar.half_eq
  rw [h]
  exact one_half_pos

theorem value_pos {b : Bound R} (h : b.isNegative false = false) : 0 < b.value := by
  cases b with
  | minusInfinity => cases h
  | finite v => exact Bound.tolerance_pos.trans_le (not_lt.1 (of_decide_eq_false h))
  | plusInfinity => exact Bound.large_pos

theorem value_neg {b : Bound R} (h : b.isPositive false = false) : b.value < 0 := by
  cases b with
  | minusInfinity => exact neg_lt_zero.2 Bound.large_pos
  | finite v => exact (not_lt.1 (of_decide_eq_false h)).trans_lt (neg_lt_zero.2 Bound.tolerance_pos)
  | plusInfinity => cases h

theorem leastPositive_pos (d : Domain R) : 0 < (d.leastPositive true).getD halfWindow := by
  unfold Domain.leastPositive
  dsimp only
  split_ifs
  · cases h : d.intervals.find? fun a => !a.left.isNegative !true with
    | none => exact halfWindow_pos
    | some a => exact value_pos (by simpa using List.find?_some h)
  · exact halfWindow_pos

theorem greatestNegative_neg (d : Domain R) : (d.greatestNegative true).getD (-halfWindow) < 0 := by
  unfold Domain.greatestNegative
  dsimp only
  split_ifs
  · cases h : d.intervals.reverse.find? fun a => !a.right.isPositive !true with
    | none => exact neg_lt_zero.2 halfWindow_pos
    | some a => exact value_neg (by simpa using List.find?_some h)
  · exact neg_lt_zero.2 halfWindow_pos

theorem Windowed.withWindow (h : c.Windowed) (d : Domain R) : (c.withWindow d).Windowed := by
  have hright := leastPositive_pos d
  have hleft := greatestNegative_neg d
  have hboth : { c with
      discrete := true
      left := (d.greatestNegative true).getD (-halfWindow)
      right := (d.leastPositive true).getD halfWindow }.Windowed :=
    .of_window h.tolerance hleft.le hright.le (hleft.trans hright)
  have hnone : { c with discrete := false }.Windowed := .of_plain h.tolerance rfl
  unfold Comparison.withWindow
  split <;> split_ifs
  · exact hboth
  · exact hnone
  · exact hboth
  · exact .of_window h.tolerance scalar_zero.le hright.le (scalar_zero.trans_lt hright)
  · exact hnone
  · exact hboth
  · exact .of_window h.tolerance hleft.le scalar_zero.ge (hleft.trans_eq scalar_zero.symm)
  · exact hnone

theorem windowed_iff_of_arg (c : Comparison R) (arg : Expr R) : { c with arg := arg }.Windowed ↔ c.Windowed :=
  ⟨fun h => ⟨h.1, h.2, h.3, h.4⟩, fun h => ⟨h.1, h.2, h.3, h.4⟩⟩

end Comparison

namespace Cond

/-- The comparisons of the condition are windowed. -/
def Windowed : Cond R → Prop
  | literal _ => True
  | compare _ c => c.Windowed
  | not _ arg => arg.Windowed
  | and _ lhs rhs => lhs.Windowed ∧ rhs.Windowed
  | or _ lhs rhs => lhs.Windowed ∧ rhs.Windowed

theorem windowed_bare (c : Cond R) : c.bare.Windowed ↔ c.Windowed := by
  induction c with
  | literal b => exact Iff.rfl
  | compare decided c => exact c.windowed_iff_of_arg c.arg.bare
  | not decided arg ih => exact ih
  | and decided lhs rhs ihl ihr | or decided lhs rhs ihl ihr => exact and_congr ihl ihr

theorem windowed_assignSlots (c : Cond R) (h : c.Windowed) : Gives c.assignSlots Windowed := by
  induction c with
  | literal b => exact .pure trivial
  | compare decided c => exact (Gives.any _).bind fun arg _ => .pure ((c.windowed_iff_of_arg arg).2 h)
  | not decided arg ih => exact (ih h).bind fun _ h => .pure h
  | and decided lhs rhs ihl ihr | or decided lhs rhs ihl ihr =>
    exact (ihl h.1).bind fun _ hl => (ihr h.2).bind fun _ hr => .pure ⟨hl, hr⟩

theorem windowed_collapse (c : Cond R) (h : c.Windowed) : c.collapse.Windowed := by
  induction c with
  | literal b => trivial
  | compare decided c =>
    cases decided with
    | none => exact h
    | some b => trivial
  | not decided arg ih =>
    cases decided with
    | none => exact ih h
    | some b => trivial
  | and decided lhs rhs ihl ihr | or decided lhs rhs ihl ihr =>
    cases decided with
    | none => exact ⟨ihl h.1, ihr h.2⟩
    | some b => trivial

variable {fuzzy : Bool}

theorem windowed_decide (c : Cond R) (domains : Domains R) (h : c.Windowed) :
    (c.decide fuzzy domains).term.Windowed := by
  induction c with
  | literal b => trivial
  | compare decided c =>
    simp only [Cond.decide]
    split
    · exact h
    split
    · exact h
    · cases fuzzy with
      | false => exact h
      | true => exact Comparison.Windowed.withWindow h _
  | not decided arg ih => exact ih h
  | and decided lhs rhs ihl ihr | or decided lhs rhs ihl ihr =>
    simp only [Cond.decide]
    split
    · exact ⟨ihl h.1, h.2⟩
    · exact ⟨ihl h.1, ihr h.2⟩

end Cond

namespace Statement

abbrev Windowed (s : Statement R) : Prop := s.Holds (fun _ _ => True) Cond.Windowed fun _ => True

abbrev WindowedBlock (body : List (Statement R)) : Prop := HoldsBlock (fun _ _ => True) Cond.Windowed (fun _ => True) body

mutual

theorem windowed_bare : (s : Statement R) → (s.bare.Windowed ↔ s.Windowed)
  | assign _ _ => Iff.rfl
  | pays _ _ => Iff.rfl
  | branch c body otherwise _ => and_congr c.windowed_bare
    (and_congr (windowedBlock_bareBlock body) (and_congr_left fun _ => windowedBlock_bareBlock otherwise))
  | sequence body => windowedBlock_bareBlock body

theorem windowedBlock_bareBlock : (body : List (Statement R)) → (WindowedBlock (bareBlock body) ↔ WindowedBlock body)
  | [] => Iff.rfl
  | s :: rest => and_congr (windowed_bare s) (windowedBlock_bareBlock rest)

end

mutual

theorem windowed_markAffected : (s : Statement R) → s.Windowed → s.markAffected.Windowed
  | assign _ _, h => h
  | pays _ _, h => h
  | branch _ body otherwise _, h =>
    ⟨h.1, windowedBlock_markAffectedBlock body h.2.1, windowedBlock_markAffectedBlock otherwise h.2.2.1, trivial⟩
  | sequence body, h => windowedBlock_markAffectedBlock body h

theorem windowedBlock_markAffectedBlock : (body : List (Statement R)) → WindowedBlock body →
    WindowedBlock (markAffectedBlock body)
  | [], _ => trivial
  | s :: rest, h => ⟨windowed_markAffected s h.1, windowedBlock_markAffectedBlock rest h.2⟩

end

mutual

theorem windowed_assignSlots : (s : Statement R) → s.Windowed → Gives s.assignSlots Windowed
  | assign _ _, _ => (Gives.any _).bind fun _ _ => (Gives.any _).bind fun _ _ => .pure trivial
  | pays _ _, _ => (Gives.any _).bind fun _ _ => (Gives.any _).bind fun _ _ => .pure trivial
  | branch c body otherwise _, h =>
    (c.windowed_assignSlots h.1).bind fun _ hc => (windowedBlock_assignSlotsBlock body h.2.1).bind fun _ hb =>
      (windowedBlock_assignSlotsBlock otherwise h.2.2.1).bind fun _ ho => .pure ⟨hc, hb, ho, trivial⟩
  | sequence body, h => (windowedBlock_assignSlotsBlock body h).bind fun _ hb => .pure hb

theorem windowedBlock_assignSlotsBlock : (body : List (Statement R)) → WindowedBlock body →
    Gives (assignSlotsBlock body) WindowedBlock
  | [], _ => .pure trivial
  | s :: rest, h => (windowed_assignSlots s h.1).bind fun _ hs =>
    (windowedBlock_assignSlotsBlock rest h.2).bind fun _ hr => .pure ⟨hs, hr⟩

end

end Statement

theorem windowed_assignSlots {events : List (Event R)} (h : ∀ event ∈ events, Statement.WindowedBlock event) :
    ∀ event ∈ (assignSlots events).1, Statement.WindowedBlock event := by
  have hall : Gives (events.mapM Statement.assignSlotsBlock) fun results =>
      ∀ event ∈ results, Statement.WindowedBlock event := by
    induction events with
    | nil => exact .pure (by simp)
    | cons event events ih =>
      rw [List.forall_mem_cons] at h
      rw [List.mapM_cons]
      exact (Statement.windowedBlock_assignSlotsBlock event h.1).bind fun _ he => (ih h.2).bind fun _ hr =>
        .pure (List.forall_mem_cons.2 ⟨he, hr⟩)
  exact hall #[]

theorem windowed_inferEvents {fuzzy : Bool} {events : List (Event R)}
    (h : ∀ event ∈ events, Statement.WindowedBlock event) :
    Gives (inferEvents fuzzy events) fun r => ∀ event ∈ r.term, Statement.WindowedBlock event :=
  Statement.holds_inferEvents Cond.windowed_decide h

section Parsed

open Grammar

variable {constants : Constants R} {us : List (Token R)}

/-- Numerals are not negative. -/
def Unsigned (us : List (Token R)) : Prop := ∀ v, .number v ∈ us → 0 ≤ v

theorem Unsigned.mono {vs : List (Token R)} (h : Unsigned us) (hsub : vs ⊆ us) : Unsigned vs := fun v hv => h v (hsub hv)

theorem leading?_nonneg {cs : List Char} {x : R} {n : Nat} (h : Numeral.leading? cs = some (x, n)) : 0 ≤ x := by
  have hx : ∃ (m : Nat) (e : Int), Scalar.ofDecimal m e = x := by
    simp only [Numeral.leading?] at h
    split at h <;> split_ifs at h <;> exact ⟨_, _, congrArg Prod.fst (Option.some.inj h)⟩
  obtain ⟨m, e, rfl⟩ := hx
  rw [ExactScalar.ofDecimal_eq]
  positivity

theorem token?_nonneg {cs : List Char} {v : R} {n : Nat} (h : Lexer.token? cs = some (.number v, n)) : 0 ≤ v := by
  cases cs with
  | nil => cases h
  | cons c rest =>
    simp only [Lexer.token?] at h
    split_ifs at h
    · obtain ⟨hword, -⟩ := Prod.mk.inj (Option.some.inj h)
      generalize Keyword.ofText? (String.ofList (c :: rest.takeWhile Lexer.isNameChar)) = word at hword
      cases word <;> cases hword
    · obtain ⟨⟨x, k⟩, hx, h⟩ := Option.map_eq_some_iff.1 h
      cases h
      exact leading?_nonneg hx
    · obtain ⟨⟨s, k⟩, -, h⟩ := Option.map_eq_some_iff.1 h
      cases h

theorem unsigned_scanFrom (cs : List Char) (place : Nat) {ts : List (Lexeme R)} (h : Lexer.scanFrom cs place = .ok ts) :
    Unsigned (ts.map (·.token)) := by
  induction cs, place using Lexer.scanFrom.induct (R := R) generalizing ts with
  | case1 place =>
    rw [Lexer.scanFrom] at h
    cases h
    simp [Unsigned]
  | case2 place c rest hblank ih =>
    rw [Lexer.scanFrom, if_pos hblank] at h
    exact ih h
  | case3 place c rest hblank htoken =>
    rw [Lexer.scanFrom, if_neg hblank, htoken] at h
    cases h
  | case4 place c rest hblank token n htoken stop =>
    rename_i ih
    rw [Lexer.scanFrom, if_neg hblank, htoken] at h
    simp only at h
    generalize hothers : Lexer.scanFrom (R := R) (rest.drop (n - 1)) _ = others at h
    cases others with
    | error e => cases h
    | ok others =>
    cases h
    intro v hv
    rcases List.mem_cons.1 hv with rfl | hv
    · exact token?_nonneg htoken
    · exact ih hothers v hv

theorem nonneg_of_derivesTolerance {t : R} (hu : Unsigned us) (h : DerivesTolerance us (some t)) : 0 ≤ t := by
  cases h with
  | another _ _ v => exact hu t (by simp)

theorem defaultTolerance_nonneg : (0 : R) ≤ Intrinsic.defaultTolerance := Bound.tolerance_pos.le

theorem Comparison.windowed_new {tolerance : Option R} (relation : Relation) (arg : Expr R) (hu : Unsigned us)
    (h : DerivesTolerance us tolerance) : (Comparison.new relation arg tolerance).Windowed := by
  refine .of_plain ?_ rfl
  cases tolerance with
  | none => exact defaultTolerance_nonneg
  | some t => exact nonneg_of_derivesTolerance hu h

theorem windowed_of_derivesCond {level : CondLevel} {c : Cond R} (h : DerivesCond constants level us c)
    (hu : Unsigned us) : c.Windowed := by
  induction h with
  | disjunction _ ih | conjunction _ ih => exact ih hu
  | group _ ih => exact ih (hu.mono fun _ ht => by simp [ht])
  | or _ _ iha ihb | and _ _ iha ihb => exact ⟨iha (hu.mono fun _ ht => by simp [ht]), ihb (hu.mono fun _ ht => by simp [ht])⟩
  | comparison _ _ ht hc =>
    have hws := hu.mono (List.subset_append_right _ _)
    cases hc <;> exact Comparison.windowed_new _ _ hws ht

theorem Unsigned.joined {parts : List (List (Token R) × Statement R)} (hu : Unsigned (joined parts)) :
    ∀ p ∈ parts, Unsigned p.1 := fun _ hp =>
  hu.mono fun _ ht => List.mem_flatten.2 ⟨_, List.mem_map_of_mem hp, ht⟩

theorem windowed_of_derivesStatement {s : Statement R} (h : DerivesStatement constants us s) (hu : Unsigned us) :
    s.Windowed := by
  induction h with
  | assign _ _ | pays _ _ => trivial
  | branch body hc _ _ ih =>
    have hbody : ∀ p ∈ body, Unsigned p.1 := (hu.mono fun _ ht => by simp [ht]).joined
    refine ⟨windowed_of_derivesCond hc (hu.mono fun _ ht => by simp [ht]), Statement.holdsBlock_iff.2 ?_, trivial, trivial⟩
    exact List.forall_mem_map.2 fun p hp => ih p hp (hbody p hp)
  | branchElse body otherwise hc _ _ _ ih ih' =>
    have hbody : ∀ p ∈ body, Unsigned p.1 := (hu.mono fun _ ht => by simp [ht]).joined
    have hother : ∀ p ∈ otherwise, Unsigned p.1 := (hu.mono fun _ ht => by simp [ht]).joined
    refine ⟨windowed_of_derivesCond hc (hu.mono fun _ ht => by simp [ht]), Statement.holdsBlock_iff.2 ?_,
      Statement.holdsBlock_iff.2 ?_, trivial⟩
    · exact List.forall_mem_map.2 fun p hp => ih p hp (hbody p hp)
    · exact List.forall_mem_map.2 fun p hp => ih' p hp (hother p hp)

theorem windowed_parseEvent {text : String} {i : Nat} {ss : List (Statement R)}
    (h : parseEvent text i constants = .ok ss) : Statement.WindowedBlock ss := by
  obtain ⟨ts, hts, hevent⟩ := Parser.parseEvent_eq_ok.1 h
  have hu : Unsigned (tokens ts) := unsigned_scanFrom _ _ hts
  obtain ⟨parts, hparts, rfl, hd⟩ := Parser.derives_event ts hevent
  rw [hparts] at hu
  exact Statement.holdsBlock_iff.2
    (List.forall_mem_map.2 fun p hp => windowed_of_derivesStatement (hd p hp) (hu.joined p hp))

end Parsed

/-- The comparisons of a built product are windowed. -/
theorem windowed_build {plan : Plan R} {p : Product R} (h : plan.build = .ok p) :
    ∀ event ∈ p.events, Statement.WindowedBlock event := by
  obtain ⟨parsed, a, hparsed, ha, hevents, -, -, -⟩ := Plan.exists_analysed h
  have hread : ∀ event ∈ parsed, Statement.WindowedBlock event := by
    intro event he
    obtain ⟨text, i, hparse⟩ := hparsed event he
    exact windowed_parseEvent hparse
  have hmarked : ∀ event ∈ (markAffected (assignSlots parsed).1).1, Statement.WindowedBlock event :=
    List.forall_mem_map.2 fun event he =>
      Statement.windowedBlock_markAffectedBlock event (windowed_assignSlots hread event he)
  rw [hevents]
  exact forall_analyse ha hmarked windowed_inferEvents
    (fun event => Statement.holdsBlock_collapseBlock Cond.windowed_collapse event) Statement.windowedBlock_bareBlock

end PayoffPricing.Script
