import PayoffPricing.Script.Collapse
import PayoffPricing.Script.Inference
/-!
What holds everywhere in a statement: of the variables that it writes with their expressions, of its conditions, and
of what is noted at conditional statements. Domain analysis and the removal of decided conditions rebuild conditions
only, so that they keep whatever those keep.
-/

namespace PayoffPricing.Script

variable {R : Type}

section Gives

variable {α β σ : Type}

/-- Whatever the state is, the step has a result as it should be. -/
def Gives (step : StateM σ α) (good : α → Prop) : Prop := ∀ s, good (step s).1

theorem Gives.bind {step : StateM σ α} {next : α → StateM σ β} {good : α → Prop} {after : β → Prop}
    (hs : Gives step good) (hn : ∀ a, good a → Gives (next a) after) : Gives (step >>= next) after :=
  fun s => hn _ (hs s) _

theorem Gives.pure {a : α} {good : α → Prop} (h : good a) : Gives (σ := σ) (Pure.pure a) good := fun _ => h

theorem Gives.any (step : StateM σ α) : Gives step fun _ => True := fun _ => trivial

end Gives

namespace Statement

variable (written : Variable → Expr R → Prop) (condition : Cond R → Prop) (noted : List Nat → Prop)

mutual

/-- The three properties hold wherever they apply in the statement. -/
def Holds : Statement R → Prop
  | assign v e => written v e
  | pays v e => written v e
  | branch c body otherwise affected => condition c ∧ HoldsBlock body ∧ HoldsBlock otherwise ∧ noted affected
  | sequence body => HoldsBlock body

def HoldsBlock : List (Statement R) → Prop
  | [] => True
  | s :: rest => s.Holds ∧ HoldsBlock rest

end

variable {written condition noted}

theorem holdsBlock_iff {body : List (Statement R)} :
    HoldsBlock written condition noted body ↔ ∀ s ∈ body, s.Holds written condition noted := by
  induction body with
  | nil => simp [HoldsBlock]
  | cons s rest ih => rw [HoldsBlock, ih, List.forall_mem_cons]

mutual

theorem holds_collapse (hcollapse : ∀ c, condition c → condition c.collapse) :
    (s : Statement R) → s.Holds written condition noted → s.collapse.1.Holds written condition noted
  | assign _ _, h => h
  | pays _ _, h => h
  | branch c body otherwise affected, h => by
    simp only [collapse]
    split
    · exact holdsBlock_collapseBlock hcollapse body h.2.1
    · exact holdsBlock_collapseBlock hcollapse otherwise h.2.2.1
    · exact ⟨hcollapse c h.1, holdsBlock_collapseBlock hcollapse body h.2.1,
        holdsBlock_collapseBlock hcollapse otherwise h.2.2.1, h.2.2.2⟩
  | sequence body, h => holdsBlock_collapseBlock hcollapse body h

theorem holdsBlock_collapseBlock (hcollapse : ∀ c, condition c → condition c.collapse) :
    (body : List (Statement R)) → HoldsBlock written condition noted body →
      HoldsBlock written condition noted (collapseBlock body).1
  | [], _ => trivial
  | s :: rest, h => ⟨holds_collapse hcollapse s h.1, holdsBlock_collapseBlock hcollapse rest h.2⟩

end

section Infer

variable [Scalar R] {fuzzy : Bool}

mutual

/-- What analysis makes of a statement: conditions are decided on some domains, and all else is as it was. -/
inductive Rebuilt (fuzzy : Bool) : Statement R → Statement R → Prop
  | same (s) : Rebuilt fuzzy s s
  | branch (c : Cond R) (domains : Domains R) {body body' otherwise otherwise'} (affected)
      (hbody : RebuiltBlock fuzzy body body') (hother : RebuiltBlock fuzzy otherwise otherwise') :
      Rebuilt fuzzy (branch c body otherwise affected)
        (branch (c.decide fuzzy domains).term body' otherwise' affected)
  | sequence {body body'} (h : RebuiltBlock fuzzy body body') : Rebuilt fuzzy (sequence body) (sequence body')

inductive RebuiltBlock (fuzzy : Bool) : List (Statement R) → List (Statement R) → Prop
  | same (body) : RebuiltBlock fuzzy body body
  | cons {s s' rest rest'} (hs : Rebuilt fuzzy s s') (hr : RebuiltBlock fuzzy rest rest') :
      RebuiltBlock fuzzy (s :: rest) (s' :: rest')

end

mutual

theorem rebuilt_infer : (s : Statement R) → Gives (s.infer fuzzy) fun r => Rebuilt fuzzy s r.term
  | assign v e => by
    refine (Gives.any _).bind fun domains _ => ?_
    split
    · exact .pure (.same _)
    · exact (Gives.any _).bind fun _ _ => .pure (.same _)
  | pays v e => by
    refine (Gives.any _).bind fun domains _ => ?_
    split
    · exact .pure (.same _)
    · exact (Gives.any _).bind fun _ _ => .pure (.same _)
  | branch c body otherwise affected => by
    refine (Gives.any _).bind fun domains _ => ?_
    have hnew {body' otherwise'} (hb : RebuiltBlock fuzzy body body') (ho : RebuiltBlock fuzzy otherwise otherwise') :=
      Rebuilt.branch c domains affected hb ho
    dsimp only
    split
    · exact .pure (hnew (.same _) (.same _))
    split
    · exact (rebuiltBlock_inferBlock body).bind fun _ hb => .pure (hnew hb (.same _))
    · exact (rebuiltBlock_inferBlock otherwise).bind fun _ ho => .pure (hnew (.same _) ho)
    · refine (Gives.any _).bind fun _ _ => ?_
      split
      · exact .pure (hnew (.same _) (.same _))
      refine (rebuiltBlock_inferBlock body).bind fun _ hb => ?_
      split
      · exact .pure (hnew hb (.same _))
      refine (Gives.any _).bind fun _ _ => ?_
      split
      · exact .pure (hnew hb (.same _))
      refine (Gives.any _).bind fun _ _ => (rebuiltBlock_inferBlock otherwise).bind fun _ ho => ?_
      split
      · exact .pure (hnew hb ho)
      refine (Gives.any _).bind fun _ _ => ?_
      split
      · exact .pure (hnew hb ho)
      · exact (Gives.any _).bind fun _ _ => .pure (hnew hb ho)
  | sequence body => (rebuiltBlock_inferBlock body).bind fun _ hb => .pure (.sequence hb)

theorem rebuiltBlock_inferBlock :
    (body : List (Statement R)) → Gives (inferBlock fuzzy body) fun r => RebuiltBlock fuzzy body r.term
  | [] => .pure (.same _)
  | s :: rest => by
    refine (rebuilt_infer s).bind fun _ hs => ?_
    dsimp only
    split
    · exact .pure (.cons hs (.same _))
    · exact (rebuiltBlock_inferBlock rest).bind fun _ hr => .pure (.cons hs hr)

end

mutual

theorem holds_rebuilt (hdecide : ∀ c (domains : Domains R), condition c → condition (c.decide fuzzy domains).term) :
    {s s' : Statement R} → Rebuilt fuzzy s s' → s.Holds written condition noted → s'.Holds written condition noted
  | _, _, .same _, h => h
  | _, _, .branch c domains _ hbody hother, ⟨hc, hb, ho, hn⟩ =>
    ⟨hdecide c domains hc, holdsBlock_rebuilt hdecide hbody hb, holdsBlock_rebuilt hdecide hother ho, hn⟩
  | _, _, .sequence hbody, h => holdsBlock_rebuilt hdecide hbody h

theorem holdsBlock_rebuilt
    (hdecide : ∀ c (domains : Domains R), condition c → condition (c.decide fuzzy domains).term) :
    {body body' : List (Statement R)} → RebuiltBlock fuzzy body body' → HoldsBlock written condition noted body →
      HoldsBlock written condition noted body'
  | _, _, .same _, h => h
  | _, _, .cons hs hr, h => ⟨holds_rebuilt hdecide hs h.1, holdsBlock_rebuilt hdecide hr h.2⟩

end

/-- What analysis keeps in a block, it keeps in events. -/
theorem forall_inferEvents {P : Event R → Prop}
    (hP : ∀ {event event'}, RebuiltBlock fuzzy event event' → P event → P event') {events : List (Event R)}
    (h : ∀ event ∈ events, P event) :
    Gives (inferEvents fuzzy events) fun r => ∀ event ∈ r.term, P event := by
  induction events with
  | nil => exact .pure (by simp)
  | cons event rest ih =>
    rw [List.forall_mem_cons] at h
    refine (rebuiltBlock_inferBlock event).bind fun _ he => ?_
    dsimp only
    split
    · exact .pure (List.forall_mem_cons.2 ⟨hP he h.1, h.2⟩)
    · exact (ih h.2).bind fun _ hr => .pure (List.forall_mem_cons.2 ⟨hP he h.1, hr⟩)

theorem holds_inferEvents (hdecide : ∀ c (domains : Domains R), condition c → condition (c.decide fuzzy domains).term)
    {events : List (Event R)} (h : ∀ event ∈ events, HoldsBlock written condition noted event) :
    Gives (inferEvents fuzzy events) fun r => ∀ event ∈ r.term, HoldsBlock written condition noted event :=
  forall_inferEvents (holdsBlock_rebuilt hdecide) h

end Infer

end Statement

end PayoffPricing.Script
