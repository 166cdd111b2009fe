import PayoffPricing.Proofs.Script.Bare
import PayoffPricing.Script.Slots
/-!
Slots are assigned to terms without findings as to terms with them.
-/

namespace PayoffPricing.Script

variable {R : Type}

namespace Expr

mutual

theorem assignSlots_bare : (e : Expr R) → e.bare.assignSlots = bare <$> e.assignSlots
  | literal _ => rfl
  | spot => rfl
  | read _ _ => rfl
  | neg _ arg => by
    simp only [bare, assignSlots, assignSlots_bare arg, bind_map_left, map_bind, map_pure]
  | plus _ arg => by
    simp only [bare, assignSlots, assignSlots_bare arg, bind_map_left, map_bind, map_pure]
  | binary _ _ lhs rhs => by
    simp only [bare, assignSlots, assignSlots_bare lhs, assignSlots_bare rhs, bind_map_left, map_bind,
      map_pure]
  | call _ _ args => by
    simp only [bare, assignSlots, assignSlotsList_bare args, bind_map_left, map_bind, map_pure]

theorem assignSlotsList_bare : (es : List (Expr R)) →
    assignSlotsList (bareList es) = bareList <$> assignSlotsList es
  | [] => rfl
  | e :: es => by
    simp only [bareList, assignSlotsList, assignSlots_bare e, assignSlotsList_bare es, bind_map_left,
      map_bind, map_pure]

end

end Expr

theorem Cond.assignSlots_bare (c : Cond R) : c.bare.assignSlots = bare <$> c.assignSlots := by
  induction c with
  | literal b => rfl
  | compare decided c =>
    simp only [bare, assignSlots, Expr.assignSlots_bare, bind_map_left, map_bind, map_pure]
  | not decided arg ih => simp only [bare, assignSlots, ih, bind_map_left, map_bind, map_pure]
  | and decided lhs rhs ihl ihr => simp only [bare, assignSlots, ihl, ihr, bind_map_left, map_bind, map_pure]
  | or decided lhs rhs ihl ihr => simp only [bare, assignSlots, ihl, ihr, bind_map_left, map_bind, map_pure]

namespace Statement

mutual

theorem assignSlots_bare : (s : Statement R) → s.bare.assignSlots = bare <$> s.assignSlots
  | assign _ e => by
    simp only [bare, assignSlots, e.assignSlots_bare, bind_map_left, map_bind, map_pure]
  | pays _ e => by
    simp only [bare, assignSlots, e.assignSlots_bare, bind_map_left, map_bind, map_pure]
  | branch c body otherwise _ => by
    simp only [bare, assignSlots, c.assignSlots_bare, assignSlotsBlock_bare body,
      assignSlotsBlock_bare otherwise, bind_map_left, map_bind, map_pure]
  | sequence body => by
    simp only [bare, assignSlots, assignSlotsBlock_bare body, bind_map_left, map_bind, map_pure]

theorem assignSlotsBlock_bare : (body : List (Statement R)) →
    assignSlotsBlock (bareBlock body) = bareBlock <$> assignSlotsBlock body
  | [] => rfl
  | s :: rest => by
    simp only [bareBlock, assignSlotsBlock, assignSlots_bare s, assignSlotsBlock_bare rest, bind_map_left,
      map_bind, map_pure]

end

end Statement

theorem assignSlots_map_bareBlock (events : List (Event R)) :
    (events.map Statement.bareBlock).mapM Statement.assignSlotsBlock =
      List.map Statement.bareBlock <$> events.mapM Statement.assignSlotsBlock := by
  induction events with
  | nil => rfl
  | cons event rest ih =>
    simp only [List.map_cons, List.mapM_cons, Statement.assignSlotsBlock_bare, ih, bind_map_left, map_bind,
      map_pure]

/-- Events without findings have none after slots are assigned. -/
theorem bare_assignSlots {events : List (Event R)} (h : events.map Statement.bareBlock = events) :
    (assignSlots events).1.map Statement.bareBlock = (assignSlots events).1 := by
  have hmap := congrFun (assignSlots_map_bareBlock events) #[]
  rw [h] at hmap
  exact (congrArg Prod.fst hmap).symm

end PayoffPricing.Script
