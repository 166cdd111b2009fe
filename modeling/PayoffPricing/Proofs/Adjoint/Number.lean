import PayoffPricing.Proofs.Adjoint.Recording
import PayoffPricing.Proofs.Except
import PayoffPricing.Proofs.Likeness
/-!
Numbers compute what plain scalars compute. An operation decides on its value and on what it records
without a look at the tape.
-/

namespace PayoffPricing

namespace Tape

variable {R : Type} [Scalar R] {s t u : Tape R} {p : Position}

/-- One tape was built from another one and has all of its nodes. -/
structure Grows (s t : Tape R) : Prop where
  built : BuiltFrom s t
  kept : ∀ p, (s.nodes.get? p).isSome → (t.nodes.get? p).isSome

theorem BuiltFrom.trans (h : BuiltFrom s t) (h' : BuiltFrom t u) : BuiltFrom s u := by
  induction h' with
  | start => exact h
  | leaf _ ih => exact ih.leaf
  | edges _ candidates hc ih => exact ih.edges candidates hc
  | folded _ candidates hc ih => exact ih.folded candidates hc

theorem Grows.refl (t : Tape R) : Grows t t := ⟨.start, fun _ hp => hp⟩

theorem Grows.trans (h : Grows s t) (h' : Grows t u) : Grows s u :=
  ⟨h.built.trans h'.built, fun p hp => h'.kept p (h.kept p hp)⟩

theorem Recorded.grows {id : Position} {kept : List (Edge R)} (h : Recorded s id kept t)
    (hb : BuiltFrom s t) : Grows s t :=
  ⟨hb, fun _ hp => h.isSome_get?_iff.2 (.inr hp)⟩

omit [Scalar R] in
theorem accepts_cons {e : Edge R} {es : List (Edge R)} :
    t.Accepts (e :: es) ↔ (∀ q, e.target = some q → (t.nodes.get? q).isSome) ∧ t.Accepts es := by
  simp [Accepts]

end Tape

namespace Number

section OnTape

variable {R : Type} {t : Tape R} {x y z : Number R}

/-- The node of a number is on the tape. -/
def OnTape (t : Tape R) (x : Number R) : Prop := ∀ id, x.node = some id → (t.nodes.get? id).isSome

theorem onTape_constant (t : Tape R) (c : R) : (constant c).OnTape t := by
  intro id hid
  cases hid

theorem accepts_unary (hx : x.OnTape t) (a : R) : t.Accepts [⟨a, x.node⟩] :=
  Tape.accepts_cons.2 ⟨hx, Tape.accepts_nil t⟩

theorem accepts_binary (hx : x.OnTape t) (hy : y.OnTape t) (a b : R) : t.Accepts [⟨a, x.node⟩, ⟨b, y.node⟩] :=
  Tape.accepts_cons.2 ⟨hx, accepts_unary hy b⟩

theorem accepts_ternary (hx : x.OnTape t) (hy : y.OnTape t) (hz : z.OnTape t) (a b c : R) :
    t.Accepts [⟨a, x.node⟩, ⟨b, y.node⟩, ⟨c, z.node⟩] :=
  Tape.accepts_cons.2 ⟨hx, accepts_binary hy hz b c⟩

end OnTape

variable {R : Type} [Scalar R] {t t' : Tape R} {x : Number R}

theorem OnTape.grows (h : x.OnTape t) (ht : t.Grows t') : x.OnTape t' := fun id hid => ht.kept id (h id hid)

/-- Actions that give a number of the value `v` and record at most one node, of the given inputs; which
of these they do is the same for all tapes. -/
inductive Notes (v : R) (inputs : List (Edge R)) : StateM (Tape R) (Number R) → Prop
  | nothing : Notes v inputs fun t => (constant v, t)
  | node : Notes v inputs fun t => (⟨v, some (t.record inputs).1⟩, (t.record inputs).2)
  | folded : Notes v inputs fun t => (⟨v, some (t.recordFolded inputs).1⟩, (t.recordFolded inputs).2)

theorem notes_result (v : R) (inputs : List (Edge R)) : Notes v inputs (result v inputs) := by
  unfold result
  split
  · exact .node
  · exact .nothing

theorem notes_record (e : Folded R) : Notes e.value (e.edges 1) e.record := by
  unfold Folded.record
  split
  · exact .folded
  · exact .nothing

theorem notes_input (c : R) : Notes c [] (input c) := .node

/-- What an action does to a sound tape that has the nodes of its inputs. -/
theorem Notes.grows {v : R} {inputs : List (Edge R)} {a : StateM (Tape R) (Number R)} (ha : Notes v inputs a)
    (ht : t.Sound) (hinputs : t.Accepts inputs) :
    (a t).2.Sound ∧ t.Grows (a t).2 ∧ (a t).1.value = v ∧ (a t).1.OnTape (a t).2 := by
  cases ha with
  | nothing => exact ⟨ht, .refl t, rfl, onTape_constant t v⟩
  | node =>
    have hb : Tape.BuiltFrom t (t.record inputs).2 := .edges .start inputs hinputs
    have hr := ht.recorded_record inputs
    refine ⟨hb.sound ht, hr.grows hb, rfl, fun id hid => ?_⟩
    obtain rfl := Option.some.inj hid
    exact hr.get?_self
  | folded =>
    have hb : Tape.BuiltFrom t (t.recordFolded inputs).2 := .folded .start inputs hinputs
    have hr := ht.recorded_recordFolded inputs
    refine ⟨hb.sound ht, hr.grows hb, rfl, fun id hid => ?_⟩
    obtain rfl := Option.some.inj hid
    exact hr.get?_self

/-- The first adjoint of a number; constants have adjoint zero. -/
def adjointOn (t : Tape R) (x : Number R) : R := x.node.elim 0 (t.column 0)

theorem adjoint_eq (ht : t.Sound) (hcount : 0 < t.adjointCount) (hx : x.OnTape t) : x.adjoint t = .ok (x.adjointOn t) := by
  cases hid : x.node with
  | none => simp only [adjoint, adjointOn, hid, Option.elim_none]
  | some id =>
    have hread := ht.adjoint?_eq_column (hx id hid) hcount
    simp only [adjoint, adjointOn, hid, hread, Option.elim_some]

theorem mapM_adjoint_eq (ht : t.Sound) (hcount : 0 < t.adjointCount) {xs : List (Number R)}
    (hxs : ∀ x ∈ xs, x.OnTape t) : xs.mapM (·.adjoint t) = .ok (xs.map (·.adjointOn t)) := by
  rw [mapM_eq_ok_iff, List.forall₂_map_right_iff, List.forall₂_same]
  exact fun x hx => adjoint_eq ht hcount (hxs x hx)

end Number

section Likeness

variable {R : Type} [Scalar R]

/-- A number on the tape that has the value of a plain scalar. -/
def Carries (t : Tape R) (x : R) (x' : Number R) : Prop := x = x'.value ∧ x'.OnTape t

omit [Scalar R] in
theorem map_value_eq {t : Tape R} {xs : Array R} {xs' : Array (Number R)}
    (h : List.Forall₂ (Carries t) xs.toList xs'.toList) : xs'.map (·.value) = xs := by
  rw [← Array.toList_inj, Array.toList_map]
  generalize xs.toList = l at h
  generalize xs'.toList = l' at h
  induction h with
  | nil => rfl
  | cons hx _ ih => rw [List.map_cons, ih, hx.1]

variable (R) in
/-- Plain scalars beside numbers on a growing tape. -/
def recordingWorlds : Worlds Unit (Tape R) where
  Valid w := w.2.Sound
  Later w v := w.2.Grows v.2
  refl w := .refl w.2
  trans h h' := h.trans h'

theorem agree_notes {w : Unit × Tape R} {v : R} {inputs : List (Edge R)} {a : StateM (Tape R) (Number R)}
    (ha : Number.Notes v inputs a) (hinputs : w.2.Accepts inputs) :
    (recordingWorlds R).Agree w (pure v) a fun u => Carries u.2 := by
  intro hw
  obtain ⟨hsound, hgrows, hvalue, hon⟩ := ha.grows hw hinputs
  exact ⟨hsound, hgrows, hvalue.symm, hon⟩

section Operations

variable {w : Unit × Tape R} {x y z : R} {x' y' z' : Number R}

theorem agree_unary (hx : Carries w.2 x x') (f : R → R) (a : R) :
    (recordingWorlds R).Agree w (pure (f x)) (Number.unary x' (f x'.value) a) fun u => Carries u.2 := by
  obtain ⟨rfl, hx⟩ := hx
  exact agree_notes (Number.notes_result _ _) (Number.accepts_unary hx a)

theorem agree_binary (hx : Carries w.2 x x') (hy : Carries w.2 y y') (f : R → R → R) (a b : R) :
    (recordingWorlds R).Agree w (pure (f x y)) (Number.binary x' y' (f x'.value y'.value) a b)
      fun u => Carries u.2 := by
  obtain ⟨rfl, hx⟩ := hx
  obtain ⟨rfl, hy⟩ := hy
  exact agree_notes (Number.notes_result _ _) (Number.accepts_binary hx hy a b)

theorem agree_lognormalStep (hx : Carries w.2 x x') (hy : Carries w.2 y y') (hz : Carries w.2 z z') (c : R) :
    (recordingWorlds R).Agree w (pure (x * Scalar.exp (y + z * c))) (Folded.lognormalStep x' y' z' c).record
      fun u => Carries u.2 := by
  obtain ⟨rfl, hx⟩ := hx
  obtain ⟨rfl, hy⟩ := hy
  obtain ⟨rfl, hz⟩ := hz
  exact agree_notes (Number.notes_record (.lognormalStep x' y' z' c)) (Number.accepts_ternary hx hy hz _ _ _)

end Operations

variable (R) in
/-- Recording never changes a value. -/
def recordingLikeness : Likeness R Unit (Tape R) R (Number R) where
  toWorlds := recordingWorlds R
  Like w := Carries w.2
  mono hl h := ⟨h.1, h.2.grows hl⟩
  constant w c := ⟨rfl, Number.onTape_constant w.2 c⟩
  value h := h.1
  add hx hy := agree_binary hx hy (· + ·) _ _
  sub hx hy := agree_binary hx hy (· - ·) _ _
  mul hx hy := agree_binary hx hy (· * ·) _ _
  div hx hy := agree_binary hx hy (· / ·) _ _
  pow hx hy := agree_binary hx hy Scalar.pow _ _
  neg hx := agree_unary hx (- ·) _
  addScalar c hx := agree_unary hx (· + c) _
  subScalar c hx := agree_unary hx (· - c) _
  mulScalar c hx := agree_unary hx (· * c) _
  divScalar c hx := agree_unary hx (· / c) _
  exp hx := agree_unary hx Scalar.exp _
  log hx := agree_unary hx Scalar.log _
  sqrt hx := agree_unary hx Scalar.sqrt _
  abs hx := agree_unary hx Scalar.abs _
  lognormalStep c hx hy hz := agree_lognormalStep hx hy hz c

end Likeness

end PayoffPricing
