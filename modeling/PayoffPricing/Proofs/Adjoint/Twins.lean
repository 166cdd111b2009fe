import PayoffPricing.Proofs.Adjoint.Checkpoint
import PayoffPricing.Proofs.Adjoint.Number
/-!
Twins. Tapes that have the same nodes with the same inputs, in blocks of one size, go on to record the same
nodes, whatever their adjoints are and wherever they keep their edges.
-/

namespace PayoffPricing

namespace Arena

variable {α : Type} {a b : Arena α} {k : Nat}

/-- All blocks have room for `k` elements. -/
structure Uniform (k : Nat) (a : Arena α) : Prop where
  blockSize_eq : a.blockSize = k
  capacity_eq : ∀ (i : Nat) (b : Block α), a.blocks[i]? = some b → b.capacity = k

theorem uniform_empty (h : 0 < k) : (empty k h : Arena α).Uniform k := by
  refine ⟨rfl, fun i b hb => ?_⟩
  cases i with
  | zero =>
    obtain rfl := Option.some.inj hb
    rfl
  | succ i => contradiction

theorem Uniform.modifyBlock (h : a.Uniform k) {i : Nat} {f : Block α → Block α} (hf : ∀ b, (f b).capacity = b.capacity) :
    (a.modifyBlock i f).Uniform k := by
  refine ⟨h.blockSize_eq, fun j b hb => ?_⟩
  simp only [Arena.modifyBlock, Array.getElem?_modify] at hb
  split at hb
  · obtain ⟨c, hc, rfl⟩ := Option.map_eq_some_iff.1 hb
    rw [hf]
    exact h.capacity_eq j c hc
  · exact h.capacity_eq j b hb

theorem Uniform.rewindToMark (h : a.Uniform k) : a.rewindToMark.Uniform k := by
  unfold Arena.rewindToMark
  split
  · refine ⟨h.blockSize_eq, fun i b hb => ?_⟩
    rw [Array.getElem?_mapIdx] at hb
    obtain ⟨c, hc, rfl⟩ := Option.map_eq_some_iff.1 hb
    have hcapacity := h.capacity_eq i c hc
    split_ifs <;> exact hcapacity
  · exact h

theorem Uniform.advance (h : a.Uniform k) : (a.advance 1).Uniform k := by
  have hpos := a.blockSize_pos
  have hmax : max 1 a.blockSize = k := by
    rw [h.blockSize_eq] at hpos ⊢
    omega
  unfold Arena.advance
  dsimp only
  split
  · split
    · refine ⟨h.blockSize_eq, fun i b hb => ?_⟩
      rw [Array.getElem?_set] at hb
      split_ifs at hb
      · obtain rfl := Option.some.inj hb
        exact hmax
      · exact h.capacity_eq i b hb
    · exact ⟨h.blockSize_eq, h.capacity_eq⟩
  · refine ⟨h.blockSize_eq, fun i b hb => ?_⟩
    rw [Array.getElem?_push] at hb
    split_ifs at hb
    · obtain rfl := Option.some.inj hb
      exact hmax
    · exact h.capacity_eq i b hb

theorem Uniform.push (h : a.Uniform k) (v : α) : (a.push v).2.Uniform k := by
  have hroom : (a.withRoom 1).Uniform k := by
    unfold withRoom
    split
    · exact h.advance
    · exact h
  exact hroom.modifyBlock fun _ => rfl

theorem Uniform.current_push (h : a.Uniform k) (v : α) :
    (a.push v).2.current = if (a.items a.current).size < k then a.current else a.current + 1 := by
  have hcapacity : a.currentBlock.capacity = k := h.capacity_eq _ _ (Array.getElem?_eq_getElem a.current_lt)
  change (a.withRoom 1).current = _
  rw [withRoom, Block.room, hcapacity, items_current]
  by_cases hfull : a.currentBlock.items.size < k
  · rw [if_pos hfull, if_neg (by omega)]
  · rw [if_neg hfull, if_pos (by omega), current_advance]

/-- Arenas in blocks of `k` elements that hold elements at the same places. -/
structure Twins (k : Nat) (a b : Arena α) : Prop where
  uniform_left : a.Uniform k
  uniform_right : b.Uniform k
  current_eq : a.current = b.current
  size_eq : ∀ i, (a.items i).size = (b.items i).size

theorem Twins.isSome_iff (h : Twins k a b) {p : Position} : (a.get? p).isSome ↔ (b.get? p).isSome := by
  rw [isSome_get?_iff, isSome_get?_iff, h.size_eq]

/-- Twins store the next element at the same place, and are twins again. -/
theorem Twins.push (h : Twins k a b) (ha : a.Tidy) (hb : b.Tidy) (v w : α) :
    (a.push v).1 = (b.push w).1 ∧ Twins k (a.push v).2 (b.push w).2 := by
  have hcurrent : (a.push v).2.current = (b.push w).2.current := by
    rw [h.uniform_left.current_push, h.uniform_right.current_push, h.size_eq, h.current_eq]
  have happended := appended_push ha (v := v)
  have happended' := appended_push hb (v := w)
  have hblock : (a.push v).1.block = (b.push w).1.block := by
    rw [happended.block_eq, happended'.block_eq, hcurrent]
  refine ⟨Position.eq_iff.2 ⟨hblock, ?_⟩, h.uniform_left.push v, h.uniform_right.push w, hcurrent, fun i => ?_⟩
  · rw [happended.slot_eq, happended'.slot_eq, hblock, h.size_eq]
  · rw [happended.items_eq, happended'.items_eq, hblock]
    split
    · rw [Array.size_append, Array.size_append, h.size_eq]
      rfl
    · exact h.size_eq i

end Arena

namespace Tape

variable {R : Type} {base t t' : Tape R} {k : Nat}

/-- The nodes of `base` are on `t`, with the inputs that they have there. -/
structure Keeps (base t : Tape R) : Prop where
  kept : ∀ p, (base.nodes.get? p).isSome → (t.nodes.get? p).isSome
  inputs_eq : ∀ p, (base.nodes.get? p).isSome → t.inputs p = base.inputs p

theorem Keeps.refl (t : Tape R) : Keeps t t := ⟨fun _ h => h, fun _ _ => rfl⟩

theorem Keeps.trans {u : Tape R} (h : Keeps base t) (h' : Keeps t u) : Keeps base u :=
  ⟨fun p hp => h'.kept p (h.kept p hp), fun p hp => (h'.inputs_eq p (h.kept p hp)).trans (h.inputs_eq p hp)⟩

/-- Sound tapes with the same nodes, which have the same inputs. -/
structure Twins (k : Nat) (t t' : Tape R) : Prop where
  sound_left : t.Sound
  sound_right : t'.Sound
  nodes : Arena.Twins k t.nodes t'.nodes
  inputs_eq : t.inputs = t'.inputs

theorem Twins.accepts (h : Twins k t t') {candidates : List (Edge R)} (hc : t.Accepts candidates) :
    t'.Accepts candidates := fun e he q hq => h.nodes.isSome_iff.1 (hc e he q hq)

/-- A tape that was rewound is a twin of the one that it returns to. -/
theorem Returns.twins (h : base.Returns t) (hbase : base.Sound) (hu : base.nodes.Uniform k)
    (ht : t.nodes.Uniform k) : Twins k t.rewindToMark base where
  sound_left := h.sound_rewindToMark hbase
  sound_right := hbase
  nodes := {
    uniform_left := ht.rewindToMark
    uniform_right := hu
    current_eq := congrArg Position.block (h.nodes.stop_eq h.sound.nodes_tidy)
    size_eq := h.nodes.size_items }
  inputs_eq := funext fun _ => h.inputs_eq hbase

variable [Scalar R]

omit [Scalar R] in
theorem twins_withBlockSize (h : 0 < k) : Twins k (withBlockSize k h : Tape R) (withBlockSize k h) :=
  ⟨sound_withBlockSize k h, sound_withBlockSize k h,
    ⟨Arena.uniform_empty h, Arena.uniform_empty h, rfl, fun _ => rfl⟩, rfl⟩

section Recording

variable {candidates : List (Edge R)}

theorem Recorded.keeps {id : Position} {edges : List (Edge R)} (h : Recorded t id edges t') (ht : t.Sound) :
    Keeps t t' := by
  refine ⟨fun p hp => h.isSome_get?_iff.2 (.inr hp), fun p hp => ?_⟩
  rw [h.inputs_eq ht, if_neg (h.fresh hp).ne]

theorem BuiltFrom.keeps (h : BuiltFrom base t) (hbase : base.Sound) : Keeps base t := by
  induction h with
  | start => exact .refl base
  | leaf ht ih => exact ih.trans (((ht.sound hbase).recorded_record []).keeps (ht.sound hbase))
  | edges ht cs _ ih => exact ih.trans (((ht.sound hbase).recorded_record cs).keeps (ht.sound hbase))
  | folded ht cs _ ih => exact ih.trans (((ht.sound hbase).recorded_recordFolded cs).keeps (ht.sound hbase))

theorem Recorded.twins {u u' : Tape R} {id : Position} {kept : List (Edge R)} (h : Twins k t t')
    (hr : Recorded t id kept u) (hr' : Recorded t' id kept u') (hu : u.Sound) (hu' : u'.Sound)
    (hnodes : Arena.Twins k u.nodes u'.nodes) : Twins k u u' := by
  refine ⟨hu, hu', hnodes, funext fun p => ?_⟩
  rw [hr.inputs_eq h.sound_left, hr'.inputs_eq h.sound_right, h.inputs_eq]

theorem Twins.record (h : Twins k t t') (hc : t.Accepts candidates) :
    (t.record candidates).1 = (t'.record candidates).1 ∧
      Twins k (t.record candidates).2 (t'.record candidates).2 := by
  obtain ⟨hid, hnodes⟩ := h.nodes.push h.sound_left.nodes_tidy h.sound_right.nodes_tidy
    ⟨(candidates.filter Edge.isActive).length, (t.edges.reserve _ vacant).1, (pushAdjoints t.adjoints _).1⟩
    ⟨(candidates.filter Edge.isActive).length, (t'.edges.reserve _ vacant).1, (pushAdjoints t'.adjoints _).1⟩
  have hid : (t.record candidates).1 = (t'.record candidates).1 := hid
  refine ⟨hid, Recorded.twins h (h.sound_left.recorded_record candidates) ?_ ?_ ?_ hnodes⟩
  · rw [hid]
    exact h.sound_right.recorded_record candidates
  · exact (BuiltFrom.edges .start candidates hc).sound h.sound_left
  · exact (BuiltFrom.edges .start candidates (h.accepts hc)).sound h.sound_right

theorem Twins.recordFolded (h : Twins k t t') (hc : t.Accepts candidates) :
    (t.recordFolded candidates).1 = (t'.recordFolded candidates).1 ∧
      Twins k (t.recordFolded candidates).2 (t'.recordFolded candidates).2 := by
  obtain ⟨hid, hnodes⟩ := h.nodes.push h.sound_left.nodes_tidy h.sound_right.nodes_tidy
    ⟨(Edge.merge candidates).length, (t.edges.reserve candidates.length vacant).1, (pushAdjoints t.adjoints _).1⟩
    ⟨(Edge.merge candidates).length, (t'.edges.reserve candidates.length vacant).1, (pushAdjoints t'.adjoints _).1⟩
  have hid : (t.recordFolded candidates).1 = (t'.recordFolded candidates).1 := hid
  refine ⟨hid, Recorded.twins h (h.sound_left.recorded_recordFolded candidates) ?_ ?_ ?_ hnodes⟩
  · rw [hid]
    exact h.sound_right.recorded_recordFolded candidates
  · exact (BuiltFrom.folded .start candidates hc).sound h.sound_left
  · exact (BuiltFrom.folded .start candidates (h.accepts hc)).sound h.sound_right

end Recording

end Tape

section Likeness

variable {R : Type} [Scalar R]

theorem Number.Notes.twins {k : Nat} {t t' : Tape R} {v : R} {inputs : List (Edge R)}
    {a : StateM (Tape R) (Number R)} (ha : Notes v inputs a) (h : Tape.Twins k t t') (hc : t.Accepts inputs) :
    (a t).1 = (a t').1 ∧ Tape.Twins k (a t).2 (a t').2 := by
  cases ha with
  | nothing => exact ⟨rfl, h⟩
  | node =>
    obtain ⟨hid, hnext⟩ := h.record hc
    exact ⟨congrArg (fun id => Number.mk v (some id)) hid, hnext⟩
  | folded =>
    obtain ⟨hid, hnext⟩ := h.recordFolded hc
    exact ⟨congrArg (fun id => Number.mk v (some id)) hid, hnext⟩

variable (R) in
/-- Twins that grow side by side. -/
def twinWorlds (k : Nat) : Worlds (Tape R) (Tape R) where
  Valid w := w.1.Twins k w.2
  Later w v := (w.1.Grows v.1 ∧ w.1.Keeps v.1) ∧ w.2.Grows v.2
  refl w := ⟨⟨.refl w.1, .refl w.1⟩, .refl w.2⟩
  trans h h' := ⟨⟨h.1.1.trans h'.1.1, h.1.2.trans h'.1.2⟩, h.2.trans h'.2⟩

variable {k : Nat} {w : Tape R × Tape R} {x y z x' y' z' : Number R}

/-- One number on both tapes. -/
def Shared (t : Tape R) (x x' : Number R) : Prop := x = x' ∧ x.OnTape t

theorem Shared.grows {t t' : Tape R} (h : Shared t x x') (ht : t.Grows t') : Shared t' x x' := ⟨h.1, h.2.grows ht⟩

theorem agree_shared {v : R} {inputs : List (Edge R)} {a : StateM (Tape R) (Number R)}
    (ha : Number.Notes v inputs a) (hc : w.1.Accepts inputs) :
    (twinWorlds R k).Agree w a a fun u => Shared u.1 := by
  intro hw
  have hw : w.1.Twins k w.2 := hw
  obtain ⟨hsame, hnext⟩ := ha.twins hw hc
  obtain ⟨-, hgrows, -, hon⟩ := ha.grows hw.sound_left hc
  obtain ⟨-, hgrows', -, -⟩ := ha.grows hw.sound_right (hw.accepts hc)
  exact ⟨hnext, ⟨⟨hgrows, hgrows.built.keeps hw.sound_left⟩, hgrows'⟩, hsame, hon⟩

theorem agree_shared_unary (hx : Shared w.1 x x') (f : R → R) (a : Number R → R) :
    (twinWorlds R k).Agree w (Number.unary x (f x.value) (a x)) (Number.unary x' (f x'.value) (a x'))
      fun u => Shared u.1 := by
  obtain ⟨rfl, hx⟩ := hx
  exact agree_shared (Number.notes_result _ _) (Number.accepts_unary hx _)

theorem agree_shared_binary (hx : Shared w.1 x x') (hy : Shared w.1 y y') (f : R → R → R) (a b : Number R → Number R → R) :
    (twinWorlds R k).Agree w (Number.binary x y (f x.value y.value) (a x y) (b x y))
      (Number.binary x' y' (f x'.value y'.value) (a x' y') (b x' y')) fun u => Shared u.1 := by
  obtain ⟨rfl, hx⟩ := hx
  obtain ⟨rfl, hy⟩ := hy
  exact agree_shared (Number.notes_result _ _) (Number.accepts_binary hx hy _ _)

theorem agree_shared_lognormalStep (hx : Shared w.1 x x') (hy : Shared w.1 y y') (hz : Shared w.1 z z') (c : R) :
    (twinWorlds R k).Agree w (Folded.lognormalStep x y z c).record (Folded.lognormalStep x' y' z' c).record
      fun u => Shared u.1 := by
  obtain ⟨rfl, hx⟩ := hx
  obtain ⟨rfl, hy⟩ := hy
  obtain ⟨rfl, hz⟩ := hz
  exact agree_shared (Number.notes_record (.lognormalStep x y z c)) (Number.accepts_ternary hx hy hz _ _ _)

variable (R) in
/-- Twins record the same numbers. -/
def twinLikeness (k : Nat) : Likeness R (Tape R) (Tape R) (Number R) (Number R) where
  toWorlds := twinWorlds R k
  Like w := Shared w.1
  mono hl h := h.grows hl.1.1
  constant w c := ⟨rfl, Number.onTape_constant w.1 c⟩
  value h := congrArg Number.value h.1
  add hx hy := agree_shared_binary hx hy (· + ·) (fun _ _ => 1) fun _ _ => 1
  sub hx hy := agree_shared_binary hx hy (· - ·) (fun _ _ => 1) fun _ _ => -1
  mul hx hy := agree_shared_binary hx hy (· * ·) (fun _ y => y.value) fun x _ => x.value
  div hx hy := agree_shared_binary hx hy (· / ·) (fun _ y => 1 / y.value)
    fun x y => -(x.value / y.value) * (1 / y.value)
  pow hx hy := agree_shared_binary hx hy Scalar.pow
    (fun x y => (Normal.powPartials x.value y.value (Scalar.pow x.value y.value)).1)
    fun x y => (Normal.powPartials x.value y.value (Scalar.pow x.value y.value)).2
  neg hx := agree_shared_unary hx (- ·) fun _ => -1
  addScalar c hx := agree_shared_unary hx (· + c) fun _ => 1
  subScalar c hx := agree_shared_unary hx (· - c) fun _ => 1
  mulScalar c hx := agree_shared_unary hx (· * c) fun _ => c
  divScalar c hx := agree_shared_unary hx (· / c) fun _ => 1 / c
  exp hx := agree_shared_unary hx Scalar.exp fun x => Scalar.exp x.value
  log hx := agree_shared_unary hx Scalar.log fun x => 1 / x.value
  sqrt hx := agree_shared_unary hx Scalar.sqrt fun x => 0.5 / Scalar.sqrt x.value
  abs hx := agree_shared_unary hx Scalar.abs fun x => Normal.absDerivative x.value
  lognormalStep c hx hy hz := agree_shared_lognormalStep hx hy hz c

end Likeness

end PayoffPricing
