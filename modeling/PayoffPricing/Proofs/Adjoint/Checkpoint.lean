import PayoffPricing.Proofs.Adjoint.Sweep
/-!
Checkpoints. Rewinding brings back the nodes and edges that were there when the checkpoint was set,
whatever was recorded behind it since; the adjoints before the checkpoint keep what sweeps left in them.
-/

namespace PayoffPricing

namespace Arena

variable {α : Type} {a b base : Arena α} {i : Nat} {p : Position} {values : List α} {r : α → α → Prop}

/-- The checkpoint lies within what is stored. -/
structure Marked (a : Arena α) : Prop where
  block_le : a.mark.block ≤ a.current
  slot_le : a.mark.slot ≤ (a.items a.mark.block).size

theorem marked_setMark (a : Arena α) : a.setMark.Marked := by
  refine ⟨Nat.le_refl _, ?_⟩
  change a.currentBlock.items.size ≤ (a.items a.current).size
  rw [items_current]

theorem Marked.lt_size (h : a.Marked) : a.mark.block < a.blocks.size :=
  Nat.lt_of_le_of_lt h.block_le a.current_lt

@[simp]
theorem mark_rewindToMark : a.rewindToMark.mark = a.mark := by
  unfold rewindToMark
  split <;> rfl

theorem current_rewindToMark (h : a.Marked) : a.rewindToMark.current = a.mark.block := by
  rw [rewindToMark, dif_pos h.lt_size]

theorem size_blocks_rewindToMark : a.rewindToMark.blocks.size = a.blocks.size := by
  unfold rewindToMark
  split
  · simp
  · rfl

theorem items_rewindToMark (ha : a.Tidy) (h : a.Marked) : a.rewindToMark.items i =
    if i < a.mark.block then a.items i
    else if i = a.mark.block then (a.items i).extract 0 a.mark.slot else #[] := by
  have hblock : a.rewindToMark.items i = a.blocks[i]?.elim #[] fun b =>
      (if i = a.mark.block then b.truncate a.mark.slot
        else if a.mark.block < i ∧ i ≤ a.current then b.truncate 0 else b).items := by
    rw [rewindToMark, dif_pos h.lt_size, items, Array.getElem?_mapIdx]
    cases a.blocks[i]? <;> rfl
  rw [hblock]
  by_cases hlt : i < a.mark.block
  · have hne : i ≠ a.mark.block := by omega
    have hbehind : ¬(a.mark.block < i ∧ i ≤ a.current) := by omega
    simp only [if_pos hlt, if_neg hne, if_neg hbehind]
    rfl
  · rw [if_neg hlt]
    by_cases heq : i = a.mark.block
    · simp only [if_pos heq, items]
      cases a.blocks[i]? <;> simp [Block.truncate]
    · simp only [if_neg heq]
      by_cases hle : i ≤ a.current
      · have hbehind : a.mark.block < i ∧ i ≤ a.current := by omega
        simp only [if_pos hbehind]
        cases a.blocks[i]? <;> simp [Block.truncate]
      · have hbehind : ¬(a.mark.block < i ∧ i ≤ a.current) := by omega
        simp only [if_neg hbehind]
        exact ha i (by omega)

theorem tidy_rewindToMark (ha : a.Tidy) (h : a.Marked) : a.rewindToMark.Tidy := by
  intro i hi
  rw [current_rewindToMark h] at hi
  rw [items_rewindToMark ha h, if_neg (by omega), if_neg (by omega)]

theorem Marked.rewindToMark (ha : a.Tidy) (h : a.Marked) : a.rewindToMark.Marked := by
  refine ⟨?_, ?_⟩
  · rw [current_rewindToMark h, mark_rewindToMark]
  · rw [mark_rewindToMark, items_rewindToMark ha h, if_neg (Nat.lt_irrefl _), if_pos rfl]
    have := h.slot_le
    simp
    omega

theorem stop_rewindToMark (ha : a.Tidy) (h : a.Marked) : a.rewindToMark.stop = a.mark := by
  have hsize : a.rewindToMark.currentBlock.items.size = a.mark.slot := by
    rw [← items_current, current_rewindToMark h, items_rewindToMark ha h, if_neg (Nat.lt_irrefl _), if_pos rfl]
    have := h.slot_le
    simp
    omega
  exact Position.eq_iff.2 ⟨current_rewindToMark h, hsize⟩

/-- Rewinding keeps what is stored before the checkpoint, and nothing else. -/
theorem get?_rewindToMark (ha : a.Tidy) (h : a.Marked) :
    a.rewindToMark.get? p = if p < a.mark then a.get? p else none := by
  rw [get?_eq, get?_eq, items_rewindToMark ha h]
  have hlt : p < a.mark ↔ p.block < a.mark.block ∨ (p.block = a.mark.block ∧ p.slot < a.mark.slot) := Iff.rfl
  by_cases hblock : p.block < a.mark.block
  · rw [if_pos hblock, if_pos (hlt.2 (.inl hblock))]
  · rw [if_neg hblock]
    by_cases heq : p.block = a.mark.block
    · rw [if_pos heq, Array.getElem?_extract]
      by_cases hslot : p.slot < a.mark.slot
      · have := h.slot_le
        rw [if_pos (hlt.2 (.inr ⟨heq, hslot⟩)), if_pos (by rw [heq]; omega), Nat.zero_add]
      · rw [if_neg (by omega), if_neg (by rw [hlt]; omega)]
    · rw [if_neg heq, if_neg (by rw [hlt]; omega)]
      rfl

theorem items_rewind (a : Arena α) (i : Nat) : a.rewind.items i = #[] := by
  simp only [items, rewind, Array.getElem?_map]
  cases a.blocks[i]? <;> simp [Block.truncate]

theorem setMark_rewind (a : Arena α) : a.rewind.setMark = a.rewind := by
  have hstop : a.rewind.stop = .start := by
    have hitems : a.rewind.currentBlock.items = #[] := by rw [← items_current, items_rewind]
    rw [stop, hitems]
    rfl
  rw [setMark, hstop]
  rfl

/-- What is stored next comes behind the checkpoint. -/
theorem Marked.mark_le (h : a.Marked) (hb : Appended a p values b) : a.mark ≤ p := by
  have hcurrent := hb.current_le
  have hblock := hb.block_eq
  have hslot := hb.slot_eq
  have hmark := h.block_le
  rw [Position.le_iff]
  by_cases heq : a.mark.block = p.block
  · right
    refine ⟨heq, ?_⟩
    have := h.slot_le
    rw [heq] at this
    omega
  · left
    omega

theorem Marked.appended (h : a.Marked) (hb : Appended a p values b) : b.Marked := by
  have hcurrent := hb.current_le
  have hmark := h.block_le
  refine ⟨?_, ?_⟩
  · rw [hb.mark_eq]
    omega
  · rw [hb.mark_eq, hb.items_eq]
    have := h.slot_le
    split
    · simp
      omega
    · exact this

theorem Appended.items_rewindToMark (hb : Appended a p values b) (ha : a.Tidy) (h : a.Marked) :
    b.rewindToMark.items i = a.rewindToMark.items i := by
  have hle : a.mark ≤ p := h.mark_le hb
  rw [Position.le_iff] at hle
  have hslot := hb.slot_eq
  rw [Arena.items_rewindToMark (hb.tidy ha) (h.appended hb), Arena.items_rewindToMark ha h, hb.mark_eq,
    hb.items_eq]
  by_cases hlt : i < a.mark.block
  · rw [if_pos hlt, if_pos hlt, if_neg (by omega)]
  · rw [if_neg hlt, if_neg hlt]
    by_cases heq : i = a.mark.block
    · rw [if_pos heq, if_pos heq]
      split
      · next hp =>
        have hroom : a.mark.slot ≤ (a.items i).size := by
          rw [hp, ← hslot]
          omega
        rw [Array.extract_append, Nat.zero_sub, Nat.sub_eq_zero_of_le hroom]
        simp
      · rfl
    · rw [if_neg heq, if_neg heq]

/-- Rewinding `a` leads back to `base`, but for elements in the relation. -/
structure Returns (r : α → α → Prop) (base a : Arena α) : Prop where
  marked : a.Marked
  mark_eq : a.mark = base.stop
  size_le : base.blocks.size ≤ a.blocks.size
  items : ∀ i, List.Forall₂ r (base.items i).toList (a.rewindToMark.items i).toList

theorem returns_setMark (hr : ∀ x, r x x) (ha : a.Tidy) : Returns r a a.setMark where
  marked := marked_setMark a
  mark_eq := rfl
  size_le := Nat.le_refl _
  items i := by
    have hitems : a.setMark.rewindToMark.items i = a.items i := by
      have htidy : a.setMark.Tidy := ha
      rw [items_rewindToMark htidy (marked_setMark a)]
      change (if i < a.current then a.items i else
        if i = a.current then (a.items i).extract 0 a.currentBlock.items.size else #[]) = a.items i
      by_cases hlt : i < a.current
      · rw [if_pos hlt]
      · rw [if_neg hlt]
        split
        · next heq =>
          rw [heq, ← items_current, Array.extract_size]
        · exact (ha i (by omega)).symm
    rw [hitems]
    exact List.forall₂_same.2 fun x _ => hr x

namespace Returns

theorem appended (h : Returns r base a) (ha : a.Tidy) (hb : Appended a p values b) : Returns r base b where
  marked := h.marked.appended hb
  mark_eq := hb.mark_eq.trans h.mark_eq
  size_le := Nat.le_trans h.size_le hb.size_le
  items i := by
    rw [hb.items_rewindToMark ha h.marked]
    exact h.items i

theorem rewindToMark (h : Returns r base a) (ha : a.Tidy) : Returns r base a.rewindToMark where
  marked := h.marked.rewindToMark ha
  mark_eq := mark_rewindToMark.trans h.mark_eq
  size_le := by
    rw [size_blocks_rewindToMark]
    exact h.size_le
  items i := by
    have hagain : a.rewindToMark.rewindToMark.items i = a.rewindToMark.items i := by
      rw [items_rewindToMark (tidy_rewindToMark ha h.marked) (h.marked.rewindToMark ha), mark_rewindToMark,
        items_rewindToMark ha h.marked]
      split
      · rfl
      · split
        · simp
        · rfl
    rw [hagain]
    exact h.items i

theorem stop_eq (h : Returns r base a) (ha : a.Tidy) : a.rewindToMark.stop = base.stop :=
  (stop_rewindToMark ha h.marked).trans h.mark_eq

theorem size_items (h : Returns r base a) (i : Nat) : (a.rewindToMark.items i).size = (base.items i).size := by
  simpa using (h.items i).length_eq.symm

theorem items_eq (h : Returns Eq base a) (i : Nat) : a.rewindToMark.items i = base.items i := by
  have := h.items i
  rw [List.forall₂_eq_eq_eq] at this
  exact (Array.toList_inj.1 this).symm

theorem get?_eq (h : Returns Eq base a) (p : Position) : a.rewindToMark.get? p = base.get? p := by
  rw [Arena.get?_eq, Arena.get?_eq, h.items_eq]

theorem slice?_eq (h : Returns Eq base a) {n : Nat} {l : List α} (hl : base.slice? p n = some l) :
    a.rewindToMark.slice? p n = some l := by
  rw [slice?_eq_some_iff] at hl ⊢
  rw [size_blocks_rewindToMark, h.items_eq]
  exact ⟨Nat.lt_of_lt_of_le hl.1 h.size_le, hl.2⟩

theorem of_shape (h : Returns (fun _ _ => True) base a) (ha : a.Tidy) (hs : b.shape = a.shape) :
    Returns (fun _ _ => True) base b := by
  have hmark : b.mark = a.mark := congrArg (fun s => s.2.2.2) hs
  have hcurrent : b.current = a.current := current_of_shape hs
  have hsize : ∀ i, (b.items i).size = (a.items i).size := size_items_of_shape hs
  have hmarked : b.Marked := by
    refine ⟨?_, ?_⟩
    · rw [hmark, hcurrent]
      exact h.marked.block_le
    · rw [hmark, hsize]
      exact h.marked.slot_le
  refine ⟨hmarked, hmark.trans h.mark_eq, ?_, fun i => ?_⟩
  · rw [size_blocks_of_shape hs]
    exact h.size_le
  · have hrewound : (b.rewindToMark.items i).size = (a.rewindToMark.items i).size := by
      rw [items_rewindToMark (tidy_of_shape hs ha) hmarked, items_rewindToMark ha h.marked, hmark]
      split
      · exact hsize i
      · split
        · simp [hsize i]
        · rfl
    rw [List.forall₂_iff_get]
    refine ⟨?_, fun _ _ _ => trivial⟩
    simp only [Array.length_toList, hrewound, h.size_items]

end Returns

end Arena

namespace Tape

variable {R : Type} {base t t' : Tape R}

/-- Rewinding `t` leads back to `base`, but for the values of adjoints. -/
structure Returns (base t : Tape R) : Prop where
  sound : t.Sound
  count_eq : t.adjointCount = base.adjointCount
  nodes : Arena.Returns Eq base.nodes t.nodes
  edges : Arena.Returns Eq base.edges t.edges
  adjoints : Arena.Returns (fun _ _ => True) base.adjoints t.adjoints

theorem Sound.setMark (h : t.Sound) : t.setMark.Sound :=
  ⟨h.nodes_tidy, h.edges_tidy, h.adjoints_tidy, h.edges_stored, h.adjoints_stored, h.adjoints_apart⟩

theorem returns_setMark (h : t.Sound) : Returns t t.setMark where
  sound := h.setMark
  count_eq := rfl
  nodes := Arena.returns_setMark (fun _ => rfl) h.nodes_tidy
  edges := Arena.returns_setMark (fun _ => rfl) h.edges_tidy
  adjoints := Arena.returns_setMark (fun _ => trivial) h.adjoints_tidy

theorem Returns.sameRecord (h : Returns base t) (hs : SameRecord t t') : Returns base t' where
  sound := hs.sound h.sound
  count_eq := hs.count_eq.trans h.count_eq
  nodes := hs.nodes_eq ▸ h.nodes
  edges := hs.edges_eq ▸ h.edges
  adjoints := h.adjoints.of_shape h.sound.adjoints_tidy hs.shape_eq

section Rewinding

variable {p : Position}

theorem Returns.get?_nodes (h : Returns base t) (p : Position) : t.rewindToMark.nodes.get? p = base.nodes.get? p :=
  h.nodes.get?_eq p

/-- The nodes before the checkpoint are there all the time. -/
theorem Returns.get?_of_base (h : Returns base t) {node : Node} (hp : base.nodes.get? p = some node) :
    t.nodes.get? p = some node := by
  have hrewound : t.nodes.rewindToMark.get? p = some node := (h.get?_nodes p).trans hp
  rw [Arena.get?_rewindToMark h.sound.nodes_tidy h.nodes.marked] at hrewound
  exact (Option.ite_none_right_eq_some.1 hrewound).2

theorem Returns.sound_rewindToMark (h : Returns base t) (hbase : base.Sound) : t.rewindToMark.Sound where
  nodes_tidy := Arena.tidy_rewindToMark h.sound.nodes_tidy h.nodes.marked
  edges_tidy := Arena.tidy_rewindToMark h.sound.edges_tidy h.edges.marked
  adjoints_tidy := Arena.tidy_rewindToMark h.sound.adjoints_tidy h.adjoints.marked
  edges_stored p node hp := by
    rw [h.get?_nodes] at hp
    obtain ⟨es, hes, htargets⟩ := hbase.edges_stored p node hp
    refine ⟨es, h.edges.slice?_eq hes, fun e he => ?_⟩
    obtain ⟨q, hq, hlt, hon⟩ := htargets e he
    exact ⟨q, hq, hlt, by rwa [h.get?_nodes]⟩
  adjoints_stored p node hp := by
    rw [h.get?_nodes] at hp
    obtain ⟨as, has⟩ := hbase.adjoints_stored p node hp
    obtain ⟨hblock, hroom, -⟩ := Arena.slice?_eq_some_iff.1 has
    refine ⟨_, Arena.slice?_eq_some_iff.2 ⟨?_, ?_, rfl⟩⟩
    · change _ < t.adjoints.rewindToMark.blocks.size
      rw [Arena.size_blocks_rewindToMark]
      exact Nat.lt_of_lt_of_le hblock h.adjoints.size_le
    · change _ + t.adjointCount ≤ (t.adjoints.rewindToMark.items _).size
      rw [h.adjoints.size_items, h.count_eq]
      exact hroom
  adjoints_apart p node q other hp hq := by
    rw [h.get?_nodes] at hp hq
    change p ≠ q → ∀ j < t.adjointCount, ∀ k < t.adjointCount, _
    rw [h.count_eq]
    exact hbase.adjoints_apart p node q other hp hq

theorem Returns.rewindToMark (h : Returns base t) (hbase : base.Sound) : Returns base t.rewindToMark where
  sound := h.sound_rewindToMark hbase
  count_eq := h.count_eq
  nodes := h.nodes.rewindToMark h.sound.nodes_tidy
  edges := h.edges.rewindToMark h.sound.edges_tidy
  adjoints := h.adjoints.rewindToMark h.sound.adjoints_tidy

theorem Returns.inputs_eq (h : Returns base t) (hbase : base.Sound) : t.rewindToMark.inputs p = base.inputs p := by
  cases hp : base.nodes.get? p with
  | none =>
    rw [inputs_eq_nil hp, inputs_eq_nil]
    rw [h.get?_nodes, hp]
  | some node =>
    obtain ⟨es, hes, -⟩ := hbase.edges_stored p node hp
    rw [inputs, inputs, edges?_eq hp, edges?_eq ((h.get?_nodes p).trans hp), hes]
    exact congrArg (·.getD []) (h.edges.slice?_eq hes)

end Rewinding

variable [Scalar R]

theorem Returns.recorded {id : Position} {kept : List (Edge R)} (h : Returns base t) (hr : Recorded t id kept t')
    (ht' : t'.Sound) : Returns base t' := by
  obtain ⟨node, -, hn, he, ha⟩ := hr.stored
  exact ⟨ht', hr.count_eq.trans h.count_eq, h.nodes.appended h.sound.nodes_tidy hn,
    h.edges.appended h.sound.edges_tidy he, h.adjoints.appended h.sound.adjoints_tidy ha⟩

theorem Returns.builtFrom (h : Returns base t) (hb : BuiltFrom t t') : Returns base t' := by
  induction hb with
  | start => exact h
  | leaf hb ih => exact ih.recorded (ih.sound.recorded_record []) (hb.leaf.sound h.sound)
  | edges hb cs hc ih => exact ih.recorded (ih.sound.recorded_record cs) ((hb.edges cs hc).sound h.sound)
  | folded hb cs hc ih => exact ih.recorded (ih.sound.recorded_recordFolded cs) ((hb.folded cs hc).sound h.sound)

/-- The adjoints of the nodes before the checkpoint survive rewinding. -/
theorem Returns.column_rewindToMark (h : Returns base t) (hbase : base.Sound) {p : Position} {k : Nat}
    (hp : (base.nodes.get? p).isSome) (hk : k < base.adjointCount) :
    t.rewindToMark.column k p = t.column k p := by
  obtain ⟨node, hnode⟩ := Option.isSome_iff_exists.1 hp
  have hrewound : t.rewindToMark.nodes.get? p = some node := (h.get?_nodes p).trans hnode
  have hk' : k < t.adjointCount := h.count_eq ▸ hk
  have hsound := h.sound_rewindToMark hbase
  obtain ⟨a, ha⟩ := Option.isSome_iff_exists.1 (hsound.isSome_adjoint hrewound hk')
  have hread : t.adjoints.get? (node.adjoints.shift k) = some a := by
    have hstored : t.adjoints.rewindToMark.get? (node.adjoints.shift k) = some a := ha
    rw [Arena.get?_rewindToMark h.sound.adjoints_tidy h.adjoints.marked] at hstored
    exact (Option.ite_none_right_eq_some.1 hstored).2
  rw [column, column, hsound.adjoint?_eq hrewound hk', h.sound.adjoint?_eq (h.get?_of_base hnode) hk', ha, hread]

end Tape

end PayoffPricing
