import PayoffPricing.Proofs.Adjoint.Compaction
import PayoffPricing.Proofs.Adjoint.Reissue
/-!
Recording a formula as one node, on every tape that operations lead to. The node has one edge for each input, whatever
was written in the room reserved for it, and what other nodes have stored stays where it is.
-/

namespace PayoffPricing

namespace Arena

variable {α : Type} {a b : Arena α} {p q : Position} {n m : Nat} {values : List α} {v w : α}

/-- The `n` elements from `p` on are stored, in a block that is in use. -/
def HasRow (a : Arena α) (p : Position) (n : Nat) : Prop := p.block ≤ a.current ∧ p.slot + n ≤ (a.items p.block).size

theorem HasRow.exists_slice? (h : a.HasRow p n) : ∃ l, a.slice? p n = some l :=
  ⟨_, slice?_eq_some_iff.2 ⟨Nat.lt_of_le_of_lt h.1 a.current_lt, h.2, rfl⟩⟩

theorem HasRow.le_stop (h : a.HasRow p n) : p.shift n ≤ a.stop := by
  obtain ⟨hblock, hslot⟩ := h
  by_cases heq : p.block = a.current
  · rw [heq, items_current] at hslot
    exact .inr ⟨heq, hslot⟩
  · exact .inl (by simp only [Position.shift, stop]; omega)

theorem HasRow.appended (h : a.HasRow p n) (hb : Appended a q values b) : b.HasRow p n := by
  refine ⟨h.1.trans hb.current_le, ?_⟩
  have := h.2
  rw [hb.items_eq]
  split
  · rw [Array.size_append]
    omega
  · exact this

theorem Appended.hasRow (hb : Appended a p values b) : b.HasRow p values.length := by
  refine ⟨hb.block_eq.le, ?_⟩
  rw [hb.items_eq, if_pos rfl, hb.slot_eq]
  simp

theorem HasRow.rewindToMark (h : a.HasRow p n) (ha : a.Tidy) (hmarked : a.Marked) (hle : p.shift n ≤ a.mark) :
    a.rewindToMark.HasRow p n := by
  simp only [Position.le_iff, Position.shift] at hle
  rw [HasRow, current_rewindToMark hmarked, items_rewindToMark ha hmarked]
  refine ⟨by omega, ?_⟩
  by_cases hlt : p.block < a.mark.block
  · rw [if_pos hlt]
    exact h.2
  · have heq : p.block = a.mark.block := by omega
    rw [if_neg hlt, if_pos heq, Array.size_extract, heq]
    have := hmarked.slot_le
    omega

theorem Appended.eq_or_get? (hb : Appended a p [w] b) (hv : b.get? q = some v) : q = p ∧ v = w ∨ a.get? q = some v := by
  rw [hb.get?_eq] at hv
  split at hv
  · next hspan =>
    obtain ⟨hblock, hle, hlt⟩ := hspan
    rw [List.length_singleton] at hlt
    have hslot : q.slot = p.slot := by omega
    rw [hslot, Nat.sub_self] at hv
    exact .inl ⟨Position.eq_iff.2 ⟨hblock, hslot⟩, (Option.some.inj hv).symm⟩
  · exact .inr hv

theorem Tidy.length_eq_sum (ha : a.Tidy) (hn : a.current < n) : a.length = ∑ i ∈ Finset.range n, (a.items i).size := by
  have hlength : a.length = ((List.range (a.current + 1)).map fun i => (a.items i).size).sum := by
    rw [length_eq, toList_eq_flatMap, List.length_flatMap]
    simp only [length_blockRange]
  have hused : a.length = ∑ i ∈ Finset.range (a.current + 1), (a.items i).size := hlength
  rw [hused]
  refine Finset.sum_subset (by simpa using hn) fun i _ hi => ?_
  rw [ha i (by simpa using hi)]
  rfl

/-- Storing makes an arena longer by what is stored, whatever room is left in the blocks before. -/
theorem Appended.length_eq (hb : Appended a p values b) (ha : a.Tidy) : b.length = a.length + values.length := by
  have hblock := hb.block_eq
  have hcurrent := hb.current_le
  have hsize : ∀ i, (b.items i).size = (a.items i).size + if i = p.block then values.length else 0 := by
    intro i
    rw [hb.items_eq]
    split
    · simp
    · rfl
  have hin : p.block ∈ Finset.range (b.current + 1) := Finset.mem_range.2 (by omega)
  rw [(hb.tidy ha).length_eq_sum (Nat.lt_succ_self b.current), ha.length_eq_sum (Nat.lt_succ_of_le hcurrent),
    Finset.sum_congr rfl fun i _ => hsize i, Finset.sum_add_distrib, Finset.sum_ite_eq', if_pos hin]

theorem marked_of_shape (hs : b.shape = a.shape) (h : a.Marked) : b.Marked := by
  have hmark : b.mark = a.mark := congrArg (fun s => s.2.2.2) hs
  refine ⟨?_, ?_⟩
  · rw [hmark, current_of_shape hs]
    exact h.block_le
  · rw [hmark, size_items_of_shape hs]
    exact h.slot_le

theorem shape_map (a : Arena α) (f : α → α) : (a.map f).shape = a.shape := by
  simp only [shape, map, Prod.mk.injEq, and_true, Array.map_map]
  refine congrArg (a.blocks.map ·) (funext fun b => ?_)
  simp [Block.map]

end Arena

namespace Tape

variable {R : Type} {t t' : Tape R} {id p : Position} {k : Nat}

/-- Every node has its edges too, and a node before the checkpoint has them before the checkpoint. -/
structure Joined (t : Tape R) : Prop extends Housed t where
  edges_tidy : t.edges.Tidy
  edges_marked : t.edges.Marked
  edges_stored : ∀ p node, t.nodes.get? p = some node → t.edges.HasRow node.edges node.edgeCount
  edges_before : ∀ p node, t.nodes.get? p = some node → p < t.nodes.mark →
    node.edges.shift node.edgeCount ≤ t.edges.mark

theorem Joined.setMark (h : t.Joined) : t.setMark.Joined where
  toHoused := h.toHoused.setMark
  edges_tidy := h.edges_tidy
  edges_marked := Arena.marked_setMark _
  edges_stored := h.edges_stored
  edges_before p node hp _ := (h.edges_stored p node hp).le_stop

theorem Joined.rewindToMark (h : t.Joined) : t.rewindToMark.Joined := by
  have hold : ∀ {p node}, t.nodes.rewindToMark.get? p = some node → p < t.nodes.mark ∧ t.nodes.get? p = some node := by
    intro p node hp
    rwa [Arena.get?_rewindToMark h.nodes_tidy h.nodes_marked, Option.ite_none_right_eq_some] at hp
  refine ⟨h.toHoused.rewindToMark, Arena.tidy_rewindToMark h.edges_tidy h.edges_marked,
    h.edges_marked.rewindToMark h.edges_tidy, ?_, ?_⟩
  · intro p node hp
    obtain ⟨hlt, hnode⟩ := hold hp
    exact (h.edges_stored p node hnode).rewindToMark h.edges_tidy h.edges_marked (h.edges_before p node hnode hlt)
  · intro p node hp _
    obtain ⟨hlt, hnode⟩ := hold hp
    change _ ≤ t.edges.rewindToMark.mark
    rw [Arena.mark_rewindToMark]
    exact h.edges_before p node hnode hlt

theorem joined_of_empty (hn : ∀ i, t.nodes.items i = #[]) (he : ∀ i, t.edges.items i = #[])
    (ha : ∀ i, t.adjoints.items i = #[]) (hnodes : t.nodes.mark = .start) (hedges : t.edges.mark = .start)
    (hadjoints : t.adjoints.mark = .start) : t.Joined := by
  have hfollows := Arena.follows_of_empty he hedges
  have hnone : ∀ p, t.nodes.get? p = none := fun p => by simp [Arena.get?_eq, hn]
  refine ⟨housed_of_empty hn ha hnodes hadjoints, hfollows.tidy, hfollows.marked, ?_, ?_⟩
  · intro p node hp
    simp [hnone] at hp
  · intro p node hp
    simp [hnone] at hp

theorem Housed.sameRecord (h : t.Housed) (hs : SameRecord t t') : t'.Housed := by
  have hmark : t'.adjoints.mark = t.adjoints.mark := congrArg (fun s => s.2.2.2) hs.shape_eq
  refine ⟨hs.nodes_eq ▸ h.nodes_tidy, hs.nodes_eq ▸ h.nodes_marked, Arena.tidy_of_shape hs.shape_eq h.adjoints_tidy,
    Arena.marked_of_shape hs.shape_eq h.adjoints_marked, ?_, ?_⟩
  · intro p node hp j hj
    have hstored := h.stored p node (hs.nodes_eq ▸ hp) j (hs.count_eq ▸ hj)
    rw [Arena.isSome_get?_iff] at hstored ⊢
    rwa [Arena.size_items_of_shape hs.shape_eq]
  · intro p node hp hlt j hj
    rw [hmark]
    exact h.before p node (hs.nodes_eq ▸ hp) (hs.nodes_eq ▸ hlt) j (hs.count_eq ▸ hj)

theorem Joined.sameRecord (h : t.Joined) (hs : SameRecord t t') : t'.Joined where
  toHoused := h.toHoused.sameRecord hs
  edges_tidy := hs.edges_eq ▸ h.edges_tidy
  edges_marked := hs.edges_eq ▸ h.edges_marked
  edges_stored p node hp := hs.edges_eq ▸ h.edges_stored p node (hs.nodes_eq ▸ hp)
  edges_before p node hp hlt := hs.edges_eq ▸ h.edges_before p node (hs.nodes_eq ▸ hp) (hs.nodes_eq ▸ hlt)

theorem Joined.setAdjointCount (h : t.Joined) {count : Nat} (hcount : t.setAdjointCount count = .ok t') :
    t'.Joined := by
  unfold Tape.setAdjointCount at hcount
  split at hcount
  · cases hcount
  · split at hcount
    · next hempty =>
      obtain rfl := Except.ok.inj hcount
      -- there are no nodes that had another number of adjoints
      have hnone : ∀ p, t.nodes.get? p = none := by
        intro p
        rw [isEmpty, Arena.isEmpty, Bool.and_eq_true, beq_iff_eq] at hempty
        have hsize : t.nodes.currentBlock.items.size = 0 := by simpa [Array.isEmpty] using hempty.2
        rw [← Option.not_isSome_iff_eq_none]
        intro hp
        have hlt := h.nodes_tidy.lt_stop hp
        simp only [Position.lt_iff, Arena.stop, hempty.1, hsize] at hlt
        omega
      refine ⟨⟨h.nodes_tidy, h.nodes_marked, h.adjoints_tidy, h.adjoints_marked, ?_, ?_⟩, h.edges_tidy, h.edges_marked,
        h.edges_stored, h.edges_before⟩
      · intro p node hp
        exact absurd ((hnone p).symm.trans hp) (by simp)
      · intro p node hp
        exact absurd ((hnone p).symm.trans hp) (by simp)
    · cases hcount

variable [Scalar R] {kept candidates : List (Edge R)}

theorem Joined.recorded_record (h : t.Joined) (candidates : List (Edge R)) :
    Recorded t (t.record candidates).1 (candidates.filter Edge.isActive) (t.record candidates).2 :=
  recorded_pushNode h.nodes_tidy h.adjoints_tidy (Arena.appended_write h.edges_tidy _)

theorem Joined.recorded_recordFolded (h : t.Joined) (candidates : List (Edge R)) :
    Recorded t (t.recordFolded candidates).1 (Edge.merge candidates) (t.recordFolded candidates).2 :=
  recorded_pushNode h.nodes_tidy h.adjoints_tidy (Arena.appended_store h.edges_tidy (Edge.length_merge_le candidates))

theorem Joined.recorded (h : t.Joined) (hr : Recorded t id kept t') : t'.Joined := by
  obtain ⟨node, hcount, hn, he, ha⟩ := hr.stored
  have hlaid : Laid t id t' := ⟨hr.count_eq, node, hn, _, List.length_replicate, ha⟩
  refine ⟨h.toHoused.laid hlaid, he.tidy h.edges_tidy, h.edges_marked.appended he, ?_, ?_⟩
  · intro p v hp
    rcases hn.eq_or_get? hp with ⟨-, rfl⟩ | hold
    · rw [hcount]
      exact he.hasRow
    · exact (h.edges_stored p v hold).appended he
  · intro p v hp hlt
    rw [hn.mark_eq] at hlt
    rw [he.mark_eq]
    rcases hn.eq_or_get? hp with ⟨rfl, -⟩ | hold
    · exact absurd hlt (h.nodes_marked.mark_le hn).not_gt
    · exact h.edges_before p v hold hlt

theorem Joined.run (h : t.Joined) (m : Move R) : (m.run t).Joined := by
  cases m with
  | leaf => exact h.recorded (h.recorded_record [])
  | edges cs => exact h.recorded (h.recorded_record cs)
  | folded cs => exact h.recorded (h.recorded_recordFolded cs)
  | setMark => exact h.setMark
  | rewindToMark => exact h.rewindToMark
  | rewind => exact joined_of_empty (Arena.items_rewind _) (Arena.items_rewind _) (Arena.items_rewind _) rfl rfl rfl
  | clear =>
    exact joined_of_empty (fun _ => Arena.items_empty _ _) (fun _ => Arena.items_empty _ _)
      (fun _ => Arena.items_empty _ _) rfl rfl rfl

section Adjoints

omit [Scalar R] in
theorem sameRecord_modifyAdjoint {f : R → R} (h : t.modifyAdjoint p k f = .ok t') : SameRecord t t' := by
  unfold modifyAdjoint at h
  split at h
  · obtain rfl := Except.ok.inj h
    exact ⟨rfl, rfl, rfl, Arena.shape_modify ..⟩
  · cases h

theorem sameRecord_resetAdjoints (t : Tape R) : SameRecord t t.resetAdjoints := ⟨rfl, rfl, rfl, Arena.shape_map _ _⟩

variable {nodes : Arena Node} {slot : Position → Position} {adjoint tiny : R} {as bs : Arena R}

theorem shape_pushEdges {es : List (Edge R)} (h : pushEdges nodes slot adjoint es as = .ok bs) :
    bs.shape = as.shape := by
  induction es generalizing as with
  | nil => rw [← Except.ok.inj h]
  | cons e es ih =>
    unfold pushEdges at h
    split at h
    · exact ih h
    · split at h
      · cases h
      · dsimp only at h
        split at h
        · cases h
        · rw [ih h, Arena.shape_modify]

theorem shape_pushAdjoint {node : Node} (h : t.pushAdjoint tiny node slot as = .ok bs) : bs.shape = as.shape := by
  unfold pushAdjoint at h
  dsimp only at h
  split at h
  · split at h
    · rw [← Except.ok.inj h]
    · obtain ⟨cs, hcs, h⟩ := bind_eq_ok_iff.1 h
      rw [← Except.ok.inj h, Arena.shape_modify, shape_pushEdges hcs]
  · cases h

omit [Scalar R] in
theorem shape_foldlM {β : Type} {f : Arena R → β → Except Misuse (Arena R)}
    (hf : ∀ x as bs, f as x = .ok bs → bs.shape = as.shape) {xs : List β} (h : xs.foldlM f as = .ok bs) :
    bs.shape = as.shape := by
  induction xs generalizing as with
  | nil => rw [← Except.ok.inj h]
  | cons x xs ih =>
    rw [List.foldlM_cons] at h
    obtain ⟨cs, hcs, h⟩ := bind_eq_ok_iff.1 h
    rw [ih h, hf x as cs hcs]

theorem shape_pushNodeAdjoints {node : Node} (h : t.pushNodeAdjoints tiny node as = .ok bs) : bs.shape = as.shape := by
  rw [pushNodeAdjoints_eq] at h
  split at h
  · rw [← Except.ok.inj h]
  · exact shape_foldlM (fun _ _ _ => shape_pushAdjoint) h

/-- A sweep that does not fail changes the values of adjoints and nothing else. -/
theorem sameRecord_sweep {visited : List Node} (h : t.sweep visited = .ok t') : SameRecord t t' := by
  unfold sweep at h
  dsimp only at h
  split at h
  · next hfold =>
    obtain rfl := Except.ok.inj h
    exact ⟨rfl, rfl, rfl, shape_foldlM (fun _ _ _ => shape_pushNodeAdjoints) hfold⟩
  · cases h

end Adjoints

/-- The calls that change a tape. All propagations are sweeps over some of the nodes. -/
inductive Operates : Tape R → Tape R → Prop
  | counts {t t' : Tape R} {count : Nat} (h : t.setAdjointCount count = .ok t') : Operates t t'
  | moves (t : Tape R) (m : Move R) : Operates t (m.run t)
  | seeds {t t' : Tape R} {id : Position} {k : Nat} {f : R → R} (h : t.modifyAdjoint id k f = .ok t') : Operates t t'
  | resets (t : Tape R) : Operates t t.resetAdjoints
  | sweeps {t t' : Tape R} {visited : List Node} (h : t.sweep visited = .ok t') : Operates t t'

/-- A tape that operations make of a new one, whatever its blocks have room for. -/
def Arises (t : Tape R) : Prop := ∃ (k : Nat) (hk : 0 < k), Relation.ReflTransGen Operates (withBlockSize k hk) t

theorem Joined.operates (h : t.Joined) (ho : Operates t t') : t'.Joined := by
  cases ho with
  | counts hcount => exact h.setAdjointCount hcount
  | moves m => exact h.run m
  | seeds hseed => exact h.sameRecord (sameRecord_modifyAdjoint hseed)
  | resets => exact h.sameRecord (sameRecord_resetAdjoints t)
  | sweeps hsweep => exact h.sameRecord (sameRecord_sweep hsweep)

theorem Arises.joined (h : t.Arises) : t.Joined := by
  obtain ⟨k, hk, hrun⟩ := h
  induction hrun with
  | refl =>
    exact joined_of_empty (fun _ => Arena.items_empty _ _) (fun _ => Arena.items_empty _ _)
      (fun _ => Arena.items_empty _ _) rfl rfl rfl
  | tail _ ho ih => exact ih.operates ho

end Tape

section Merging

variable {R : Type} [ExactScalar R] {t : Tape R} {p : Position}

theorem Edge.weigh_single_eq_sum (es : List (Edge R)) (p : Position) :
    weigh (Pi.single p 1) es = ((es.filter fun e => e.target = some p).map Edge.weight).sum := by
  induction es with
  | nil => rfl
  | cons e es ih =>
    rw [weigh_cons, ih]
    by_cases he : e.target = some p
    · rw [List.filter_cons_of_pos (by simpa using he), List.map_cons, List.sum_cons, he, Option.elim_some,
        Pi.single_eq_same, mul_one]
    · rw [List.filter_cons_of_neg (by simpa using he)]
      cases htarget : e.target with
      | none => rw [Option.elim_none, mul_zero, zero_add]
      | some q =>
        have hq : q ≠ p := fun hq => he (htarget.trans (congrArg some hq))
        rw [Option.elim_some, Pi.single_eq_of_ne hq, mul_zero, zero_add]

/-- A formula becomes one node. Its edges go to the inputs that were written, each one once and in order, with the sum
of the weights that were written for it; the nodes that were there have the edges that they had, and no more room is
taken than the edges need. Sorting and adding up in the room itself comes to the same. -/
theorem Tape.formula_merges_into_one_node (ht : t.Arises) (candidates : List (Edge R)) :
    ∃ (id : Position) (t' : Tape R) (targets : List Position),
      t.recordFolded candidates = (id, t') ∧
      (∀ sorted : List (Edge R), sorted.Perm candidates → sorted.Pairwise Edge.Before →
        t.recordInPlace sorted = (id, t')) ∧
      targets.Pairwise (· < ·) ∧
      (∀ p, p ∈ targets ↔ ∃ e ∈ candidates, e.target = some p) ∧
      t'.edges? id = some (targets.map fun p =>
        ⟨((candidates.filter fun e => e.target = some p).map Edge.weight).sum, some p⟩) ∧
      t.contains id = false ∧ t'.contains id = true ∧
      (∀ p, t.contains p = true → t'.contains p = true ∧ ∃ es, t.edges? p = some es ∧ t'.edges? p = some es) ∧
      (∀ p e, t.edges.get? p = some e → t'.edges.get? p = some e) ∧
      t'.length = t.length + 1 ∧ t'.edges.length = t.edges.length + targets.length := by
  have hjoined := ht.joined
  have hr := hjoined.recorded_recordFolded candidates
  have htidy := (hjoined.recorded hr).nodes_tidy
  obtain ⟨node, hcount, hn, he, -⟩ := hr.stored
  have hself : (t.recordFolded candidates).2.nodes.get? (t.recordFolded candidates).1 = some node := by
    rw [hn.get?_eq, if_pos ⟨rfl, Nat.le_refl _, by simp⟩, Nat.sub_self]
    rfl
  have hedges : (t.recordFolded candidates).2.edges? (t.recordFolded candidates).1 = some (Edge.merge candidates) := by
    rw [edges?_eq hself, hcount]
    exact he.slice?_eq
  have hweights : Edge.merge candidates = (Edge.targets candidates).sort.map fun p =>
      ⟨((candidates.filter fun e => e.target = some p).map Edge.weight).sum, some p⟩ := by
    simp only [Edge.merge_eq, Edge.weigh_single_eq_sum]
  have hlength : (Edge.merge candidates).length = (Edge.targets candidates).sort.length := by
    rw [hweights, List.length_map]
  refine ⟨(t.recordFolded candidates).1, (t.recordFolded candidates).2, (Edge.targets candidates).sort, rfl, ?_,
    (Finset.sortedLT_sort _).pairwise, ?_, ?_, ?_, ?_, ?_, ?_, ?_, ?_⟩
  · intro sorted hperm hsorted
    exact recordInPlace_eq hjoined.edges_tidy hperm hsorted
  · intro p
    rw [Finset.mem_sort, Edge.mem_targets]
  · rw [hedges, hweights]
  · rw [← Bool.not_eq_true, contains, hjoined.nodes_tidy.contains_iff, hr.get?_id]
    exact Bool.false_ne_true
  · rw [contains, htidy.contains_iff]
    exact hr.get?_self
  · intro p hp
    rw [contains, hjoined.nodes_tidy.contains_iff] at hp
    obtain ⟨old, hold⟩ := Option.isSome_iff_exists.1 hp
    obtain ⟨es, hes⟩ := (hjoined.edges_stored p old hold).exists_slice?
    have hnew : (t.recordFolded candidates).2.nodes.get? p = some old := hn.extended.get? hold
    refine ⟨?_, es, ?_, ?_⟩
    · rw [contains, htidy.contains_iff, hnew]
      rfl
    · rw [edges?_eq hold, hes]
    · rw [edges?_eq hnew]
      exact he.extended.slice? hes
  · intro p e hp
    exact he.extended.get? hp
  · exact hn.length_eq hjoined.nodes_tidy
  · rw [he.length_eq hjoined.edges_tidy, hlength]

/-- Two inputs and a checkpoint, where blocks have room for one node and for four edges. -/
def markedInputs (R : Type) [Scalar R] : Tape R := Tape.replay [.leaf, .leaf, .setMark] (.withBlockSize 1 Nat.one_pos)

/-- Five edges that no block has room for: a constant, one input twice, and a position where nothing is stored. -/
theorem Tape.formula_merges_into_one_node_crowded : (markedInputs ℝ).Arises ∧ ∃ (id : Position) (t' : Tape ℝ),
    (markedInputs ℝ).recordFolded
        [⟨1, some ⟨1, 0⟩⟩, ⟨2, some ⟨0, 0⟩⟩, ⟨9, none⟩, ⟨4, some ⟨1, 0⟩⟩, ⟨3, some ⟨7, 7⟩⟩] = (id, t') ∧
      t'.edges? id = some [⟨2, some ⟨0, 0⟩⟩, ⟨5, some ⟨1, 0⟩⟩, ⟨3, some ⟨7, 7⟩⟩] ∧
      t'.edges.length = (markedInputs ℝ).edges.length + 3 := by
  have harises : (markedInputs ℝ).Arises :=
    ⟨1, Nat.one_pos, ((Relation.ReflTransGen.single (.moves _ .leaf)).tail (.moves _ .leaf)).tail (.moves _ .setMark)⟩
  obtain ⟨id, t', targets, hrecord, -, hsorted, hmem, hedges, -, -, -, -, -, hlength⟩ :=
    Tape.formula_merges_into_one_node harises
      [⟨1, some ⟨1, 0⟩⟩, ⟨2, some ⟨0, 0⟩⟩, ⟨9, none⟩, ⟨4, some ⟨1, 0⟩⟩, ⟨3, some ⟨7, 7⟩⟩]
  have htargets : targets = [⟨0, 0⟩, ⟨1, 0⟩, ⟨7, 7⟩] := by
    refine hsorted.eq_of_mem_iff (by decide) fun p => ?_
    rw [hmem]
    simp [eq_comm]
    tauto
  subst htargets
  refine ⟨harises, id, t', hrecord, ?_, hlength⟩
  have hfive : (1 : ℝ) + 4 = 5 := by norm_num
  rw [hedges]
  simp [List.filter_cons, hfive]

end Merging

end PayoffPricing
