import PayoffPricing.Proofs.Adjoint.Arena
import PayoffPricing.Proofs.Adjoint.Edge
/-!
What is recorded. Every node keeps its inputs, which were recorded before it, and has adjoints of
its own.
-/

namespace PayoffPricing.Tape

variable {R : Type}

/-- A tape on which nodes, edges and adjoints are stored where the nodes say. -/
structure Sound (t : Tape R) : Prop where
  nodes_tidy : t.nodes.Tidy
  edges_tidy : t.edges.Tidy
  adjoints_tidy : t.adjoints.Tidy
  edges_stored : ∀ p node, t.nodes.get? p = some node →
    ∃ es, t.edges.slice? node.edges node.edgeCount = some es ∧
      ∀ e ∈ es, ∃ q, e.target = some q ∧ q < p ∧ (t.nodes.get? q).isSome
  adjoints_stored : ∀ p node, t.nodes.get? p = some node →
    ∃ as, t.adjoints.slice? node.adjoints t.adjointCount = some as
  adjoints_apart : ∀ p node q other, t.nodes.get? p = some node → t.nodes.get? q = some other →
    p ≠ q → ∀ j < t.adjointCount, ∀ k < t.adjointCount,
      node.adjoints.shift j ≠ other.adjoints.shift k

/-- All targets are on the tape. -/
def Accepts (t : Tape R) (candidates : List (Edge R)) : Prop :=
  ∀ e ∈ candidates, ∀ q, e.target = some q → (t.nodes.get? q).isSome

/-- The inputs of a node. -/
def inputs (t : Tape R) (p : Position) : List (Edge R) := (t.edges? p).getD []

theorem edges?_eq {t : Tape R} {p : Position} {node : Node} (h : t.nodes.get? p = some node) :
    t.edges? p = t.edges.slice? node.edges node.edgeCount := by
  simp [edges?, node?, h]

theorem inputs_eq_nil {t : Tape R} {p : Position} (h : t.nodes.get? p = none) : t.inputs p = [] := by
  simp [inputs, edges?, node?, h]

theorem Sound.target_of_mem {t : Tape R} (ht : t.Sound) {p : Position} {e : Edge R} (he : e ∈ t.inputs p) :
    ∃ q, e.target = some q ∧ q < p ∧ (t.nodes.get? q).isSome := by
  cases hp : t.nodes.get? p with
  | none => simp [inputs_eq_nil hp] at he
  | some node =>
    obtain ⟨es, hes, htargets⟩ := ht.edges_stored p node hp
    rw [inputs, edges?_eq hp, hes] at he
    exact htargets e he

theorem Sound.inputs_eq_nil_iff {t : Tape R} (ht : t.Sound) {p : Position} {node : Node}
    (hp : t.nodes.get? p = some node) : t.inputs p = [] ↔ node.edgeCount = 0 := by
  obtain ⟨es, hes, -⟩ := ht.edges_stored p node hp
  obtain ⟨-, hroom, hl⟩ := Arena.slice?_eq_some_iff.1 hes
  have hlength : es.length = node.edgeCount := by
    rw [← hl]
    simp
    omega
  rw [inputs, edges?_eq hp, hes, Option.getD_some, ← List.length_eq_zero_iff, hlength]

section Adjoints

variable {t : Tape R} {p : Position} {node : Node} {k : Nat}

theorem Sound.adjointPlace?_eq (ht : t.Sound) (hp : t.nodes.get? p = some node)
    (hk : k < t.adjointCount) : t.adjointPlace? p k = some (node.adjoints.shift k) := by
  obtain ⟨as, has⟩ := ht.adjoints_stored p node hp
  have hlength : as.length = t.adjointCount := by
    obtain ⟨-, hroom, rfl⟩ := Arena.slice?_eq_some_iff.1 has
    simp
    omega
  simp [adjointPlace?, node?, hp, has, hlength, hk]

theorem Sound.adjoint?_eq (ht : t.Sound) (hp : t.nodes.get? p = some node)
    (hk : k < t.adjointCount) : t.adjoint? p k = t.adjoints.get? (node.adjoints.shift k) := by
  simp [adjoint?, ht.adjointPlace?_eq hp hk]

theorem Sound.isSome_adjoint (ht : t.Sound) (hp : t.nodes.get? p = some node)
    (hk : k < t.adjointCount) : (t.adjoints.get? (node.adjoints.shift k)).isSome := by
  obtain ⟨as, has⟩ := ht.adjoints_stored p node hp
  obtain ⟨-, hroom, -⟩ := Arena.slice?_eq_some_iff.1 has
  rw [Arena.isSome_get?_iff]
  simp only [Position.shift]
  omega

end Adjoints

theorem accepts_nil (t : Tape R) : t.Accepts [] := fun _ he => absurd he List.not_mem_nil

theorem Accepts.filter_isActive {t : Tape R} {candidates : List (Edge R)} (h : t.Accepts candidates) :
    ∀ e ∈ candidates.filter Edge.isActive, ∃ q, e.target = some q ∧ (t.nodes.get? q).isSome := by
  intro e he
  obtain ⟨hmem, hactive⟩ := List.mem_filter.1 he
  obtain ⟨q, hq⟩ := Option.isSome_iff_exists.1 hactive
  exact ⟨q, hq, h e hmem q hq⟩

theorem get?_nodes_withBlockSize (blockSize : Nat) (h : 0 < blockSize) (p : Position) :
    (withBlockSize blockSize h : Tape R).nodes.get? p = none := by
  simp [withBlockSize, Arena.get?_eq, Arena.items_empty]

theorem sound_withBlockSize (blockSize : Nat) (h : 0 < blockSize) :
    (withBlockSize blockSize h : Tape R).Sound where
  nodes_tidy := Arena.tidy_empty _ _
  edges_tidy := Arena.tidy_empty _ _
  adjoints_tidy := Arena.tidy_empty _ _
  edges_stored p node hp := by simp [get?_nodes_withBlockSize] at hp
  adjoints_stored p node hp := by simp [get?_nodes_withBlockSize] at hp
  adjoints_apart p node q other hp := by simp [get?_nodes_withBlockSize] at hp

variable [Scalar R]

/-- The `k`-th adjoints by node, zero where there is none. -/
def column (t : Tape R) (k : Nat) (p : Position) : R := (t.adjoint? p k).getD 0

/-- One tape is another one with a node at `id` that has the inputs `kept`. -/
structure Recorded (t : Tape R) (id : Position) (kept : List (Edge R)) (t' : Tape R) : Prop where
  count_eq : t'.adjointCount = t.adjointCount
  stored : ∃ node : Node, node.edgeCount = kept.length ∧
    t.nodes.Appended id [node] t'.nodes ∧ t.edges.Appended node.edges kept t'.edges ∧
    t.adjoints.Appended node.adjoints (List.replicate t.adjointCount 0) t'.adjoints

theorem appended_pushAdjoints {adjoints : Arena R} (ha : adjoints.Tidy) (count : Nat) : adjoints.Appended
    (pushAdjoints adjoints count).1 (List.replicate count 0) (pushAdjoints adjoints count).2 := by
  unfold pushAdjoints
  split
  · next h =>
    subst h
    exact Arena.appended_push ha
  · exact Arena.appended_reserve ha

theorem recorded_pushNode {t : Tape R} {edges : Arena (Edge R)} {place : Position}
    {kept : List (Edge R)} (hn : t.nodes.Tidy) (ha : t.adjoints.Tidy)
    (he : t.edges.Appended place kept edges) :
    Recorded t (pushNode ⟨t.nodes, edges, t.adjoints, t.adjointCount⟩ kept.length place).1 kept
      (pushNode ⟨t.nodes, edges, t.adjoints, t.adjointCount⟩ kept.length place).2 :=
  ⟨rfl, ⟨kept.length, place, (pushAdjoints t.adjoints t.adjointCount).1⟩, rfl,
    Arena.appended_push hn, he, appended_pushAdjoints ha _⟩

theorem Sound.recorded_record {t : Tape R} (ht : t.Sound) (candidates : List (Edge R)) :
    Recorded t (t.record candidates).1 (candidates.filter Edge.isActive) (t.record candidates).2 :=
  recorded_pushNode ht.nodes_tidy ht.adjoints_tidy (Arena.appended_write ht.edges_tidy _)

theorem Sound.recorded_recordFolded {t : Tape R} (ht : t.Sound) (candidates : List (Edge R)) :
    Recorded t (t.recordFolded candidates).1 (Edge.merge candidates) (t.recordFolded candidates).2 :=
  recorded_pushNode ht.nodes_tidy ht.adjoints_tidy
    (Arena.appended_store ht.edges_tidy (Edge.length_merge_le candidates))

namespace Recorded

variable {t t' : Tape R} {id p : Position} {kept : List (Edge R)} {k : Nat}

theorem get?_nodes (h : Recorded t id kept t') (hp : p ≠ id) : t'.nodes.get? p = t.nodes.get? p := by
  obtain ⟨node, -, hn, -, -⟩ := h.stored
  rw [hn.get?_eq, if_neg]
  rintro ⟨hb, hl, hu⟩
  exact hp (Position.eq_iff.2 ⟨hb, by simp at hu; omega⟩)

theorem get?_self (h : Recorded t id kept t') : (t'.nodes.get? id).isSome := by
  obtain ⟨node, -, hn, -, -⟩ := h.stored
  rw [hn.isSome_get?_iff]
  exact .inl ⟨rfl, Nat.le_refl _, by simp⟩

theorem fresh (h : Recorded t id kept t') (hp : (t.nodes.get? p).isSome) : p < id := by
  obtain ⟨node, -, hn, -, -⟩ := h.stored
  exact hn.fresh p hp

theorem get?_id (h : Recorded t id kept t') : t.nodes.get? id = none := by
  rw [← Option.not_isSome_iff_eq_none]
  exact fun hid => lt_irrefl _ (h.fresh hid)

theorem isSome_get?_iff (h : Recorded t id kept t') :
    (t'.nodes.get? p).isSome ↔ p = id ∨ (t.nodes.get? p).isSome := by
  by_cases hp : p = id
  · simp [hp, h.get?_self]
  · simp [hp, h.get?_nodes hp]

theorem inputs_eq (h : Recorded t id kept t') (ht : t.Sound) :
    t'.inputs p = if p = id then kept else t.inputs p := by
  obtain ⟨node, hcount, hn, he, -⟩ := h.stored
  split
  · next hp =>
    have hid : t'.nodes.get? id = some node := by
      rw [hn.get?_eq, if_pos ⟨rfl, Nat.le_refl _, by simp⟩]
      simp
    rw [inputs, hp, edges?_eq hid, hcount, he.slice?_eq, Option.getD_some]
  · next hp =>
    cases hold : t.nodes.get? p with
    | none =>
      rw [inputs_eq_nil hold, inputs_eq_nil]
      rw [h.get?_nodes hp, hold]
    | some old =>
      obtain ⟨es, hes, -⟩ := ht.edges_stored p old hold
      rw [inputs, inputs, edges?_eq hold, edges?_eq ((h.get?_nodes hp).trans hold), hes,
        he.extended.slice? hes]

theorem sound (h : Recorded t id kept t') (ht : t.Sound)
    (hk : ∀ e ∈ kept, ∃ q, e.target = some q ∧ (t.nodes.get? q).isSome) : t'.Sound := by
  obtain ⟨node, hcount, hn, he, ha⟩ := h.stored
  have hid : t'.nodes.get? id = some node := by
    rw [hn.get?_eq, if_pos ⟨rfl, Nat.le_refl _, by simp⟩]
    simp
  have hold : ∀ {p v}, t'.nodes.get? p = some v → p ≠ id → t.nodes.get? p = some v :=
    fun hp hne => (h.get?_nodes hne).symm.trans hp
  -- The adjoints of a node that was there are stored before those of the new one.
  have hplace : ∀ {p old}, t.nodes.get? p = some old → ∀ j < t.adjointCount,
      ∀ k, old.adjoints.shift j ≠ node.adjoints.shift k := by
    intro p old hp j hj k heq
    obtain ⟨as, has⟩ := ht.adjoints_stored p old hp
    obtain ⟨-, hroom, -⟩ := Arena.slice?_eq_some_iff.1 has
    have hlt : old.adjoints.shift j < node.adjoints := by
      refine ha.fresh _ (Arena.isSome_get?_iff.2 ?_)
      simp only [Position.shift]
      omega
    rw [heq, Position.lt_iff] at hlt
    simp only [Position.shift] at hlt
    omega
  refine ⟨hn.tidy ht.nodes_tidy, he.tidy ht.edges_tidy, ha.tidy ht.adjoints_tidy, ?_, ?_, ?_⟩
  · intro p v hp
    by_cases hne : p = id
    · obtain rfl : node = v := Option.some.inj (hid.symm.trans (hne ▸ hp))
      refine ⟨kept, hcount ▸ he.slice?_eq, fun e hmem => ?_⟩
      obtain ⟨q, hq, hon⟩ := hk e hmem
      exact ⟨q, hq, hne ▸ h.fresh hon, h.isSome_get?_iff.2 (.inr hon)⟩
    · obtain ⟨es, hes, htargets⟩ := ht.edges_stored p v (hold hp hne)
      refine ⟨es, he.extended.slice? hes, fun e hmem => ?_⟩
      obtain ⟨q, hq, hlt, hon⟩ := htargets e hmem
      exact ⟨q, hq, hlt, h.isSome_get?_iff.2 (.inr hon)⟩
  · intro p v hp
    rw [h.count_eq]
    by_cases hne : p = id
    · obtain rfl : node = v := Option.some.inj (hid.symm.trans (hne ▸ hp))
      have hslice := ha.slice?_eq
      rw [List.length_replicate] at hslice
      exact ⟨_, hslice⟩
    · obtain ⟨as, has⟩ := ht.adjoints_stored p v (hold hp hne)
      exact ⟨as, ha.extended.slice? has⟩
  · intro p v q w hp hq hpq j hj k hk
    rw [h.count_eq] at hj hk
    by_cases hpid : p = id
    · obtain rfl : node = v := Option.some.inj (hid.symm.trans (hpid ▸ hp))
      exact (hplace (hold hq fun hqid => hpq (hpid.trans hqid.symm)) k hk j).symm
    · by_cases hqid : q = id
      · obtain rfl : node = w := Option.some.inj (hid.symm.trans (hqid ▸ hq))
        exact hplace (hold hp hpid) j hj k
      · exact ht.adjoints_apart p v q w (hold hp hpid) (hold hq hqid) hpq j hj k hk

end Recorded

section Column

variable {t t' : Tape R} {id p : Position} {kept : List (Edge R)} {k : Nat}

theorem Sound.adjoint?_eq_column (ht : t.Sound) (hp : (t.nodes.get? p).isSome)
    (hk : k < t.adjointCount) : t.adjoint? p k = some (t.column k p) := by
  obtain ⟨node, hp⟩ := Option.isSome_iff_exists.1 hp
  obtain ⟨a, ha⟩ := Option.isSome_iff_exists.1 (ht.isSome_adjoint hp hk)
  rw [column, ht.adjoint?_eq hp hk, ha, Option.getD_some]

theorem column_of_none (hp : t.nodes.get? p = none) : t.column k p = 0 := by
  simp [column, adjoint?, adjointPlace?, node?, hp]

/-- The adjoints of a new node are zero, and recording it leaves all others alone. -/
theorem Recorded.column_eq (h : Recorded t id kept t') (ht : t.Sound) (ht' : t'.Sound)
    (hk : k < t.adjointCount) : t'.column k = t.column k := by
  obtain ⟨node, -, hn, -, ha⟩ := h.stored
  have hk' : k < t'.adjointCount := h.count_eq ▸ hk
  funext p
  by_cases hp : p = id
  · have hid : t'.nodes.get? p = some node := by
      rw [hp, hn.get?_eq, if_pos ⟨rfl, Nat.le_refl _, by simp⟩]
      simp
    have hold : t.column k p = 0 := column_of_none (hp ▸ h.get?_id)
    rw [hold, column, ht'.adjoint?_eq hid hk', ha.get?_eq,
      if_pos (by rw [Arena.spans_shift]; simpa using hk)]
    simp [Position.shift, hk]
  · cases hold : t.nodes.get? p with
    | none => rw [column_of_none hold, column_of_none ((h.get?_nodes hp).trans hold)]
    | some old =>
      have hnew : t'.nodes.get? p = some old := (h.get?_nodes hp).trans hold
      obtain ⟨a, hstored⟩ := Option.isSome_iff_exists.1 (ht.isSome_adjoint hold hk)
      rw [column, column, ht.adjoint?_eq hold hk, ht'.adjoint?_eq hnew hk', hstored,
        ha.extended.get? hstored]

end Column

/-- Tapes that recording makes of one tape, where the inputs are on the tape when they are used. -/
inductive BuiltFrom (start : Tape R) : Tape R → Prop
  | start : BuiltFrom start start
  | leaf {t : Tape R} (ht : BuiltFrom start t) : BuiltFrom start t.recordLeaf.2
  | edges {t : Tape R} (ht : BuiltFrom start t) (candidates : List (Edge R))
      (hc : t.Accepts candidates) : BuiltFrom start (t.record candidates).2
  | folded {t : Tape R} (ht : BuiltFrom start t) (candidates : List (Edge R))
      (hc : t.Accepts candidates) : BuiltFrom start (t.recordFolded candidates).2

theorem Accepts.merge {t : Tape R} {candidates : List (Edge R)} (h : t.Accepts candidates) :
    ∀ e ∈ Edge.merge candidates, ∃ q, e.target = some q ∧ (t.nodes.get? q).isSome := by
  intro e he
  obtain ⟨d, hmem, htarget, hactive⟩ := Edge.target_of_mem_merge he
  obtain ⟨q, hq⟩ := Option.isSome_iff_exists.1 hactive
  exact ⟨q, htarget ▸ hq, h d hmem q hq⟩

namespace BuiltFrom

variable {start t : Tape R}

theorem sound (h : BuiltFrom start t) (hs : start.Sound) : t.Sound := by
  induction h with
  | start => exact hs
  | leaf _ ih => exact (ih.recorded_record []).sound ih (accepts_nil _).filter_isActive
  | edges _ candidates hc ih => exact (ih.recorded_record candidates).sound ih hc.filter_isActive
  | folded _ candidates hc ih => exact (ih.recorded_recordFolded candidates).sound ih hc.merge

theorem adjointCount_eq (h : BuiltFrom start t) : t.adjointCount = start.adjointCount := by
  induction h with
  | start => rfl
  | leaf _ ih => exact ih
  | edges _ _ _ ih => exact ih
  | folded _ _ _ ih => exact ih

/-- Recording leaves the adjoints alone. -/
theorem column_eq (h : BuiltFrom start t) (hs : start.Sound) {k : Nat} (hk : k < start.adjointCount) :
    t.column k = start.column k := by
  have step {t t' : Tape R} {id : Position} {kept : List (Edge R)} (ht : BuiltFrom start t)
      (ht' : BuiltFrom start t') (h : Recorded t id kept t') (ih : t.column k = start.column k) :
      t'.column k = start.column k :=
    (h.column_eq (ht.sound hs) (ht'.sound hs) (ht.adjointCount_eq ▸ hk)).trans ih
  induction h with
  | start => rfl
  | leaf ht ih => exact step ht ht.leaf ((ht.sound hs).recorded_record []) ih
  | edges ht cs hc ih => exact step ht (ht.edges cs hc) ((ht.sound hs).recorded_record cs) ih
  | folded ht cs hc ih => exact step ht (ht.folded cs hc) ((ht.sound hs).recorded_recordFolded cs) ih

end BuiltFrom

end PayoffPricing.Tape
