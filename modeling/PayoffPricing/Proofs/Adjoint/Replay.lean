import PayoffPricing.Proofs.Adjoint.Accumulation
/-!
Recordings replayed on two tapes. Tapes with different numbers of adjoints lay out the same nodes, so a sweep with
many adjoints is as many sweeps with one.
-/

namespace PayoffPricing

namespace Arena

variable {α : Type} {a b c : Arena α} {k : Nat}

theorem Uniform.rewind (h : a.Uniform k) : a.rewind.Uniform k := by
  refine ⟨h.blockSize_eq, fun i b hb => ?_⟩
  simp only [Arena.rewind, Array.getElem?_map] at hb
  obtain ⟨c, hc, rfl⟩ := Option.map_eq_some_iff.1 hb
  exact h.capacity_eq i c hc

theorem Uniform.clear (h : a.Uniform k) : a.clear.Uniform k := by
  obtain rfl := h.blockSize_eq
  exact uniform_empty a.blockSize_pos

theorem Uniform.setMark (h : a.Uniform k) : a.setMark.Uniform k := ⟨h.blockSize_eq, h.capacity_eq⟩

namespace Twins

theorem symm (h : Twins k a b) : Twins k b a :=
  ⟨h.uniform_right, h.uniform_left, h.current_eq.symm, fun i => (h.size_eq i).symm⟩

theorem trans (h : Twins k a b) (h' : Twins k b c) : Twins k a c :=
  ⟨h.uniform_left, h'.uniform_right, h.current_eq.trans h'.current_eq, fun i => (h.size_eq i).trans (h'.size_eq i)⟩

theorem stop_eq (h : Twins k a b) : a.stop = b.stop := by
  rw [stop, stop, ← items_current, ← items_current, h.size_eq, h.current_eq]

theorem setMark (h : Twins k a b) : Twins k a.setMark b.setMark :=
  ⟨h.uniform_left.setMark, h.uniform_right.setMark, h.current_eq, h.size_eq⟩

theorem rewind (h : Twins k a b) : Twins k a.rewind b.rewind :=
  ⟨h.uniform_left.rewind, h.uniform_right.rewind, rfl, fun i => by rw [items_rewind, items_rewind]⟩

theorem clear (h : Twins k a b) : Twins k a.clear b.clear :=
  ⟨h.uniform_left.clear, h.uniform_right.clear, rfl, fun i => by rw [Arena.clear, Arena.clear, items_empty, items_empty]⟩

end Twins

end Arena

namespace Tape

variable {R : Type} {t t' s s' base base' : Tape R} {k : Nat}

theorem sound_of_empty (hn : ∀ i, t.nodes.items i = #[]) (he : ∀ i, t.edges.items i = #[])
    (ha : ∀ i, t.adjoints.items i = #[]) : t.Sound where
  nodes_tidy i _ := hn i
  edges_tidy i _ := he i
  adjoints_tidy i _ := ha i
  edges_stored p node hp := by simp [Arena.get?_eq, hn] at hp
  adjoints_stored p node hp := by simp [Arena.get?_eq, hn] at hp
  adjoints_apart p node q other hp := by simp [Arena.get?_eq, hn] at hp

theorem inputs_of_empty (hn : ∀ i, t.nodes.items i = #[]) : t.inputs = fun _ => [] := by
  funext p
  refine inputs_eq_nil ?_
  simp [Arena.get?_eq, hn]

theorem sound_rewind (t : Tape R) : t.rewind.Sound :=
  sound_of_empty (Arena.items_rewind _) (Arena.items_rewind _) (Arena.items_rewind _)

theorem sound_clear (t : Tape R) : t.clear.Sound :=
  sound_of_empty (fun _ => Arena.items_empty _ _) (fun _ => Arena.items_empty _ _) fun _ => Arena.items_empty _ _

theorem returns_rewind (t : Tape R) : Returns t.rewind t.rewind := by
  have hmark : t.rewind.setMark = t.rewind := by
    simp only [setMark, rewind, Arena.setMark_rewind]
  have h := returns_setMark t.sound_rewind
  rwa [hmark] at h

theorem returns_clear (t : Tape R) : Returns t.clear t.clear := returns_setMark t.sound_clear

namespace Twins

theorem symm (h : Twins k t t') : Twins k t' t := ⟨h.sound_right, h.sound_left, h.nodes.symm, h.inputs_eq.symm⟩

theorem trans (h : Twins k t t') (h' : Twins k t' s) : Twins k t s :=
  ⟨h.sound_left, h'.sound_right, h.nodes.trans h'.nodes, h.inputs_eq.trans h'.inputs_eq⟩

theorem setMark (h : Twins k t t') : Twins k t.setMark t'.setMark :=
  ⟨h.sound_left.setMark, h.sound_right.setMark, h.nodes.setMark, h.inputs_eq⟩

theorem rewind (h : Twins k t t') : Twins k t.rewind t'.rewind where
  sound_left := t.sound_rewind
  sound_right := t'.sound_rewind
  nodes := h.nodes.rewind
  inputs_eq := by
    rw [inputs_of_empty (Arena.items_rewind _), inputs_of_empty (Arena.items_rewind _)]

theorem clear (h : Twins k t t') : Twins k t.clear t'.clear where
  sound_left := t.sound_clear
  sound_right := t'.sound_clear
  nodes := h.nodes.clear
  inputs_eq := by
    rw [inputs_of_empty fun _ => Arena.items_empty _ _, inputs_of_empty fun _ => Arena.items_empty _ _]

theorem sameRecord (h : Twins k t s) (ht : SameRecord t t') (hs : SameRecord s s') : Twins k t' s' where
  sound_left := ht.sound h.sound_left
  sound_right := hs.sound h.sound_right
  nodes := by
    rw [ht.nodes_eq, hs.nodes_eq]
    exact h.nodes
  inputs_eq := by rw [ht.inputs_eq, hs.inputs_eq, h.inputs_eq]

end Twins

/-- Twins whose checkpoints lead back to twins. -/
inductive Paired (k : Nat) (t s : Tape R) : Prop
  | intro (base base' : Tape R) (bases : Twins k base base') (left : Returns base t) (right : Returns base' s)
      (twins : Twins k t s)

namespace Paired

theorem twins (h : Paired k t s) : Twins k t s := by
  obtain ⟨_, _, _, _, _, h⟩ := h
  exact h

theorem mark_eq (h : Paired k t s) : t.nodes.mark = s.nodes.mark := by
  obtain ⟨base, base', hbases, hleft, hright, -⟩ := h
  rw [hleft.nodes.mark_eq, hright.nodes.mark_eq, hbases.nodes.stop_eq]

theorem setMark (h : Paired k t s) : Paired k t.setMark s.setMark :=
  ⟨t, s, h.twins, returns_setMark h.twins.sound_left, returns_setMark h.twins.sound_right, h.twins.setMark⟩

theorem rewindToMark (h : Paired k t s) : Paired k t.rewindToMark s.rewindToMark := by
  obtain ⟨base, base', hbases, hleft, hright, htwins⟩ := h
  refine ⟨base, base', hbases, hleft.rewindToMark hbases.sound_left, hright.rewindToMark hbases.sound_right, ?_⟩
  have hback := hleft.twins hbases.sound_left hbases.nodes.uniform_left htwins.nodes.uniform_left
  have hback' := hright.twins hbases.sound_right hbases.nodes.uniform_right htwins.nodes.uniform_right
  exact (hback.trans hbases).trans hback'.symm

theorem rewind (h : Paired k t s) : Paired k t.rewind s.rewind :=
  ⟨t.rewind, s.rewind, h.twins.rewind, t.returns_rewind, s.returns_rewind, h.twins.rewind⟩

theorem clear (h : Paired k t s) : Paired k t.clear s.clear :=
  ⟨t.clear, s.clear, h.twins.clear, t.returns_clear, s.returns_clear, h.twins.clear⟩

theorem sameRecord (h : Paired k t s) (ht : SameRecord t t') (hs : SameRecord s s') : Paired k t' s' := by
  obtain ⟨base, base', hbases, hleft, hright, htwins⟩ := h
  exact ⟨base, base', hbases, hleft.sameRecord ht, hright.sameRecord hs, htwins.sameRecord ht hs⟩

end Paired

/-- The operations that a recording is made of. -/
inductive Move (R : Type) where
  | leaf
  | edges (candidates : List (Edge R))
  | folded (candidates : List (Edge R))
  | setMark
  | rewindToMark
  | rewind
  | clear

namespace Move

variable [Scalar R]

def run (t : Tape R) : Move R → Tape R
  | leaf => t.recordLeaf.2
  | edges candidates => (t.record candidates).2
  | folded candidates => (t.recordFolded candidates).2
  | setMark => t.setMark
  | rewindToMark => t.rewindToMark
  | rewind => t.rewind
  | clear => t.clear

/-- The inputs of a node are on the tape when it is recorded. -/
def Aimed (t : Tape R) : Move R → Prop
  | edges candidates => t.Accepts candidates
  | folded candidates => t.Accepts candidates
  | _ => True

end Move

section Replay

variable [Scalar R]

/-- The tape after some moves. -/
def replay (moves : List (Move R)) (t : Tape R) : Tape R := moves.foldl Move.run t

/-- All moves are aimed at the tape as it is when they are made. -/
def Aimed : List (Move R) → Tape R → Prop
  | [], _ => True
  | m :: moves, t => m.Aimed t ∧ Aimed moves (m.run t)

theorem Paired.edges {cs : List (Edge R)} (h : Paired k t s) (hc : t.Accepts cs) :
    Paired k (t.record cs).2 (s.record cs).2 := by
  obtain ⟨base, base', hbases, hleft, hright, htwins⟩ := h
  have hnext := (htwins.record hc).2
  exact ⟨base, base', hbases, hleft.recorded (hleft.sound.recorded_record cs) hnext.sound_left,
    hright.recorded (hright.sound.recorded_record cs) hnext.sound_right, hnext⟩

theorem Paired.folded {cs : List (Edge R)} (h : Paired k t s) (hc : t.Accepts cs) :
    Paired k (t.recordFolded cs).2 (s.recordFolded cs).2 := by
  obtain ⟨base, base', hbases, hleft, hright, htwins⟩ := h
  have hnext := (htwins.recordFolded hc).2
  exact ⟨base, base', hbases, hleft.recorded (hleft.sound.recorded_recordFolded cs) hnext.sound_left,
    hright.recorded (hright.sound.recorded_recordFolded cs) hnext.sound_right, hnext⟩

theorem Paired.run {m : Move R} (h : Paired k t s) (hm : m.Aimed t) : Paired k (m.run t) (m.run s) := by
  cases m with
  | leaf => exact h.edges (accepts_nil t)
  | edges cs => exact h.edges hm
  | folded cs => exact h.folded hm
  | setMark => exact h.setMark
  | rewindToMark => exact h.rewindToMark
  | rewind => exact h.rewind
  | clear => exact h.clear

theorem Paired.replay {moves : List (Move R)} (h : Paired k t s) (hm : Aimed moves t) :
    Paired k (replay moves t) (replay moves s) := by
  induction moves generalizing t s with
  | nil => exact h
  | cons m moves ih => exact ih (h.run hm.1) hm.2

theorem adjointCount_run (m : Move R) (t : Tape R) : (m.run t).adjointCount = t.adjointCount := by
  cases m <;> rfl

theorem adjointCount_replay (moves : List (Move R)) (t : Tape R) :
    (replay moves t).adjointCount = t.adjointCount := by
  induction moves generalizing t with
  | nil => rfl
  | cons m moves ih => exact (ih _).trans (adjointCount_run m t)

end Replay

section Start

variable {n : Nat} {start : Tape R} {hk : 0 < k}

theorem setAdjointCount_eq_ok (h : (withBlockSize k hk : Tape R).setAdjointCount n = .ok start) :
    0 < n ∧ start = { withBlockSize k hk with adjointCount := n } := by
  unfold setAdjointCount at h
  split at h
  · contradiction
  · next hn =>
    obtain rfl := Except.ok.inj h
    exact ⟨Nat.pos_of_ne_zero hn, rfl⟩

theorem paired_start (h : (withBlockSize k hk : Tape R).setAdjointCount n = .ok start) :
    Paired k start (withBlockSize k hk) := by
  obtain ⟨-, rfl⟩ := setAdjointCount_eq_ok h
  have hsound : ({ withBlockSize k hk with adjointCount := n } : Tape R).Sound :=
    sound_of_empty (fun _ => Arena.items_empty _ _) (fun _ => Arena.items_empty _ _) fun _ => Arena.items_empty _ _
  have htwins : Twins k ({ withBlockSize k hk with adjointCount := n } : Tape R) (withBlockSize k hk) :=
    ⟨hsound, sound_withBlockSize k hk, (twins_withBlockSize hk (R := R)).nodes, rfl⟩
  exact ⟨_, _, htwins, returns_setMark hsound, returns_setMark (sound_withBlockSize k hk), htwins⟩

end Start

section Sweeps

variable [Scalar R] {j : Nat}

/-- Two calls fail alike, or leave the `j`-th adjoints of one tape as the only ones of the other. -/
inductive SameColumn (j : Nat) : Except Misuse (Tape R) → Except Misuse (Tape R) → Prop
  | ok {t s : Tape R} (h : ∀ p, s.adjoint? p 0 = t.adjoint? p j) : SameColumn j (.ok t) (.ok s)
  | error (e : Misuse) : SameColumn j (.error e) (.error e)

omit [Scalar R] in
theorem adjoint?_of_none {p : Position} (h : t.nodes.get? p = none) : t.adjoint? p j = none := by
  simp [adjoint?, adjointPlace?, node?, h]

/-- Tapes with the same nodes have the same adjoints if they have the same columns. -/
theorem Twins.adjoint?_eq_iff (h : Twins k t s) (hj : j < t.adjointCount) (hs : 0 < s.adjointCount) :
    (∀ p, s.adjoint? p 0 = t.adjoint? p j) ↔ s.column 0 = t.column j := by
  refine ⟨fun hadjoint => funext fun p => by rw [column, column, hadjoint p], fun hcolumn p => ?_⟩
  cases hp : t.nodes.get? p with
  | none =>
    have hp' : s.nodes.get? p = none := by
      rw [← Option.not_isSome_iff_eq_none, ← h.nodes.isSome_iff, hp]
      exact Bool.false_ne_true
    rw [adjoint?_of_none hp, adjoint?_of_none hp']
  | some node =>
    have hon : (t.nodes.get? p).isSome := by
      rw [hp]
      rfl
    rw [h.sound_left.adjoint?_eq_column hon hj, h.sound_right.adjoint?_eq_column (h.nodes.isSome_iff.1 hon) hs, hcolumn]

theorem Twins.sweepRange (h : Twins k t s) (hj : j < t.adjointCount) (hs : 0 < s.adjointCount)
    (hcolumn : ∀ p, s.adjoint? p 0 = t.adjoint? p j) (first last : Position) :
    SameColumn j (t.sweepRange first last) (s.sweepRange first last) := by
  obtain ⟨t', ht', hsweeps⟩ := h.sound_left.sweepRange_ok first last
  obtain ⟨s', hs', hsweeps'⟩ := h.sound_right.sweepRange_ok first last
  have htwins := h.sameRecord hsweeps.same hsweeps'.same
  rw [ht', hs']
  refine .ok ((htwins.adjoint?_eq_iff (hsweeps.same.count_eq ▸ hj) (hsweeps'.same.count_eq ▸ hs)).2 ?_)
  rw [hsweeps'.column_eq 0 hs, hsweeps.column_eq j hj, (h.adjoint?_eq_iff hj hs).1 hcolumn, h.visited_eq]
  exact (pushAll_eq fun p _ => congrFun h.inputs_eq p).symm

omit [Scalar R] in
theorem Twins.contains_eq (h : Twins k t s) (p : Position) : t.contains p = s.contains p := by
  rw [Bool.eq_iff_iff, contains, contains, h.sound_left.nodes_tidy.contains_iff,
    h.sound_right.nodes_tidy.contains_iff, h.nodes.isSome_iff]

/-- A sweep with `n` adjoints per node is `n` sweeps with one. -/
theorem sweeps_column_by_column {n : Nat} {hk : 0 < k} {start : Tape R} {moves : List (Move R)}
    (hstart : (withBlockSize k hk).setAdjointCount n = .ok start) (haimed : Aimed moves start)
    (ht : SameRecord (replay moves start) t) (hs : SameRecord (replay moves (withBlockSize k hk)) s)
    (hj : j < n) (hcolumn : ∀ p, s.adjoint? p 0 = t.adjoint? p j) :
    (∀ origin target, SameColumn j (t.propagate origin target) (s.propagate origin target)) ∧
      (∀ origin, SameColumn j (t.propagateToStart origin) (s.propagateToStart origin)) ∧
      (∀ origin, SameColumn j (t.propagateToMark origin) (s.propagateToMark origin)) ∧
      SameColumn j t.propagateMarkToStart s.propagateMarkToStart := by
  have hpaired : Paired k t s := ((paired_start hstart).replay haimed).sameRecord ht hs
  have hcount : t.adjointCount = n := by
    rw [ht.count_eq, adjointCount_replay, (setAdjointCount_eq_ok hstart).2]
  have hone : s.adjointCount = 1 := by
    rw [hs.count_eq, adjointCount_replay]
    rfl
  have hsweep := hpaired.twins.sweepRange (hcount ▸ hj) (hone ▸ Nat.one_pos) hcolumn
  refine ⟨fun origin target => ?_, fun origin => ?_, fun origin => ?_, ?_⟩
  · rw [propagate, propagate, hpaired.twins.contains_eq]
    split
    · exact .error _
    · split
      · exact .error _
      · exact hsweep target origin.next
  · rw [propagateToStart, propagateToStart, hpaired.twins.contains_eq]
    split
    · exact .error _
    · exact hsweep .start origin.next
  · rw [propagateToMark, propagateToMark, hpaired.twins.contains_eq, hpaired.mark_eq]
    split
    · exact .error _
    · split
      · exact .error _
      · exact hsweep s.nodes.mark origin.next
  · rw [propagateMarkToStart, propagateMarkToStart, hpaired.mark_eq]
    exact hsweep .start s.nodes.mark

section Cramped

/-- An empty tape where a block has room for one node and one adjoint. -/
def cramped (n : Nat) : Tape R := { withBlockSize 1 Nat.one_pos with adjointCount := n }

/-- An input and a node that depends on it. -/
def oneEdge : List (Move R) := [.leaf, .edges [⟨3, some ⟨0, 0⟩⟩]]

omit [Scalar R] in
theorem setAdjointCount_cramped {n : Nat} (hn : 0 < n) :
    (withBlockSize 1 Nat.one_pos : Tape R).setAdjointCount n = .ok (cramped n) := by
  rw [setAdjointCount, if_neg hn.ne']
  rfl

theorem replay_oneEdge (t : Tape R) : replay oneEdge t = (t.recordLeaf.2.record [⟨3, some ⟨0, 0⟩⟩]).2 := rfl

theorem accepts_oneEdge (n : Nat) : (cramped n : Tape R).recordLeaf.2.Accepts [⟨3, some ⟨0, 0⟩⟩] := by
  intro e he q hq
  obtain rfl := List.mem_singleton.1 he
  cases hq
  rfl

theorem builtFrom_leaf (n : Nat) : BuiltFrom (cramped n : Tape R) (cramped n).recordLeaf.2 := .leaf .start

theorem builtFrom_oneEdge (n : Nat) : BuiltFrom (cramped n : Tape R) (replay oneEdge (cramped n)) := by
  rw [replay_oneEdge]
  exact (builtFrom_leaf n).edges _ (accepts_oneEdge n)

theorem column_oneEdge {n : Nat} (hn : 0 < n) (hj : j < n) :
    (replay oneEdge (cramped n : Tape R)).column j = fun _ => 0 := by
  have hsound : (cramped n : Tape R).Sound := (paired_start (setAdjointCount_cramped hn)).twins.sound_left
  rw [(builtFrom_oneEdge n).column_eq hsound hj]
  funext p
  have hnone : (withBlockSize 1 Nat.one_pos : Tape R).nodes.get? p = none := get?_nodes_withBlockSize 1 Nat.one_pos p
  exact column_of_none hnone

/-- Two adjoints per node where a block has room for one. -/
theorem sweeps_column_by_column_cramped : ∃ (id : Position) (t s t' : Tape Float),
    (replay oneEdge (cramped 2)).modifyAdjoint id 1 (fun _ => 5) = .ok t ∧
      (replay oneEdge (withBlockSize 1 Nat.one_pos)).setAdjoint id 5 = .ok s ∧
      t.propagateToStart id = .ok t' ∧ SameColumn 1 (.ok t') (s.propagateToStart id) := by
  have hstart := setAdjointCount_cramped (R := Float) Nat.two_pos
  have haimed : Aimed oneEdge (cramped 2 : Tape Float) := ⟨trivial, accepts_oneEdge 2, trivial⟩
  have hpaired := (paired_start hstart).replay haimed
  have htwins := hpaired.twins
  obtain ⟨id, hon⟩ : ∃ id, ((replay oneEdge (cramped 2 : Tape Float)).nodes.get? id).isSome :=
    ⟨_, (((builtFrom_leaf 2).sound (paired_start hstart).twins.sound_left).recorded_record _).get?_self⟩
  obtain ⟨t, ht, hchanges⟩ := htwins.sound_left.modifyAdjoint_ok hon (k := 1) (by decide) fun _ => 5
  obtain ⟨s, hs, hchanges'⟩ := htwins.sound_right.setAdjoint_ok (htwins.nodes.isSome_iff.1 hon) Nat.one_pos 5
  have hpair := hpaired.sameRecord hchanges.same hchanges'.same
  have hzero : (replay oneEdge (withBlockSize 1 Nat.one_pos : Tape Float)).column 0 = fun _ => 0 :=
    column_oneEdge Nat.one_pos Nat.one_pos
  have hcolumn : s.column 0 = t.column 1 := by
    rw [hchanges'.column_eq 0 Nat.one_pos, hchanges.column_eq 1 (by decide), if_pos rfl, if_pos rfl, hzero,
      column_oneEdge Nat.two_pos (by decide)]
  have hadjoint := (hpair.twins.adjoint?_eq_iff (j := 1) (hchanges.same.count_eq ▸ by decide)
    (hchanges'.same.count_eq ▸ Nat.one_pos)).2 hcolumn
  have hsame := (sweeps_column_by_column hstart haimed hchanges.same hchanges'.same (by decide) hadjoint).2.1 id
  obtain ⟨t', ht', -⟩ := hpair.twins.sound_left.propagateToStart_ok (n := id) (by rwa [hchanges.same.nodes_eq])
  exact ⟨id, t, s, t', ht, hs, ht', ht' ▸ hsame⟩

end Cramped

end Sweeps

end Tape

end PayoffPricing
