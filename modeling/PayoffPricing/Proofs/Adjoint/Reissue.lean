import PayoffPricing.Proofs.Adjoint.Ledger
import PayoffPricing.Proofs.Adjoint.Replay
/-!
Ids that are issued again. An id is a position, and a rewind makes positions free for new nodes, so a check of the id
of a dropped node finds the node that has taken its place.
-/

namespace PayoffPricing

theorem Arena.exists_slice? {α : Type} {a : Arena α} {p : Position} {n : Nat} (hn : 0 < n)
    (h : ∀ k < n, (a.get? (p.shift k)).isSome) : ∃ l, a.slice? p n = some l ∧ l.length = n := by
  have hlast : p.slot + (n - 1) < (a.items p.block).size := isSome_get?_iff.1 (h (n - 1) (by omega))
  have hblock : p.block < a.blocks.size := by
    by_contra hout
    simp [items, hout] at hlast
  refine ⟨_, slice?_eq_some_iff.2 ⟨hblock, by omega, rfl⟩, ?_⟩
  simp
  omega

namespace Tape

variable {R : Type} {t t' : Tape R} {id p : Position}

/-- Every node has its adjoints, and a node before the checkpoint has them before the checkpoint. -/
structure Housed (t : Tape R) : Prop where
  nodes_tidy : t.nodes.Tidy
  nodes_marked : t.nodes.Marked
  adjoints_tidy : t.adjoints.Tidy
  adjoints_marked : t.adjoints.Marked
  stored : ∀ p node, t.nodes.get? p = some node → ∀ k < t.adjointCount,
    (t.adjoints.get? (node.adjoints.shift k)).isSome
  before : ∀ p node, t.nodes.get? p = some node → p < t.nodes.mark → ∀ k < t.adjointCount,
    node.adjoints.shift k < t.adjoints.mark

theorem Housed.isSome_adjoint? (h : t.Housed) (hp : t.contains p = true) {k : Nat} (hk : k < t.adjointCount) :
    ∃ a, t.adjoint? p k = some a := by
  obtain ⟨node, hnode⟩ := Option.isSome_iff_exists.1 (h.nodes_tidy.contains_iff.1 hp)
  obtain ⟨l, hl, hlength⟩ := Arena.exists_slice? (Nat.zero_lt_of_lt hk) (h.stored p node hnode)
  obtain ⟨a, ha⟩ := Option.isSome_iff_exists.1 (h.stored p node hnode k hk)
  refine ⟨a, ?_⟩
  simp [adjoint?, adjointPlace?, node?, hnode, hl, hlength, hk, ha]

theorem Housed.setMark (h : t.Housed) : t.setMark.Housed where
  nodes_tidy := h.nodes_tidy
  nodes_marked := Arena.marked_setMark _
  adjoints_tidy := h.adjoints_tidy
  adjoints_marked := Arena.marked_setMark _
  stored := h.stored
  before p node hp _ k hk := h.adjoints_tidy.lt_stop (h.stored p node hp k hk)

theorem Housed.rewindToMark (h : t.Housed) : t.rewindToMark.Housed where
  nodes_tidy := Arena.tidy_rewindToMark h.nodes_tidy h.nodes_marked
  nodes_marked := h.nodes_marked.rewindToMark h.nodes_tidy
  adjoints_tidy := Arena.tidy_rewindToMark h.adjoints_tidy h.adjoints_marked
  adjoints_marked := h.adjoints_marked.rewindToMark h.adjoints_tidy
  stored p node hp k hk := by
    have hold : t.nodes.rewindToMark.get? p = some node := hp
    rw [Arena.get?_rewindToMark h.nodes_tidy h.nodes_marked, Option.ite_none_right_eq_some] at hold
    change (t.adjoints.rewindToMark.get? _).isSome
    rw [Arena.get?_rewindToMark h.adjoints_tidy h.adjoints_marked, if_pos (h.before p node hold.2 hold.1 k hk)]
    exact h.stored p node hold.2 k hk
  before p node hp hlt k hk := by
    have hold : t.nodes.rewindToMark.get? p = some node := hp
    have hmark : p < t.nodes.rewindToMark.mark := hlt
    rw [Arena.get?_rewindToMark h.nodes_tidy h.nodes_marked, Option.ite_none_right_eq_some] at hold
    rw [Arena.mark_rewindToMark] at hmark
    change _ < t.adjoints.rewindToMark.mark
    rw [Arena.mark_rewindToMark]
    exact h.before p node hold.2 hmark k hk

theorem housed_of_empty (hn : ∀ i, t.nodes.items i = #[]) (ha : ∀ i, t.adjoints.items i = #[])
    (hmark : t.nodes.mark = .start) (hmark' : t.adjoints.mark = .start) : t.Housed := by
  have hnodes := Arena.follows_of_empty hn hmark
  have hadjoints := Arena.follows_of_empty ha hmark'
  have hnone : ∀ p, t.nodes.get? p = none := fun p => by simp [Arena.get?_eq, hn]
  refine ⟨hnodes.tidy, hnodes.marked, hadjoints.tidy, hadjoints.marked, ?_, ?_⟩
  · intro p node hp
    simp [hnone] at hp
  · intro p node hp
    simp [hnone] at hp

/-- One tape is another one with a node at `id` and adjoints for it, whatever its edges are. -/
structure Laid (t : Tape R) (id : Position) (t' : Tape R) : Prop where
  count_eq : t'.adjointCount = t.adjointCount
  stored : ∃ node : Node, t.nodes.Appended id [node] t'.nodes ∧
    ∃ values, values.length = t.adjointCount ∧ t.adjoints.Appended node.adjoints values t'.adjoints

theorem Housed.laid (h : t.Housed) (hl : Laid t id t') : t'.Housed := by
  obtain ⟨node, hn, values, hlength, ha⟩ := hl.stored
  have hnode : ∀ p v, t'.nodes.get? p = some v → p = id ∧ v = node ∨ t.nodes.get? p = some v := by
    intro p v hp
    rw [hn.get?_eq] at hp
    split at hp
    · next hspan =>
      obtain ⟨hblock, hle, hlt⟩ := hspan
      simp only [List.length_singleton] at hlt
      have hslot : p.slot = id.slot := by omega
      rw [hslot, Nat.sub_self] at hp
      exact .inl ⟨Position.eq_iff.2 ⟨hblock, hslot⟩, (Option.some.inj hp).symm⟩
    · exact .inr hp
  refine ⟨hn.tidy h.nodes_tidy, h.nodes_marked.appended hn, ha.tidy h.adjoints_tidy, h.adjoints_marked.appended ha, ?_, ?_⟩
  · intro p v hp k hk
    rw [hl.count_eq] at hk
    rw [ha.isSome_get?_iff]
    rcases hnode p v hp with ⟨-, rfl⟩ | hold
    · exact .inl (Arena.spans_shift.2 (hlength ▸ hk))
    · exact .inr (h.stored p v hold k hk)
  · intro p v hp hlt k hk
    rw [hl.count_eq] at hk
    rw [hn.mark_eq] at hlt
    rw [ha.mark_eq]
    rcases hnode p v hp with ⟨rfl, -⟩ | hold
    · exact absurd hlt (h.nodes_marked.mark_le hn).not_gt
    · exact h.before p v hold hlt k hk

section Recording

variable [Scalar R]

theorem Housed.laid_pushNode (h : t.Housed) (edges : Arena (Edge R)) (n : Nat) (place : Position) :
    Laid t (pushNode ⟨t.nodes, edges, t.adjoints, t.adjointCount⟩ n place).1
      (pushNode ⟨t.nodes, edges, t.adjoints, t.adjointCount⟩ n place).2 :=
  ⟨rfl, ⟨n, place, (pushAdjoints t.adjoints t.adjointCount).1⟩, Arena.appended_push h.nodes_tidy,
    _, List.length_replicate, appended_pushAdjoints h.adjoints_tidy _⟩

theorem Housed.laid_record (h : t.Housed) (cs : List (Edge R)) : Laid t (t.record cs).1 (t.record cs).2 :=
  h.laid_pushNode _ _ _

theorem Housed.laid_recordFolded (h : t.Housed) (cs : List (Edge R)) :
    Laid t (t.recordFolded cs).1 (t.recordFolded cs).2 :=
  h.laid_pushNode _ _ _

theorem Housed.run (h : t.Housed) (m : Move R) : (m.run t).Housed := by
  cases m with
  | leaf => exact h.laid (h.laid_record [])
  | edges cs => exact h.laid (h.laid_record cs)
  | folded cs => exact h.laid (h.laid_recordFolded cs)
  | setMark => exact h.setMark
  | rewindToMark => exact h.rewindToMark
  | rewind => exact housed_of_empty (Arena.items_rewind _) (Arena.items_rewind _) rfl rfl
  | clear => exact housed_of_empty (fun _ => Arena.items_empty _ _) (fun _ => Arena.items_empty _ _) rfl rfl

theorem Housed.replay (h : t.Housed) (moves : List (Move R)) : (replay moves t).Housed := by
  induction moves generalizing t with
  | nil => exact h
  | cons m moves ih => exact ih (h.run m)

end Recording

/--
The recording calls of a history by their numbers: the ids that they returned, which of their nodes are on the tape,
oldest first, and how many of these were there at the checkpoint.
-/
structure Calls where
  ids : List Position
  live : List Nat
  kept : Nat

namespace Calls

def none : Calls := ⟨[], [], 0⟩

def record (c : Calls) (id : Position) : Calls := ⟨c.ids ++ [id], c.live ++ [c.ids.length], c.kept⟩

def setMark (c : Calls) : Calls := { c with kept := c.live.length }

def rewindToMark (c : Calls) : Calls := { c with live := c.live.take c.kept }

def rewind (c : Calls) : Calls := { c with live := [], kept := 0 }

/-- The node of call `i` was dropped, and no node that was recorded later and is on the tape has its id. -/
def Vacated (c : Calls) (i : Nat) (id : Position) : Prop :=
  i ∉ c.live ∧ ∀ j ∈ c.live, i < j → c.ids[j]? ≠ some id

variable [Scalar R]

def run (t : Tape R) (c : Calls) : Move R → Calls
  | .leaf => c.record t.recordLeaf.1
  | .edges candidates => c.record (t.record candidates).1
  | .folded candidates => c.record (t.recordFolded candidates).1
  | .setMark => c.setMark
  | .rewindToMark => c.rewindToMark
  | .rewind => c.rewind
  | .clear => c.rewind

/-- The calls after some moves. -/
def replay : List (Move R) → Tape R → Calls → Calls
  | [], _, c => c
  | m :: moves, t, c => replay moves (m.run t) (c.run t m)

end Calls

/-- The live calls are those whose nodes are on the tape, and no id that was returned since equals theirs. -/
structure Logged (c : Calls) (t : Tape R) : Prop where
  follows : ∃ l : Arena.Ledger Node, Arena.Follows l t.nodes ∧ l.kept = c.kept ∧
    List.Forall₂ (fun e i => c.ids[i]? = some e.1) l.entries c.live
  later : ∀ i ∈ c.live, ∀ (j : Nat) (p q : Position), i < j → c.ids[i]? = some p → c.ids[j]? = some q → p < q

namespace Logged

variable {c : Calls}

theorem contains_iff (h : Logged c t) : t.contains p = true ↔ ∃ i ∈ c.live, c.ids[i]? = some p := by
  obtain ⟨l, hl, -, hentries⟩ := h.follows
  rw [contains, hl.tidy.contains_iff, ← hl.holds_iff]
  constructor
  · rintro ⟨node, hmem⟩
    obtain ⟨i, hi, hid⟩ := exists_right_of_forall₂ hentries hmem
    exact ⟨i, hi, hid⟩
  · rintro ⟨i, hi, hid⟩
    obtain ⟨⟨q, node⟩, hmem, hq⟩ := exists_left_of_forall₂ hentries hi
    obtain rfl : p = q := Option.some.inj (hid.symm.trans hq)
    exact ⟨node, hmem⟩

/-- What is recorded next gets an id behind those of all live calls. -/
theorem lt_of_laid (h : Logged c t) (hl : Laid t id t') {i : Nat} (hi : i ∈ c.live) (hp : c.ids[i]? = some p) :
    p < id := by
  obtain ⟨l, hfollows, -, -⟩ := h.follows
  obtain ⟨node, hn, -⟩ := hl.stored
  exact hn.fresh p (hfollows.tidy.contains_iff.1 (h.contains_iff.2 ⟨i, hi, hp⟩))

theorem laid (h : Logged c t) (hl : Laid t id t') : Logged (c.record id) t' := by
  obtain ⟨l, hfollows, hkept, hentries⟩ := h.follows
  obtain ⟨node, hn, -⟩ := hl.stored
  have hold : ∀ {i : Nat} {p : Position}, c.ids[i]? = some p → (c.ids ++ [id])[i]? = some p := fun hp => by
    rw [List.getElem?_append_left (List.getElem?_eq_some_iff.1 hp).1, hp]
  refine ⟨⟨l.append id [node], hfollows.appended hn, hkept, ?_⟩, fun i hi j p q hij hp hq => ?_⟩
  · exact List.rel_append (hentries.imp fun e i hid => hold hid) (.cons List.getElem?_concat_length .nil)
  · have hj : j < c.ids.length + 1 := by
      have hlt := (List.getElem?_eq_some_iff.1 hq).1
      rwa [Calls.record, List.length_append] at hlt
    have hi' : i ∈ c.live := by
      rcases List.mem_append.1 hi with hi | hi
      · exact hi
      · have := List.mem_singleton.1 hi
        omega
    have hp : c.ids[i]? = some p := by rwa [Calls.record, List.getElem?_append_left (by omega)] at hp
    by_cases hlast : j = c.ids.length
    · subst hlast
      obtain rfl : id = q := Option.some.inj (List.getElem?_concat_length.symm.trans hq)
      exact h.lt_of_laid hl hi' hp
    · have hq : c.ids[j]? = some q := by rwa [Calls.record, List.getElem?_append_left (by omega)] at hq
      exact h.later i hi' j p q hij hp hq

theorem setMark (h : Logged c t) : Logged c.setMark t.setMark := by
  obtain ⟨l, hfollows, hkept, hentries⟩ := h.follows
  exact ⟨⟨l.setMark, hfollows.setMark, hentries.length_eq, hentries⟩, h.later⟩

theorem rewindToMark (h : Logged c t) : Logged c.rewindToMark t.rewindToMark := by
  obtain ⟨l, hfollows, hkept, hentries⟩ := h.follows
  refine ⟨⟨l.rewindToMark, hfollows.rewindToMark, hkept, ?_⟩, fun i hi => h.later i (List.mem_of_mem_take hi)⟩
  rw [Arena.Ledger.rewindToMark, Calls.rewindToMark, hkept]
  exact List.forall₂_take c.kept hentries

theorem of_empty (c : Calls) (hn : ∀ i, t.nodes.items i = #[]) (hmark : t.nodes.mark = .start) : Logged c.rewind t :=
  ⟨⟨.empty, Arena.follows_of_empty hn hmark, rfl, .nil⟩, fun _ hi => absurd hi List.not_mem_nil⟩

theorem contains_eq_false_iff (h : Logged c t) {i : Nat} (hid : c.ids[i]? = some id) :
    t.contains id = false ↔ c.Vacated i id := by
  rw [← Bool.not_eq_true, h.contains_iff]
  constructor
  · intro hnone
    exact ⟨fun hi => hnone ⟨i, hi, hid⟩, fun j hj _ hjd => hnone ⟨j, hj, hjd⟩⟩
  · rintro ⟨hi, hlater⟩ ⟨j, hj, hjd⟩
    rcases Nat.lt_trichotomy i j with hij | rfl | hji
    · exact hlater j hj hij hjd
    · exact hi hj
    · exact lt_irrefl id (h.later j hj i id id hji hjd hid)

variable [Scalar R]

theorem run (h : Logged c t) (ht : t.Housed) (m : Move R) : Logged (c.run t m) (m.run t) := by
  cases m with
  | leaf => exact h.laid (ht.laid_record [])
  | edges cs => exact h.laid (ht.laid_record cs)
  | folded cs => exact h.laid (ht.laid_recordFolded cs)
  | setMark => exact h.setMark
  | rewindToMark => exact h.rewindToMark
  | rewind => exact of_empty c (Arena.items_rewind _) rfl
  | clear => exact of_empty c (fun _ => Arena.items_empty _ _) rfl

theorem replay (h : Logged c t) (ht : t.Housed) (moves : List (Move R)) :
    Logged (Calls.replay moves t c) (replay moves t) := by
  induction moves generalizing t c with
  | nil => exact h
  | cons m moves ih => exact ih (h.run ht m) (ht.run m)

end Logged

section Reading

variable {j : Nat}

theorem Housed.tryAdjoint_ok (h : t.Housed) (hid : t.contains id = true) (hj : j < t.adjointCount) :
    ∃ a, t.tryAdjoint id j = .ok a := by
  obtain ⟨a, ha⟩ := h.isSome_adjoint? hid hj
  refine ⟨a, ?_⟩
  simp [tryAdjoint, hid, Nat.not_le.2 hj, ha, Fault.ofOption]

section Start

variable {k n : Nat} {hk : 0 < k} {start : Tape R}

theorem housed_start (h : (withBlockSize k hk).setAdjointCount n = .ok start) : start.Housed := by
  obtain ⟨-, rfl⟩ := setAdjointCount_eq_ok h
  exact housed_of_empty (fun _ => Arena.items_empty _ _) (fun _ => Arena.items_empty _ _) rfl rfl

theorem logged_start (h : (withBlockSize k hk).setAdjointCount n = .ok start) : Logged .none start := by
  obtain ⟨-, rfl⟩ := setAdjointCount_eq_ok h
  exact Logged.of_empty .none (fun _ => Arena.items_empty _ _) rfl

/--
A checked read of a dropped node is refused unless its position has been issued again; then it reads the adjoint of
the node that stands there now.
-/
theorem stale_read_refused_iff [Scalar R] (hstart : (withBlockSize k hk).setAdjointCount n = .ok start)
    (moves : List (Move R)) {i : Nat} (hid : (Calls.replay moves start .none).ids[i]? = some id) (hj : j < n) :
    ((replay moves start).contains id = false ∧ (replay moves start).tryAdjoint id j = .error (.error .notOnTape) ↔
      (Calls.replay moves start .none).Vacated i id) ∧
    (¬(Calls.replay moves start .none).Vacated i id →
      (replay moves start).contains id = true ∧ ∃ a, (replay moves start).tryAdjoint id j = .ok a) := by
  have hiff := ((logged_start hstart).replay (housed_start hstart) moves).contains_eq_false_iff hid
  have hcount : j < (replay moves start).adjointCount := by
    rw [adjointCount_replay, (setAdjointCount_eq_ok hstart).2]
    exact hj
  constructor
  · refine ⟨fun h => hiff.1 h.1, fun h => ⟨hiff.2 h, ?_⟩⟩
    rw [tryAdjoint, hiff.2 h]
    rfl
  · intro h
    have hcontains : (replay moves start).contains id = true := by rwa [← Bool.not_eq_false, hiff]
    exact ⟨hcontains, ((housed_start hstart).replay moves).tryAdjoint_ok hcontains hcount⟩

/-- Two nodes are dropped, and a new one takes the place of the first. -/
def reissuing : List (Move Float) := [.setMark, .leaf, .leaf, .rewindToMark, .leaf]

theorem stale_read_refused_iff_reissuing :
    (replay reissuing .empty).contains ⟨0, 1⟩ = false ∧
      (replay reissuing .empty).tryAdjoint ⟨0, 1⟩ 0 = .error (.error .notOnTape) ∧
      (replay reissuing .empty).contains ⟨0, 0⟩ = true ∧ ∃ a, (replay reissuing .empty).tryAdjoint ⟨0, 0⟩ 0 = .ok a := by
  have hstart : (Tape.empty : Tape Float).setAdjointCount 1 = .ok .empty := rfl
  have hlive : (Calls.replay reissuing .empty .none).live = [2] := by decide
  have hids : (Calls.replay reissuing .empty .none).ids = [⟨0, 0⟩, ⟨0, 1⟩, ⟨0, 0⟩] := by decide
  have hsecond : (Calls.replay reissuing .empty .none).Vacated 1 ⟨0, 1⟩ := by
    rw [Calls.Vacated, hlive, hids]
    decide
  have hfirst : ¬(Calls.replay reissuing .empty .none).Vacated 0 ⟨0, 0⟩ := by
    rw [Calls.Vacated, hlive, hids]
    decide
  have hrefused := (stale_read_refused_iff hstart reissuing (i := 1) (by rw [hids]; rfl) Nat.one_pos).1.2 hsecond
  have hanswered := (stale_read_refused_iff hstart reissuing (i := 0) (by rw [hids]; rfl) Nat.one_pos).2 hfirst
  exact ⟨hrefused.1, hrefused.2, hanswered⟩

/-- Recording, rewinding and recording again: the id of the dropped node is answered. -/
theorem dropped_id_is_answered :
    (Calls.replay [.setMark, .leaf, .rewindToMark, .leaf] (.empty : Tape Float) .none).ids[0]? = some ⟨0, 0⟩ ∧
      0 ∉ (Calls.replay [.setMark, .leaf, .rewindToMark, .leaf] (.empty : Tape Float) .none).live ∧
      (replay [.setMark, .leaf, .rewindToMark, .leaf] (.empty : Tape Float)).contains ⟨0, 0⟩ = true ∧
      ∃ a, (replay [.setMark, .leaf, .rewindToMark, .leaf] (.empty : Tape Float)).tryAdjoint ⟨0, 0⟩ 0 = .ok a := by
  have hcontains : (replay [.setMark, .leaf, .rewindToMark, .leaf] (.empty : Tape Float)).contains ⟨0, 0⟩ = true := by
    decide
  have hstart : (Tape.empty : Tape Float).setAdjointCount 1 = .ok .empty := rfl
  have hhoused := (housed_start hstart).replay [.setMark, .leaf, .rewindToMark, .leaf]
  exact ⟨by decide, by decide, hcontains, hhoused.tryAdjoint_ok hcontains Nat.one_pos⟩

end Start

end Reading

end Tape

end PayoffPricing
