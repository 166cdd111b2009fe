import Mathlib
import PayoffPricing.Proofs.Adjoint.Derivative
import PayoffPricing.Proofs.Adjoint.Twins
/-!
Sweeps in two parts. A sweep back to a checkpoint adds the derivatives of the payoff to the adjoints before it,
and a sweep from the checkpoint on takes the sum of what has been added there to the leaves.
-/

namespace PayoffPricing

namespace Tape

section Walks

variable {R : Type} {t t' : Tape R} {k : Nat}

theorem Twins.keeps (h : Twins k t t') : Keeps t t' :=
  ⟨fun _ hp => h.nodes.isSome_iff.1 hp, fun _ _ => (congrFun h.inputs_eq _).symm⟩

theorem Twins.visited_eq (h : Twins k t t') (first last : Position) : t.visited first last = t'.visited first last := by
  refine List.Pairwise.eq_of_mem_iff (pairwise_visited ..) (pairwise_visited ..) fun p => ?_
  rw [h.sound_left.mem_visited, h.sound_right.mem_visited, h.nodes.isSome_iff]

/-- A walk goes through what lies behind a position first. -/
theorem Sound.visited_append (ht : t.Sound) {first m last : Position} (hfirst : first ≤ m) (hlast : m ≤ last) :
    t.visited first last = t.visited m last ++ t.visited first m := by
  refine List.Pairwise.eq_of_mem_iff (r := (· > ·)) (pairwise_visited ..) (List.pairwise_append.2 ?_) fun p => ?_
  · refine ⟨pairwise_visited .., pairwise_visited .., fun p hp q hq => ?_⟩
    exact lt_of_lt_of_le (ht.mem_visited.1 hq).2.1 (ht.mem_visited.1 hp).1
  · rw [List.mem_append, ht.mem_visited, ht.mem_visited, ht.mem_visited]
    constructor
    · rintro ⟨h, h', hp⟩
      rcases lt_or_ge p m with hpm | hpm
      · exact .inr ⟨h, hpm, hp⟩
      · exact .inl ⟨hpm, h', hp⟩
    · rintro (⟨h, h', hp⟩ | ⟨h, h', hp⟩)
      · exact ⟨hfirst.trans h, h', hp⟩
      · exact ⟨h, lt_of_lt_of_le h' hlast, hp⟩

end Walks

section Congruence

variable {R : Type} [Scalar R] {t t' : Tape R} {ps : List Position} {as as' : Position → R} {P : Position → Prop}

theorem pushFrom_eq {p : Position} (h : t.inputs p = t'.inputs p) : t.pushFrom p as = t'.pushFrom p as := by
  simp only [pushFrom, h]

theorem pushAll_eq (h : ∀ p ∈ ps, t.inputs p = t'.inputs p) : t.pushAll ps as = t'.pushAll ps as := by
  induction ps generalizing as with
  | nil => rfl
  | cons p ps ih =>
    rw [pushAll, pushAll, List.foldl_cons, List.foldl_cons, pushFrom_eq (h p List.mem_cons_self)]
    exact ih fun q hq => h q (List.mem_cons_of_mem _ hq)

theorem deposit_congr {a : R} {es : List (Edge R)} (h : ∀ q, P q → as q = as' q) :
    ∀ q, P q → deposit a es as q = deposit a es as' q := by
  induction es generalizing as as' with
  | nil => exact h
  | cons e es ih =>
    simp only [deposit]
    cases e.target with
    | none => exact ih h
    | some r =>
      apply ih
      intro q hq
      by_cases hqr : q = r
      · rw [hqr, Function.update_self, Function.update_self, h r (hqr ▸ hq)]
      · rw [Function.update_of_ne hqr, Function.update_of_ne hqr, h q hq]

/-- What is pushed at the positions of `P` is a matter of the adjoints there. -/
theorem pushFrom_congr {p : Position} (hp : P p) (h : ∀ q, P q → as q = as' q) :
    ∀ q, P q → t.pushFrom p as q = t.pushFrom p as' q := by
  intro q hq
  unfold pushFrom
  rw [h p hp]
  split
  · exact h q hq
  · split
    · exact h q hq
    · by_cases hqp : q = p
      · rw [hqp, Function.update_self, Function.update_self]
      · rw [Function.update_of_ne hqp, Function.update_of_ne hqp]
        exact deposit_congr h q hq

end Congruence

variable {R : Type} [ExactScalar R] {base t : Tape R} {x p id m : Position} {ps qs : List Position}
  {as as' : Position → R}

section Discernible

theorem discernible_eq {t' : Tape R} (h : ∀ p ∈ ps, t.inputs p = t'.inputs p) :
    t.Discernible ps as ↔ t'.Discernible ps as := by
  induction ps generalizing as with
  | nil => rfl
  | cons p ps ih =>
    have hp := h p List.mem_cons_self
    rw [Discernible, Discernible, hp, pushFrom_eq hp, ih fun q hq => h q (List.mem_cons_of_mem _ hq)]

theorem Discernible.congr {P : Position → Prop} (hps : ∀ p ∈ ps, P p) (has : ∀ q, P q → as q = as' q)
    (h : t.Discernible ps as) : t.Discernible ps as' := by
  induction ps generalizing as as' with
  | nil => trivial
  | cons p ps ih =>
    have hp := hps p List.mem_cons_self
    refine ⟨?_, ih (fun q hq => hps q (List.mem_cons_of_mem _ hq)) (pushFrom_congr hp has) h.2⟩
    rw [← has p hp]
    exact h.1

theorem Discernible.left (h : t.Discernible (ps ++ qs) as) : t.Discernible ps as := by
  induction ps generalizing as with
  | nil => trivial
  | cons p ps ih => exact ⟨h.1, ih h.2⟩

end Discernible

section Restriction

theorem Keeps.pathSum_eq (h : Keeps base t) (hbase : base.Sound) (ht : t.Sound) (hp : (base.nodes.get? p).isSome) :
    t.pathSum x p = base.pathSum x p := by
  induction p using WellFoundedLT.induction with
  | ind p ih =>
    have hedges : ∀ e ∈ base.inputs p,
        e.weight * e.target.elim 0 (t.pathSum x) = e.weight * e.target.elim 0 (base.pathSum x) := by
      intro e he
      obtain ⟨q, hq, hlt, hon⟩ := hbase.target_of_mem he
      rw [hq, Option.elim_some, Option.elim_some, ih q hlt hon]
    rw [ht.pathSum_eq, hbase.pathSum_eq, h.inputs_eq p hp, List.map_congr_left hedges]

/-- Only the adjoints of the nodes of `base` matter, when no others have an influence. -/
theorem Keeps.influence_eq (h : Keeps base t) (hbase : base.Sound) (ht : t.Sound)
    (has : ∀ p, base.nodes.get? p = none → as p * t.pathSum x p = 0) : t.influence x as = base.influence x as := by
  have hsubset : base.stored ⊆ t.stored := fun p hp => ht.mem_stored.2 (h.kept p (hbase.mem_stored.1 hp))
  rw [influence, influence, total, total, ← Finset.sum_subset hsubset fun p _ hp => has p ?_]
  · exact Finset.sum_congr rfl fun p hp => by rw [h.pathSum_eq hbase ht (hbase.mem_stored.1 hp)]
  · rw [← Option.not_isSome_iff_eq_none]
    exact fun hon => hp (hbase.mem_stored.2 hon)

end Restriction

/-- `base` is what lies on `t` before `m`. -/
structure Splits (base t : Tape R) (m : Position) : Prop where
  sound_base : base.Sound
  sound : t.Sound
  keeps : Keeps base t
  before : ∀ p, (t.nodes.get? p).isSome → p < m → (base.nodes.get? p).isSome
  behind : ∀ p, (base.nodes.get? p).isSome → p < m

namespace Splits

variable (h : Splits base t m)

include h

omit [ExactScalar R] in
theorem not_on (hp : m ≤ p) : base.nodes.get? p = none := by
  rw [← Option.not_isSome_iff_eq_none]
  exact fun hon => absurd (h.behind p hon) (not_lt.2 hp)

theorem pathSum_of_leaf (hx : (base.nodes.get? x).isSome) (hp : m ≤ p) (hleaf : t.inputs p = []) : t.pathSum x p = 0 := by
  have hne : p ≠ x := by
    rintro rfl
    exact absurd (h.behind p hx) (not_lt.2 hp)
  rw [h.sound.pathSum_eq, if_neg hne, hleaf]
  simp

theorem pathSum_of_none (hx : (base.nodes.get? x).isSome) (hp : t.nodes.get? p = none) : t.pathSum x p = 0 := by
  have hne : p ≠ x := by
    rintro rfl
    have hon := h.keeps.kept p hx
    rw [hp] at hon
    contradiction
  rw [h.sound.pathSum_eq, if_neg hne, inputs_eq_nil hp]
  simp

/-- A walk back to `m` sees no adjoints before `m`. -/
theorem discernible_sweep (has : ∀ p, base.nodes.get? p = none → as p = 0) (hmid : m ≤ id)
    (hd : t.Discernible (t.visited .start id.next) (Function.update (fun _ => 0) id 1)) :
    t.Discernible (t.visited m id.next) (Function.update as id 1) := by
  have hnext : m ≤ id.next := hmid.trans (Position.lt_next_iff.2 (le_refl id)).le
  rw [h.sound.visited_append (Position.start_le m) hnext] at hd
  refine hd.left.congr (P := fun q => m ≤ q) (fun p hp => (h.sound.mem_visited.1 hp).1) fun q hq => ?_
  by_cases hqid : q = id
  · rw [hqid, Function.update_self, Function.update_self]
  · rw [Function.update_of_ne hqid, Function.update_of_ne hqid, has q (h.not_on hq)]

/-- What a sweep back to `m` leaves behind `m` has no influence. -/
theorem weightless_sweep (hx : (base.nodes.get? x).isSome) (has : ∀ p, base.nodes.get? p = none → as p = 0)
    (hd : t.Discernible (t.visited m id.next) (Function.update as id 1)) (hp : base.nodes.get? p = none) :
    t.pushAll (t.visited m id.next) (Function.update as id 1) p * t.pathSum x p = 0 := by
  cases hnode : t.nodes.get? p with
  | none => rw [h.pathSum_of_none hx hnode, mul_zero]
  | some node =>
    have hon : (t.nodes.get? p).isSome := by rw [hnode]; rfl
    have hmp : m ≤ p := not_lt.1 fun hlt => by
      have := h.before p hon hlt
      rw [hp] at this
      contradiction
    by_cases hinputs : t.inputs p = []
    · rw [h.pathSum_of_leaf hx hmp hinputs, mul_zero]
    · rcases lt_or_ge id p with hlt | hle
      · rw [h.sound.pushAll_of_lt, Function.update_of_ne hlt.ne', has p hp, zero_mul]
        intro q hq
        exact lt_of_le_of_lt (Position.lt_next_iff.1 (h.sound.mem_visited.1 hq).2.1) hlt
      · have hmem : p ∈ t.visited m id.next := h.sound.mem_visited.2 ⟨hmp, Position.lt_next_iff.2 hle, hon⟩
        rw [h.sound.pushAll_eq_zero (pairwise_visited ..) hd hmem hinputs, zero_mul]

/-- A sweep back to `m` adds the derivative of its seed to what lies before. -/
theorem influence_sweep (hx : (base.nodes.get? x).isSome) (hleaf : base.inputs x = [])
    (has : ∀ p, base.nodes.get? p = none → as p = 0) (hid : (t.nodes.get? id).isSome) (hmid : m ≤ id)
    (hd : t.Discernible (t.visited .start id.next) (Function.update (fun _ => 0) id 1)) :
    base.influence x (t.pushAll (t.visited m id.next) (Function.update as id 1)) =
      base.influence x as + t.pathSum x id := by
  have hleaf' : t.inputs x = [] := (h.keeps.inputs_eq x hx).trans hleaf
  have hzero : as id = 0 := has id (h.not_on hmid)
  have hbehind := fun p => h.weightless_sweep (p := p) hx has (h.discernible_sweep has hmid hd)
  have hbefore : ∀ p, base.nodes.get? p = none → as p * t.pathSum x p = 0 := by
    intro p hp
    rw [has p hp, zero_mul]
  calc base.influence x (t.pushAll (t.visited m id.next) (Function.update as id 1))
      = t.influence x (t.pushAll (t.visited m id.next) (Function.update as id 1)) :=
        (h.keeps.influence_eq h.sound_base h.sound hbehind).symm
    _ = t.influence x (Function.update as id 1) :=
        h.sound.influence_pushAll (fun _ => hleaf') fun p hp => (h.sound.mem_visited.1 hp).2.2
    _ = t.influence x as + (1 - as id) * t.pathSum x id := h.sound.influence_update hid 1
    _ = base.influence x as + t.pathSum x id := by
        rw [hzero, sub_zero, one_mul, h.keeps.influence_eq h.sound_base h.sound hbefore]

/-- A seed before `m` counts with its derivative. -/
theorem influence_seed (hid : (t.nodes.get? id).isSome) (hmid : id < m) :
    base.influence x (Function.update as id (as id + 1)) = base.influence x as + t.pathSum x id := by
  have hon := h.before id hid hmid
  rw [h.sound_base.influence_update hon, h.keeps.pathSum_eq h.sound_base h.sound hon, add_sub_cancel_left, one_mul]

/-- A sweep from `m` on takes the influence of what lies before to the leaves. -/
theorem pushAll_before (hx : (base.nodes.get? x).isSome) (hleaf : base.inputs x = [])
    (hd : t.Discernible (t.visited .start m) as) : t.pushAll (t.visited .start m) as x = base.influence x as := by
  have hvisited : t.visited .start m = base.visited .start m := by
    refine List.Pairwise.eq_of_mem_iff (pairwise_visited ..) (pairwise_visited ..) fun p => ?_
    rw [h.sound.mem_visited, h.sound_base.mem_visited]
    exact ⟨fun hp => ⟨hp.1, hp.2.1, h.before p hp.2.2 hp.2.1⟩, fun hp => ⟨hp.1, hp.2.1, h.keeps.kept p hp.2.2⟩⟩
  have hinputs : ∀ p ∈ base.visited .start m, t.inputs p = base.inputs p := fun p hp =>
    h.keeps.inputs_eq p (h.sound_base.mem_visited.1 hp).2.2
  rw [hvisited, discernible_eq hinputs] at hd
  have hinner : ∀ p, base.inputs p ≠ [] → base.pushAll (base.visited .start m) as p = 0 := by
    intro p hp
    have hon : (base.nodes.get? p).isSome := by
      rw [← Option.ne_none_iff_isSome]
      exact fun hnone => hp (inputs_eq_nil hnone)
    exact h.sound_base.pushAll_eq_zero (pairwise_visited ..) hd
      (h.sound_base.mem_visited.2 ⟨Position.start_le p, h.behind p hon, hon⟩) hp
  rw [hvisited, pushAll_eq hinputs, ← h.sound_base.influence_of_leaves hx fun p _ => hinner p]
  exact h.sound_base.influence_pushAll (fun _ => hleaf) fun p hp => (h.sound_base.mem_visited.1 hp).2.2

end Splits

section Continues

variable {k : Nat} {t' : Tape R}

/-- A tape that goes on from `base` behind its checkpoint. -/
structure Continues (k : Nat) (base t : Tape R) : Prop where
  returns : base.Returns t
  uniform : t.nodes.Uniform k
  keeps : base.Keeps t

omit [ExactScalar R] in
theorem Twins.continues (h : Twins k base base) : Continues k base base.setMark :=
  ⟨returns_setMark h.sound_left, ⟨h.nodes.uniform_left.blockSize_eq, h.nodes.uniform_left.capacity_eq⟩,
    fun _ hp => hp, fun _ _ => rfl⟩

namespace Continues

omit [ExactScalar R] in
theorem splits (h : Continues k base t) (hbase : base.Sound) : Splits base t t.nodes.mark where
  sound_base := hbase
  sound := h.returns.sound
  keeps := h.keeps
  before p hp hlt := by
    rw [← h.returns.get?_nodes, rewindToMark, Arena.get?_rewindToMark h.returns.sound.nodes_tidy h.returns.nodes.marked,
      if_pos hlt]
    exact hp
  behind p hp := by
    rw [h.returns.nodes.mark_eq]
    exact hbase.nodes_tidy.lt_stop hp

omit [ExactScalar R] in
theorem sameRecord (h : Continues k base t) (hs : SameRecord t t') : Continues k base t' := by
  refine ⟨h.returns.sameRecord hs, hs.nodes_eq ▸ h.uniform, h.keeps.trans ⟨fun p hp => ?_, fun p _ => ?_⟩⟩
  · rw [hs.nodes_eq]
    exact hp
  · rw [hs.inputs_eq]

omit [ExactScalar R] in
theorem keeps_rewindToMark (h : Continues k base t) (hbase : base.Sound) : base.Keeps t.rewindToMark := by
  refine ⟨fun p hp => ?_, fun _ _ => h.returns.inputs_eq hbase⟩
  rw [h.returns.get?_nodes]
  exact hp

/-- What is recorded behind the checkpoint has no adjoints yet. -/
theorem column_eq (h : Continues k base t) (hbase : base.Sound) (hcount : base.adjointCount = 1)
    (hgrows : t.rewindToMark.Grows t') :
    (∀ p, base.nodes.get? p = none → t'.column 0 p = 0) ∧ base.influence x (t'.column 0) = base.influence x (t.column 0) := by
  have hk : 0 < base.adjointCount := hcount ▸ Nat.one_pos
  have hk' : 0 < t.rewindToMark.adjointCount := by
    have heq : t.rewindToMark.adjointCount = base.adjointCount := h.returns.count_eq
    omega
  have hcolumn := hgrows.built.column_eq (h.returns.sound_rewindToMark hbase) hk'
  refine ⟨fun p hp => ?_, ?_⟩
  · have hnone : t.rewindToMark.nodes.get? p = none := by rw [h.returns.get?_nodes, hp]
    rw [hcolumn, column_of_none hnone, scalar_zero]
  · rw [influence, influence, total, total]
    refine Finset.sum_congr rfl fun p hp => ?_
    rw [hcolumn, h.returns.column_rewindToMark hbase (hbase.mem_stored.1 hp) hk]

end Continues

end Continues

theorem BuiltFrom.of_empty (h : BuiltFrom .empty t) : t.Sound ∧ 0 < t.adjointCount ∧ t.column 0 = fun _ => 0 := by
  have hcount : t.adjointCount = 1 := h.adjointCount_eq
  exact ⟨h.sound (sound_withBlockSize _ _), hcount ▸ Nat.one_pos, h.column_eq_zero⟩

/-- What a sweep from a seed of one reads, on a tape whose adjoints are zero. -/
theorem Sound.discernible_seed (ht : t.Sound) (hcount : 0 < t.adjointCount) (hzero : t.column 0 = fun _ => 0)
    (hid : (t.nodes.get? id).isSome)
    (hp : ∀ seeded, t.setAdjoint id 1 = .ok seeded →
      seeded.Propagates ((seeded.nodes.range .start id.next).reverse.map (·.2))) :
    t.Discernible (t.visited .start id.next) (Function.update (fun _ => 0) id 1) := by
  obtain ⟨seeded, hseed, hchanges⟩ := ht.setAdjoint_ok hid hcount 1
  have hsame := hchanges.same
  have hd := (hsame.sound ht).discernible_of_propagates (hp seeded hseed) (hsame.count_eq ▸ hcount)
  rw [hsame.discernible_iff, hchanges.column_eq 0 hcount, if_pos rfl, hzero, visited, hsame.nodes_eq] at hd
  exact hd

/-- What a sweep from a seed of one back to `m` leaves, on a tape whose adjoints are zero. -/
theorem Sound.sweep_seed (ht : t.Sound) (hcount : 0 < t.adjointCount) (hzero : t.column 0 = fun _ => 0)
    (hid : (t.nodes.get? id).isSome) (m : Position) :
    ∃ seeded swept, t.setAdjoint id 1 = .ok seeded ∧ seeded.Sound ∧ seeded.nodes = t.nodes ∧
      seeded.sweepRange m id.next = .ok swept ∧ SameRecord t swept ∧
      swept.column 0 = t.pushAll (t.visited m id.next) (Function.update (fun _ => 0) id 1) := by
  obtain ⟨seeded, hseed, hchanges⟩ := ht.setAdjoint_ok hid hcount 1
  have hsame := hchanges.same
  obtain ⟨swept, hsweep, hsweeps⟩ := (hsame.sound ht).sweepRange_ok m id.next
  refine ⟨seeded, swept, hseed, hsame.sound ht, hsame.nodes_eq, hsweep, hsame.trans hsweeps.same, ?_⟩
  rw [hsweeps.column_eq 0 (hsame.count_eq ▸ hcount), hsame.pushAll_eq, hchanges.column_eq 0 hcount, if_pos rfl, hzero,
    visited, hsame.nodes_eq]
  rfl

end Tape

namespace Number

variable {R : Type} [ExactScalar R] {t : Tape R} {payoff : Number R} {xs : List (Number R)}

/-- The derivative of a payoff by a number; constants have none. -/
def slope (t : Tape R) (x payoff : Number R) : R := x.node.elim 0 fun p => payoff.node.elim 0 (t.pathSum p)

/-- The number is an input of the tape. -/
def Enters (t : Tape R) (x : Number R) : Prop := ∃ p, x.node = some p ∧ (t.nodes.get? p).isSome ∧ t.inputs p = []

omit [ExactScalar R] in
theorem Enters.keeps {t' : Tape R} {x : Number R} (h : x.Enters t) (ht : t.Keeps t') : x.Enters t' := by
  obtain ⟨p, hx, hon, hleaf⟩ := h
  exact ⟨p, hx, ht.kept p hon, (ht.inputs_eq p hon).trans hleaf⟩

omit [ExactScalar R] in
theorem Enters.onTape {x : Number R} (h : x.Enters t) : x.OnTape t := by
  obtain ⟨p, hx, hon, -⟩ := h
  intro id hid
  obtain rfl := Option.some.inj (hx.symm.trans hid)
  exact hon

/-- A sweep from the payoff to the first node leaves the derivatives at the inputs. -/
theorem adjoints_propagateToStart (ht : t.Sound) (hcount : 0 < t.adjointCount) (hzero : t.column 0 = fun _ => 0)
    (hpayoff : payoff.OnTape t) (hxs : ∀ x ∈ xs, x.Enters t)
    (hd : ∀ id, payoff.node = some id →
      t.Discernible (t.visited .start id.next) (Function.update (fun _ => 0) id 1)) :
    (payoff.propagateToStart t >>= fun t => xs.mapM (·.adjoint t)) = .ok (xs.map fun x => slope t x payoff) := by
  cases hnode : payoff.node with
  | none =>
    have hread := mapM_adjoint_eq ht hcount fun x hx => (hxs x hx).onTape
    have hvalues : xs.map (·.adjointOn t) = xs.map fun x => slope t x payoff := by
      apply List.map_congr_left
      intro x _
      rw [adjointOn, slope, hzero, hnode, scalar_zero]
      rfl
    rw [← hvalues, ← hread, propagateToStart, hnode]
    rfl
  | some id =>
    have hid := hpayoff id hnode
    obtain ⟨t₁, t₂, hseed, hsound, hnodes, hsweep, hsame, hcolumn⟩ := ht.sweep_seed hcount hzero hid .start
    obtain ⟨-, -, hleaves⟩ := ht.pushAll_seed hid 1 (hd id hnode)
    have hon : ∀ x ∈ xs, x.OnTape t₂ := by
      intro x hx p hp
      rw [hsame.nodes_eq]
      exact (hxs x hx).onTape p hp
    have hread := mapM_adjoint_eq (hsame.sound ht) (hsame.count_eq ▸ hcount) hon
    have hvalues : xs.map (·.adjointOn t₂) = xs.map fun x => slope t x payoff := by
      apply List.map_congr_left
      intro x hx
      obtain ⟨p, hp, hon, hleaf⟩ := hxs x hx
      rw [adjointOn, slope, hp, hnode, Option.elim_some, Option.elim_some, Option.elim_some, hcolumn,
        hleaves p hon (fun _ => hleaf) fun q _ => Position.start_le q, one_mul]
    have hpropagate : payoff.propagateToStart t = .ok t₂ := by
      rw [propagateToStart, hnode]
      simp only [scalar_one, hseed]
      exact (hsound.propagateToStart_eq (hnodes ▸ hid)).trans hsweep
    rw [hpropagate, ← hvalues, ← hread]
    rfl

end Number

end PayoffPricing
