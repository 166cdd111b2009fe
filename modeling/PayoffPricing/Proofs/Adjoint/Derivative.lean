import Mathlib.Algebra.BigOperators.Ring.Finset
import PayoffPricing.Proofs.Adjoint.Sweep
import PayoffPricing.Proofs.Except
import PayoffPricing.Proofs.Exact
/-!
Sweeps compute derivatives. The derivative of a node by a leaf is the sum, over all paths of edges
between them, of the products of the weights along the path. A sweep conserves the sum of all adjoints,
each one weighted with the derivative of its node by a fixed leaf.
-/

namespace PayoffPricing

instance : WellFoundedRelation Position := ⟨(· < ·), wellFounded_lt⟩

namespace Tape

section Paths

variable {R : Type}

/-- A node without inputs. -/
def IsLeaf (t : Tape R) (p : Position) : Prop := t.edges? p = some []

theorem Sound.isLeaf_iff {t : Tape R} (ht : t.Sound) {p : Position} :
    t.IsLeaf p ↔ (t.nodes.get? p).isSome ∧ t.inputs p = [] := by
  cases hp : t.nodes.get? p with
  | none => simp [IsLeaf, edges?, node?, hp]
  | some node =>
    obtain ⟨es, hes, -⟩ := ht.edges_stored p node hp
    simp [IsLeaf, inputs, edges?_eq hp, hes]

/-- All paths of edges from a node to `x`. -/
def paths (t : Tape R) (x n : Position) : List (List (Edge R)) :=
  (if n = x then [[]] else []) ++ (t.inputs n).flatMap fun e =>
    match e.target with
    | none => []
    | some q => if q < n then (paths t x q).map (e :: ·) else []
termination_by n

variable [ExactScalar R]

/-- The sum over all paths to `x` of the products of the weights. -/
def pathSum (t : Tape R) (x n : Position) : R :=
  ((t.paths x n).map fun path => (path.map Edge.weight).prod).sum

/-- The derivative of a node along `x`, from the derivatives of its inputs. -/
def tangent (t : Tape R) (x n : Position) : R :=
  if n = x then 1
  else ((t.inputs n).map fun e =>
    match e.target with
    | none => 0
    | some q => if q < n then e.weight * tangent t x q else 0).sum
termination_by n

variable {t : Tape R} {x n : Position}

theorem Sound.pathSum_eq (ht : t.Sound) : t.pathSum x n =
    (if n = x then 1 else 0) +
      ((t.inputs n).map fun e => e.weight * e.target.elim 0 (t.pathSum x)).sum := by
  have hedges : ∀ es : List (Edge R), (∀ e ∈ es, ∃ q, e.target = some q ∧ q < n) →
      ((es.flatMap fun e => match e.target with
        | none => []
        | some q => if q < n then (t.paths x q).map (e :: ·) else []).map
          fun path => (path.map Edge.weight).prod).sum =
        (es.map fun e => e.weight * e.target.elim 0 (t.pathSum x)).sum := by
    intro es hes
    induction es with
    | nil => rfl
    | cons e es ih =>
      obtain ⟨q, hq, hlt⟩ := hes e List.mem_cons_self
      rw [List.flatMap_cons, List.map_append, List.sum_append, List.map_cons, List.sum_cons,
        ih fun d hd => hes d (List.mem_cons_of_mem _ hd)]
      congr 1
      simp only [hq, if_pos hlt, Option.elim_some, List.map_map, pathSum]
      rw [← List.sum_map_mul_left]
      congr 1
  rw [pathSum, paths, List.map_append, List.sum_append, hedges _ fun e he => by
    obtain ⟨q, hq, hlt, -⟩ := ht.target_of_mem he
    exact ⟨q, hq, hlt⟩]
  congr 1
  split <;> simp

/-- No path leads to a later node. -/
theorem Sound.pathSum_of_lt (ht : t.Sound) : n < x → t.pathSum x n = 0 := by
  induction n using WellFoundedLT.induction with
  | ind n ih =>
    intro hn
    have hzero : ∀ e ∈ t.inputs n, e.weight * e.target.elim 0 (t.pathSum x) = 0 := by
      intro e he
      obtain ⟨q, hq, hlt, -⟩ := ht.target_of_mem he
      rw [hq, Option.elim_some, ih q hlt (hlt.trans hn), mul_zero]
    rw [ht.pathSum_eq, if_neg hn.ne, List.map_congr_left hzero]
    simp

theorem Sound.pathSum_self (ht : t.Sound) : t.pathSum x x = 1 := by
  have hzero : ∀ e ∈ t.inputs x, e.weight * e.target.elim 0 (t.pathSum x) = 0 := by
    intro e he
    obtain ⟨q, hq, hlt, -⟩ := ht.target_of_mem he
    rw [hq, Option.elim_some, ht.pathSum_of_lt hlt, mul_zero]
  rw [ht.pathSum_eq, if_pos rfl, List.map_congr_left hzero]
  simp

/-- Summing over paths is differentiating forward. -/
theorem Sound.pathSum_eq_tangent (ht : t.Sound) : t.pathSum x n = t.tangent x n := by
  induction n using WellFoundedLT.induction with
  | ind n ih =>
    rw [tangent]
    by_cases hn : n = x
    · rw [if_pos hn, hn, ht.pathSum_self]
    · rw [ht.pathSum_eq, if_neg hn, if_neg hn, zero_add]
      congr 1
      refine List.map_congr_left fun e he => ?_
      obtain ⟨q, hq, hlt, -⟩ := ht.target_of_mem he
      simp only [hq, Option.elim_some, if_pos hlt, ih q hlt]

end Paths

section Conservation

variable {R : Type} [ExactScalar R] {t : Tape R} {x p : Position} {as : Position → R}

/-- The sum of the adjoints at the positions of `s`, each one with its factor. -/
def total (s : Finset Position) (factor as : Position → R) : R := ∑ p ∈ s, as p * factor p

theorem total_update {s : Finset Position} (hp : p ∈ s) (factor : Position → R) (v : R) :
    total s factor (Function.update as p v) = total s factor as + (v - as p) * factor p := by
  have h : ∀ q ∈ s, Function.update as p v q * factor q =
      as q * factor q + if q = p then (v - as p) * factor p else 0 := by
    intro q _
    by_cases hq : q = p
    · subst hq
      rw [Function.update_self, if_pos rfl]
      ring
    · rw [Function.update_of_ne hq, if_neg hq, add_zero]
  rw [total, Finset.sum_congr rfl h, Finset.sum_add_distrib, Finset.sum_ite_eq' s p, if_pos hp]
  rfl

theorem total_deposit {s : Finset Position} (factor : Position → R) (a : R) (es : List (Edge R))
    (hes : ∀ e ∈ es, ∃ q, e.target = some q ∧ q ∈ s) :
    total s factor (deposit a es as) =
      total s factor as + a * (es.map fun e => e.weight * e.target.elim 0 factor).sum := by
  induction es generalizing as with
  | nil => simp [deposit]
  | cons e es ih =>
    obtain ⟨q, hq, hmem⟩ := hes e List.mem_cons_self
    simp only [deposit, hq, List.map_cons, List.sum_cons, Option.elim_some]
    rw [ih fun d hd => hes d (List.mem_cons_of_mem _ hd), total_update hmem]
    ring

theorem deposit_of_ne {a : R} {es : List (Edge R)} (hes : ∀ e ∈ es, e.target ≠ some p) :
    deposit a es as p = as p := by
  induction es generalizing as with
  | nil => rfl
  | cons e es ih =>
    have hrest : ∀ d ∈ es, d.target ≠ some p := fun d hd => hes d (List.mem_cons_of_mem _ hd)
    cases hq : e.target with
    | none => simp only [deposit, hq, ih hrest]
    | some q =>
      have hne : p ≠ q := by
        rintro rfl
        exact hes e List.mem_cons_self hq
      simp only [deposit, hq, ih hrest, Function.update_of_ne hne]

/-- A node leaves what comes after it alone, and its own adjoint if it is a leaf. -/
theorem Sound.pushFrom_of_lt (ht : t.Sound) {q : Position} (hq : p < q) :
    t.pushFrom p as q = as q := by
  unfold pushFrom
  split
  · rfl
  · split
    · rfl
    · rw [Function.update_of_ne hq.ne']
      refine deposit_of_ne fun e he heq => ?_
      obtain ⟨r, hr, hlt, -⟩ := ht.target_of_mem he
      obtain rfl : r = q := Option.some.inj (hr.symm.trans heq)
      exact lt_asymm hlt hq

theorem Sound.pushAll_of_lt (ht : t.Sound) {q : Position} {ps : List Position}
    (h : ∀ p ∈ ps, p < q) : t.pushAll ps as q = as q := by
  induction ps generalizing as with
  | nil => rfl
  | cons p ps ih =>
    rw [pushAll, List.foldl_cons]
    refine (ih fun r hr => h r (List.mem_cons_of_mem _ hr)).trans ?_
    exact ht.pushFrom_of_lt (h p List.mem_cons_self)

/-- Every adjoint that a walk of the nodes pushes is zero or large enough to be propagated. -/
def Discernible (t : Tape R) : List Position → (Position → R) → Prop
  | [], _ => True
  | p :: ps, as =>
    (t.inputs p ≠ [] → as p = 0 ∨ negligible < Scalar.abs (as p)) ∧ t.Discernible ps (t.pushFrom p as)

/-- Pushing the adjoint of a node conserves the total, when factors are as derivatives are. -/
theorem Sound.total_pushFrom (ht : t.Sound) {s : Finset Position} (hs : ∀ q, (t.nodes.get? q).isSome → q ∈ s)
    {factor : Position → R} (hp : p ∈ s)
    (hfactor : t.inputs p ≠ [] →
      factor p = ((t.inputs p).map fun e => e.weight * e.target.elim 0 factor).sum) :
    total s factor (t.pushFrom p as) = total s factor as := by
  unfold pushFrom
  split
  · rfl
  · next hinputs =>
    split
    · rfl
    · have hself : deposit (as p) (t.inputs p) as p = as p := deposit_of_ne fun e he heq => by
        obtain ⟨r, hr, hlt, -⟩ := ht.target_of_mem he
        exact lt_irrefl _ (Option.some.inj (hr.symm.trans heq) ▸ hlt)
      rw [total_update hp, hself, total_deposit factor _ _ fun e he => by
        obtain ⟨q, hq, -, hon⟩ := ht.target_of_mem he
        exact ⟨q, hq, hs q hon⟩, ← hfactor hinputs, ExactScalar.literal_eq]
      ring

theorem Sound.total_pushAll (ht : t.Sound) {s : Finset Position} (hs : ∀ q, (t.nodes.get? q).isSome → q ∈ s)
    {factor : Position → R} {ps : List Position} (hps : ∀ p ∈ ps, p ∈ s)
    (hfactor : ∀ p ∈ ps, t.inputs p ≠ [] →
      factor p = ((t.inputs p).map fun e => e.weight * e.target.elim 0 factor).sum) :
    total s factor (t.pushAll ps as) = total s factor as := by
  induction ps generalizing as with
  | nil => rfl
  | cons p ps ih =>
    rw [pushAll, List.foldl_cons]
    refine (ih (fun q hq => hps q (List.mem_cons_of_mem _ hq)) fun q hq =>
      hfactor q (List.mem_cons_of_mem _ hq)).trans ?_
    exact ht.total_pushFrom hs (hps p List.mem_cons_self) (hfactor p List.mem_cons_self)

theorem pushFrom_self (hp : t.inputs p ≠ [])
    (hd : as p = 0 ∨ negligible < Scalar.abs (as p)) : t.pushFrom p as p = 0 := by
  rw [pushFrom, if_neg hp]
  split
  · next hle => exact hd.resolve_right (not_lt.2 hle)
  · rw [Function.update_self, scalar_zero]

/-- After a walk backward all nodes on the way that are not leaves have pushed their adjoint on. -/
theorem Sound.pushAll_eq_zero (ht : t.Sound) {ps : List Position} (hsorted : ps.Pairwise (· > ·))
    (hd : t.Discernible ps as) (hmem : p ∈ ps) (hp : t.inputs p ≠ []) : t.pushAll ps as p = 0 := by
  induction ps generalizing as with
  | nil => cases hmem
  | cons q ps ih =>
    obtain ⟨hlt, hsorted⟩ := List.pairwise_cons.1 hsorted
    rcases List.mem_cons.1 hmem with rfl | hmem
    · rw [pushAll, List.foldl_cons]
      exact (ht.pushAll_of_lt hlt).trans (pushFrom_self hp (hd.1 hp))
    · exact ih hsorted hd.2 hmem

/-- The positions of all nodes. -/
def stored (t : Tape R) : Finset Position := (t.visited .start t.nodes.stop).toFinset

omit [ExactScalar R] in
theorem Sound.mem_stored (ht : t.Sound) : p ∈ t.stored ↔ (t.nodes.get? p).isSome := by
  rw [stored, List.mem_toFinset, ht.mem_visited]
  exact ⟨fun h => h.2.2, fun h => ⟨Position.start_le p, ht.nodes_tidy.lt_stop h, h⟩⟩

/-- All adjoints, each one weighted with the derivative of its node along `x`. -/
def influence (t : Tape R) (x : Position) (as : Position → R) : R := total t.stored (t.pathSum x) as

theorem Sound.influence_pushAll (ht : t.Sound) {ps : List Position} (hx : x ∈ ps → t.inputs x = [])
    (hps : ∀ p ∈ ps, (t.nodes.get? p).isSome) :
    t.influence x (t.pushAll ps as) = t.influence x as := by
  refine ht.total_pushAll (fun q hq => ht.mem_stored.2 hq) (fun p hp => ht.mem_stored.2 (hps p hp))
    fun p hp hinputs => ?_
  rw [ht.pathSum_eq, if_neg, zero_add]
  rintro rfl
  exact hinputs (hx hp)

/-- Where only leaves have adjoints behind a node, the weighted sum is the adjoint of the node. -/
theorem Sound.influence_of_leaves (ht : t.Sound) (hx : (t.nodes.get? x).isSome)
    (has : ∀ p, x < p → t.inputs p ≠ [] → as p = 0) : t.influence x as = as x := by
  rw [influence, total, Finset.sum_eq_single x]
  · rw [ht.pathSum_self, mul_one]
  · intro p _ hpx
    rcases lt_or_gt_of_ne hpx with hlt | hlt
    · rw [ht.pathSum_of_lt hlt, mul_zero]
    · by_cases hp : t.inputs p = []
      · rw [ht.pathSum_eq, if_neg hpx, hp]
        simp
      · rw [has p hlt hp, zero_mul]
  · exact fun h => absurd (ht.mem_stored.2 hx) h

theorem Sound.influence_update (ht : t.Sound) (hp : (t.nodes.get? p).isSome) (v : R) :
    t.influence x (Function.update as p v) = t.influence x as + (v - as p) * t.pathSum x p :=
  total_update (ht.mem_stored.2 hp) _ v

end Conservation

section Sweep

variable {R : Type} [ExactScalar R] {t : Tape R} {k : Nat}

/-- Every adjoint that the sweep of the nodes reads is zero or large enough to be propagated. -/
def Propagates (t : Tape R) : List Node → Prop
  | [] => True
  | node :: rest =>
    (node.edgeCount ≠ 0 → ∀ k < t.adjointCount, ∀ a, t.adjoints.get? (node.adjoints.shift k) = some a →
      a = 0 ∨ negligible < Scalar.abs a) ∧
    ∀ t', t.sweep [node] = .ok t' → Propagates t' rest

instance decidablePropagates : (t : Tape R) → (nodes : List Node) → Decidable (t.Propagates nodes)
  | _, [] => .isTrue trivial
  | t, node :: rest =>
    have (t' : Tape R) : Decidable (t'.Propagates rest) := decidablePropagates t' rest
    inferInstanceAs (Decidable ((node.edgeCount ≠ 0 → ∀ k < t.adjointCount, ∀ a,
      t.adjoints.get? (node.adjoints.shift k) = some a → a = 0 ∨ negligible < Scalar.abs a) ∧
      ∀ t', t.sweep [node] = .ok t' → Propagates t' rest))

theorem SameRecord.discernible_iff {t' : Tape R} (h : SameRecord t t') {ps : List Position}
    {as : Position → R} : t'.Discernible ps as ↔ t.Discernible ps as := by
  induction ps generalizing as with
  | nil => rfl
  | cons p ps ih =>
    have hpush : t'.pushFrom p as = t.pushFrom p as := by simp only [pushFrom, h.inputs_eq]
    simp only [Discernible, h.inputs_eq, hpush, ih]

theorem Sound.propagates_iff (ht : t.Sound) (entries : List (Position × Node))
    (h : ∀ x ∈ entries, t.nodes.get? x.1 = some x.2) :
    t.Propagates (entries.map (·.2)) ↔
      ∀ k < t.adjointCount, t.Discernible (entries.map (·.1)) (t.column k) := by
  induction entries generalizing t with
  | nil => simp [Propagates, Discernible]
  | cons x entries ih =>
    have hx : t.nodes.get? x.1 = some x.2 := h x List.mem_cons_self
    have hrest : ∀ y ∈ entries, t.nodes.get? y.1 = some y.2 := fun y hy => h y (List.mem_cons_of_mem _ hy)
    obtain ⟨t', hok, hsweeps⟩ := ht.sweep_ok [x] (by simpa using hx)
    have hok : t.sweep [x.2] = .ok t' := hok
    have hread : ∀ k < t.adjointCount,
        t.adjoints.get? (x.2.adjoints.shift k) = some (t.column k x.1) := fun k hk => by
      rw [← ht.adjoint?_eq hx hk, ht.adjoint?_eq_column (by simp [hx]) hk]
    have hnext := ih (hsweeps.same.sound ht) fun y hy => hsweeps.same.nodes_eq ▸ hrest y hy
    simp only [List.map_cons, Propagates, Discernible, hok, Except.ok.injEq, forall_eq', hnext,
      hsweeps.same.count_eq, hsweeps.same.discernible_iff, ne_eq, ht.inputs_eq_nil_iff hx]
    constructor
    · rintro ⟨hfirst, hlater⟩ k hk
      refine ⟨fun hedges => hfirst hedges k hk _ (hread k hk), ?_⟩
      have := hlater k hk
      rwa [hsweeps.column_eq k hk] at this
    · intro hall
      refine ⟨fun hedges k hk a ha => ?_, fun k hk => ?_⟩
      · obtain rfl := Option.some.inj ((hread k hk).symm.trans ha)
        exact (hall k hk).1 hedges
      · rw [hsweeps.column_eq k hk]
        exact (hall k hk).2

theorem Sound.discernible_of_propagates (ht : t.Sound) {first last : Position}
    (h : t.Propagates ((t.nodes.range first last).reverse.map (·.2))) (hk : k < t.adjointCount) :
    t.Discernible (t.visited first last) (t.column k) := by
  have hentries : ∀ x ∈ (t.nodes.range first last).reverse, t.nodes.get? x.1 = some x.2 := fun x hx =>
    ((Arena.mem_range ht.nodes_tidy).1 (List.mem_reverse.1 hx)).2.2
  have := (ht.propagates_iff _ hentries).1 h k hk
  rwa [List.map_reverse] at this

/-- Adjoints are zero until one is set. -/
theorem BuiltFrom.column_eq_zero {blockSize : Nat} {h : 0 < blockSize}
    (ht : BuiltFrom (withBlockSize blockSize h) t) : t.column 0 = fun _ => 0 := by
  rw [ht.column_eq (sound_withBlockSize blockSize h) Nat.one_pos]
  funext p
  rw [column_of_none (get?_nodes_withBlockSize blockSize h p), scalar_zero]

/-- From a seed at `n` alone, a walk back to `m` leaves zero behind `n` and at the nodes on the way that are not leaves,
and the derivative of `n` at the leaves, and at the node before `m`. -/
theorem Sound.pushAll_seed (ht : t.Sound) {m n : Position} (hn : (t.nodes.get? n).isSome) (s : R)
    (hd : t.Discernible (t.visited m n.next) (Function.update (fun _ => 0) n s)) :
    let as := t.pushAll (t.visited m n.next) (Function.update (fun _ => 0) n s)
    (∀ p, n < p → as p = 0) ∧ (∀ p, m ≤ p → t.inputs p ≠ [] → as p = 0) ∧
      ∀ x, (t.nodes.get? x).isSome → (m ≤ x → t.inputs x = []) → (∀ p, x < p → m ≤ p) →
        as x = s * t.pathSum x n := by
  intro as
  have hlater : ∀ p, n < p → as p = 0 := by
    intro p hnp
    refine (ht.pushAll_of_lt fun q hq => ?_).trans (Function.update_of_ne hnp.ne' ..)
    exact lt_of_le_of_lt (Position.lt_next_iff.1 (ht.mem_visited.1 hq).2.1) hnp
  have hinner : ∀ p, m ≤ p → t.inputs p ≠ [] → as p = 0 := by
    intro p hmp hinputs
    rcases lt_or_ge n p with hnp | hpn
    · exact hlater p hnp
    · have hp : (t.nodes.get? p).isSome := by
        rw [← Option.ne_none_iff_isSome]
        exact fun hnone => hinputs (inputs_eq_nil hnone)
      exact ht.pushAll_eq_zero (pairwise_visited ..) hd
        (ht.mem_visited.2 ⟨hmp, Position.lt_next_iff.2 hpn, hp⟩) hinputs
  refine ⟨hlater, hinner, fun x hx hleaf hbehind => ?_⟩
  have hzero : t.influence x (fun _ => 0) = 0 := by simp [influence, total]
  rw [← ht.influence_of_leaves hx fun p hxp => hinner p (hbehind p hxp),
    ht.influence_pushAll (fun hmem => hleaf (ht.mem_visited.1 hmem).1) fun p hp => (ht.mem_visited.1 hp).2.2,
    ht.influence_update hn, hzero]
  ring

/-- A sweep from a node back to the first one computes its derivatives: on a tape that was recorded in
blocks of any size, every leaf gets the seed times the sum over all paths, which is the derivative of
the node along the leaf; all other nodes on the way end at zero, and later ones keep their adjoints. -/
theorem propagateToStart_eq_derivative {blockSize : Nat} {h : 0 < blockSize}
    (ht : BuiltFrom (withBlockSize blockSize h) t) {n : Position} (hn : t.contains n = true) (s : R)
    (hp : ∀ t', t.setAdjoint n s = .ok t' →
      t'.Propagates ((t'.nodes.range .start n.next).reverse.map (·.2))) :
    ∃ t', (do (← t.setAdjoint n s).propagateToStart n) = .ok t' ∧ SameRecord t t' ∧
      (∀ x, t.IsLeaf x → t'.adjoint? x 0 = some (s * t.pathSum x n) ∧ t.pathSum x n = t.tangent x n) ∧
      (∀ p, t.contains p = true → ¬ t.IsLeaf p → p ≤ n → t'.adjoint? p 0 = some 0) ∧
      ∀ p, n < p → t'.adjoint? p 0 = t.adjoint? p 0 := by
  have hsound : t.Sound := ht.sound (sound_withBlockSize blockSize h)
  have hcount : 0 < t.adjointCount := by
    rw [ht.adjointCount_eq]
    exact Nat.one_pos
  have hzero : t.column 0 = fun _ => 0 := ht.column_eq_zero
  have hon : (t.nodes.get? n).isSome := hsound.nodes_tidy.contains_iff.1 hn
  obtain ⟨t₁, hseed, hchanges⟩ := hsound.setAdjoint_ok hon hcount s
  have hsame₁ : SameRecord t t₁ := hchanges.same
  have hsound₁ : t₁.Sound := hsame₁.sound hsound
  have hcount₁ : 0 < t₁.adjointCount := hsame₁.count_eq ▸ hcount
  have hcolumn₁ : t₁.column 0 = Function.update (fun _ => 0) n s := by
    rw [hchanges.column_eq 0 hcount, if_pos rfl, hzero]
  obtain ⟨t₂, hsweep, hsweeps⟩ := hsound₁.propagateToStart_ok (hsame₁.nodes_eq ▸ hon)
  have hvisited : t₁.visited .start n.next = t.visited .start n.next := by
    rw [visited, hsame₁.nodes_eq, visited]
  have hd := hsound₁.discernible_of_propagates (hp t₁ hseed) hcount₁
  rw [hsame₁.discernible_iff, hvisited, hcolumn₁] at hd
  have hcolumn₂ := hsweeps.column_eq 0 hcount₁
  rw [hsame₁.pushAll_eq, hvisited, hcolumn₁] at hcolumn₂
  obtain ⟨hlater, hinner, hleaves⟩ := hsound.pushAll_seed hon s hd
  have hsame₂ : SameRecord t t₂ := hsame₁.trans hsweeps.same
  have hread : ∀ p, (t.nodes.get? p).isSome → t₂.adjoint? p 0 = some (t₂.column 0 p) := fun p hp =>
    (hsame₂.sound hsound).adjoint?_eq_column (hsame₂.nodes_eq ▸ hp) (hsame₂.count_eq ▸ hcount)
  refine ⟨t₂, ?_, hsame₂, ?_, ?_, ?_⟩
  · rw [hseed]
    exact hsweep
  · intro x hx
    obtain ⟨hxon, hinputs⟩ := hsound.isLeaf_iff.1 hx
    rw [hread x hxon, hcolumn₂, hleaves x hxon (fun _ => hinputs) fun p _ => Position.start_le p]
    exact ⟨rfl, hsound.pathSum_eq_tangent⟩
  · intro p hp hnleaf _
    have hpon := hsound.nodes_tidy.contains_iff.1 hp
    rw [hread p hpon, hcolumn₂,
      hinner p (Position.start_le p) fun hinputs => hnleaf (hsound.isLeaf_iff.2 ⟨hpon, hinputs⟩)]
  · intro p hnp
    cases hp : t.nodes.get? p with
    | none => simp [adjoint?, adjointPlace?, node?, hsame₂.nodes_eq, hp]
    | some node =>
      have hpon : (t.nodes.get? p).isSome := by simp [hp]
      rw [hread p hpon, hcolumn₂, hlater p hnp, hsound.adjoint?_eq_column hpon hcount, hzero]

theorem negligible_lt_one : (negligible : R) < 1 := by
  have h : (negligible : R) = (1 : ℕ) * 10 ^ (-(300 : ℤ)) := ExactScalar.ofDecimal_eq 1 (-300)
  rw [h, Nat.cast_one, one_mul, zpow_neg]
  exact inv_lt_one_of_one_lt₀ (one_lt_zpow₀ (by norm_num) (by norm_num))

/-- A leaf `x`, the node `3 * x + 4 * x` and a node that depends on both, in blocks of one node. -/
noncomputable def ladder : Tape ℝ :=
  (((withBlockSize 1 Nat.one_pos).recordLeaf.2.record
    [⟨3, some ⟨0, 0⟩⟩, ⟨4, some ⟨0, 0⟩⟩]).2.record
    [⟨2, some ⟨1, 0⟩⟩, ⟨5, some ⟨0, 0⟩⟩, ⟨1, some ⟨1, 0⟩⟩]).2

theorem builtFrom_ladder : BuiltFrom (withBlockSize 1 Nat.one_pos) ladder := by
  refine .edges (.edges (.leaf .start) _ ?_) _ ?_
  · intro e he q hq
    simp only [List.mem_cons, List.not_mem_nil, or_false] at he
    rcases he with rfl | rfl <;> cases hq <;> rfl
  · intro e he q hq
    simp only [List.mem_cons, List.not_mem_nil, or_false] at he
    rcases he with rfl | rfl | rfl <;> cases hq <;> rfl

theorem discernible_ladder : ladder.Discernible (ladder.visited .start (Position.next ⟨2, 0⟩))
    (Function.update (fun _ => 0) ⟨2, 0⟩ 1) := by
  have h₂ : ladder.inputs ⟨2, 0⟩ =
      [⟨2, some ⟨1, 0⟩⟩, ⟨5, some ⟨0, 0⟩⟩, ⟨1, some ⟨1, 0⟩⟩] := rfl
  have h₁ : ladder.inputs ⟨1, 0⟩ = [⟨3, some ⟨0, 0⟩⟩, ⟨4, some ⟨0, 0⟩⟩] := rfl
  have h₀ : ladder.inputs ⟨0, 0⟩ = [] := rfl
  have hvisited : ladder.visited .start (Position.next ⟨2, 0⟩) = [⟨2, 0⟩, ⟨1, 0⟩, ⟨0, 0⟩] := rfl
  have hone : (negligible : ℝ) < 1 := negligible_lt_one
  have hthree : (negligible : ℝ) < |2 + 1| := by
    rw [abs_of_pos (by norm_num)]
    linarith
  rw [hvisited]
  simp [Discernible, h₂, h₁, h₀, pushFrom, deposit, ExactScalar.abs_eq, hone, not_le.2 hone, hthree]

theorem propagateToStart_eq_derivative_ladder :
    ladder.contains ⟨2, 0⟩ = true ∧
      (∀ t', ladder.setAdjoint ⟨2, 0⟩ 1 = .ok t' →
        t'.Propagates ((t'.nodes.range .start (Position.next ⟨2, 0⟩)).reverse.map (·.2))) ∧
      ∃ t', (do (← ladder.setAdjoint ⟨2, 0⟩ 1).propagateToStart ⟨2, 0⟩) = .ok t' ∧
        t'.adjoint? ⟨0, 0⟩ 0 = some (1 * ladder.pathSum ⟨0, 0⟩ ⟨2, 0⟩) := by
  have hsound : ladder.Sound := builtFrom_ladder.sound (sound_withBlockSize 1 Nat.one_pos)
  have hp : ∀ t', ladder.setAdjoint ⟨2, 0⟩ 1 = .ok t' →
      t'.Propagates ((t'.nodes.range .start (Position.next ⟨2, 0⟩)).reverse.map (·.2)) := by
    intro t' ht'
    obtain ⟨t₁, hseed, hchanges⟩ := hsound.setAdjoint_ok (n := ⟨2, 0⟩) rfl Nat.one_pos 1
    obtain rfl : t₁ = t' := Except.ok.inj (hseed.symm.trans ht')
    refine ((hchanges.same.sound hsound).propagates_iff _ fun x hx =>
      ((Arena.mem_range (hchanges.same.sound hsound).nodes_tidy).1 (List.mem_reverse.1 hx)).2.2).2 ?_
    intro k hk
    rw [hchanges.same.count_eq] at hk
    obtain rfl : k = 0 := Nat.lt_one_iff.1 hk
    rw [hchanges.same.discernible_iff, hchanges.column_eq 0 Nat.one_pos, if_pos rfl,
      builtFrom_ladder.column_eq_zero, hchanges.same.nodes_eq, List.map_reverse]
    exact discernible_ladder
  obtain ⟨t', hok, -, hleaf, -⟩ := propagateToStart_eq_derivative builtFrom_ladder rfl 1 hp
  exact ⟨rfl, hp, t', hok, (hleaf ⟨0, 0⟩ rfl).1⟩

end Sweep

end Tape

end PayoffPricing
