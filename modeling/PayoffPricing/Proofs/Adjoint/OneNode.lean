import Mathlib
import PayoffPricing.Proofs.Adjoint.Accumulation
/-!
Formulas that are recorded as one node, beside the same formulas operation by operation. Both have one value and the
same derivatives along every node that was there before. The one node keeps a derivative for each distinct leaf; a
sweep from the last operation brings to a leaf its own derivative and what the leaves that were computed from it
pass on.
-/

namespace PayoffPricing

namespace Edge

variable {R : Type} [ExactScalar R] {F : Position → R}

/-- The sum of the weights, each one times the factor of its target. -/
def weigh (F : Position → R) (es : List (Edge R)) : R := (es.map fun e => e.weight * e.target.elim 0 F).sum

@[simp]
theorem weigh_nil : weigh F [] = 0 := rfl

@[simp]
theorem weigh_cons (e : Edge R) (es : List (Edge R)) : weigh F (e :: es) = e.weight * e.target.elim 0 F + weigh F es :=
  List.sum_cons

@[simp]
theorem weigh_append (es ds : List (Edge R)) : weigh F (es ++ ds) = weigh F es + weigh F ds := by
  rw [weigh, List.map_append, List.sum_append]
  rfl

theorem weigh_filter_isActive (es : List (Edge R)) : weigh F (es.filter isActive) = weigh F es := by
  induction es with
  | nil => rfl
  | cons e es ih =>
    cases htarget : e.target with
    | none => rw [List.filter_cons_of_neg (by simp [isActive, htarget]), ih, weigh_cons, htarget, Option.elim_none,
        mul_zero, zero_add]
    | some p => rw [List.filter_cons_of_pos (by simp [isActive, htarget]), weigh_cons, weigh_cons, ih]

theorem weigh_sumRuns (es : List (Edge R)) : weigh F (sumRuns es) = weigh F es := by
  fun_induction sumRuns es with
  | case1 => rfl
  | case2 => rfl
  | case3 e f rest h ih =>
    simp only [weigh_cons, h] at ih ⊢
    rw [ih]
    ring
  | case4 e f rest h ih => rw [weigh_cons, ih, weigh_cons e]

theorem weigh_merge (es : List (Edge R)) : weigh F (merge es) = weigh F es := by
  rw [merge, weigh_sumRuns, weigh_filter_isActive]
  exact ((perm_sortByTarget es).map _).sum_eq

theorem weigh_single_eq_zero {es : List (Edge R)} {p : Position} (h : ∀ e ∈ es, e.target ≠ some p) :
    weigh (Pi.single p 1) es = 0 := by
  induction es with
  | nil => rfl
  | cons e es ih =>
    rw [List.forall_mem_cons] at h
    rw [weigh_cons, ih h.2, add_zero]
    cases htarget : e.target with
    | none => exact mul_zero _
    | some q =>
      have hq : q ≠ p := fun hq => h.1 (htarget.trans (congrArg some hq))
      rw [Option.elim_some, Pi.single_eq_of_ne hq, mul_zero]

theorem weigh_single {es : List (Edge R)} (h : es.Pairwise fun e f => e.target ≠ f.target) {e : Edge R} (he : e ∈ es)
    {p : Position} (hp : e.target = some p) : weigh (Pi.single p 1) es = e.weight := by
  induction es with
  | nil => cases he
  | cons d es ih =>
    obtain ⟨hd, hes⟩ := List.pairwise_cons.1 h
    rcases List.mem_cons.1 he with rfl | he
    · rw [weigh_cons, hp, Option.elim_some, Pi.single_eq_same, mul_one, weigh_single_eq_zero, add_zero]
      exact fun f hf hfp => hd f hf (hp.trans hfp.symm)
    · rw [weigh_cons, ih hes he]
      have hdp : d.target ≠ some p := hp ▸ hd e he
      cases htarget : d.target with
      | none => rw [Option.elim_none, mul_zero, zero_add]
      | some q =>
        have hq : q ≠ p := fun hq => hdp (htarget.trans (congrArg some hq))
        rw [Option.elim_some, Pi.single_eq_of_ne hq, mul_zero, zero_add]

def targets (es : List (Edge R)) : Finset Position := (es.filterMap Edge.target).toFinset

omit [ExactScalar R] in
theorem mem_targets {es : List (Edge R)} {p : Position} : p ∈ targets es ↔ ∃ e ∈ es, e.target = some p := by
  rw [targets, List.mem_toFinset, List.mem_filterMap]

theorem filterMap_target_merge (es : List (Edge R)) : (merge es).filterMap Edge.target = (targets es).sort := by
  have hmerge : ((merge es).filterMap Edge.target).Pairwise (· < ·) := List.pairwise_filterMap.2
    ((pairwise_merge es).imp fun h p hp q hq => h p hp q hq)
  refine hmerge.eq_of_mem_iff (Finset.sortedLT_sort _).pairwise fun p => ?_
  rw [Finset.mem_sort, mem_targets, List.mem_filterMap]
  constructor
  · rintro ⟨e, he, hp⟩
    obtain ⟨d, hd, hde, -⟩ := target_of_mem_merge he
    exact ⟨d, hd, hde.trans hp⟩
  · rintro ⟨e, he, hp⟩
    obtain ⟨d, hd, hde⟩ := exists_mem_merge he (by rw [isActive, hp]; rfl)
    exact ⟨d, hd, hde.trans hp⟩

theorem merge_eq (es : List (Edge R)) :
    merge es = (targets es).sort.map fun p => ⟨weigh (Pi.single p 1) es, some p⟩ := by
  have hactive : ∀ e ∈ merge es, ∃ p, e.target = some p := by
    intro e he
    obtain ⟨d, -, hd, hactive⟩ := target_of_mem_merge he
    exact Option.isSome_iff_exists.1 (hd ▸ hactive)
  have hne : (merge es).Pairwise fun e f => e.target ≠ f.target := (pairwise_merge es).imp_of_mem fun he _ h hef => by
    obtain ⟨p, hp⟩ := hactive _ he
    exact lt_irrefl p (h p hp p (hef ▸ hp))
  have hself : ∀ e ∈ merge es, (e.target.map fun p => (⟨weigh (Pi.single p 1) es, some p⟩ : Edge R)) = some e := by
    intro e he
    obtain ⟨p, hp⟩ := hactive e he
    rw [hp, Option.map_some, ← weigh_merge, weigh_single hne he hp, ← hp]
  rw [← filterMap_target_merge, List.map_filterMap, List.filterMap_congr hself, List.filterMap_some]

theorem weigh_eq_sum (es : List (Edge R)) : weigh F es = ∑ p ∈ targets es, weigh (Pi.single p 1) es * F p := by
  have hsort := List.sum_toFinset (fun p => weigh (Pi.single p 1) es * F p) (Finset.sort_nodup (targets es) (· ≤ ·))
  rw [Finset.sort_toFinset] at hsort
  rw [hsort, ← weigh_merge, merge_eq, weigh, List.map_map]
  rfl

end Edge

section Eager

variable {R : Type} [Scalar R]

/-- The operation on a number that the rule stands for. -/
def UnaryRule.eager : UnaryRule R → Number R → StateM (Tape R) (Number R)
  | addScalar c, x => x.addScalar c
  | subScalar c, x => x.subScalar c
  | scalarSub c, x => Number.scalarSub c x
  | mulScalar c, x => x.mulScalar c
  | divScalar c, x => x.divScalar c
  | scalarDiv c, x => Number.scalarDiv c x
  | powScalar c, x => x.powScalar c
  | scalarPow c, x => (Number.constant c).pow x
  | neg, x => x.neg
  | exp, x => x.exp
  | log, x => x.log
  | sqrt, x => x.sqrt
  | abs, x => x.abs
  | normalDensity, x => x.normalDensity
  | normalDistribution, x => x.normalDistribution
  | erfc, x => x.erfc

/-- The operation on two numbers that the rule stands for. The larger and the smaller number are not recorded. -/
def BinaryRule.eager : BinaryRule → Number R → Number R → StateM (Tape R) (Number R)
  | add, x, y => x.add y
  | sub, x, y => x.sub y
  | mul, x, y => x.mul y
  | div, x, y => x.div y
  | pow, x, y => x.pow y
  | max, x, y => pure (Quantity.max x y)
  | min, x, y => pure (Quantity.min x y)

/-- The base of a power that has a constant one has a logarithm. -/
def UnaryRule.HasPositiveBase : UnaryRule R → Prop
  | scalarPow c => 0 < c
  | _ => True

namespace Folded

def eager : Folded R → StateM (Tape R) (Number R)
  | leaf x => pure x
  | unary rule arg => do rule.eager (← arg.eager)
  | binary rule lhs rhs => do
    let x ← lhs.eager
    rule.eager x (← rhs.eager)

def PositiveBases : Folded R → Prop
  | leaf _ => True
  | unary rule arg => rule.HasPositiveBase ∧ arg.PositiveBases
  | binary _ lhs rhs => lhs.PositiveBases ∧ rhs.PositiveBases

omit [Scalar R] in
def leaves : Folded R → List (Number R)
  | leaf x => [x]
  | unary _ arg => arg.leaves
  | binary _ lhs rhs => lhs.leaves ++ rhs.leaves

def nodes (e : Folded R) : Finset Position := (e.leaves.filterMap Number.node).toFinset

theorem map_target_edges (a : R) (e : Folded R) : (e.edges a).map Edge.target = e.leaves.map Number.node := by
  induction e generalizing a with
  | leaf x => rfl
  | unary rule arg ih => exact ih _
  | binary rule lhs rhs ihl ihr => rw [edges, leaves, List.map_append, List.map_append, ihl, ihr]

end Folded

namespace Number

/-- The adjoint that `x` receives when `y` is seeded with one and propagated to the start: what is there when all nodes
behind `x` have passed their adjoints on, and before `x` passes on its own. -/
def received (y x : Number R) (t : Tape R) : Except Misuse R :=
  match x.node, y.node with
  | some p, some id => do
    let t ← t.setAdjoint id 1
    let t ← t.sweepRange p.next id.next
    x.adjoint t
  | _, _ => .ok 0

end Number

end Eager

section Derivatives

variable {R : Type} [ExactScalar R]

namespace Number

/-- A number of given value on a tape that was built from `base`, with the derivatives of weighted inputs along the
nodes of `base`. -/
structure Derives (base : Tape R) (v : R) (es : List (Edge R)) (x : Number R) (t : Tape R) : Prop where
  built : Tape.BuiltFrom base t
  value_eq : x.value = v
  onTape : x.OnTape t
  slope_eq : ∀ p, (base.nodes.get? p).isSome → x.node.elim 0 (t.pathSum p) = Edge.weigh (base.pathSum p) es

variable {base t t' : Tape R} {x y : Number R} {v w : R} {es ds inputs : List (Edge R)} {p : Position}

theorem elim_pathSum (hbase : base.Sound) (hb : Tape.BuiltFrom base t) {n : Option Position}
    (hn : ∀ id, n = some id → (base.nodes.get? id).isSome) : n.elim 0 (t.pathSum p) = n.elim 0 (base.pathSum p) := by
  cases n with
  | none => rfl
  | some id => exact (hb.keeps hbase).pathSum_eq hbase (hb.sound hbase) (hn id rfl)

theorem weigh_pathSum (hbase : base.Sound) (hb : Tape.BuiltFrom base t) (hes : base.Accepts es) :
    Edge.weigh (t.pathSum p) es = Edge.weigh (base.pathSum p) es := by
  induction es with
  | nil => rfl
  | cons e es ih =>
    obtain ⟨he, hes⟩ := Tape.accepts_cons.1 hes
    rw [Edge.weigh_cons, Edge.weigh_cons, ih hes, elim_pathSum hbase hb he]

theorem derives_result (hbase : base.Sound) (hb : Tape.BuiltFrom base t) (hinputs : t.Accepts inputs)
    (h : ∀ p, (base.nodes.get? p).isSome → Edge.weigh (t.pathSum p) inputs = Edge.weigh (base.pathSum p) es) :
    Derives base v es ((result v inputs).run t).1 ((result v inputs).run t).2 := by
  have ht := hb.sound hbase
  change Derives base v es (result v inputs t).1 (result v inputs t).2
  unfold result
  split
  · have hr := ht.recorded_record inputs
    have hb' : Tape.BuiltFrom t (t.record inputs).2 := .edges .start inputs hinputs
    refine ⟨hb.trans hb', rfl, ?_, fun p hp => ?_⟩
    · intro id hid
      obtain rfl := Option.some.inj hid
      exact hr.get?_self
    · -- the new node is none of `base`, so that every path from it begins with one of its edges
      have hne : (t.record inputs).1 ≠ p := (hr.fresh ((hb.keeps hbase).kept p hp)).ne'
      have hactive : t.Accepts (inputs.filter Edge.isActive) := fun e he => hinputs e (List.mem_of_mem_filter he)
      rw [Option.elim_some, (hb'.sound ht).pathSum_eq, if_neg hne, zero_add, hr.inputs_eq ht, if_pos rfl, ← h p hp,
        ← Edge.weigh_filter_isActive inputs, ← weigh_pathSum ht hb' hactive]
      rfl
  · next hpassive =>
    have hzero (F : Position → R) : Edge.weigh F inputs = 0 := by
      rw [← Edge.weigh_filter_isActive, List.filter_eq_nil_iff.2 fun e he hactive =>
        hpassive (List.any_eq_true.2 ⟨e, he, hactive⟩), Edge.weigh_nil]
    exact ⟨hb, rfl, onTape_constant t v, fun p hp => by rw [← h p hp, hzero]; rfl⟩

theorem derives_constant (hb : Tape.BuiltFrom base t) (c : R) : Derives base c [] (constant c) t :=
  ⟨hb, rfl, onTape_constant t c, fun _ _ => rfl⟩

theorem Derives.later (h : Derives base v es x t) (hbase : base.Sound) (hb : Tape.BuiltFrom t t') :
    Derives base v es x t' := by
  have ht := h.built.sound hbase
  refine ⟨h.built.trans hb, h.value_eq, fun id hid => (hb.keeps ht).kept id (h.onTape id hid), fun p hp => ?_⟩
  rw [elim_pathSum ht hb h.onTape, h.slope_eq p hp]

variable (hbase : base.Sound) (hx : Derives base v es x t)

include hbase hx

theorem derives_unary (u a : R)
    (h : ∀ p, Edge.weigh (base.pathSum p) ds = a * Edge.weigh (base.pathSum p) es) :
    Derives base u ds ((x.unary u a).run t).1 ((x.unary u a).run t).2 := by
  refine derives_result hbase hx.built (accepts_unary hx.onTape a) fun p hp => ?_
  rw [Edge.weigh_cons, Edge.weigh_nil, add_zero, hx.slope_eq p hp, h]

theorem derives_binary (hy : Derives base w ds y t') (hb : Tape.BuiltFrom t t') {cs : List (Edge R)} (u a b : R)
    (h : ∀ p, Edge.weigh (base.pathSum p) cs =
      a * Edge.weigh (base.pathSum p) es + b * Edge.weigh (base.pathSum p) ds) :
    Derives base u cs ((binary x y u a b).run t').1 ((binary x y u a b).run t').2 := by
  have hx' := hx.later hbase hb
  refine derives_result hbase hy.built (accepts_binary hx'.onTape hy.onTape a b) fun p hp => ?_
  rw [Edge.weigh_cons, Edge.weigh_cons, Edge.weigh_nil, add_zero, hx'.slope_eq p hp, hy.slope_eq p hp, h]

theorem derives_pick (hy : Derives base w ds y t') (hb : Tape.BuiltFrom t t') {cs : List (Edge R)} {c : Prop} [Decidable c]
    (h : ∀ p, Edge.weigh (base.pathSum p) cs = (if c then ((1 : R), (0 : R)) else (0, 1)).1 *
      Edge.weigh (base.pathSum p) es + (if c then ((1 : R), (0 : R)) else (0, 1)).2 * Edge.weigh (base.pathSum p) ds) :
    Derives base (if c then v else w) cs (if c then x else y) t' := by
  have hx' := hx.later hbase hb
  by_cases hc : c
  · simp only [if_pos hc, one_mul, zero_mul, add_zero] at h ⊢
    exact ⟨hy.built, hx'.value_eq, hx'.onTape, fun p hp => (hx'.slope_eq p hp).trans (h p).symm⟩
  · simp only [if_neg hc, one_mul, zero_mul, zero_add] at h ⊢
    exact ⟨hy.built, hy.value_eq, hy.onTape, fun p hp => (hy.slope_eq p hp).trans (h p).symm⟩

end Number

section Rules

variable {base t t' : Tape R} {x y : Number R} {v w : R} {es ds cs : List (Edge R)}

theorem UnaryRule.derives_eager (hbase : base.Sound) {rule : UnaryRule R} (hrule : rule.HasPositiveBase)
    (hx : x.Derives base v es t)
    (h : ∀ p, Edge.weigh (base.pathSum p) ds = rule.derivative v (rule.apply v) * Edge.weigh (base.pathSum p) es) :
    Number.Derives base (rule.apply v) ds ((rule.eager x).run t).1 ((rule.eager x).run t).2 := by
  obtain rfl := hx.value_eq
  cases rule with
  | scalarPow c =>
    -- the base is a constant operand, which has no derivative
    refine Number.derives_binary hbase (Number.derives_constant hx.built c) hx .start _ _ _ fun p => ?_
    have hc : c > @OfNat.ofNat R 0 (Scalar.instOfNat 0) := hrule
    rw [h, Edge.weigh_nil, mul_zero, zero_add]
    exact congrArg (· * _) (if_pos hc).symm
  | _ => exact Number.derives_unary hbase hx _ _ h

theorem BinaryRule.derives_eager (hbase : base.Sound) (rule : BinaryRule) (hx : x.Derives base v es t)
    (hy : y.Derives base w ds t') (hb : Tape.BuiltFrom t t')
    (h : ∀ p, Edge.weigh (base.pathSum p) cs =
      (rule.partials v w (rule.apply v w)).1 * Edge.weigh (base.pathSum p) es +
        (rule.partials v w (rule.apply v w)).2 * Edge.weigh (base.pathSum p) ds) :
    Number.Derives base (rule.apply v w) cs ((rule.eager x y).run t').1 ((rule.eager x y).run t').2 := by
  obtain rfl := hx.value_eq
  obtain rfl := hy.value_eq
  cases rule with
  | max | min =>
    simp only [partials, scalar_zero, scalar_one] at h
    exact Number.derives_pick hbase hx hy hb h
  | div =>
    refine Number.derives_binary hbase hx hy hb _ _ _ fun p => ?_
    rw [h, partials, scalar_one, mul_one_div]
    rfl
  | _ => exact Number.derives_binary hbase hx hy hb _ _ _ h

end Rules

namespace Folded

variable {base t : Tape R}

def OnTape (t : Tape R) (e : Folded R) : Prop := ∀ x ∈ e.leaves, x.OnTape t

theorem OnTape.built {t' : Tape R} {e : Folded R} (h : e.OnTape t) (ht : t.Sound) (hb : Tape.BuiltFrom t t') :
    e.OnTape t' := fun x hx id hid => (hb.keeps ht).kept id (h x hx id hid)

theorem weigh_edges (F : Position → R) (e : Folded R) (a : R) :
    Edge.weigh F (e.edges a) = a * Edge.weigh F (e.edges 1) := by
  induction e generalizing a with
  | leaf x => simp [edges]
  | unary rule arg ih =>
    rw [edges, edges, ih, ih (1 * _)]
    ring
  | binary rule lhs rhs ihl ihr =>
    simp only [edges, Edge.weigh_append]
    rw [ihl, ihr, ihl (1 * _), ihr (1 * _)]
    ring

/-- Operation by operation a formula has the value and the derivatives that it has as one node. -/
theorem derives_eager (hbase : base.Sound) {e : Folded R} (hleaves : e.OnTape base) (hbases : e.PositiveBases)
    (hb : Tape.BuiltFrom base t) :
    Number.Derives base e.value (e.edges 1) (e.eager.run t).1 (e.eager.run t).2 := by
  induction e generalizing base t with
  | leaf x =>
    have hx : x.OnTape base := hleaves x List.mem_cons_self
    refine ⟨hb, rfl, fun id hid => (hb.keeps hbase).kept id (hx id hid), fun p hp => ?_⟩
    rw [edges, Edge.weigh_cons, Edge.weigh_nil, one_mul, add_zero]
    exact Number.elim_pathSum hbase hb hx
  | unary rule arg ih =>
    have harg := ih hbase hleaves hbases.2 hb
    refine rule.derives_eager hbase hbases.1 harg fun p => ?_
    rw [edges, weigh_edges, one_mul]
  | binary rule lhs rhs ihl ihr =>
    have hlhs : lhs.OnTape base := fun x hx => hleaves x (List.mem_append_left _ hx)
    have hrhs : rhs.OnTape base := fun x hx => hleaves x (List.mem_append_right _ hx)
    have hl := ihl hbase hlhs hbases.1 hb
    have hr := ihr hbase hrhs hbases.2 hl.built
    have hbetween := (ihr (hl.built.sound hbase) (hrhs.built hbase hl.built) hbases.2 .start).built
    refine rule.derives_eager hbase hl hr hbetween fun p => ?_
    rw [edges, Edge.weigh_append, weigh_edges, weigh_edges _ rhs, one_mul, one_mul]

end Folded

section Sweeps

variable {t : Tape R} {x y : Number R}

theorem Tape.Sound.discernible_behind (ht : t.Sound) (m : Position) {last : Position} {as : Position → R}
    (h : t.Discernible (t.visited .start last) as) : t.Discernible (t.visited m last) as := by
  rcases le_total m last with hm | hm
  · rw [ht.visited_append (Position.start_le m) hm] at h
    exact h.left
  · have hnone : t.visited m last = [] := List.eq_nil_iff_forall_not_mem.2 fun p hp =>
      absurd (hm.trans (ht.mem_visited.1 hp).1) (not_le.2 (ht.mem_visited.1 hp).2.1)
    rw [hnone]
    trivial

namespace Number

/-- No adjoint is too small to be propagated when the number is seeded with one and propagated to the start. -/
def Propagates (t : Tape R) (y : Number R) : Prop := ∀ id, y.node = some id → ∀ seeded, t.setAdjoint id 1 = .ok seeded →
  seeded.Propagates ((seeded.nodes.range .start id.next).reverse.map (·.2))

theorem propagates_of_discernible (ht : Tape.BuiltFrom .empty t) {id : Position} (hy : y.node = some id)
    (hid : (t.nodes.get? id).isSome)
    (hd : t.Discernible (t.visited .start id.next) (Function.update (fun _ => 0) id 1)) : y.Propagates t := by
  intro n hn seeded hseeded
  obtain rfl := Option.some.inj (hy.symm.trans hn)
  obtain ⟨hsound, hcount, hzero⟩ := ht.of_empty
  obtain ⟨t₁, hseed, hchanges⟩ := hsound.setAdjoint_ok hid hcount 1
  obtain rfl := Except.ok.inj (hseed.symm.trans hseeded)
  have hsame := hchanges.same
  refine ((hsame.sound hsound).propagates_iff _ fun x hx =>
    ((Arena.mem_range (hsame.sound hsound).nodes_tidy).1 (List.mem_reverse.1 hx)).2.2).2 fun k hk => ?_
  obtain rfl : k = 0 := by
    have hone : t.adjointCount = 1 := ht.adjointCount_eq
    rw [hsame.count_eq] at hk
    omega
  rw [hsame.discernible_iff, hchanges.column_eq 0 hcount, if_pos rfl, hzero, hsame.nodes_eq, List.map_reverse]
  exact hd

theorem received_eq (ht : t.Sound) (hcount : 0 < t.adjointCount) (hzero : t.column 0 = fun _ => 0) (hx : x.OnTape t)
    (hy : y.OnTape t) (hp : y.Propagates t) : y.received x t = .ok (slope t x y) := by
  unfold received slope
  cases hxnode : x.node with
  | none => exact congrArg Except.ok scalar_zero
  | some p =>
    cases hynode : y.node with
    | none => exact congrArg Except.ok scalar_zero
    | some id =>
      have hid := hy id hynode
      obtain ⟨seeded, swept, hseed, -, -, hsweep, hsame, hcolumn⟩ := ht.sweep_seed hcount hzero hid p.next
      -- behind `p` the sweep has come to all that adds to the adjoint of `p`, and not to `p`
      have hd := ht.discernible_behind p.next (ht.discernible_seed hcount hzero hid (hp id hynode))
      obtain ⟨-, -, hvalues⟩ := ht.pushAll_seed hid 1 hd
      have hread := hvalues p (hx p hxnode) (fun hle => absurd (Position.next_le_iff.1 hle) (lt_irrefl p)) fun q hq =>
        Position.next_le_iff.2 hq
      have hon : x.OnTape swept := fun q hq => hsame.nodes_eq ▸ hx q hq
      simp only [scalar_one, hseed]
      simp only [bind, Except.bind, hsweep]
      rw [adjoint_eq (hsame.sound ht) (hsame.count_eq ▸ hcount) hon, adjointOn, hxnode, Option.elim_some, hcolumn, hread,
        one_mul]
      rfl

theorem adjoint_eq_received (ht : t.Sound) (hcount : 0 < t.adjointCount) (hzero : t.column 0 = fun _ => 0)
    (hx : x.Enters t) (hy : y.OnTape t) (hp : y.Propagates t) : (y.propagateToStart t >>= x.adjoint) = y.received x t := by
  have hd : ∀ id, y.node = some id →
      t.Discernible (t.visited .start id.next) (Function.update (fun _ => 0) id 1) := fun id hid =>
    ht.discernible_seed hcount hzero (hy id hid) (hp id hid)
  have hread := adjoints_propagateToStart ht hcount hzero hy (List.forall_mem_singleton.2 hx) hd
  obtain ⟨t', hsweep, hadjoints⟩ := bind_eq_ok_iff.1 hread
  have hadjoint : x.adjoint t' = .ok (slope t x y) := (List.forall₂_cons.1 (mapM_eq_ok_iff.1 hadjoints)).1
  rw [received_eq ht hcount hzero hx.onTape hy hp]
  exact bind_eq_ok_iff.2 ⟨t', hsweep, hadjoint⟩

end Number

namespace Folded

variable {e : Folded R}

omit [ExactScalar R] in
theorem onTape_nodes (h : e.OnTape t) {p : Position} (hp : p ∈ e.nodes) : (t.nodes.get? p).isSome := by
  rw [nodes, List.mem_toFinset, List.mem_filterMap] at hp
  obtain ⟨x, hx, hp⟩ := hp
  exact h x hx p hp

omit [ExactScalar R] in
theorem mem_nodes {p : Position} (hx : x ∈ e.leaves) (hp : x.node = some p) : p ∈ e.nodes :=
  List.mem_toFinset.2 (List.mem_filterMap.2 ⟨x, hx, hp⟩)

theorem targets_edges (e : Folded R) (a : R) : Edge.targets (e.edges a) = e.nodes := by
  have h := congrArg (List.filterMap id) (e.map_target_edges a)
  rw [List.filterMap_map, List.filterMap_map] at h
  exact congrArg List.toFinset h

theorem accepts_edges (h : e.OnTape t) (a : R) : t.Accepts (e.edges a) := by
  intro d hd q hq
  refine onTape_nodes h ?_
  rw [← e.targets_edges a, Edge.mem_targets]
  exact ⟨d, hd, hq⟩

/-- The derivative of a formula along a recorded leaf, apart from what other leaves pass on to it. -/
def weight (e : Folded R) (p : Position) : R := Edge.weigh (Pi.single p 1) (e.edges 1)

theorem record_eq (ht : t.Sound) (hactive : e.isActive = true) : ∃ id s,
    e.record.run t = (⟨e.value, some id⟩, s) ∧
      t.Recorded id (e.nodes.sort.map fun p => ⟨e.weight p, some p⟩) s := by
  refine ⟨(t.recordFolded (e.edges 1)).1, (t.recordFolded (e.edges 1)).2, ?_, ?_⟩
  · change e.record t = _
    rw [record, if_pos hactive, scalar_one]
  · have hr := ht.recorded_recordFolded (e.edges 1)
    rw [Edge.merge_eq, targets_edges] at hr
    exact hr

variable {s : Tape R}

theorem slope_eq (ht : t.Sound) (hleaves : e.OnTape t) (hbases : e.PositiveBases) (heager : e.eager.run t = (y, s))
    (hx : x ∈ e.leaves) {p : Position} (hp : x.node = some p) :
    Number.slope s x y = e.weight p + ∑ q ∈ e.nodes.erase p, e.weight q * t.pathSum p q := by
  have hderives := derives_eager ht hleaves hbases .start
  rw [heager] at hderives
  have hmem := mem_nodes hx hp
  -- the leaf itself is among the nodes that the weights are for; from it to itself there is the empty path
  rw [Number.slope, hp, Option.elim_some, hderives.slope_eq p (onTape_nodes hleaves hmem), Edge.weigh_eq_sum,
    targets_edges, ← Finset.add_sum_erase _ _ hmem, ht.pathSum_self, mul_one]
  rfl

end Folded

/-- A formula that is recorded as one node has the value that it has operation by operation, and one edge for each
recorded leaf, in the order of their nodes. What a leaf receives when the last operation is seeded with one is the
weight of its edge and what the other leaves, where they were computed from it, pass on. -/
theorem Folded.recorded_as_eager (e : Folded R) {t s : Tape R} {y : Number R} (ht : t.Sound) (hcount : 0 < t.adjointCount)
    (hzero : t.column 0 = fun _ => 0) (hleaves : e.OnTape t) (hactive : e.isActive = true) (hbases : e.PositiveBases)
    (heager : e.eager.run t = (y, s)) (hd : y.Propagates s) :
    ∃ (id : Position) (weight : Position → R) (s' : Tape R),
      e.record.run t = (⟨y.value, some id⟩, s') ∧
        t.Recorded id (e.nodes.sort.map fun p => ⟨weight p, some p⟩) s' ∧
        ∀ x ∈ e.leaves, ∀ p, x.node = some p →
          y.received x s = .ok (weight p + ∑ q ∈ e.nodes.erase p, weight q * t.pathSum p q) ∧
          ((∀ q ∈ e.nodes.erase p, t.paths p q = []) → y.received x s = .ok (weight p)) ∧
          (t.inputs p = [] → (y.propagateToStart s >>= x.adjoint) = y.received x s) := by
  have hderives := derives_eager ht hleaves hbases .start
  rw [heager] at hderives
  have hs := hderives.built.sound ht
  have hcount' : 0 < s.adjointCount := hderives.built.adjointCount_eq ▸ hcount
  have hzero' : s.column 0 = fun _ => 0 := (hderives.built.column_eq ht hcount).trans hzero
  obtain ⟨id, s', hrecord, hrecorded⟩ := record_eq ht hactive
  refine ⟨id, e.weight, s', hderives.value_eq ▸ hrecord, hrecorded, fun x hx p hp => ?_⟩
  have hkeeps := hderives.built.keeps ht
  have hon : x.OnTape s := fun id hid => hkeeps.kept id (hleaves x hx id hid)
  have hreceived : y.received x s = .ok (e.weight p + ∑ q ∈ e.nodes.erase p, e.weight q * t.pathSum p q) := by
    rw [Number.received_eq hs hcount' hzero' hon hderives.onTape hd, slope_eq ht hleaves hbases heager hx hp]
  refine ⟨hreceived, fun hnone => ?_, fun hleaf => ?_⟩
  · rw [hreceived, Finset.sum_eq_zero, add_zero]
    intro q hq
    rw [Tape.pathSum, hnone q hq, List.map_nil, List.sum_nil, mul_zero]
  · exact Number.adjoint_eq_received hs hcount' hzero' ⟨p, hp, hon p hp, (hkeeps.inputs_eq p (hleaves x hx p hp)).trans hleaf⟩
      hderives.onTape hd

end Sweeps

end Derivatives

section Chained

open Tape

/-- An input, and a number that was computed from it. -/
noncomputable def chained : Tape ℝ := (Tape.empty.recordLeaf.2.record [⟨1, some ⟨0, 0⟩⟩]).2

/-- The second number of the tape, grown at the rate of the first one. -/
noncomputable def growth : Folded ℝ := .lognormalStep ⟨1, some ⟨0, 1⟩⟩ ⟨0, some ⟨0, 0⟩⟩ (.constant 0) 0

theorem builtFrom_chained : BuiltFrom .empty chained :=
  .edges (.leaf .start) _ (accepts_cons.2 ⟨fun _ hq => Option.some.inj hq ▸ rfl, accepts_nil _⟩)

theorem onTape_growth : growth.OnTape chained := by
  have h : growth.leaves = [⟨1, some ⟨0, 1⟩⟩, ⟨0, some ⟨0, 0⟩⟩, .constant 0] := rfl
  intro x hx id hid
  simp only [h, List.mem_cons, List.not_mem_nil, or_false] at hx
  rcases hx with rfl | rfl | rfl <;> cases hid <;> rfl

theorem sort_nodes_growth : growth.nodes.sort = [⟨0, 0⟩, ⟨0, 1⟩] := by
  refine (Finset.sortedLT_sort _).pairwise.eq_of_mem_iff (by decide) fun p => ?_
  rw [Finset.mem_sort, Folded.nodes, List.mem_toFinset]
  have h : growth.leaves.filterMap Number.node = [⟨0, 1⟩, ⟨0, 0⟩] := rfl
  rw [h]
  simp [or_comm]

theorem weight_growth : growth.weight ⟨0, 0⟩ = 1 ∧ growth.weight ⟨0, 1⟩ = 1 := by
  have h : growth.edges 1 = [⟨1 * Real.exp (0 + 0 * 0), some ⟨0, 1⟩⟩,
      ⟨1 * 1 * Real.exp (0 + 0 * 0) * @OfNat.ofNat ℝ 1 (Scalar.instOfNat 1), some ⟨0, 0⟩⟩,
      ⟨1 * 1 * Real.exp (0 + 0 * 0) * @OfNat.ofNat ℝ 1 (Scalar.instOfNat 1) * 0, none⟩] := rfl
  rw [Folded.weight, Folded.weight, h]
  simp [scalar_one]

theorem pathSum_chained : chained.pathSum ⟨0, 0⟩ ⟨0, 1⟩ = 1 := by
  have hsound : chained.Sound := builtFrom_chained.of_empty.1
  have h : chained.inputs ⟨0, 1⟩ = [⟨1, some ⟨0, 0⟩⟩] := rfl
  rw [hsound.pathSum_eq, if_neg (by decide), h]
  simp [hsound.pathSum_self]

noncomputable def grown : Tape ℝ := (growth.eager.run chained).2

theorem discernible_grown :
    grown.Discernible (grown.visited .start (Position.next ⟨0, 4⟩)) (Function.update (fun _ => 0) ⟨0, 4⟩ 1) := by
  have h₄ : grown.inputs ⟨0, 4⟩ = [⟨Real.exp (0 + 0 * 0), some ⟨0, 1⟩⟩, ⟨1, some ⟨0, 3⟩⟩] := rfl
  have h₃ : grown.inputs ⟨0, 3⟩ = [⟨Real.exp (0 + 0 * 0), some ⟨0, 2⟩⟩] := rfl
  have h₂ : grown.inputs ⟨0, 2⟩ = [⟨@OfNat.ofNat ℝ 1 (Scalar.instOfNat 1), some ⟨0, 0⟩⟩] := rfl
  have h₁ : grown.inputs ⟨0, 1⟩ = [⟨1, some ⟨0, 0⟩⟩] := rfl
  have h₀ : grown.inputs ⟨0, 0⟩ = [] := rfl
  have hvisited : grown.visited .start (Position.next ⟨0, 4⟩) = [⟨0, 4⟩, ⟨0, 3⟩, ⟨0, 2⟩, ⟨0, 1⟩, ⟨0, 0⟩] := rfl
  have hone : (negligible : ℝ) < 1 := negligible_lt_one
  rw [hvisited]
  simp [Discernible, h₄, h₃, h₂, h₁, h₀, pushFrom, deposit, ExactScalar.abs_eq, hone, not_le.2 hone]

theorem positiveBases_growth : growth.PositiveBases := ⟨trivial, trivial, trivial, trivial, trivial⟩

theorem builtFrom_grown : BuiltFrom chained grown :=
  (Folded.derives_eager builtFrom_chained.of_empty.1 onTape_growth positiveBases_growth .start).built

theorem propagates_growth : (growth.eager.run chained).1.Propagates grown :=
  Number.propagates_of_discernible (builtFrom_chained.trans builtFrom_grown) rfl rfl discernible_grown

theorem Folded.recorded_as_eager_growth : ∃ y s, chained.Sound ∧ 0 < chained.adjointCount ∧
    chained.column 0 = (fun _ => 0) ∧ growth.OnTape chained ∧ growth.isActive = true ∧ growth.PositiveBases ∧
    growth.eager.run chained = (y, s) ∧ y.Propagates s ∧
    ∃ (id : Position) (weight : Position → ℝ) (s' : Tape ℝ), growth.record.run chained = (⟨y.value, some id⟩, s') ∧
      chained.Recorded id (growth.nodes.sort.map fun p => ⟨weight p, some p⟩) s' ∧
      y.received ⟨1, some ⟨0, 1⟩⟩ s = .ok (weight ⟨0, 1⟩) := by
  obtain ⟨hsound, hcount, hzero⟩ := builtFrom_chained.of_empty
  have heager : growth.eager.run chained = ((growth.eager.run chained).1, grown) := rfl
  have hactive : growth.isActive = true := rfl
  have hmem : (⟨1, some ⟨0, 1⟩⟩ : Number ℝ) ∈ growth.leaves := List.mem_cons_self
  have hnone : ∀ q ∈ growth.nodes.erase ⟨0, 1⟩, chained.paths ⟨0, 1⟩ q = [] := by
    have h : chained.inputs ⟨0, 0⟩ = [] := rfl
    have herase : growth.nodes.erase ⟨0, 1⟩ = {⟨0, 0⟩} := by
      rw [← Finset.sort_toFinset growth.nodes (· ≤ ·), sort_nodes_growth]
      rfl
    intro q hq
    rw [herase, Finset.mem_singleton] at hq
    rw [hq, paths, h]
    rfl
  obtain ⟨id, weight, s', hrecord, hrecorded, hleaves⟩ := Folded.recorded_as_eager growth hsound hcount hzero
    onTape_growth hactive positiveBases_growth heager propagates_growth
  exact ⟨_, grown, hsound, hcount, hzero, onTape_growth, hactive, positiveBases_growth, heager, propagates_growth, id,
    weight, s', hrecord, hrecorded, (hleaves _ hmem ⟨0, 1⟩ rfl).2.1 hnone⟩

/-- A leaf from which another leaf was computed receives more than the weight of its edge. -/
theorem chained_leaf_receives_more : ∃ (x y : Number ℝ) (s s' : Tape ℝ) (id : Position),
    chained.Sound ∧ chained.column 0 = (fun _ => 0) ∧ growth.OnTape chained ∧ growth.isActive = true ∧
      growth.PositiveBases ∧ growth.eager.run chained = (y, s) ∧ y.Propagates s ∧
      growth.record.run chained = (⟨y.value, some id⟩, s') ∧
      s'.inputs id = [⟨1, some ⟨0, 0⟩⟩, ⟨1, some ⟨0, 1⟩⟩] ∧
      x ∈ growth.leaves ∧ x.node = some ⟨0, 0⟩ ∧ y.received x s = .ok 2 ∧
      (y.propagateToStart s >>= x.adjoint) = .ok 2 := by
  obtain ⟨hsound, hcount, hzero⟩ := builtFrom_chained.of_empty
  obtain ⟨hsound', hcount', hzero'⟩ := (builtFrom_chained.trans builtFrom_grown).of_empty
  have hactive : growth.isActive = true := rfl
  obtain ⟨id, s', hrecord, hrecorded⟩ := Folded.record_eq hsound hactive
  have hmem : (⟨0, some ⟨0, 0⟩⟩ : Number ℝ) ∈ growth.leaves := List.mem_cons_of_mem _ List.mem_cons_self
  have heager : growth.eager.run chained = ((growth.eager.run chained).1, grown) := rfl
  have henters : Number.Enters grown (⟨0, some ⟨0, 0⟩⟩ : Number ℝ) := ⟨⟨0, 0⟩, rfl, rfl, rfl⟩
  have hon : (growth.eager.run chained).1.OnTape grown := fun _ hid => Option.some.inj hid ▸ rfl
  have herase : growth.nodes.erase ⟨0, 0⟩ = {⟨0, 1⟩} := by
    rw [← Finset.sort_toFinset growth.nodes (· ≤ ·), sort_nodes_growth]
    rfl
  have hreceived : (growth.eager.run chained).1.received ⟨0, some ⟨0, 0⟩⟩ grown = .ok 2 := by
    rw [Number.received_eq hsound' hcount' hzero' henters.onTape hon propagates_growth,
      Folded.slope_eq hsound onTape_growth positiveBases_growth heager hmem rfl, herase, Finset.sum_singleton,
      weight_growth.1, weight_growth.2, pathSum_chained]
    norm_num
  refine ⟨⟨0, some ⟨0, 0⟩⟩, (growth.eager.run chained).1, grown, s', id, hsound, hzero, onTape_growth, hactive,
    positiveBases_growth, heager, propagates_growth, hrecord, ?_, hmem, rfl, hreceived, ?_⟩
  · rw [hrecorded.inputs_eq hsound, if_pos rfl, sort_nodes_growth, List.map_cons, List.map_cons, List.map_nil,
      weight_growth.1, weight_growth.2]
  · rw [Number.adjoint_eq_received hsound' hcount' hzero' henters hon propagates_growth, hreceived]

end Chained

end PayoffPricing
