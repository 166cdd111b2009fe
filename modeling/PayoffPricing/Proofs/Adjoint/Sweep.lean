import Mathlib.Logic.Function.Basic
import PayoffPricing.Proofs.Adjoint.Recording
/-!
Sweeps, column by column. A sweep of a sound tape does not fail, leaves everything but the adjoints
as it is, and does to each column of adjoints what pushing that column along the edges does.
-/

namespace PayoffPricing

namespace Arena

/-- What an arena looks like but for its elements. -/
def shape {α : Type} (a : Arena α) : Array (Nat × Nat) × Nat × Nat × Position :=
  (a.blocks.map fun b => (b.capacity, b.items.size), a.blockSize, a.current, a.mark)

variable {α : Type} {a b : Arena α}

@[simp]
theorem shape_modify (a : Arena α) (p : Position) (f : α → α) : (a.modify p f).shape = a.shape := by
  simp only [shape, modify, modifyBlock, Prod.mk.injEq, and_true]
  apply Array.ext
  · simp
  · intro i h₁ h₂
    simp only [Array.getElem_map, Array.getElem_modify]
    split <;> simp

theorem size_blocks_of_shape (h : a.shape = b.shape) : a.blocks.size = b.blocks.size := by
  have := congrArg (fun s => s.1.size) h
  simpa [shape] using this

theorem current_of_shape (h : a.shape = b.shape) : a.current = b.current :=
  congrArg (fun s => s.2.2.1) h

theorem size_items_of_shape (h : a.shape = b.shape) (i : Nat) :
    (a.items i).size = (b.items i).size := by
  have := congrArg (fun s => s.1[i]?.elim 0 (·.2)) h
  simp only [shape, Array.getElem?_map] at this
  simp only [items]
  revert this
  cases a.blocks[i]? <;> cases b.blocks[i]? <;> simp

theorem tidy_of_shape (h : a.shape = b.shape) (hb : b.Tidy) : a.Tidy := by
  intro i hi
  have hsize := size_items_of_shape h i
  rw [hb i (current_of_shape h ▸ hi)] at hsize
  exact Array.eq_empty_of_size_eq_zero hsize

end Arena

namespace Tape

variable {R : Type}

/-- Tapes that differ in the values of adjoints only. -/
structure SameRecord (t t' : Tape R) : Prop where
  nodes_eq : t'.nodes = t.nodes
  edges_eq : t'.edges = t.edges
  count_eq : t'.adjointCount = t.adjointCount
  shape_eq : t'.adjoints.shape = t.adjoints.shape

namespace SameRecord

variable {t t' t'' : Tape R}

theorem refl (t : Tape R) : SameRecord t t := ⟨rfl, rfl, rfl, rfl⟩

theorem trans (h : SameRecord t t') (h' : SameRecord t' t'') : SameRecord t t'' :=
  ⟨h'.nodes_eq.trans h.nodes_eq, h'.edges_eq.trans h.edges_eq, h'.count_eq.trans h.count_eq,
    h'.shape_eq.trans h.shape_eq⟩

theorem inputs_eq (h : SameRecord t t') : t'.inputs = t.inputs := by
  funext p
  simp [inputs, edges?, node?, h.nodes_eq, h.edges_eq]

theorem sound (h : SameRecord t t') (ht : t.Sound) : t'.Sound where
  nodes_tidy := h.nodes_eq ▸ ht.nodes_tidy
  edges_tidy := h.edges_eq ▸ ht.edges_tidy
  adjoints_tidy := Arena.tidy_of_shape h.shape_eq ht.adjoints_tidy
  edges_stored := by
    rw [h.nodes_eq, h.edges_eq]
    exact ht.edges_stored
  adjoints_stored p node hp := by
    obtain ⟨as, has⟩ := ht.adjoints_stored p node (h.nodes_eq ▸ hp)
    obtain ⟨hblock, hroom, -⟩ := Arena.slice?_eq_some_iff.1 has
    exact ⟨_, Arena.slice?_eq_some_iff.2 ⟨Arena.size_blocks_of_shape h.shape_eq ▸ hblock,
      by rw [h.count_eq, Arena.size_items_of_shape h.shape_eq]; exact hroom, rfl⟩⟩
  adjoints_apart := by
    rw [h.nodes_eq, h.count_eq]
    exact ht.adjoints_apart

end SameRecord

variable [Scalar R] {t : Tape R} {k : Nat}

/-- Pushes one adjoint along edges. -/
def deposit (adjoint : R) : List (Edge R) → (Position → R) → Position → R
  | [], as => as
  | e :: es, as =>
    match e.target with
    | none => deposit adjoint es as
    | some q => deposit adjoint es (Function.update as q (as q + adjoint * e.weight))

/-- Pushes the adjoint of a node along its edges and clears it; leaves keep theirs. -/
def pushFrom (t : Tape R) (p : Position) (as : Position → R) : Position → R :=
  if t.inputs p = [] then as
  else if Scalar.abs (as p) ≤ negligible then as
  else Function.update (deposit (as p) (t.inputs p) as) p 0

/-- Pushes the adjoints of several nodes, one after the other. -/
def pushAll (t : Tape R) (ps : List Position) (as : Position → R) : Position → R :=
  ps.foldl (fun as p => t.pushFrom p as) as

/-- A change of one adjoint changes one entry of one column. -/
theorem Sound.column_modify (ht : t.Sound) {p : Position} {node : Node}
    (hp : t.nodes.get? p = some node) (hk : k < t.adjointCount) (f : R → R) {j : Nat}
    (hj : j < t.adjointCount) :
    ({ t with adjoints := t.adjoints.modify (node.adjoints.shift k) f } : Tape R).column j =
      if j = k then Function.update (t.column j) p (f (t.column j p)) else t.column j := by
  have hsame : SameRecord t { t with adjoints := t.adjoints.modify (node.adjoints.shift k) f } :=
    ⟨rfl, rfl, rfl, Arena.shape_modify ..⟩
  have ht' := hsame.sound ht
  have hcolumn : ∀ {q other}, t.nodes.get? q = some other →
      t.column j q = (t.adjoints.get? (other.adjoints.shift j)).getD 0 := fun hq => by
    rw [column, ht.adjoint?_eq hq hj]
  funext q
  cases hq : t.nodes.get? q with
  | none =>
    have hpq : q ≠ p := by
      rintro rfl
      simp [hp] at hq
    have hold : t.column j q = 0 := column_of_none hq
    have hnew : ({ t with adjoints := t.adjoints.modify (node.adjoints.shift k) f } : Tape R).column j q = 0 :=
      column_of_none hq
    rw [hnew]
    split
    · rw [Function.update_of_ne hpq, hold]
    · exact hold.symm
  | some other =>
    rw [column, ht'.adjoint?_eq hq hj, Arena.get?_modify]
    by_cases hpq : q = p
    · obtain rfl : other = node := by
        subst hpq
        exact Option.some.inj (hq.symm.trans hp)
      by_cases hjk : j = k
      · obtain ⟨a, ha⟩ := Option.isSome_iff_exists.1 (ht.isSome_adjoint hp hk)
        subst hjk
        rw [if_pos rfl, if_pos rfl, hpq, Function.update_self, hcolumn hp, ha]
        rfl
      · rw [if_neg hjk, if_neg, hcolumn hq]
        intro h
        simp only [Position.shift, Position.mk.injEq] at h
        omega
    · rw [if_neg (ht.adjoints_apart q other p node hq hp hpq j hj k hk), ← hcolumn hq]
      split
      · rw [Function.update_of_ne hpq]
      · rfl

/-- What a change of the adjoints did: nothing but `change` on the `k`-th column. -/
structure Changes (t t' : Tape R) (k : Nat) (change : (Position → R) → Position → R) : Prop where
  same : SameRecord t t'
  column_eq : ∀ j < t.adjointCount, t'.column j = if j = k then change (t.column j) else t.column j

theorem Changes.trans {t t' t'' : Tape R} {f g : (Position → R) → Position → R}
    (h : Changes t t' k f) (h' : Changes t' t'' k g) : Changes t t'' k fun as => g (f as) := by
  refine ⟨h.same.trans h'.same, fun j hj => ?_⟩
  rw [h'.column_eq j (h.same.count_eq ▸ hj), h.column_eq j hj]
  split <;> rfl

theorem Sound.changes_modify (ht : t.Sound) {p : Position} {node : Node}
    (hp : t.nodes.get? p = some node) (hk : k < t.adjointCount) (f : R → R) :
    Changes t { t with adjoints := t.adjoints.modify (node.adjoints.shift k) f } k
      fun as => Function.update as p (f (as p)) where
  same := ⟨rfl, rfl, rfl, Arena.shape_modify ..⟩
  column_eq _ hj := ht.column_modify hp hk f hj

theorem Sound.pushEdges_ok (ht : t.Sound) (hk : k < t.adjointCount) (adjoint : R)
    (es : List (Edge R)) (hes : ∀ e ∈ es, ∃ q, e.target = some q ∧ (t.nodes.get? q).isSome) :
    ∃ as, pushEdges t.nodes (·.shift k) adjoint es t.adjoints = .ok as ∧
      Changes t { t with adjoints := as } k (deposit adjoint es) := by
  induction es generalizing t with
  | nil => exact ⟨t.adjoints, rfl, SameRecord.refl t, fun j _ => by simp [deposit]⟩
  | cons e es ih =>
    obtain ⟨q, hq, hon⟩ := hes e List.mem_cons_self
    obtain ⟨node, hnode⟩ := Option.isSome_iff_exists.1 hon
    obtain ⟨a, ha⟩ := Option.isSome_iff_exists.1 (ht.isSome_adjoint hnode hk)
    have hchanges := ht.changes_modify hnode hk fun a => a + adjoint * e.weight
    obtain ⟨as, has, hrest⟩ := ih (hchanges.same.sound ht) hk
      fun d hd => hes d (List.mem_cons_of_mem _ hd)
    refine ⟨as, ?_, ?_⟩
    · simpa only [pushEdges, hq, hnode, ha] using has
    · simpa only [deposit, hq] using hchanges.trans hrest

theorem Sound.pushAdjoint_ok (ht : t.Sound) {p : Position} {node : Node}
    (hp : t.nodes.get? p = some node) (hedges : node.edgeCount ≠ 0) (hk : k < t.adjointCount) :
    ∃ as, t.pushAdjoint negligible node (·.shift k) t.adjoints = .ok as ∧
      Changes t { t with adjoints := as } k (t.pushFrom p) := by
  obtain ⟨a, ha⟩ := Option.isSome_iff_exists.1 (ht.isSome_adjoint hp hk)
  obtain ⟨es, hes, htargets⟩ := ht.edges_stored p node hp
  have hinputs : t.inputs p = es := by rw [inputs, edges?_eq hp, hes, Option.getD_some]
  have hne : es ≠ [] := fun h => hedges ((ht.inputs_eq_nil_iff hp).1 (hinputs.trans h))
  have hcolumn : t.column k p = a := by rw [column, ht.adjoint?_eq hp hk, ha, Option.getD_some]
  by_cases htiny : Scalar.abs a ≤ negligible
  · refine ⟨t.adjoints, by simp only [pushAdjoint, ha, hes, if_pos htiny], SameRecord.refl t, ?_⟩
    intro j hj
    split
    · next hjk => rw [pushFrom, hinputs, if_neg hne, if_pos (by rw [hjk, hcolumn]; exact htiny)]
    · rfl
  · obtain ⟨as, has, hpush⟩ := ht.pushEdges_ok hk a es fun e he => by
      obtain ⟨q, hq, -, hon⟩ := htargets e he
      exact ⟨q, hq, hon⟩
    have hclear := (hpush.same.sound ht).changes_modify hp hk fun _ => 0
    refine ⟨as.modify (node.adjoints.shift k) fun _ => 0, ?_, hpush.same.trans hclear.same, ?_⟩
    · simp only [pushAdjoint, ha, hes, if_neg htiny, has]
      rfl
    · intro j hj
      rw [(hpush.trans hclear).column_eq j hj]
      split
      · next hjk =>
        rw [pushFrom, hinputs, if_neg hne, if_neg (by rw [hjk, hcolumn]; exact htiny), hjk, hcolumn]
      · rfl

section Sweep

/-- All columns changed alike. -/
structure Sweeps (t t' : Tape R) (change : (Position → R) → Position → R) : Prop where
  same : SameRecord t t'
  column_eq : ∀ k < t.adjointCount, t'.column k = change (t.column k)

omit [Scalar R] in
theorem shift_zero : (fun p : Position => p.shift 0) = id := rfl

/-- A single adjoint is the first and last one of a row. -/
theorem pushNodeAdjoints_eq (t : Tape R) (tiny : R) (node : Node) (adjoints : Arena R) :
    t.pushNodeAdjoints tiny node adjoints = if node.edgeCount = 0 then .ok adjoints
      else (List.range t.adjointCount).foldlM (fun as k => t.pushAdjoint tiny node (·.shift k) as) adjoints := by
  unfold pushNodeAdjoints
  split
  · rfl
  · split
    · next hone =>
      rw [hone, List.range_one, List.foldlM_cons, shift_zero]
      simp only [List.foldlM_nil, bind_pure]
    · rfl

theorem Sound.pushNodeAdjoints_ok (ht : t.Sound) {p : Position} {node : Node}
    (hp : t.nodes.get? p = some node) :
    ∃ as, t.pushNodeAdjoints negligible node t.adjoints = .ok as ∧
      Sweeps t { t with adjoints := as } (t.pushFrom p) := by
  rw [pushNodeAdjoints_eq]
  split
  · next hedges =>
    have hinputs := (ht.inputs_eq_nil_iff hp).2 hedges
    exact ⟨t.adjoints, rfl, SameRecord.refl t, fun k _ => by rw [pushFrom, if_pos hinputs]⟩
  · next hedges =>
    -- The columns before the `n`-th one have been pushed.
    have hprefix : ∀ n ≤ t.adjointCount, ∃ as,
        (List.range n).foldlM (fun as k => t.pushAdjoint negligible node (·.shift k) as) t.adjoints = .ok as ∧
          SameRecord t { t with adjoints := as } ∧ ∀ j < t.adjointCount,
            ({ t with adjoints := as } : Tape R).column j =
              if j < n then t.pushFrom p (t.column j) else t.column j := by
      intro n
      induction n with
      | zero => exact fun _ => ⟨t.adjoints, rfl, SameRecord.refl t, by simp⟩
      | succ n ih =>
        intro hn
        obtain ⟨as, has, hsame, hcolumn⟩ := ih (by omega)
        obtain ⟨bs, hbs, hpush⟩ := (hsame.sound ht).pushAdjoint_ok (k := n) hp hedges hn
        refine ⟨bs, ?_, hsame.trans hpush.same, fun j hj => ?_⟩
        · rw [List.range_succ, List.foldlM_append, has]
          simp only [List.foldlM_cons, List.foldlM_nil, bind_pure]
          exact hbs
        · have hpushed : ({ t with adjoints := as } : Tape R).pushFrom p = t.pushFrom p := by
            funext c
            simp only [pushFrom, hsame.inputs_eq]
          rw [hpush.column_eq j hj, hcolumn j hj, hpushed]
          grind
    obtain ⟨as, has, hsame, hcolumn⟩ := hprefix t.adjointCount (Nat.le_refl _)
    exact ⟨as, has, hsame, fun k hk => by rw [hcolumn k hk, if_pos hk]⟩

theorem SameRecord.pushAll_eq {t' : Tape R} (h : SameRecord t t') (ps : List Position)
    (as : Position → R) : t'.pushAll ps as = t.pushAll ps as := by
  simp only [pushAll, pushFrom, h.inputs_eq]

/-- A sweep of nodes that are on the tape does not fail, and pushes each column. -/
theorem Sound.sweep_ok (ht : t.Sound) (entries : List (Position × Node))
    (h : ∀ x ∈ entries, t.nodes.get? x.1 = some x.2) :
    ∃ t', t.sweep (entries.map (·.2)) = .ok t' ∧ Sweeps t t' (t.pushAll (entries.map (·.1))) := by
  have hfold : ∃ as, (entries.map (·.2)).foldlM
      (fun as node => t.pushNodeAdjoints negligible node as) t.adjoints = .ok as ∧
        Sweeps t { t with adjoints := as } (t.pushAll (entries.map (·.1))) := by
    induction entries generalizing t with
    | nil => exact ⟨t.adjoints, rfl, SameRecord.refl t, fun _ _ => rfl⟩
    | cons x entries ih =>
      obtain ⟨as, has, hfirst⟩ := ht.pushNodeAdjoints_ok (h x List.mem_cons_self)
      obtain ⟨bs, hbs, hrest⟩ := ih (hfirst.same.sound ht) fun y hy => h y (List.mem_cons_of_mem _ hy)
      refine ⟨bs, ?_, hfirst.same.trans hrest.same, fun k hk => ?_⟩
      · rw [List.map_cons, List.foldlM_cons, has]
        exact hbs
      · rw [hrest.column_eq k hk, hfirst.column_eq k hk, hfirst.same.pushAll_eq]
        rfl
  obtain ⟨as, has, hsweeps⟩ := hfold
  exact ⟨{ t with adjoints := as }, by simp only [sweep, has], hsweeps⟩

/-- The positions that a backward walk of a range visits. -/
def visited (t : Tape R) (first last : Position) : List Position :=
  ((t.nodes.range first last).map (·.1)).reverse

theorem Sound.sweepRange_ok (ht : t.Sound) (first last : Position) :
    ∃ t', t.sweepRange first last = .ok t' ∧ Sweeps t t' (t.pushAll (t.visited first last)) := by
  obtain ⟨t', hok, hsweeps⟩ := ht.sweep_ok (t.nodes.range first last).reverse fun x hx =>
    ((Arena.mem_range ht.nodes_tidy).1 (List.mem_reverse.1 hx)).2.2
  rw [List.map_reverse] at hsweeps
  exact ⟨t', hok, hsweeps⟩

omit [Scalar R] in
theorem Sound.mem_visited (ht : t.Sound) {first last p : Position} :
    p ∈ t.visited first last ↔ first ≤ p ∧ p < last ∧ (t.nodes.get? p).isSome := by
  simp only [visited, List.mem_reverse, List.mem_map, Prod.exists, Arena.mem_range ht.nodes_tidy,
    Option.isSome_iff_exists]
  constructor
  · rintro ⟨q, node, ⟨hfirst, hlast, hq⟩, rfl⟩
    exact ⟨hfirst, hlast, node, hq⟩
  · rintro ⟨hfirst, hlast, node, hp⟩
    exact ⟨p, node, ⟨hfirst, hlast, hp⟩, rfl⟩

omit [Scalar R] in
theorem pairwise_visited (first last : Position) : (t.visited first last).Pairwise (· > ·) := by
  rw [visited, List.pairwise_reverse, List.pairwise_map]
  exact Arena.pairwise_range

section Entry

variable {n : Position}

theorem Sound.modifyAdjoint_ok (ht : t.Sound) (hn : (t.nodes.get? n).isSome) (hk : k < t.adjointCount) (f : R → R) :
    ∃ t', t.modifyAdjoint n k f = .ok t' ∧ Changes t t' k fun as => Function.update as n (f (as n)) := by
  obtain ⟨node, hnode⟩ := Option.isSome_iff_exists.1 hn
  refine ⟨_, ?_, ht.changes_modify hnode hk f⟩
  simp only [modifyAdjoint, ht.adjointPlace?_eq hnode hk]

theorem Sound.setAdjoint_ok (ht : t.Sound) (hn : (t.nodes.get? n).isSome) (hk : 0 < t.adjointCount) (s : R) :
    ∃ t', t.setAdjoint n s = .ok t' ∧ Changes t t' 0 fun as => Function.update as n s :=
  ht.modifyAdjoint_ok hn hk fun _ => s

theorem Sound.propagateToStart_eq (ht : t.Sound) (hn : (t.nodes.get? n).isSome) :
    t.propagateToStart n = t.sweepRange .start n.next := by
  simp [propagateToStart, contains, ht.nodes_tidy.contains_iff.2 hn]

theorem Sound.propagateToStart_ok (ht : t.Sound) (hn : (t.nodes.get? n).isSome) :
    ∃ t', t.propagateToStart n = .ok t' ∧ Sweeps t t' (t.pushAll (t.visited .start n.next)) := by
  rw [ht.propagateToStart_eq hn]
  exact ht.sweepRange_ok .start n.next

theorem Sound.propagateToMark_ok (ht : t.Sound) (hn : (t.nodes.get? n).isSome) (hmark : t.nodes.mark ≤ n) :
    ∃ t', t.propagateToMark n = .ok t' ∧ Sweeps t t' (t.pushAll (t.visited t.nodes.mark n.next)) := by
  obtain ⟨t', hok, hsweeps⟩ := ht.sweepRange_ok t.nodes.mark n.next
  refine ⟨t', ?_, hsweeps⟩
  simpa [propagateToMark, contains, ht.nodes_tidy.contains_iff.2 hn, hmark] using hok

end Entry

end Sweep

end Tape

end PayoffPricing
