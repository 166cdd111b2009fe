import PayoffPricing.Proofs.Adjoint.OneNode
/-!
Merging in place. A pass over the sorted edges reads ahead of the place where it writes and leaves the merged edges in
front. What is left of the room behind them is given back, so the tape is the one that stores the merged edges only.
-/

namespace PayoffPricing

namespace Edge

variable {R : Type} [Scalar R]

/-- One step of the pass: reads the edge at `i`; the second component counts the edges in front that are done. -/
def compactAt (s : Array (Edge R) × Nat) (i : Nat) : Array (Edge R) × Nat :=
  match s.1[i]? with
  | none => s
  | some e =>
    if e.target = none then s
    else if 0 < s.2 ∧ s.1[s.2 - 1]?.bind target = e.target then
      (s.1.modify (s.2 - 1) fun d => ⟨d.weight + e.weight, d.target⟩, s.2)
    else (s.1.setIfInBounds s.2 e, s.2 + 1)

/-- Merges sorted edges in place, and counts the edges that are left in front. -/
def compact (edges : Array (Edge R)) : Array (Edge R) × Nat := (List.range edges.size).foldl compactAt (edges, 0)

/-- One more edge behind runs that are summed already. -/
def addRun (ds : List (Edge R)) (e : Edge R) : List (Edge R) :=
  if 0 < ds.length ∧ ds[ds.length - 1]?.bind target = e.target then
    ds.modify (ds.length - 1) fun d => ⟨d.weight + e.weight, d.target⟩
  else ds ++ [e]

theorem sumRuns_cons_ne_nil (e : Edge R) (es : List (Edge R)) : sumRuns (e :: es) ≠ [] := by
  intro h
  obtain ⟨d, hd, -⟩ := exists_mem_sumRuns ⟨e, List.mem_cons_self, rfl⟩
  rw [h] at hd
  cases hd

theorem addRun_cons {ds : List (Edge R)} (h : ds ≠ []) (d e : Edge R) : addRun (d :: ds) e = d :: addRun ds e := by
  obtain ⟨n, hn⟩ : ∃ n, ds.length = n + 1 := Nat.exists_eq_succ_of_ne_zero (List.length_eq_zero_iff.not.2 h)
  simp only [addRun, List.length_cons, hn, Nat.add_sub_cancel, Nat.succ_pos, true_and, List.getElem?_cons_succ,
    List.modify_succ_cons]
  split <;> rfl

theorem sumRuns_concat (es : List (Edge R)) (e : Edge R) :
    sumRuns (es ++ [e]) = addRun (sumRuns es) e := by
  fun_induction sumRuns es with
  | case1 => simp [sumRuns, addRun]
  | case2 d =>
    by_cases h : d.target = e.target
    · simp [sumRuns, addRun, h]
    · simp [sumRuns, addRun, h]
  | case3 d f rest h ih =>
    rw [List.cons_append, List.cons_append, sumRuns, if_pos h]
    exact ih
  | case4 d f rest h ih =>
    rw [List.cons_append, List.cons_append, sumRuns, if_neg h, addRun_cons (sumRuns_cons_ne_nil f rest)]
    exact congrArg _ ih

omit [Scalar R] in
theorem take_succ_set {es : List (Edge R)} {n : Nat} (h : n < es.length) (e : Edge R) :
    (es.set n e).take (n + 1) = es.take n ++ [e] := by
  rw [List.take_succ_eq_append_getElem (by simpa using h), List.getElem_set_self, List.take_set_of_le (Nat.le_refl n)]

/-- The pass has read the first `i` edges. What it has not read yet is as it was. -/
structure Compacting (es : List (Edge R)) (i : Nat) (s : Array (Edge R) × Nat) : Prop where
  size_eq : s.1.size = es.length
  done_le : s.2 ≤ i
  ahead : s.1.toList.drop i = es.drop i
  front : s.1.toList.take s.2 = sumRuns ((es.take i).filter isActive)

theorem Compacting.step {es : List (Edge R)} {i : Nat} {s : Array (Edge R) × Nat} (h : Compacting es i s)
    (hi : i < es.length) : Compacting es (i + 1) (compactAt s i) := by
  obtain ⟨room, done⟩ := s
  obtain ⟨hsize, hdone, hahead, hfront⟩ := h
  dsimp only at hsize hdone hahead hfront
  have hread : room[i]? = some es[i] := by
    have h := congrArg List.head? hahead
    rwa [List.head?_drop, List.head?_drop, Array.getElem?_toList, List.getElem?_eq_getElem hi] at h
  have hlater : ∀ ys : Array (Edge R), (∀ j, i < j → ys[j]? = room[j]?) → ys.toList.drop (i + 1) = es.drop (i + 1) := by
    intro ys hys
    have htail := congrArg List.tail hahead
    rw [List.tail_drop, List.tail_drop] at htail
    rw [← htail]
    refine List.ext_getElem? fun j => ?_
    rw [List.getElem?_drop, List.getElem?_drop, Array.getElem?_toList, Array.getElem?_toList, hys _ (by omega)]
  have htake : (es.take (i + 1)).filter isActive = (es.take i).filter isActive ++ [es[i]].filter isActive := by
    rw [List.take_succ_eq_append_getElem hi, List.filter_append]
  have hlength : (room.toList.take done).length = done := by
    rw [List.length_take, Array.length_toList]
    omega
  simp only [compactAt, hread]
  by_cases hnone : es[i].target = none
  · have hpassive : [es[i]].filter isActive = [] := by simp [isActive, hnone]
    rw [if_pos hnone]
    refine ⟨hsize, by omega, hlater room fun j _ => rfl, ?_⟩
    rw [hfront, htake, hpassive, List.append_nil]
  · have hactive : es[i].isActive = true := Option.isSome_iff_ne_none.2 hnone
    have hkept : [es[i]].filter isActive = [es[i]] := List.filter_cons_of_pos hactive
    have hnext : sumRuns ((es.take (i + 1)).filter isActive) = addRun (room.toList.take done) es[i] := by
      rw [htake, hkept, sumRuns_concat, hfront]
    have hlast : 0 < done → (room.toList.take done)[done - 1]? = room[done - 1]? := fun h => by
      rw [List.getElem?_take_of_lt (by omega), Array.getElem?_toList]
    rw [if_neg hnone]
    by_cases hsame : 0 < done ∧ room[done - 1]?.bind target = es[i].target
    · rw [if_pos hsame]
      refine ⟨by simpa using hsize, Nat.le_succ_of_le hdone, hlater _ fun j hj => ?_, ?_⟩
      · rw [Array.getElem?_modify, if_neg (by omega)]
      · rw [hnext, addRun, hlength, hlast hsame.1, if_pos hsame, Array.toList_modify, List.take_modify]
    · rw [if_neg hsame]
      refine ⟨by simpa using hsize, Nat.succ_le_succ hdone, hlater _ fun j hj => ?_, ?_⟩
      · rw [Array.getElem?_setIfInBounds_ne (by omega)]
      · have hno : ¬(0 < done ∧ (room.toList.take done)[done - 1]?.bind target = es[i].target) := fun h =>
          hsame ⟨h.1, hlast h.1 ▸ h.2⟩
        have hwithin : done < room.toList.length := by
          rw [Array.length_toList]
          omega
        rw [hnext, addRun, hlength, if_neg hno, Array.toList_setIfInBounds, take_succ_set hwithin]

theorem compacting_compact (es : List (Edge R)) : Compacting es es.length (compact es.toArray) := by
  have hrun : ∀ i ≤ es.length, Compacting es i ((List.range i).foldl compactAt (es.toArray, 0)) := by
    intro i
    induction i with
    | zero => exact fun _ => ⟨rfl, Nat.le_refl 0, rfl, by simp [sumRuns]⟩
    | succ i ih =>
      intro hi
      rw [List.range_succ, List.foldl_append]
      exact (ih (by omega)).step hi
  exact hrun es.length (Nat.le_refl _)

theorem length_compact_front (es : List (Edge R)) : (sumRuns (es.filter isActive)).length = (compact es.toArray).2 := by
  have h := compacting_compact es
  have hfront := h.front
  have hsize := h.size_eq
  have hdone := h.done_le
  rw [List.take_length] at hfront
  rw [← hfront, List.length_take, Array.length_toList]
  omega

omit [Scalar R] in
theorem filter_insertByTarget {e : Edge R} {ds : List (Edge R)} (h : ∀ d ∈ ds, Before e d) :
    (insertByTarget e ds).filter isActive = (e :: ds).filter isActive := by
  induction ds with
  | nil => rfl
  | cons d ds ih =>
    obtain ⟨hd, hds⟩ := List.forall_mem_cons.1 h
    simp only [insertByTarget]
    cases he : e.target with
    | none => rfl
    | some p =>
      cases hdt : d.target with
      | none =>
        -- a constant that stays in front is no active edge
        have hpassive : ¬d.isActive = true := by simp [isActive, hdt]
        have hactive : e.isActive = true := by simp [isActive, he]
        rw [if_neg Bool.false_ne_true, List.filter_cons_of_neg hpassive, ih hds, List.filter_cons_of_pos hactive,
          List.filter_cons_of_pos hactive, List.filter_cons_of_neg hpassive]
      | some q => rw [if_pos (decide_eq_true (hd p he q hdt))]

omit [Scalar R] in
theorem filter_sortByTarget {es : List (Edge R)} (h : es.Pairwise Before) :
    (sortByTarget es).filter isActive = es.filter isActive := by
  induction es with
  | nil => rfl
  | cons e es ih =>
    obtain ⟨he, hes⟩ := List.pairwise_cons.1 h
    have hsort : ∀ d ∈ sortByTarget es, Before e d := fun d hd => he d ((perm_sortByTarget es).mem_iff.1 hd)
    change (insertByTarget e (sortByTarget es)).filter isActive = _
    rw [filter_insertByTarget hsort, List.filter_cons, List.filter_cons, ih hes]

/-- Edges that are sorted already are merged by adding up their runs. -/
theorem merge_of_sorted {es : List (Edge R)} (h : es.Pairwise Before) : merge es = sumRuns (es.filter isActive) := by
  rw [merge, filter_sortByTarget h]

end Edge

section Exact

variable {R : Type} [ExactScalar R] {es ds : List (Edge R)} {F : Position → R}

theorem Edge.weigh_perm (h : es.Perm ds) : weigh F es = weigh F ds := (h.map _).sum_eq

omit [ExactScalar R] in
theorem Edge.targets_perm (h : es.Perm ds) : targets es = targets ds := by
  ext p
  simp only [mem_targets, h.mem_iff]

theorem Edge.merge_perm (h : es.Perm ds) : merge es = merge ds := by
  rw [merge_eq, merge_eq, targets_perm h]
  simp only [weigh_perm h]

end Exact

namespace Arena

variable {α : Type} {a b : Arena α} {n : Nat} {v : α} {values room : List α}

theorem capacities_modifyBlock (a : Arena α) (i : Nat) {f : Block α → Block α} (hf : ∀ b, (f b).capacity = b.capacity) :
    (a.modifyBlock i f).blocks.map Block.capacity = a.blocks.map Block.capacity := by
  refine Array.ext_getElem? fun j => ?_
  simp only [modifyBlock, Array.getElem?_map, Array.getElem?_modify]
  split
  · cases a.blocks[j]? with
    | none => rfl
    | some b => exact congrArg some (hf b)
  · rfl

theorem capacities_write (a : Arena α) (p : Position) (values : List α) :
    (a.write p values).blocks.map Block.capacity = a.blocks.map Block.capacity :=
  capacities_modifyBlock _ _ fun _ => rfl

theorem capacities_giveBack (a : Arena α) (n : Nat) :
    (a.giveBack n).blocks.map Block.capacity = a.blocks.map Block.capacity :=
  capacities_modifyBlock _ _ fun _ => rfl

/-- An arena is what its blocks have room for and hold, and how it goes on. -/
theorem ext_of_items (hcapacity : a.blocks.map Block.capacity = b.blocks.map Block.capacity)
    (hitems : ∀ i, a.items i = b.items i) (hsize : a.blockSize = b.blockSize) (hcurrent : a.current = b.current)
    (hmark : a.mark = b.mark) : a = b := by
  have hblocks : a.blocks = b.blocks := by
    refine Array.ext_getElem? fun i => ?_
    have hroom := congrArg (·[i]?) hcapacity
    have hi := hitems i
    simp only [Array.getElem?_map] at hroom
    simp only [items] at hi
    cases ha : a.blocks[i]? with
    | none =>
      rw [ha, Option.map_none] at hroom
      exact (Option.map_eq_none_iff.1 hroom.symm).symm
    | some c =>
      rw [ha, Option.map_some] at hroom
      obtain ⟨d, hd, hdc⟩ := Option.map_eq_some_iff.1 hroom.symm
      rw [ha, hd, Option.elim_some, Option.elim_some] at hi
      rw [hd]
      cases c
      cases d
      cases hi
      cases hdc
      rfl
  cases a
  cases b
  cases hblocks
  cases hsize
  cases hcurrent
  cases hmark
  rfl

/-- Whether all the room is written before the rest is given back, or only what stays. -/
theorem write_giveBack (ha : a.Tidy) (hroom : room.length = n) (hvalues : values.length ≤ n)
    (hfront : room.take values.length = values) :
    ((a.reserve n v).2.write (a.reserve n v).1 room).giveBack (n - values.length) =
      ((a.reserve n v).2.write (a.reserve n v).1 values).giveBack (n - values.length) := by
  apply ext_of_items
  · rw [capacities_giveBack, capacities_write, capacities_giveBack, capacities_write]
  · intro i
    rw [items_store ha hvalues, items_giveBack, items_write ha hroom.le]
    change (if i = (a.reserve n v).1.block then _ else _) = _
    split
    · have hsize : (a.items i ++ room.toArray).size - (n - values.length) =
          (a.items i).toList.length + values.length := by
        simp only [Array.size_append, List.size_toArray, Array.length_toList, hroom]
        omega
      rw [hroom, Nat.sub_self, Array.replicate_zero, Array.append_empty, hsize, ← Array.toList_inj,
        Array.toList_extract, List.extract_eq_take_drop, Array.toList_append, Array.toList_append, List.drop_zero, Nat.sub_zero,
        List.take_length_add_append, List.toList_toArray, List.toList_toArray, hfront]
    · rfl
  · rfl
  · rfl
  · rfl

end Arena

namespace Tape

variable {R : Type} [Scalar R]

/-- Records a whole formula in place: `sorted` is what sorting has made of the edges that were written in the room. -/
def recordInPlace (t : Tape R) (sorted : List (Edge R)) : Position × Tape R :=
  let (slot, edges) := t.edges.reserve sorted.length vacant
  let (room, kept) := Edge.compact sorted.toArray
  let edges := (edges.write slot room.toList).giveBack (sorted.length - kept)
  pushNode ⟨t.nodes, edges, t.adjoints, t.adjointCount⟩ kept slot

theorem recordInPlace_eq_of_sorted {t : Tape R} (ht : t.edges.Tidy) {sorted : List (Edge R)}
    (hsorted : sorted.Pairwise Edge.Before) : t.recordInPlace sorted = t.recordFolded sorted := by
  have hpass := Edge.compacting_compact sorted
  have hlength := Edge.length_compact_front sorted
  have hfront := hpass.front
  rw [List.take_length, ← hlength] at hfront
  have hle : (Edge.sumRuns (sorted.filter Edge.isActive)).length ≤ sorted.length := hlength ▸ hpass.done_le
  have hroom : (Edge.compact sorted.toArray).1.toList.length = sorted.length := hpass.size_eq
  simp only [recordInPlace, recordFolded, Edge.merge_of_sorted hsorted, ← hlength,
    Arena.write_giveBack ht hroom hle hfront]

end Tape

/-- However the sort puts edges of one target in order, the node recorded in place is the one with the merged edges. -/
theorem Tape.recordInPlace_eq {R : Type} [ExactScalar R] {t : Tape R} (ht : t.edges.Tidy)
    {sorted candidates : List (Edge R)} (hperm : sorted.Perm candidates) (hsorted : sorted.Pairwise Edge.Before) :
    t.recordInPlace sorted = t.recordFolded candidates := by
  rw [recordInPlace_eq_of_sorted ht hsorted]
  simp only [recordFolded, Edge.merge_perm hperm, hperm.length_eq]

end PayoffPricing
