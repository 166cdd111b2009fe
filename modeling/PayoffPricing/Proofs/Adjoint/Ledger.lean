import Mathlib.Data.List.Sort
import PayoffPricing.Proofs.Adjoint.Checkpoint
/-!
Arenas as lists. Under every history of operations an arena holds what a list with a checkpoint holds,
wherever the blocks end and whatever they held before a rewind.
-/

namespace PayoffPricing

namespace Arena

variable {α : Type} {a b : Arena α} {p : Position} {values : List α} {n : Nat} {v : α}

section Contents

variable {xs ys : List (Position × α)}

/-- Lists in the order of positions are determined by what they hold. -/
theorem eq_of_mem_iff (hx : xs.Pairwise fun x y => x.1 < y.1) (hy : ys.Pairwise fun x y => x.1 < y.1)
    (h : ∀ e, e ∈ xs ↔ e ∈ ys) : xs = ys := by
  have : Std.Irrefl fun x y : Position × α => x.1 < y.1 := ⟨fun x => lt_irrefl x.1⟩
  have : Std.Antisymm fun x y : Position × α => x.1 < y.1 := ⟨fun _ _ hxy hyx => absurd hyx hxy.asymm⟩
  exact hx.eq_of_mem_iff hy h

theorem mem_toList (ha : a.Tidy) : (p, v) ∈ a.toList ↔ a.get? p = some v := by
  rw [toList, mem_range ha]
  refine ⟨fun h => h.2.2, fun h => ⟨Position.start_le p, ha.lt_stop ?_, h⟩⟩
  rw [h]
  rfl

theorem toList_eq (ha : a.Tidy) (hx : xs.Pairwise fun x y => x.1 < y.1)
    (h : ∀ p v, (p, v) ∈ xs ↔ a.get? p = some v) : a.toList = xs :=
  eq_of_mem_iff pairwise_range hx fun ⟨p, v⟩ => by rw [mem_toList ha, h]

theorem range_eq_filter (ha : a.Tidy) (first last : Position) :
    a.range first last = a.toList.filter fun e => first ≤ e.1 ∧ e.1 < last := by
  refine eq_of_mem_iff pairwise_range (pairwise_range.filter _) fun ⟨p, v⟩ => ?_
  simp only [mem_range ha, List.mem_filter, mem_toList ha, decide_eq_true_eq]
  tauto

theorem toList_eq_flatMap (a : Arena α) :
    a.toList = (List.range (a.current + 1)).flatMap fun b => a.blockRange b 0 (a.items b).size := by
  have hlast : ∀ b, (if b = a.current then a.currentBlock.items.size
      else a.blocks[b]?.elim 0 (·.items.size)) = (a.items b).size := by
    intro b
    split
    · next h => rw [h, items_current]
    · rw [items]
      cases a.blocks[b]? <;> rfl
  change (List.range' 0 (min a.current a.current + 1)).flatMap (fun b => a.blockRange b (if b = 0 then 0 else 0)
    (if b = a.current then a.currentBlock.items.size else a.blocks[b]?.elim 0 (·.items.size))) = _
  simp only [hlast, ite_self, Nat.min_self, List.range_eq_range']

theorem length_blockRange : (a.blockRange n 0 (a.items n).size).length = (a.items n).size := by
  simp [blockRange_eq]

theorem length_eq (a : Arena α) : a.length = a.toList.length := by
  have hsizes : (a.blocks.toList.take (a.current + 1)).map (·.items.size) =
      (List.range (a.current + 1)).map fun b => (a.items b).size := by
    refine List.ext_getElem (by have := a.current_lt; simp; omega) fun i h₁ h₂ => ?_
    have hi : i < a.blocks.size := by
      simp at h₁
      omega
    simp [items, hi]
  have hfold : ∀ (bs : List (Block α)) (m : Nat),
      bs.foldl (fun n b => n + b.items.size) m = m + (bs.map (·.items.size)).sum := by
    intro bs
    induction bs with
    | nil => simp
    | cons b bs ih =>
      intro m
      rw [List.foldl_cons, ih, List.map_cons, List.sum_cons, Nat.add_assoc]
  rw [length, hfold, hsizes, toList_eq_flatMap, List.length_flatMap, Nat.zero_add]
  simp only [length_blockRange]

theorem take_blockRange {i k : Nat} (h : n ≤ k) : (a.blockRange i 0 k).take n = a.blockRange i 0 n := by
  rw [blockRange_eq, blockRange_eq]
  apply List.ext_getElem?
  intro j
  simp [List.getElem?_take]
  grind

theorem mem_mapIdx_shift {q : Position} : (p, v) ∈ values.mapIdx (fun j w => (q.shift j, w)) ↔
    Spans q values.length p ∧ values[p.slot - q.slot]? = some v := by
  rw [List.mem_mapIdx]
  constructor
  · rintro ⟨j, hj, heq⟩
    obtain ⟨rfl, rfl⟩ := Prod.mk.inj heq
    refine ⟨spans_shift.2 hj, ?_⟩
    simp [Position.shift, hj]
  · rintro ⟨⟨hblock, hle, hlt⟩, hv⟩
    obtain ⟨hj, rfl⟩ := List.getElem?_eq_some_iff.1 hv
    refine ⟨p.slot - q.slot, hj, Prod.ext (Position.eq_iff.2 ⟨hblock.symm, ?_⟩) rfl⟩
    change q.slot + (p.slot - q.slot) = p.slot
    omega

theorem size_giveBack (a : Arena α) (n : Nat) :
    (a.giveBack n).currentBlock.items.size = a.currentBlock.items.size - n := by
  have hcurrent : (a.giveBack n).current = a.current := rfl
  rw [← items_current, ← items_current, hcurrent, items_giveBack, if_pos rfl]
  simp

/-- What is given back is the end of the list. -/
theorem toList_giveBack (h : n ≤ a.currentBlock.items.size) :
    (a.giveBack n).toList = a.toList.take (a.toList.length - n) := by
  have hothers : ∀ i ∈ List.range a.current, (a.giveBack n).blockRange i 0 ((a.giveBack n).items i).size =
      a.blockRange i 0 (a.items i).size := by
    intro i hi
    have hne : i ≠ a.current := (List.mem_range.1 hi).ne
    rw [blockRange_eq, blockRange_eq, items_giveBack, if_neg hne]
  have hlast : (a.giveBack n).blockRange a.current 0 ((a.giveBack n).items a.current).size =
      (a.blockRange a.current 0 (a.items a.current).size).take ((a.items a.current).size - n) := by
    rw [take_blockRange (Nat.sub_le _ _), blockRange_eq, blockRange_eq, items_giveBack, if_pos rfl]
    simp
  have hcurrent : (a.giveBack n).current = a.current := rfl
  rw [toList_eq_flatMap, toList_eq_flatMap, hcurrent, List.range_succ, List.flatMap_append, List.flatMap_append,
    List.flatMap_congr hothers, List.flatMap_singleton, List.flatMap_singleton, hlast, List.length_append,
    length_blockRange, Nat.add_sub_assoc (by rwa [items_current]), List.take_length_add_append]

end Contents

/--
Elements with their positions, in the order they were issued. The first `kept` of them were there at the
checkpoint, and the last `recent` ones are what is left of the latest reservation.
-/
structure Ledger (α : Type) where
  entries : List (Position × α)
  kept : Nat
  recent : Nat

namespace Ledger

def empty : Ledger α := ⟨[], 0, 0⟩

/-- Appends elements that stand in a row from `p` on. -/
def append (l : Ledger α) (p : Position) (values : List α) : Ledger α :=
  ⟨l.entries ++ values.mapIdx fun j v => (p.shift j, v), l.kept, values.length⟩

def modify (l : Ledger α) (p : Position) (f : α → α) : Ledger α :=
  { l with entries := l.entries.map fun e => (e.1, if e.1 = p then f e.2 else e.2) }

/-- Drops the last `n` elements. -/
def pop (l : Ledger α) (n : Nat) : Ledger α :=
  ⟨l.entries.take (l.entries.length - n), l.kept, l.recent - n⟩

def setMark (l : Ledger α) : Ledger α := ⟨l.entries, l.entries.length, 0⟩

def rewindToMark (l : Ledger α) : Ledger α := ⟨l.entries.take l.kept, l.kept, 0⟩

/-- An element stands at `p`. -/
def Holds (l : Ledger α) (p : Position) : Prop := ∃ v, (p, v) ∈ l.entries

end Ledger

/-- The list `l` is what an arena holds, and knows what it held at its checkpoint. -/
structure Follows (l : Ledger α) (a : Arena α) : Prop where
  tidy : a.Tidy
  marked : a.Marked
  entries_eq : a.toList = l.entries
  kept_le : l.kept + l.recent ≤ l.entries.length
  kept_iff : ∀ (i : Nat) (e : Position × α), l.entries[i]? = some e → (e.1 < a.mark ↔ i < l.kept)
  recent_le : l.recent ≤ a.currentBlock.items.size
  mark_le : a.mark ≤ ⟨a.current, a.currentBlock.items.size - l.recent⟩

theorem follows_of_empty (ha : ∀ i, a.items i = #[]) (hmark : a.mark = .start) : Follows .empty a where
  tidy i _ := ha i
  marked := by
    constructor <;> (rw [hmark]; exact Nat.zero_le _)
  entries_eq := by
    refine toList_eq (fun i _ => ha i) List.Pairwise.nil fun p v => ?_
    simp [get?_eq, ha, Ledger.empty]
  kept_le := Nat.le_refl 0
  kept_iff i e he := by simp [Ledger.empty] at he
  recent_le := Nat.zero_le _
  mark_le := by
    rw [hmark]
    exact Position.start_le _

namespace Follows

variable {l : Ledger α}

theorem mem_iff (h : Follows l a) : (p, v) ∈ l.entries ↔ a.get? p = some v := by
  rw [← h.entries_eq, mem_toList h.tidy]

theorem pairwise (h : Follows l a) : l.entries.Pairwise fun x y => x.1 < y.1 := by
  rw [← h.entries_eq]
  exact pairwise_range

theorem holds_iff (h : Follows l a) : l.Holds p ↔ (a.get? p).isSome := by
  simp only [Ledger.Holds, h.mem_iff, Option.isSome_iff_exists]

theorem entries_appended (h : Follows l a) (hb : Appended a p values b) :
    b.toList = (l.append p values).entries := by
  refine toList_eq (hb.tidy h.tidy) (List.pairwise_append.2 ⟨h.pairwise, ?_, ?_⟩) fun q v => ?_
  · rw [List.pairwise_iff_getElem]
    intro i j hi hj hij
    simp only [List.getElem_mapIdx]
    exact .inr ⟨rfl, Nat.add_lt_add_left hij _⟩
  · intro x hx y hy
    obtain ⟨j, hj, rfl⟩ := List.mem_mapIdx.1 hy
    have hlt := hb.fresh x.1 (h.holds_iff.1 ⟨x.2, hx⟩)
    exact hlt.trans_le (.inr ⟨rfl, Nat.le_add_right _ _⟩)
  · rw [hb.get?_eq, Ledger.append, List.mem_append, h.mem_iff, mem_mapIdx_shift]
    by_cases hq : Spans p values.length q
    · -- Nothing was stored where the new elements go.
      have hnone : a.get? q ≠ some v := by
        intro hv
        have hlt := hb.fresh q (by rw [hv]; rfl)
        rw [Position.lt_iff] at hlt
        have := hq.1
        have := hq.2.1
        omega
      rw [if_pos hq]
      exact ⟨fun hv => hv.elim (fun hold => absurd hold hnone) And.right, fun hv => .inr ⟨hq, hv⟩⟩
    · rw [if_neg hq]
      exact ⟨fun hv => hv.elim id fun hnew => absurd hnew.1 hq, .inl⟩

theorem appended (h : Follows l a) (hb : Appended a p values b) : Follows (l.append p values) b where
  tidy := hb.tidy h.tidy
  marked := h.marked.appended hb
  entries_eq := h.entries_appended hb
  kept_le := by
    have := h.kept_le
    simp [Ledger.append]
    omega
  kept_iff i e he := by
    have hle := h.kept_le
    rw [hb.mark_eq]
    by_cases hi : i < l.entries.length
    · rw [Ledger.append, List.getElem?_append_left hi] at he
      exact h.kept_iff i e he
    · rw [Ledger.append, List.getElem?_append_right (by omega), List.getElem?_mapIdx] at he
      obtain ⟨v, -, rfl⟩ := Option.map_eq_some_iff.1 he
      have hmark : a.mark ≤ p.shift (i - l.entries.length) :=
        (h.marked.mark_le hb).trans (.inr ⟨rfl, Nat.le_add_right _ _⟩)
      constructor
      · exact fun hlt => absurd hlt hmark.not_gt
      · intro hlt
        have : i < l.kept := hlt
        omega
  recent_le := by
    rw [← items_current, hb.items_eq, if_pos hb.block_eq.symm]
    simp [Ledger.append]
  mark_le := by
    have hsize : b.currentBlock.items.size - values.length = p.slot := by
      rw [← items_current, hb.items_eq, if_pos hb.block_eq.symm, hb.slot_eq, hb.block_eq]
      simp
    have hp : p = ⟨b.current, b.currentBlock.items.size - values.length⟩ :=
      Position.eq_iff.2 ⟨hb.block_eq, hsize.symm⟩
    rw [hb.mark_eq]
    exact (h.marked.mark_le hb).trans hp.le

theorem modify (h : Follows l a) (f : α → α) : Follows (l.modify p f) (a.modify p f) := by
  have hshape := shape_modify a p f
  have hsize : ∀ i, ((a.modify p f).items i).size = (a.items i).size := size_items_of_shape hshape
  have htidy : (a.modify p f).Tidy := tidy_of_shape hshape h.tidy
  have hcurrent : (a.modify p f).currentBlock.items.size = a.currentBlock.items.size := by
    rw [← items_current, ← items_current]
    exact hsize a.current
  refine ⟨htidy, ⟨h.marked.block_le, ?_⟩, toList_eq htidy (List.pairwise_map.2 h.pairwise) fun q v => ?_, ?_, ?_, ?_, ?_⟩
  · rw [hsize]
    exact h.marked.slot_le
  · rw [get?_modify, Ledger.modify]
    simp only [List.mem_map, Prod.exists, h.mem_iff, Prod.mk.injEq]
    split
    · next hq =>
      subst hq
      rw [Option.map_eq_some_iff]
      exact ⟨fun ⟨_, w, hw, hp, hv⟩ => ⟨w, hp ▸ hw, by rw [← hv, if_pos hp]⟩,
        fun ⟨w, hw, hv⟩ => ⟨q, w, hw, rfl, by rw [if_pos rfl, hv]⟩⟩
    · next hq =>
      exact ⟨fun ⟨_, w, hw, hp, hv⟩ => by rw [← hp, ← hv, if_neg (hp ▸ hq), hw],
        fun hv => ⟨q, v, hv, rfl, if_neg hq⟩⟩
  · rw [Ledger.modify, List.length_map]
    exact h.kept_le
  · intro i e he
    rw [Ledger.modify, List.getElem?_map] at he
    obtain ⟨old, hold, rfl⟩ := Option.map_eq_some_iff.1 he
    exact h.kept_iff i old hold
  · rw [hcurrent]
    exact h.recent_le
  · rw [hcurrent]
    exact h.mark_le

theorem pop (h : Follows l a) (hn : n ≤ l.recent) : Follows (l.pop n) (a.giveBack n) where
  tidy := by
    intro i hi
    have hi : a.current < i := hi
    rw [items_giveBack, if_neg (by omega)]
    exact h.tidy i hi
  marked := by
    refine ⟨h.marked.block_le, ?_⟩
    have hslot := h.marked.slot_le
    have hmark := h.mark_le
    change a.mark.slot ≤ ((a.giveBack n).items a.mark.block).size
    rw [items_giveBack]
    split
    · next hb =>
      simp only [Position.le_iff, hb, items_current] at hmark ⊢
      simp
      omega
    · exact hslot
  entries_eq := by
    rw [toList_giveBack (hn.trans h.recent_le), h.entries_eq]
    rfl
  kept_le := by
    have := h.kept_le
    simp [Ledger.pop]
    omega
  kept_iff i e he := by
    rw [Ledger.pop, List.getElem?_take] at he
    exact h.kept_iff i e (Option.ite_none_right_eq_some.1 he).2
  recent_le := by
    have := h.recent_le
    rw [size_giveBack]
    exact Nat.sub_le_sub_right this n
  mark_le := by
    have hsize : a.currentBlock.items.size - n - (l.recent - n) = a.currentBlock.items.size - l.recent := by omega
    rw [size_giveBack]
    change a.mark ≤ ⟨a.current, a.currentBlock.items.size - n - (l.recent - n)⟩
    rw [hsize]
    exact h.mark_le

theorem setMark (h : Follows l a) : Follows l.setMark a.setMark where
  tidy := h.tidy
  marked := marked_setMark a
  entries_eq := h.entries_eq
  kept_le := Nat.le_refl _
  kept_iff i e he := by
    have hi := (List.getElem?_eq_some_iff.1 he).1
    have hlt : e.1 < a.stop := h.tidy.lt_stop (h.holds_iff.1 ⟨e.2, List.mem_of_getElem? he⟩)
    exact iff_of_true hlt hi
  recent_le := Nat.zero_le _
  mark_le := le_refl _

theorem rewindToMark (h : Follows l a) : Follows l.rewindToMark a.rewindToMark where
  tidy := tidy_rewindToMark h.tidy h.marked
  marked := h.marked.rewindToMark h.tidy
  entries_eq := by
    refine toList_eq (tidy_rewindToMark h.tidy h.marked) (h.pairwise.sublist (List.take_sublist _ _)) fun q v => ?_
    rw [get?_rewindToMark h.tidy h.marked, Option.ite_none_right_eq_some, ← h.mem_iff, List.mem_iff_getElem?,
      List.mem_iff_getElem?]
    simp only [Ledger.rewindToMark, List.getElem?_take, Option.ite_none_right_eq_some]
    constructor
    · rintro ⟨i, hi, he⟩
      exact ⟨(h.kept_iff i _ he).2 hi, i, he⟩
    · rintro ⟨hlt, i, he⟩
      exact ⟨i, (h.kept_iff i _ he).1 hlt, he⟩
  kept_le := by
    have := h.kept_le
    simp [Ledger.rewindToMark]
    omega
  kept_iff i e he := by
    rw [Ledger.rewindToMark, List.getElem?_take] at he
    rw [mark_rewindToMark]
    exact h.kept_iff i e (Option.ite_none_right_eq_some.1 he).2
  recent_le := Nat.zero_le _
  mark_le := by
    have hstop := stop_rewindToMark h.tidy h.marked
    rw [mark_rewindToMark, ← hstop]
    exact le_refl _

end Follows

theorem follows_rewind (a : Arena α) : Follows .empty a.rewind := follows_of_empty (items_rewind a) rfl

theorem follows_empty (k : Nat) (hk : 0 < k) : Follows .empty (empty k hk : Arena α) :=
  follows_of_empty (fun _ => items_empty k hk) rfl

/-- The histories of an arena in blocks of `k` elements, beside the list that the same operations drive. -/
inductive History (d : α) (k : Nat) (hk : 0 < k) : Arena α → Ledger α → Prop
  | start : History d k hk (empty k hk) .empty
  | push {a : Arena α} {l : Ledger α} (h : History d k hk a l) (v : α) :
      History d k hk (a.push v).2 (l.append (a.push v).1 [v])
  | reserve {a : Arena α} {l : Ledger α} (h : History d k hk a l) (n : Nat) :
      History d k hk (a.reserve n d).2 (l.append (a.reserve n d).1 (List.replicate n d))
  | modify {a : Arena α} {l : Ledger α} (h : History d k hk a l) (p : Position) (hp : l.Holds p) (f : α → α) :
      History d k hk (a.modify p f) (l.modify p f)
  | pop {a b : Arena α} {l : Ledger α} (h : History d k hk a l) (n : Nat) (hn : n ≤ l.recent) (hb : a.pop n = .ok b) :
      History d k hk b (l.pop n)
  | setMark {a : Arena α} {l : Ledger α} (h : History d k hk a l) : History d k hk a.setMark l.setMark
  | rewindToMark {a : Arena α} {l : Ledger α} (h : History d k hk a l) :
      History d k hk a.rewindToMark l.rewindToMark
  | rewind {a : Arena α} {l : Ledger α} (h : History d k hk a l) : History d k hk a.rewind .empty
  | clear {a : Arena α} {l : Ledger α} (h : History d k hk a l) : History d k hk a.clear .empty

theorem pop_eq {n : Nat} (h : n ≤ a.currentBlock.items.size) : a.pop n = .ok (a.giveBack n) := if_pos h

theorem History.follows {d : α} {k : Nat} {hk : 0 < k} {l : Ledger α} (h : History d k hk a l) : Follows l a := by
  induction h with
  | start => exact follows_empty k hk
  | push _ v ih => exact ih.appended (appended_push ih.tidy)
  | reserve _ n ih => exact ih.appended (appended_reserve ih.tidy)
  | modify _ p _ f ih => exact ih.modify f
  | pop _ n hn hb ih =>
    rw [pop_eq (hn.trans ih.recent_le)] at hb
    obtain rfl := Except.ok.inj hb
    exact ih.pop hn
  | setMark _ ih => exact ih.setMark
  | rewindToMark _ ih => exact ih.rewindToMark
  | rewind _ _ => exact follows_rewind _
  | clear _ _ => exact follows_empty _ _

/-- What can be read off an arena is what can be read off the list. -/
structure Mirrors (d : α) (a : Arena α) (l : Ledger α) : Prop where
  toList_eq : a.toList = l.entries
  length_eq : a.length = l.entries.length
  get?_eq : ∀ p v, (p, v) ∈ l.entries ↔ a.get? p = some v
  increasing : l.entries.Pairwise fun x y => x.1 < y.1
  contains_iff : ∀ p, a.contains p = true ↔ l.Holds p
  slice?_reserve : ∀ n, (a.reserve n d).2.slice? (a.reserve n d).1 n = some (List.replicate n d)
  find?_eq : ∀ f : α → Bool, a.find? f = (l.entries.filter fun e => f e.2).getLast?.map (·.1)
  range_eq : ∀ first last, a.range first last = l.entries.filter fun e => first ≤ e.1 ∧ e.1 < last
  pop_ok : ∀ n ≤ l.recent, ∃ b, a.pop n = .ok b

/-- An arena is a list with a checkpoint. -/
theorem mirrors_of_history {d : α} {k : Nat} {hk : 0 < k} {l : Ledger α} (h : History d k hk a l) : Mirrors d a l := by
  have hf := h.follows
  have hreserve := fun n => (appended_reserve hf.tidy (n := n) (v := d)).slice?_eq
  refine {
    toList_eq := hf.entries_eq
    length_eq := by rw [length_eq, hf.entries_eq]
    get?_eq := fun p v => hf.mem_iff
    increasing := hf.pairwise
    contains_iff := fun p => by rw [hf.tidy.contains_iff, hf.holds_iff]
    slice?_reserve := fun n => by simpa using hreserve n
    find?_eq := fun f => ?_
    range_eq := fun first last => by rw [range_eq_filter hf.tidy, hf.entries_eq]
    pop_ok := fun n hn => ⟨_, pop_eq (hn.trans hf.recent_le)⟩ }
  rw [find?, hf.entries_eq, List.getLast?_filter]

/-- A reservation that gets an oversized block, is written to, cut and dropped, and another one in its place. -/
theorem mirrors_reserved_again : ∃ (a : Arena Nat) (l : Ledger Nat), Mirrors 0 a l ∧ l.recent = 3 ∧
    l.entries = [(⟨0, 0⟩, 7), (⟨1, 0⟩, 0), (⟨1, 1⟩, 0), (⟨1, 2⟩, 0)] := by
  have hstart : History 0 2 (by decide) (empty 2 (by decide)) .empty := .start
  have hreserved := ((hstart.push 7).setMark).reserve 5
  have hwritten := hreserved.modify ⟨1, 0⟩ ⟨0, by decide⟩ fun _ => 9
  have hcut := hwritten.pop 2 (by decide) rfl
  have hagain := hcut.rewindToMark.reserve 3
  exact ⟨_, _, mirrors_of_history hagain, by decide, by decide⟩

end Arena

end PayoffPricing
