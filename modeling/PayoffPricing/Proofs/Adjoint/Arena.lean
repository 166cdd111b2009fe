import Mathlib.Order.Defs.LinearOrder
import Mathlib.Order.WellFounded
import Mathlib.Data.List.Range
import PayoffPricing.Adjoint.Arena
/-!
What is stored in an arena. Storing never disturbs what is there already, and the elements of a
range come in the order of their positions.
-/

namespace PayoffPricing

namespace Position

theorem lt_iff {p q : Position} :
    p < q ↔ p.block < q.block ∨ (p.block = q.block ∧ p.slot < q.slot) := Iff.rfl

theorem le_iff {p q : Position} :
    p ≤ q ↔ p.block < q.block ∨ (p.block = q.block ∧ p.slot ≤ q.slot) := Iff.rfl

theorem eq_iff {p q : Position} : p = q ↔ p.block = q.block ∧ p.slot = q.slot := by
  cases p
  cases q
  simp

instance : LinearOrder Position where
  le_refl p := by rw [le_iff]; omega
  le_trans p q r := by simp only [le_iff]; omega
  le_antisymm p q := by simp only [le_iff, eq_iff]; omega
  le_total p q := by simp only [le_iff]; omega
  lt_iff_le_not_ge p q := by simp only [le_iff, lt_iff]; omega
  toDecidableLE := inferInstance
  toDecidableEq := inferInstance
  toDecidableLT := inferInstance

instance : WellFoundedLT Position where
  wf := by
    have h : ∀ {p q : Position}, p < q → Prod.Lex (· < ·) (· < ·) (p.block, p.slot) (q.block, q.slot) := by
      intro p q hpq
      rw [Prod.lex_def]
      exact hpq
    exact Subrelation.wf h (InvImage.wf _ (Prod.lex (Nat.lt_wfRel) (Nat.lt_wfRel)).wf)

theorem start_le (p : Position) : start ≤ p := by
  simp only [le_iff, start]
  omega

theorem lt_next_iff {p q : Position} : p < q.next ↔ p ≤ q := by
  simp only [lt_iff, le_iff, next]
  omega

theorem next_le_iff {p q : Position} : p.next ≤ q ↔ p < q := by
  simp only [lt_iff, le_iff, next]
  omega

end Position

namespace Arena

variable {α : Type} {a : Arena α} {p q : Position} {n i : Nat} {v : α}

/-- The elements of a block; there are none in a block that is not there. -/
def items (a : Arena α) (i : Nat) : Array α := a.blocks[i]?.elim #[] (·.items)

/-- Blocks behind the current one are empty. -/
def Tidy (a : Arena α) : Prop := ∀ i, a.current < i → a.items i = #[]

/-- The position is one of the `n` positions from `p` on. -/
def Spans (p : Position) (n : Nat) (q : Position) : Prop :=
  q.block = p.block ∧ p.slot ≤ q.slot ∧ q.slot < p.slot + n

instance (p : Position) (n : Nat) (q : Position) : Decidable (Spans p n q) :=
  inferInstanceAs (Decidable (_ ∧ _ ∧ _))

theorem spans_shift {k : Nat} : Spans p n (p.shift k) ↔ k < n := by
  simp [Spans, Position.shift]

theorem get?_eq : a.get? p = (a.items p.block)[p.slot]? := by
  simp only [get?, items]
  cases a.blocks[p.block]? <;> simp

theorem isSome_get?_iff : (a.get? p).isSome ↔ p.slot < (a.items p.block).size := by
  simp [get?_eq]

theorem items_current (a : Arena α) : a.items a.current = a.currentBlock.items := by
  simp [items, Array.getElem?_eq_getElem a.current_lt, currentBlock]

theorem slice?_eq_some_iff {l : List α} : a.slice? p n = some l ↔
    p.block < a.blocks.size ∧ p.slot + n ≤ (a.items p.block).size ∧
      ((a.items p.block).extract p.slot (p.slot + n)).toList = l := by
  by_cases h : p.block < a.blocks.size
  · simp [slice?, items, h]
  · simp [slice?, h]

theorem items_empty (blockSize : Nat) (h : 0 < blockSize) :
    (empty blockSize h : Arena α).items i = #[] := by
  cases i <;> simp [items, empty, Block.empty]

theorem tidy_empty (blockSize : Nat) (h : 0 < blockSize) : (empty blockSize h : Arena α).Tidy :=
  fun _ _ => items_empty blockSize h

/-- Nothing is stored at the end of an arena or behind it. -/
theorem Tidy.lt_stop (ha : a.Tidy) (h : (a.get? p).isSome) : p < a.stop := by
  rw [isSome_get?_iff] at h
  rw [Position.lt_iff]
  by_cases hc : a.current < p.block
  · simp [ha _ hc] at h
  · by_cases he : p.block = a.current
    · rw [he, items_current] at h
      exact .inr ⟨he, h⟩
    · exact .inl (by simp only [stop]; omega)

theorem Tidy.contains_iff (ha : a.Tidy) : a.contains p = true ↔ (a.get? p).isSome := by
  have hany : (a.blocks[p.block]?.any fun b => decide (p.slot < b.items.size)) = true ↔
      (a.get? p).isSome := by
    rw [isSome_get?_iff, items]
    cases a.blocks[p.block]? <;> simp
  rw [contains, Bool.and_eq_true, hany, decide_eq_true_eq]
  refine ⟨And.right, fun h => ⟨?_, h⟩⟩
  have hlt := ha.lt_stop h
  simp only [Position.lt_iff, stop] at hlt
  omega

section Modify

variable {f : Block α → Block α}

theorem items_modifyBlock {j : Nat} : (a.modifyBlock i f).items j =
    if j = i then a.blocks[j]?.elim #[] (fun b => (f b).items) else a.items j := by
  simp only [items, modifyBlock, Array.getElem?_modify]
  split
  · next h =>
    subst h
    rw [if_pos rfl]
    cases a.blocks[i]? <;> rfl
  · next h => rw [if_neg (Ne.symm h)]

theorem items_modify (f : α → α) :
    (a.modify p f).items i = if i = p.block then (a.items i).modify p.slot f else a.items i := by
  rw [modify, items_modifyBlock]
  split
  · simp only [items]
    cases a.blocks[i]? <;> rfl
  · rfl

theorem get?_modify (f : α → α) :
    (a.modify p f).get? q = if q = p then (a.get? p).map f else a.get? q := by
  simp only [get?_eq, items_modify]
  by_cases hb : q.block = p.block
  · rw [if_pos hb, Array.getElem?_modify]
    by_cases hs : q.slot = p.slot
    · rw [if_pos hs.symm, if_pos (Position.eq_iff.2 ⟨hb, hs⟩), hb, hs]
    · rw [if_neg (Ne.symm hs), if_neg fun h => hs (congrArg _ h)]
  · rw [if_neg hb, if_neg fun h => hb (congrArg _ h)]

theorem items_modifyBlock_current {j : Nat} : (a.modifyBlock a.current f).items j =
    if j = a.current then (f a.currentBlock).items else a.items j := by
  rw [items_modifyBlock]
  split
  · next h => simp [h, Array.getElem?_eq_getElem a.current_lt, currentBlock]
  · rfl

theorem Tidy.modifyBlock_current (ha : a.Tidy) : (a.modifyBlock a.current f).Tidy := by
  intro i hi
  simp only [modifyBlock] at hi
  rw [items_modifyBlock_current, if_neg (by omega)]
  exact ha i hi

end Modify

section Room

@[simp]
theorem current_advance : (a.advance n).current = a.current + 1 := by
  unfold advance
  grind

theorem items_advance (ha : a.Tidy) : (a.advance n).items i = a.items i := by
  by_cases hi : i = a.current + 1
  · rw [hi, ha _ (by omega)]
    have hnext := ha (a.current + 1) (by omega)
    simp only [items] at hnext ⊢
    unfold advance
    dsimp only
    split
    · next h =>
      split
      · simp [h, Block.empty]
      · exact hnext
    · next h =>
      have hsize : a.current + 1 = a.blocks.size := by
        have := a.current_lt
        omega
      simp [hsize, Block.empty]
  · simp only [items, advance]
    split
    · split
      · rw [Array.getElem?_set_ne _ (by omega)]
      · rfl
    · next h =>
      have := a.current_lt
      rw [Array.getElem?_push, if_neg (by omega)]

theorem items_withRoom (ha : a.Tidy) : (a.withRoom n).items i = a.items i := by
  unfold withRoom
  split
  · exact items_advance ha
  · rfl

theorem current_le_withRoom : a.current ≤ (a.withRoom n).current := by
  unfold withRoom
  split
  · rw [current_advance]
    omega
  · exact Nat.le_refl _

theorem tidy_withRoom (ha : a.Tidy) : (a.withRoom n).Tidy := by
  intro i hi
  rw [items_withRoom ha]
  exact ha i (by have := current_le_withRoom (a := a) (n := n); omega)

theorem size_le_withRoom : a.blocks.size ≤ (a.withRoom n).blocks.size := by
  unfold withRoom advance
  grind

theorem mark_withRoom : (a.withRoom n).mark = a.mark := by
  unfold withRoom advance
  grind

end Room

section Growth

/-- Everything stored in one arena is stored at the same place in another one. -/
def Extends (a b : Arena α) : Prop :=
  a.blocks.size ≤ b.blocks.size ∧ ∀ i, (a.items i).toList <+: (b.items i).toList

theorem Extends.refl (a : Arena α) : Extends a a := ⟨Nat.le_refl _, fun _ => List.prefix_refl _⟩

theorem Extends.trans {a b c : Arena α} (hab : Extends a b) (hbc : Extends b c) : Extends a c :=
  ⟨Nat.le_trans hab.1 hbc.1, fun i => (hab.2 i).trans (hbc.2 i)⟩

theorem Extends.get? {a b : Arena α} (h : Extends a b) (hp : a.get? p = some v) :
    b.get? p = some v := by
  rw [get?_eq, ← Array.getElem?_toList] at hp ⊢
  obtain ⟨more, hmore⟩ := h.2 p.block
  rw [← hmore, List.getElem?_append_left (List.getElem?_eq_some_iff.1 hp).1, hp]

theorem Extends.slice? {a b : Arena α} {l : List α} (h : Extends a b)
    (hp : a.slice? p n = some l) : b.slice? p n = some l := by
  rw [slice?_eq_some_iff] at hp ⊢
  obtain ⟨hblock, hroom, hl⟩ := hp
  obtain ⟨more, hmore⟩ := h.2 p.block
  have hsize : (a.items p.block).size ≤ (b.items p.block).size := by
    simpa using (h.2 p.block).length_le
  refine ⟨Nat.lt_of_lt_of_le hblock h.1, by omega, ?_⟩
  rw [← hl, Array.toList_extract, Array.toList_extract, ← hmore, List.extract_eq_take_drop,
    List.extract_eq_take_drop, List.drop_append_of_le_length (by simpa using by omega),
    List.take_append_of_le_length (by simp; omega)]

theorem Tidy.reserve (ha : a.Tidy) : (a.reserve n v).2.Tidy :=
  (tidy_withRoom ha).modifyBlock_current

theorem items_reserve (ha : a.Tidy) : (a.reserve n v).2.items i =
    if i = (a.reserve n v).1.block then a.items i ++ Array.replicate n v else a.items i := by
  have h : (a.reserve n v).2.items i = if i = (a.withRoom n).current then
      ((a.withRoom n).currentBlock.fill n v).items else (a.withRoom n).items i :=
    items_modifyBlock_current
  have hfill : ((a.withRoom n).currentBlock.fill n v).items =
      a.items (a.withRoom n).current ++ Array.replicate n v := by
    rw [← items_withRoom ha, items_current]
    rfl
  rw [h, hfill, items_withRoom ha]
  change _ = if i = (a.withRoom n).current then _ else _
  split
  · next hi => rw [hi]
  · rfl

theorem slot_reserve (ha : a.Tidy) :
    (a.reserve n v).1.slot = (a.items (a.reserve n v).1.block).size := by
  change (a.withRoom n).currentBlock.items.size = (a.items (a.withRoom n).current).size
  rw [← items_current, items_withRoom ha]

/-- What is stored before comes before what is stored next. -/
theorem lt_reserve (ha : a.Tidy) (h : (a.get? p).isSome) : p < (a.reserve n v).1 := by
  rw [get?_eq, ← items_withRoom ha (n := n), ← get?_eq] at h
  exact (tidy_withRoom ha).lt_stop h

theorem foldl_setIfInBounds (values : List α) : ∀ (xs : Array α) (m : Nat), values.length ≤ m →
    (values.zipIdx xs.size).foldl (fun items (w, i) => items.setIfInBounds i w)
        (xs ++ Array.replicate m v) =
      xs ++ values.toArray ++ Array.replicate (m - values.length) v := by
  induction values with
  | nil => simp
  | cons w ws ih =>
    intro xs m hm
    obtain ⟨m, rfl⟩ : ∃ k, m = k + 1 := ⟨m - 1, by simp at hm; omega⟩
    have hset : (xs ++ Array.replicate (m + 1) v).setIfInBounds xs.size w =
        xs.push w ++ Array.replicate m v := by
      apply Array.ext
      · simp
        omega
      · intro i h₁ h₂
        grind
    have hrest := ih (xs.push w) m (by simpa using hm)
    rw [Array.size_push] at hrest
    rw [List.zipIdx_cons, List.foldl_cons]
    dsimp only
    rw [hset, hrest]
    simp

theorem items_write (ha : a.Tidy) {values : List α} (h : values.length ≤ n) :
    ((a.reserve n v).2.write (a.reserve n v).1 values).items i =
      if i = (a.reserve n v).1.block then
        a.items i ++ values.toArray ++ Array.replicate (n - values.length) v
      else a.items i := by
  have hslot : (a.reserve n v).1.slot = _ := slot_reserve ha
  rw [write, items_modifyBlock]
  split
  · next hi =>
    have hlt : i < (a.reserve n v).2.blocks.size := by
      rw [hi]
      exact (a.reserve n v).2.current_lt
    have hitems : ((a.reserve n v).2.blocks[i]).items = a.items i ++ Array.replicate n v := by
      have h := items_reserve (n := n) (v := v) (i := i) ha
      rwa [if_pos hi, items, Array.getElem?_eq_getElem hlt] at h
    rw [Array.getElem?_eq_getElem hlt, Option.elim_some, hitems, hslot, ← hi]
    exact foldl_setIfInBounds values _ n h
  · next hi => rw [items_reserve ha, if_neg hi]

theorem items_giveBack : (a.giveBack n).items i =
    if i = a.current then (a.items i).extract 0 ((a.items i).size - n) else a.items i := by
  rw [giveBack, items_modifyBlock_current]
  split
  · next hi =>
    rw [hi, items_current]
    simp [Block.truncate]
  · rfl

/-- Room that is reserved, filled from the front and given back where it is not needed. -/
theorem items_store (ha : a.Tidy) {values : List α} (h : values.length ≤ n) :
    (((a.reserve n v).2.write (a.reserve n v).1 values).giveBack (n - values.length)).items i =
      if i = (a.reserve n v).1.block then a.items i ++ values.toArray else a.items i := by
  rw [items_giveBack, items_write ha h]
  change (if i = (a.reserve n v).1.block then _ else _) = _
  split
  · simp
    grind
  · rfl

/-- One arena is another one with `values` stored behind everything else, from `p` on. -/
structure Appended (a : Arena α) (p : Position) (values : List α) (b : Arena α) : Prop where
  size_le : a.blocks.size ≤ b.blocks.size
  mark_eq : b.mark = a.mark
  current_le : a.current ≤ b.current
  block_eq : p.block = b.current
  slot_eq : p.slot = (a.items p.block).size
  items_eq : ∀ i, b.items i = if i = p.block then a.items i ++ values.toArray else a.items i
  fresh : ∀ q, (a.get? q).isSome → q < p

namespace Appended

variable {values : List α} {b : Arena α}

theorem tidy (h : Appended a p values b) (ha : a.Tidy) : b.Tidy := by
  intro i hi
  have := h.current_le
  have := h.block_eq
  rw [h.items_eq, if_neg (by omega)]
  exact ha i (by omega)

theorem extended (h : Appended a p values b) : Extends a b := by
  refine ⟨h.size_le, fun i => ?_⟩
  rw [h.items_eq]
  split
  · simp
  · exact List.prefix_refl _

theorem slice?_eq (h : Appended a p values b) : b.slice? p values.length = some values := by
  rw [slice?_eq_some_iff, h.items_eq, if_pos rfl, h.slot_eq]
  refine ⟨by rw [h.block_eq]; exact b.current_lt, by simp, ?_⟩
  simp [List.extract_eq_take_drop]

theorem get?_eq (h : Appended a p values b) : b.get? q =
    if Spans p values.length q then values[q.slot - p.slot]? else a.get? q := by
  rw [Arena.get?_eq, Arena.get?_eq, h.items_eq]
  have hslot := h.slot_eq
  by_cases hb : q.block = p.block
  · rw [if_pos hb]
    by_cases hs : q.slot < p.slot
    · rw [if_neg fun hq => by have := hq.2.1; omega, Array.getElem?_append_left (by rw [hb]; omega)]
    · rw [Array.getElem?_append_right (by rw [hb]; omega), hb, ← hslot, List.getElem?_toArray]
      split
      · rfl
      · next hq =>
        have hlen : values.length ≤ q.slot - p.slot := by
          by_contra hlt
          exact hq ⟨hb, by omega, by omega⟩
        rw [List.getElem?_eq_none hlen, Array.getElem?_eq_none (by omega)]
  · rw [if_neg hb, if_neg fun hq => hb hq.1]

theorem isSome_get?_iff (h : Appended a p values b) :
    (b.get? q).isSome ↔ Spans p values.length q ∨ (a.get? q).isSome := by
  rw [h.get?_eq]
  split
  · next hq =>
    have hlt : q.slot - p.slot < values.length := by
      have := hq.2
      omega
    simp [hq, hlt]
  · next hq => simp [hq]

end Appended

theorem appended_reserve (ha : a.Tidy) :
    Appended a (a.reserve n v).1 (List.replicate n v) (a.reserve n v).2 where
  size_le := by simpa [reserve, modifyBlock] using size_le_withRoom
  mark_eq := mark_withRoom
  current_le := current_le_withRoom
  block_eq := rfl
  slot_eq := slot_reserve ha
  items_eq i := by simpa using items_reserve ha
  fresh _ hq := lt_reserve ha hq

theorem appended_push (ha : a.Tidy) : Appended a (a.push v).1 [v] (a.push v).2 :=
  appended_reserve ha

theorem appended_write (ha : a.Tidy) (values : List α) :
    Appended a (a.reserve values.length v).1 values
      ((a.reserve values.length v).2.write (a.reserve values.length v).1 values) where
  size_le := by simpa [reserve, modifyBlock, write] using size_le_withRoom
  mark_eq := mark_withRoom
  current_le := current_le_withRoom
  block_eq := rfl
  slot_eq := slot_reserve ha
  items_eq _ := by simpa using items_write ha (Nat.le_refl values.length)
  fresh _ hq := lt_reserve ha hq

theorem appended_store (ha : a.Tidy) {values : List α} (h : values.length ≤ n) :
    Appended a (a.reserve n v).1 values
      (((a.reserve n v).2.write (a.reserve n v).1 values).giveBack (n - values.length)) where
  size_le := by simpa [reserve, modifyBlock, write, giveBack] using size_le_withRoom
  mark_eq := mark_withRoom
  current_le := current_le_withRoom
  block_eq := rfl
  slot_eq := slot_reserve ha
  items_eq _ := items_store ha h
  fresh _ hq := lt_reserve ha hq

end Growth

section Range

variable {first last : Position} {b f l : Nat}

theorem blockRange_eq : a.blockRange b f l =
    (((a.items b).extract f l).toList.zipIdx (min f (a.items b).size)).map
      fun (v, i) => (⟨b, i⟩, v) := by
  simp only [blockRange, items]
  cases a.blocks[b]? <;> simp

theorem mem_blockRange : (p, v) ∈ a.blockRange b f l ↔
    p.block = b ∧ f ≤ p.slot ∧ p.slot < l ∧ a.get? p = some v := by
  obtain ⟨block, slot⟩ := p
  simp only [blockRange_eq, List.mem_map, Prod.exists, Prod.mk.injEq, Position.mk.injEq,
    List.mk_mem_zipIdx_iff_le_and_getElem?_sub, get?_eq, Array.getElem?_toList,
    Array.getElem?_extract]
  constructor
  · rintro ⟨w, i, ⟨hle, hw⟩, ⟨rfl, rfl⟩, rfl⟩
    obtain ⟨hlt, hw⟩ := Option.ite_none_right_eq_some.1 hw
    rw [show f + (i - min f (a.items b).size) = i by omega] at hw
    exact ⟨rfl, by omega, by omega, hw⟩
  · rintro ⟨rfl, hf, hl, hv⟩
    have hlt := (Array.getElem?_eq_some_iff.1 hv).1
    refine ⟨v, slot, ⟨by omega, ?_⟩, ⟨rfl, rfl⟩, rfl⟩
    rw [if_pos (by omega), show f + (slot - min f (a.items block).size) = slot by omega, hv]

theorem pairwise_blockRange : (a.blockRange b f l).Pairwise fun x y => x.1 < y.1 := by
  rw [blockRange_eq, List.pairwise_map]
  have h : ((((a.items b).extract f l).toList.zipIdx (min f (a.items b).size)).map (·.2)).Pairwise
      (· < ·) := by
    rw [List.zipIdx_map_snd]
    exact List.pairwise_lt_range'
  rw [List.pairwise_map] at h
  exact h.imp fun hlt => .inr ⟨rfl, hlt⟩

/-- The elements of a range are those stored at its positions. -/
theorem mem_range (ha : a.Tidy) :
    (p, v) ∈ a.range first last ↔ first ≤ p ∧ p < last ∧ a.get? p = some v := by
  simp only [range, List.mem_flatMap, List.mem_range'_1, mem_blockRange, Position.le_iff,
    Position.lt_iff]
  constructor
  · rintro ⟨b, ⟨hfirst, hfinal⟩, rfl, hf, hl, hv⟩
    refine ⟨?_, ?_, hv⟩
    · by_cases hb : p.block = first.block
      · rw [if_pos hb] at hf
        exact .inr ⟨hb.symm, hf⟩
      · omega
    · by_cases hb : p.block = last.block
      · rw [if_pos hb] at hl
        exact .inr ⟨hb, hl⟩
      · omega
  · rintro ⟨hfirst, hlast, hv⟩
    have hstop : p < a.stop := ha.lt_stop (by simp [hv])
    have hsize : p.slot < (a.items p.block).size := isSome_get?_iff.1 (by simp [hv])
    simp only [Position.lt_iff, stop] at hstop
    refine ⟨p.block, by omega, rfl, ?_, ?_, hv⟩
    · split <;> omega
    · split
      · omega
      · rw [items] at hsize
        revert hsize
        cases a.blocks[p.block]? <;> simp

/-- A range is in the order of positions. -/
theorem pairwise_range : (a.range first last).Pairwise fun x y => x.1 < y.1 := by
  rw [range, List.pairwise_flatMap]
  refine ⟨fun b _ => pairwise_blockRange, ?_⟩
  refine List.Pairwise.imp ?_ List.pairwise_lt_range'
  intro b c hbc x hx y hy
  left
  rw [(mem_blockRange.1 hx).1, (mem_blockRange.1 hy).1]
  exact hbc

end Range

end Arena

end PayoffPricing
