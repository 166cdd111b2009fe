import PayoffPricing.Proofs.Except
import PayoffPricing.Proofs.Script.Interval
import PayoffPricing.Script.Domain
/-!
Domains in exact arithmetic. A domain is kept in increasing order, and what is put into it stays in
it, as long as the tolerance tells all ends apart.
-/

namespace PayoffPricing.Script

variable {R : Type} [ExactScalar R]

namespace Interval

variable {a b c : Interval R} {x y : R}

/-- The interval has an element. -/
def Inhabited (a : Interval R) : Prop := ∃ x, a.Has x

/-- All of the first interval is below all of the second. -/
def Before (a b : Interval R) : Prop := Bound.Below a.right b.left

theorem Inhabited.not_below (h : a.Inhabited) : ¬ Bound.Below a.right a.left := by
  obtain ⟨x, hl, hr⟩ := h
  obtain ⟨l, r⟩ := a
  cases l <;> cases r <;> simp_all [Bound.Below, Bound.IsLower, Bound.IsUpper]
  linarith

theorem Inhabited.merge (h : a.Inhabited) (hd : a.Distinct b) : (a.merge b).Inhabited :=
  h.imp fun _ hx => has_merge_left hd hx

theorem Before.lt (h : a.Before b) (hx : a.Has x) (hy : b.Has y) : x < y := by
  revert h
  have hx := hx.2
  have hy := hy.1
  unfold Before
  revert hx hy
  cases a.right <;> cases b.left <;> simp [Bound.Below, Bound.IsLower, Bound.IsUpper]
  intro hx hy h
  linarith

theorem Before.trans (hab : a.Before b) (hb : b.Inhabited) (hbc : b.Before c) : a.Before c := by
  have hlr : ¬ Bound.Below b.right b.left := hb.not_below
  exact (Bound.Below.trans_le hab hlr).trans_le hbc.not_below

/-- Intervals that do not intersect follow each other. -/
theorem before_or_before (ha : a.Inhabited) (hb : b.Inhabited) (hd : a.Distinct b)
    (h : b.intersects a = false) : a.Before b ∨ b.Before a := by
  have hr : b.right.min a.right = a.right ∨ b.right.min a.right = b.right := by
    rcases Bound.min_eq b.right a.right with h | h
    · exact .inr h
    · exact .inl h
  have hbelow : Bound.Below (b.right.min a.right) (b.left.max a.left) := by
    simp only [intersects, Bool.not_eq_false'] at h
    refine (Bound.isBelow_iff (hd.apart ?_ ?_)).1 h
    · rcases hr with h | h <;> simp [h, ends]
    · rcases Bound.max_eq b.left a.left with h | h <;> simp [h, ends]
  rcases hr with hr | hr <;> rcases Bound.max_eq b.left a.left with hl | hl <;>
    rw [hr, hl] at hbelow
  · exact .inl hbelow
  · exact absurd hbelow ha.not_below
  · exact absurd hbelow hb.not_below
  · exact .inr hbelow

end Interval

namespace Domain

open PayoffPricing.Script.Interval

variable {d e : Domain R} {a : Interval R} {others : List (Interval R)} {x y : R}

/-- Some interval of the list has the number. -/
def Covers (l : List (Interval R)) (x : R) : Prop := ∃ a ∈ l, a.Has x

/-- The number is an element of the domain. -/
def Has (d : Domain R) (x : R) : Prop := Covers d.intervals x

/-- Intervals with elements, and with ends that the tolerance tells apart. -/
structure Separated (l : List (Interval R)) : Prop where
  inhabited : ∀ a ∈ l, a.Inhabited
  resolved : Resolved (endsOf l)

/-- Separated intervals in increasing order. -/
structure Sharp (d : Domain R) : Prop extends Separated d.intervals where
  ordered : d.intervals.Pairwise Before

theorem Separated.distinct {l : List (Interval R)} (h : Separated l) {a b : Interval R} (ha : a ∈ l)
    (hb : b ∈ l) : a.Distinct b :=
  h.resolved.mono (List.append_subset.2 ⟨fun _ he => mem_endsOf ha he, fun _ he => mem_endsOf hb he⟩)

theorem Separated.ends {l : List (Interval R)} (h : Separated l) (ha : a ∈ l) : Resolved a.ends :=
  h.resolved.mono fun _ he => mem_endsOf ha he

theorem Separated.mono {l m : List (Interval R)} (h : Separated m) (hsub : l ⊆ m) : Separated l where
  inhabited a ha := h.inhabited a (hsub ha)
  resolved := h.resolved.mono (endsOf_mono hsub)

/-- Taking an interval in leaves the rest apart from it and covers all that was covered. -/
structure Absorbs (a : Interval R) (others : List (Interval R)) (result : Interval R × List (Interval R)) :
    Prop where
  sublist : result.2.Sublist others
  separated : Separated (result.1 :: result.2)
  apart : ∀ b ∈ result.2, b.intersects result.1 = false
  covers : ∀ x, Covers (a :: others) x → Covers (result.1 :: result.2) x
  ends : endsOf (result.1 :: result.2) ⊆ endsOf (a :: others)

theorem perm_of_find? {α : Type} {p : α → Bool} {l : List α} {b : α} (h : l.find? p = some b) :
    (b :: l.eraseP p).Perm l := by
  obtain ⟨hb, before, after, rfl, hbefore⟩ := List.find?_eq_some_iff_append.1 h
  have hnot : ∀ c ∈ before, ¬ p c := fun c hc => by simpa using hbefore c hc
  rw [List.eraseP_append_right _ hnot, List.eraseP_cons_of_pos hb]
  exact List.perm_middle.symm

theorem ends_merge (a b : Interval R) : (a.merge b).ends ⊆ a.ends ++ b.ends := by
  intro e he
  simp only [Interval.ends, merge, List.mem_cons, List.not_mem_nil, or_false] at he
  rcases he with rfl | rfl
  · rcases Bound.min_eq a.left b.left with h | h <;> simp [h, Interval.ends]
  · rcases Bound.max_eq a.right b.right with h | h <;> simp [h, Interval.ends]

theorem absorbs_absorb (h : Separated (a :: others)) : Absorbs a others (absorb a others) := by
  fun_induction absorb a others with
  | case1 a others hnone =>
    refine ⟨List.Sublist.refl _, h, fun b hb => ?_, fun _ hx => hx, List.Subset.refl _⟩
    simpa using List.find?_eq_none.1 hnone b hb
  | case2 a others b hsome ih =>
    have hperm : (b :: others.eraseP fun b => b.intersects a).Perm others := perm_of_find? hsome
    have hb : b ∈ others := List.mem_of_find?_eq_some hsome
    have hd : a.Distinct b := h.distinct List.mem_cons_self (List.mem_cons_of_mem _ hb)
    have hends : endsOf (a.merge b :: others.eraseP fun b => b.intersects a) ⊆ endsOf (a :: others) := by
      intro e he
      rcases List.mem_append.1 he with he | he
      · rcases List.mem_append.1 (ends_merge a b he) with he | he
        · exact mem_endsOf List.mem_cons_self he
        · exact mem_endsOf (List.mem_cons_of_mem _ hb) he
      · exact endsOf_mono (fun c hc => List.mem_cons_of_mem _ (List.eraseP_subset hc)) he
    have hsep : Separated (a.merge b :: others.eraseP fun b => b.intersects a) := by
      refine ⟨fun c hc => ?_, h.resolved.mono hends⟩
      rcases List.mem_cons.1 hc with rfl | hc
      · exact (h.inhabited a List.mem_cons_self).merge hd
      · exact h.inhabited c (List.mem_cons_of_mem _ (List.eraseP_subset hc))
    obtain ⟨hs, hsep, ha, hc, he⟩ := ih hsep
    refine ⟨hs.trans List.eraseP_sublist, hsep, ha, fun x hx => hc x ?_, List.Subset.trans he hends⟩
    obtain ⟨c, hmem, hx⟩ := hx
    rcases List.mem_cons.1 hmem with rfl | hmem
    · exact ⟨_, List.mem_cons_self, has_merge_left hd hx⟩
    · rcases List.mem_cons.1 (hperm.mem_iff.2 hmem) with rfl | hmem
      · exact ⟨_, List.mem_cons_self, has_merge_right hd hx⟩
      · exact ⟨c, List.mem_cons_of_mem _ hmem, hx⟩

omit [ExactScalar R] in
theorem perm_place [Scalar R] (a : Interval R) (others : List (Interval R)) : (place a others).Perm (a :: others) := by
  unfold place
  refine List.perm_middle.trans (List.Perm.cons a ?_)
  rw [List.takeWhile_append_dropWhile]

omit [ExactScalar R] in
/-- A place before the first interval that starts later keeps an order that those intervals decide. -/
theorem pairwise_place [Scalar R] {P : Interval R → Interval R → Prop} (ho : others.Pairwise P)
    (hearly : ∀ b ∈ others, a.left.isBelow b.left = false → P b a)
    (hlate : ∀ b ∈ others, a.left.isBelow b.left = true → P a b)
    (htrans : ∀ b ∈ others, ∀ c ∈ others, P a b → P b c → P a c) : (place a others).Pairwise P := by
  unfold place
  have hsplit := List.takeWhile_append_dropWhile (p := fun b => !a.left.isBelow b.left) (l := others)
  rw [← hsplit, List.pairwise_append] at ho
  obtain ⟨hfirst, hrest, hcross⟩ := ho
  refine List.pairwise_append.2 ⟨hfirst, List.pairwise_cons.2 ⟨fun c hc => ?_, hrest⟩, fun b hb c hc => ?_⟩
  · have hmem : ∀ b ∈ others.dropWhile fun b => !a.left.isBelow b.left, b ∈ others :=
      (List.dropWhile_sublist _).subset
    cases hdrop : others.dropWhile fun b => !a.left.isBelow b.left with
    | nil => simp [hdrop] at hc
    | cons b rest =>
      rw [hdrop] at hc hrest hmem
      have hnot := List.head?_dropWhile_not (fun b => !a.left.isBelow b.left) others
      simp only [hdrop, List.head?_cons, Bool.not_eq_false'] at hnot
      have hab : P a b := hlate b (hmem b List.mem_cons_self) hnot
      rcases List.mem_cons.1 hc with rfl | hc'
      · exact hab
      · exact htrans b (hmem b List.mem_cons_self) c (hmem c hc) hab ((List.pairwise_cons.1 hrest).1 c hc')
  · rcases List.mem_cons.1 hc with rfl | hc
    · refine hearly b ((List.takeWhile_sublist _).subset hb) ?_
      simpa using List.all_eq_true.1 List.all_takeWhile b hb
    · exact hcross b hb c hc

theorem ordered_place (h : Separated (a :: others)) (ho : others.Pairwise Before)
    (ha : ∀ b ∈ others, b.intersects a = false) : (place a others).Pairwise Before := by
  have hside : ∀ b ∈ others, a.Before b ∨ b.Before a := fun b hb =>
    before_or_before (h.inhabited a List.mem_cons_self) (h.inhabited b (List.mem_cons_of_mem _ hb))
      (h.distinct List.mem_cons_self (List.mem_cons_of_mem _ hb)) (ha b hb)
  have hbelow : ∀ b ∈ others, a.left.isBelow b.left = true ↔ Bound.Below a.left b.left := fun b hb =>
    Bound.isBelow_iff ((h.distinct List.mem_cons_self (List.mem_cons_of_mem _ hb)).apart
      (by simp [Interval.ends]) (by simp [Interval.ends]))
  apply pairwise_place ho
  · intro b hb hl
    refine (hside b hb).resolve_left fun hab => ?_
    rw [Bool.eq_false_iff, ne_eq, hbelow b hb] at hl
    exact hl (Bound.Below.of_le_trans (h.inhabited a List.mem_cons_self).not_below hab)
  · intro b hb hl
    refine (hside b hb).resolve_right fun hba => ?_
    exact (h.inhabited b (List.mem_cons_of_mem _ hb)).not_below
      (Bound.Below.trans_le hba ((hbelow b hb).1 hl).not_below)
  · exact fun b hb c _ hab hbc => hab.trans (h.inhabited b (List.mem_cons_of_mem _ hb)) hbc

theorem Separated.perm {l m : List (Interval R)} (h : Separated l) (hp : m.Perm l) : Separated m :=
  h.mono hp.subset

/-- The domain has all that the intervals have. -/
structure Extends (l : List (Interval R)) (d : Domain R) : Prop where
  sharp : d.Sharp
  covers : ∀ x, Covers l x → d.Has x
  ends : endsOf d.intervals ⊆ endsOf l

theorem extends_insert (hd : d.Sharp) (h : Separated (a :: d.intervals)) :
    Extends (a :: d.intervals) (d.insert a) := by
  unfold insert
  split
  · next hinf =>
    have ha : a = .realLine := by
      obtain ⟨x, hl, hr⟩ := h.inhabited a List.mem_cons_self
      obtain ⟨l, r⟩ := a
      cases l <;> cases r <;>
        simp_all [Bound.isInfinite, Bound.IsLower, Bound.IsUpper, Interval.realLine]
    have hsub : [a] ⊆ a :: d.intervals := List.cons_subset_cons _ (List.nil_subset _)
    refine ⟨⟨h.mono hsub, List.pairwise_singleton _ _⟩, fun x _ => ?_, endsOf_mono hsub⟩
    exact ⟨a, List.mem_singleton_self a, ha ▸ has_realLine x⟩
  · have hab := absorbs_absorb h
    generalize hm : absorb a d.intervals = result at hab
    obtain ⟨merged, rest⟩ := result
    obtain ⟨hs, hsep, hap, hc, he⟩ := hab
    have hperm := perm_place merged rest
    refine ⟨⟨hsep.perm hperm, ordered_place hsep (hd.ordered.sublist hs) hap⟩, fun x hx => ?_,
      List.Subset.trans (endsOf_mono hperm.subset) he⟩
    obtain ⟨b, hb, hx⟩ := hc x hx
    exact ⟨b, hperm.mem_iff.2 hb, hx⟩

theorem separated_append {l m : List (Interval R)} (hl : ∀ a ∈ l, a.Inhabited)
    (hm : ∀ a ∈ m, a.Inhabited) (h : Resolved (endsOf (l ++ m))) : Separated (l ++ m) where
  inhabited a ha := (List.mem_append.1 ha).elim (hl a) (hm a)
  resolved := h

theorem extends_insertAll {l : List (Interval R)} (hd : d.Sharp) (h : Separated (l ++ d.intervals)) :
    Extends (l ++ d.intervals) (d.insertAll l) := by
  induction l generalizing d with
  | nil => exact ⟨hd, fun x hx => hx, List.Subset.refl _⟩
  | cons a l ih =>
    have ha : Extends (a :: d.intervals) (d.insert a) := by
      refine extends_insert hd (h.mono (List.cons_subset_cons _ ?_))
      exact List.subset_append_right _ _
    have hends : endsOf (l ++ (d.insert a).intervals) ⊆ endsOf (a :: l ++ d.intervals) := by
      intro e he
      rw [endsOf, List.flatMap_append] at he
      rcases List.mem_append.1 he with he | he
      · exact endsOf_mono (fun c hc => by simp [hc]) he
      · exact endsOf_mono (fun c hc => by simp at hc ⊢; tauto) (ha.ends he)
    have hl : ∀ b ∈ l, b.Inhabited := fun b hb => h.inhabited b (by simp [hb])
    obtain ⟨hs, hc, he⟩ := ih ha.sharp
      (separated_append hl ha.sharp.inhabited (h.resolved.mono hends))
    refine ⟨hs, fun x hx => hc x ?_, List.Subset.trans he hends⟩
    obtain ⟨b, hb, hx⟩ := hx
    rcases List.mem_append.1 hb with hb | hb
    · rcases List.mem_cons.1 hb with rfl | hb
      · obtain ⟨c, hc, hx⟩ := ha.covers x ⟨_, List.mem_cons_self, hx⟩
        exact ⟨c, List.mem_append_right _ hc, hx⟩
      · exact ⟨b, List.mem_append_left _ hb, hx⟩
    · obtain ⟨c, hc, hx⟩ := ha.covers x ⟨b, List.mem_cons_of_mem _ hb, hx⟩
      exact ⟨c, List.mem_append_right _ hc, hx⟩

theorem sharp_empty : (empty : Domain R).Sharp where
  inhabited a ha := by simp [empty] at ha
  resolved a ha b hb := by
    simp only [empty, endsOf, List.flatMap_nil, List.mem_singleton] at ha hb
    rw [ha, hb]
    exact Bound.apart_self _
  ordered := List.Pairwise.nil

theorem extends_ofIntervals {l : List (Interval R)} (h : Separated l) : Extends l (ofIntervals l) := by
  have := extends_insertAll (l := l) sharp_empty (by simpa [empty] using h)
  simpa [empty, ofIntervals] using this

theorem sharp_ofInterval (ha : a.Inhabited) (hr : Resolved a.ends) : (ofInterval a).Sharp where
  inhabited b hb := List.mem_singleton.1 hb ▸ ha
  resolved := by simpa [ofInterval, endsOf] using hr
  ordered := List.pairwise_singleton _ _

theorem has_ofInterval (hx : a.Has x) : (ofInterval a).Has x := ⟨a, List.mem_singleton_self a, hx⟩

/-- The tolerance tells the ends of two domains apart. -/
def Distinct (d e : Domain R) : Prop := Resolved (endsOf (d.intervals ++ e.intervals))

theorem Distinct.intervals {b : Interval R} (h : d.Distinct e) (ha : a ∈ d.intervals)
    (hb : b ∈ e.intervals) : a.Distinct b :=
  h.mono (List.append_subset.2 ⟨fun _ he => mem_endsOf (List.mem_append_left _ ha) he,
    fun _ he => mem_endsOf (List.mem_append_right _ hb) he⟩)

theorem extends_union (hd : d.Sharp) (he : e.Sharp) (h : d.Distinct e) :
    (d.union e).Sharp ∧ ∀ x, d.Has x ∨ e.Has x → (d.union e).Has x := by
  have hperm : (e.intervals ++ d.intervals).Perm (d.intervals ++ e.intervals) := List.perm_append_comm
  have hu : Extends (e.intervals ++ d.intervals) (d.union e) :=
    extends_insertAll hd (separated_append he.inhabited hd.inhabited (h.mono (endsOf_mono hperm.subset)))
  refine ⟨hu.sharp, fun x hx => hu.covers x ?_⟩
  rcases hx with ⟨a, ha, hx⟩ | ⟨a, ha, hx⟩
  · exact ⟨a, List.mem_append_right _ ha, hx⟩
  · exact ⟨a, List.mem_append_left _ ha, hx⟩

/-- The results of an operation on the intervals of two lists. -/
def pairs (f : Interval R → Interval R → Interval R) (l m : List (Interval R)) : List (Interval R) :=
  l.flatMap fun a => m.map (f a)

/-- The domain has the results of an operation on the elements of two lists of intervals. -/
def HasResults (g : R → R → R) (l m : List (Interval R)) (d : Domain R) : Prop :=
  d.Sharp ∧ ∀ x y, Covers l x → Covers m y → d.Has (g x y)

theorem hasResults_pairs {f : Interval R → Interval R → Interval R} {g : R → R → R}
    {l m : List (Interval R)} (hl : ∀ a ∈ l, a.Inhabited) (hm : ∀ b ∈ m, b.Inhabited)
    (hf : ∀ a ∈ l, ∀ b ∈ m, ∀ x y, a.Has x → b.Has y → (f a b).Has (g x y))
    (hr : Resolved (endsOf (pairs f l m))) : HasResults g l m (ofIntervals (pairs f l m)) := by
  have hsep : Separated (pairs f l m) := by
    refine ⟨fun c hc => ?_, hr⟩
    obtain ⟨a, ha, hc⟩ := List.mem_flatMap.1 hc
    obtain ⟨b, hb, rfl⟩ := List.mem_map.1 hc
    obtain ⟨x, hx⟩ := hl a ha
    obtain ⟨y, hy⟩ := hm b hb
    exact ⟨g x y, hf a ha b hb x y hx hy⟩
  have hext := extends_ofIntervals hsep
  refine ⟨hext.sharp, fun x y ⟨a, ha, hx⟩ ⟨b, hb, hy⟩ => hext.covers _ ⟨f a b, ?_, hf a ha b hb x y hx hy⟩⟩
  exact List.mem_flatMap.2 ⟨a, ha, List.mem_map_of_mem hb⟩

/-- The domain has the results of an operation on elements of two domains. -/
abbrev Results (g : R → R → R) (d e result : Domain R) : Prop :=
  HasResults g d.intervals e.intervals result

theorem results_add (hd : d.Sharp) (he : e.Sharp)
    (hr : Resolved (endsOf (pairs Interval.add d.intervals e.intervals))) :
    Results (· + ·) d e (d.add e) :=
  hasResults_pairs hd.inhabited he.inhabited (fun _ _ _ _ _ _ => has_add) hr

theorem results_sub (hd : d.Sharp) (he : e.Sharp)
    (hr : Resolved (endsOf (pairs Interval.sub d.intervals e.intervals))) :
    Results (· - ·) d e (d.sub e) :=
  hasResults_pairs hd.inhabited he.inhabited (fun _ _ _ _ _ _ => has_sub) hr

omit [ExactScalar R] in
/-- An operation that only picks among the ends of its operands. -/
theorem endsOf_pairs {f : Interval R → Interval R → Interval R}
    (hf : ∀ a b, (f a b).ends ⊆ a.ends ++ b.ends) (l m : List (Interval R)) :
    endsOf (pairs f l m) ⊆ endsOf (l ++ m) := by
  intro u hu
  obtain ⟨c, hc, hu⟩ := List.mem_flatMap.1 hu
  obtain ⟨a, ha, hc⟩ := List.mem_flatMap.1 hc
  obtain ⟨b, hb, rfl⟩ := List.mem_map.1 hc
  rcases List.mem_append.1 (hf a b hu) with hu | hu
  · exact mem_endsOf (List.mem_append_left _ ha) hu
  · exact mem_endsOf (List.mem_append_right _ hb) hu

theorem ends_min (a b : Interval R) : (a.min b).ends ⊆ a.ends ++ b.ends := by
  rcases Bound.min_eq a.left b.left with h | h <;> rcases Bound.min_eq a.right b.right with h' | h' <;>
    simp [Interval.ends, Interval.min, h, h']

theorem ends_max (a b : Interval R) : (a.max b).ends ⊆ a.ends ++ b.ends := by
  rcases Bound.max_eq a.left b.left with h | h <;> rcases Bound.max_eq a.right b.right with h' | h' <;>
    simp [Interval.ends, Interval.max, h, h']

theorem results_min (hd : d.Sharp) (he : e.Sharp) (hr : d.Distinct e) :
    Results Quantity.min d e (d.min e) :=
  hasResults_pairs hd.inhabited he.inhabited
    (fun _ ha _ hb _ _ => has_min (hr.intervals ha hb)) (hr.mono (endsOf_pairs ends_min _ _))

theorem results_max (hd : d.Sharp) (he : e.Sharp) (hr : d.Distinct e) :
    Results Quantity.max d e (d.max e) :=
  hasResults_pairs hd.inhabited he.inhabited
    (fun _ ha _ hb _ _ => has_max (hr.intervals ha hb)) (hr.mono (endsOf_pairs ends_max _ _))

/-- The tolerance tells apart the products that multiplication compares, and its results. -/
structure MulResolved (l m : List (Interval R)) : Prop where
  corners : ∀ a ∈ l, ∀ b ∈ m, Resolved (corners a b)
  results : Resolved (endsOf (pairs Interval.mul l m))

theorem results_mul (hd : d.Sharp) (he : e.Sharp) (hr : MulResolved d.intervals e.intervals) :
    Results (· * ·) d e (d.mul e) :=
  hasResults_pairs hd.inhabited he.inhabited
    (fun a ha b hb _ _ => has_mul (hd.ends ha) (he.ends hb) (hr.corners a ha b hb)) hr.results

theorem mem_ends_neg {u : Bound R} (h : u ∈ Bound.finite 0 :: endsOf (d.intervals.map Interval.neg)) :
    ∃ v ∈ Bound.finite 0 :: endsOf d.intervals, u = v.neg := by
  rcases List.mem_cons.1 h with rfl | h
  · exact ⟨_, List.mem_cons_self, by simp [Bound.neg]⟩
  · obtain ⟨b, hb, hu⟩ := List.mem_flatMap.1 h
    obtain ⟨a, ha, rfl⟩ := List.mem_map.1 hb
    simp only [Interval.ends, Interval.neg, List.mem_cons, List.not_mem_nil, or_false] at hu
    rcases hu with rfl | rfl
    · exact ⟨_, List.mem_cons_of_mem _ (mem_endsOf ha (right_mem_ends a)), rfl⟩
    · exact ⟨_, List.mem_cons_of_mem _ (mem_endsOf ha (left_mem_ends a)), rfl⟩

theorem results_neg (hd : d.Sharp) : d.neg.Sharp ∧ ∀ x, d.Has x → d.neg.Has (-x) := by
  have hsep : Separated (d.intervals.map Interval.neg) := by
    refine ⟨fun c hc => ?_, fun u hu v hv => ?_⟩
    · obtain ⟨a, ha, rfl⟩ := List.mem_map.1 hc
      exact (hd.inhabited a ha).imp' _ fun _ => has_neg
    · obtain ⟨u', hu', rfl⟩ := mem_ends_neg hu
      obtain ⟨v', hv', rfl⟩ := mem_ends_neg hv
      exact (hd.resolved u' hu' v' hv').neg
  have hext : Extends (d.intervals.map Interval.neg) d.neg := extends_ofIntervals hsep
  refine ⟨hext.sharp, fun x ⟨a, ha, hx⟩ => hext.covers _ ⟨_, List.mem_map_of_mem ha, has_neg hx⟩⟩

theorem inverse_isZero {i : Interval R} (h : a.inverse = .ok i) : a.isZero = false := by
  unfold inverse at h
  split at h
  · contradiction
  · next hz => exact Bool.eq_false_iff.2 hz

theorem div_eq (d e : Domain R) :
    d.div e = (e.intervals.mapM Interval.inverse).map fun inverses =>
      ofIntervals (pairs (fun i a => a.mul i) inverses d.intervals) := by
  have h : (e.intervals.mapM fun b => do
      let inverse ← b.inverse
      return d.intervals.map fun a => a.mul inverse) =
      e.intervals.mapM fun b => b.inverse.map fun i => d.intervals.map fun a => a.mul i :=
    congrArg (e.intervals.mapM ·) (funext fun b => by cases b.inverse <;> rfl)
  rw [div, h, mapM_map_eq]
  cases e.intervals.mapM Interval.inverse <;> rfl

/-- The tolerance tells apart the ends of the reciprocals of a divisor, the products that division
compares, and its results. -/
def DivResolved (d e : Domain R) : Prop :=
  ∀ inverses, e.intervals.mapM Interval.inverse = .ok inverses →
    (∀ i ∈ inverses, Resolved i.ends) ∧ (∀ i ∈ inverses, ∀ a ∈ d.intervals, Resolved (corners a i)) ∧
      Resolved (endsOf (pairs (fun i a => a.mul i) inverses d.intervals))

theorem results_div {q : Domain R} (hd : d.Sharp) (he : e.Sharp) (hr : DivResolved d e)
    (hq : d.div e = .ok q) : q.Sharp ∧ ∀ x y, d.Has x → e.Has y → y ≠ 0 → q.Has (x / y) := by
  rw [div_eq] at hq
  cases hi : e.intervals.mapM Interval.inverse with
  | error err => simp [hi, Except.map] at hq
  | ok inverses =>
    simp only [hi, Except.map, Except.ok.injEq] at hq
    subst hq
    obtain ⟨hri, hrc, hrr⟩ := hr inverses hi
    have hall := mapM_eq_ok_iff.1 hi
    have hin : ∀ i ∈ inverses, i.Inhabited := fun i hi => by
      obtain ⟨b, hb, hbi⟩ := exists_left_of_forall₂ hall hi
      obtain ⟨x, hx⟩ := he.inhabited b hb
      obtain ⟨y, hy, h0⟩ := exists_has_ne_zero hx (he.ends hb) (inverse_isZero hbi)
      exact ⟨_, has_inverse (he.ends hb) hy h0 hbi⟩
    obtain ⟨hs, hres⟩ := hasResults_pairs (g := fun i x => x * i) hin hd.inhabited
      (fun i hi a ha _ _ hx hy => has_mul (hd.ends ha) (hri i hi) (hrc i hi a ha) hy hx) hrr
    refine ⟨hs, fun x y hx ⟨b, hb, hy⟩ h0 => ?_⟩
    obtain ⟨i, hi, hbi⟩ := exists_right_of_forall₂ hall hb
    rw [div_eq_mul_inv]
    exact hres _ _ ⟨i, hi, has_inverse (he.ends hb) hy h0 hbi⟩ hx

theorem values?_spec {xs : List R} (hd : d.Sharp) (h : d.values? = some xs) (hx : d.Has x) : x ∈ xs := by
  unfold values? at h
  split at h
  · next hdis =>
    cases h
    obtain ⟨a, ha, hx⟩ := hx
    simp only [isDiscrete, Bool.and_eq_true, List.all_eq_true] at hdis
    obtain ⟨v, rfl⟩ := eq_of_isSingleton (hd.ends ha) (hdis.2 a ha)
    exact List.mem_map.2 ⟨_, ha, (eq_of_has_singleton hx).symm⟩
  · contradiction

theorem extends_singletons {ys : List R} (h : Resolved (ys.map Bound.finite)) :
    (ofIntervals (ys.map Interval.singleton)).Sharp ∧
      ∀ y ∈ ys, (ofIntervals (ys.map Interval.singleton)).Has y := by
  have hsep : Separated (ys.map Interval.singleton) := by
    refine ⟨fun a ha => ?_, h.mono fun e he => ?_⟩
    · obtain ⟨y, _, rfl⟩ := List.mem_map.1 ha
      exact ⟨y, has_singleton y⟩
    · obtain ⟨a, ha, he⟩ := List.mem_flatMap.1 he
      obtain ⟨y, hy, rfl⟩ := List.mem_map.1 ha
      simp only [Interval.ends, Interval.singleton, List.mem_cons, List.not_mem_nil, or_false, or_self] at he
      exact he ▸ List.mem_map_of_mem hy
  have hext := extends_ofIntervals hsep
  exact ⟨hext.sharp, fun y hy => hext.covers y ⟨_, List.mem_map_of_mem hy, has_singleton y⟩⟩

/-- The tolerance tells apart the values of a function on a discrete domain. -/
def ImageResolved {ε : Type} (f : R → Except ε R) (d : Domain R) : Prop :=
  ∀ xs, d.values? = some xs → ∀ ys, xs.mapM f = .ok ys → Resolved (ys.map Bound.finite)

theorem results_image {ε : Type} {f : R → Except ε R} {otherwise result : Domain R} (hd : d.Sharp)
    (ho : otherwise.Sharp) (hr : ImageResolved f d) (h : d.image f otherwise = .ok result) :
    result.Sharp ∧ ∀ x y, d.Has x → f x = .ok y → otherwise.Has y → result.Has y := by
  unfold image at h
  split at h
  · next xs hxs =>
    cases hys : xs.mapM f with
    | error e => simp [hys, bind, Except.bind] at h
    | ok ys =>
      simp only [hys, bind, Except.bind, pure, Except.pure, Except.ok.injEq] at h
      subst h
      obtain ⟨hs, hh⟩ := extends_singletons (hr xs hxs ys hys)
      refine ⟨hs, fun x y hx hxy _ => ?_⟩
      obtain ⟨z, hz, hxz⟩ := exists_right_of_forall₂ (mapM_eq_ok_iff.1 hys) (values?_spec hd hxs hx)
      rw [hxy] at hxz
      cases hxz
      exact hh y hz
  · cases h
    exact ⟨ho, fun _ _ _ _ hy => hy⟩

/-- The tolerance tells apart the values of a function of two arguments on discrete domains. -/
def ImageResolved₂ {ε : Type} (f : R → R → Except ε R) (d e : Domain R) : Prop :=
  ∀ xs ys, d.values? = some xs → e.values? = some ys →
    ∀ rows, (xs.mapM fun x => ys.mapM (f x)) = .ok rows → Resolved (rows.flatten.map Bound.finite)

theorem results_image₂ {ε : Type} {f : R → R → Except ε R} {otherwise result : Domain R} (hd : d.Sharp)
    (he : e.Sharp) (ho : otherwise.Sharp) (hr : ImageResolved₂ f d e)
    (h : d.image₂ e f otherwise = .ok result) :
    result.Sharp ∧ ∀ x y z, d.Has x → e.Has y → f x y = .ok z → otherwise.Has z → result.Has z := by
  unfold image₂ at h
  split at h
  · next xs ys hxs hys =>
    cases hrows : xs.mapM fun x => ys.mapM (f x) with
    | error e => simp [hrows, bind, Except.bind] at h
    | ok rows =>
      simp only [hrows, bind, Except.bind, pure, Except.pure, Except.ok.injEq] at h
      subst h
      obtain ⟨hs, hh⟩ := extends_singletons (hr xs ys hxs hys rows hrows)
      refine ⟨hs, fun x y z hx hy hxyz _ => hh z (List.mem_flatten.2 ?_)⟩
      obtain ⟨row, hrow, hxr⟩ := exists_right_of_forall₂ (mapM_eq_ok_iff.1 hrows) (values?_spec hd hxs hx)
      obtain ⟨w, hw, hyw⟩ := exists_right_of_forall₂ (mapM_eq_ok_iff.1 hxr) (values?_spec he hys hy)
      rw [hxyz] at hyw
      cases hyw
      exact ⟨row, hrow, hw⟩
  · cases h
    exact ⟨ho, fun _ _ _ _ _ _ hz => hz⟩

theorem exists_head_isLower (hd : d.Sharp) (hx : d.Has x) :
    ∃ a ∈ d.intervals, d.intervals.head? = some a ∧ a.left.IsLower x := by
  obtain ⟨b, hb, hx⟩ := hx
  have ho := hd.ordered
  have hin := hd.inhabited
  cases hl : d.intervals with
  | nil => simp [hl] at hb
  | cons a rest =>
    rw [hl] at hb ho hin
    refine ⟨a, List.mem_cons_self, rfl, ?_⟩
    rcases List.mem_cons.1 hb with rfl | hb
    · exact hx.1
    · obtain ⟨y, hy⟩ := hin a List.mem_cons_self
      exact hy.1.monotone (((List.pairwise_cons.1 ho).1 b hb).lt hy hx).le

theorem exists_last_isUpper (hd : d.Sharp) (hx : d.Has x) :
    ∃ a ∈ d.intervals, d.intervals.getLast? = some a ∧ a.right.IsUpper x := by
  obtain ⟨b, hb, hx⟩ := hx
  have ho := hd.ordered
  have hin := hd.inhabited
  rcases List.eq_nil_or_concat d.intervals with hl | ⟨rest, a, hl⟩
  · simp [hl] at hb
  · rw [hl, List.concat_eq_append] at hb ho hin ⊢
    refine ⟨a, by simp, by simp, ?_⟩
    rcases List.mem_append.1 hb with hb | hb
    · obtain ⟨y, hy⟩ := hin a (by simp)
      exact hy.2.antitone (((List.pairwise_append.1 ho).2.2 b hb a (by simp)).lt hx hy).le
    · exact (List.mem_singleton.1 hb ▸ hx).2

theorem exists_has (hd : d.Sharp) (h : d.intervals ≠ []) : ∃ x, d.Has x := by
  obtain ⟨a, ha⟩ := List.exists_mem_of_ne_nil _ h
  exact (hd.inhabited a ha).imp fun _ hx => ⟨a, ha, hx⟩

end Domain

end PayoffPricing.Script
