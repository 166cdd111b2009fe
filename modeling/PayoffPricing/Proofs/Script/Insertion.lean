import Mathlib
import PayoffPricing.Proofs.Double.Rounding
import PayoffPricing.Proofs.Script.Domain
/-!
Insertion into domains. Whatever intervals are put into a domain, and whatever the tolerance makes of their
ends, the intervals of the domain stay in order and further apart than the tolerance. This holds of doubles as
well as of exact numbers, since rounding keeps what is below another number by the tolerance below it.
-/

namespace PayoffPricing.Script

/-- The numbers that are equal to themselves are ordered, up to equality, and taking the tolerance away from
one does not lead above it. -/
class TolerantScalar (R : Type) [Scalar R] : Prop where
  irrefl (a : R) : ¬ a < a
  trans {a b c : R} : a < b → b < c → a < c
  cotrans {a b c : R} : Scalar.isUndefined c = false → a < b → a < c ∨ c < b
  lt_of_lt_sub {a b : R} : a < b - Bound.tolerance → a < b

instance [ExactScalar R] : TolerantScalar R where
  irrefl := lt_irrefl
  trans := lt_trans
  cotrans {a b c} _ h := by
    rcases lt_or_ge a c with hac | hca
    · exact .inl hac
    · exact .inr (hca.trans_lt h)
  lt_of_lt_sub h := h.trans (sub_lt_self _ Bound.tolerance_pos)

instance : TolerantScalar Float where
  irrefl a h := by
    obtain ⟨ha, -⟩ := Double.defined_of_lt h
    exact lt_irrefl _ ((Double.lt_iff ha ha).1 h)
  trans {a b c} hab hbc := by
    obtain ⟨ha, hb⟩ := Double.defined_of_lt hab
    obtain ⟨-, hc⟩ := Double.defined_of_lt hbc
    rw [Double.lt_iff ha hc]
    exact ((Double.lt_iff ha hb).1 hab).trans ((Double.lt_iff hb hc).1 hbc)
  cotrans {a b c} hc hab := by
    obtain ⟨ha, hb⟩ := Double.defined_of_lt hab
    rw [Double.lt_iff ha hc, Double.lt_iff hc hb]
    rw [Double.lt_iff ha hb] at hab
    omega
  lt_of_lt_sub h := Double.lt_of_lt_sub (by decide) h

variable {R : Type} [Scalar R]

namespace Bound

/-- Infinite, or a number that is equal to itself. -/
def Defined : Bound R → Prop
  | finite v => Scalar.isUndefined v = false
  | _ => True

/-- The order of ends, without any tolerance. -/
def AtMost : Bound R → Bound R → Prop
  | minusInfinity, _ => True
  | _, plusInfinity => True
  | finite v, finite w => ¬ w < v
  | _, _ => False

variable {a b c : Bound R}

theorem min_cases (a b : Bound R) :
    a.min b = a ∧ b.isBelow a = false ∨ a.min b = b ∧ b.isBelow a = true := by
  unfold min
  split
  · next h => exact .inr ⟨rfl, h⟩
  · next h => exact .inl ⟨rfl, Bool.not_eq_true _ ▸ h⟩

theorem max_cases (a b : Bound R) :
    a.max b = a ∧ a.isBelow b = false ∨ a.max b = b ∧ a.isBelow b = true := by
  unfold max
  split
  · next h => exact .inr ⟨rfl, h⟩
  · next h => exact .inl ⟨rfl, Bool.not_eq_true _ ▸ h⟩

variable [TolerantScalar R]

theorem atMost_refl (a : Bound R) : a.AtMost a := by
  cases a with
  | finite v => exact TolerantScalar.irrefl v
  | _ => trivial

theorem atMost_of_isBelow (h : a.isBelow b = true) : a.AtMost b := by
  cases a <;> cases b <;> simp only [isBelow, Bool.false_eq_true, decide_eq_true_eq] at h <;> try trivial
  intro hlt
  exact TolerantScalar.irrefl _ (TolerantScalar.trans hlt (TolerantScalar.lt_of_lt_sub h))

theorem AtMost.trans (hb : b.Defined) (hab : a.AtMost b) (hbc : b.AtMost c) : a.AtMost c := by
  cases a <;> cases b <;> cases c <;> simp only [AtMost] at hab hbc ⊢
  intro hlt
  rcases TolerantScalar.cotrans hb hlt with h | h
  · exact hbc h
  · exact hab h

theorem AtMost.isBelow (ha : a.Defined) (hab : a.AtMost b) (hbc : b.isBelow c = true) : a.isBelow c = true := by
  cases a <;> cases b <;> cases c <;>
    simp only [AtMost, Bound.isBelow, Bool.false_eq_true, decide_eq_true_eq] at hab hbc ⊢
  exact (TolerantScalar.cotrans ha hbc).resolve_left hab

theorem AtMost.not_isBelow (h : b.AtMost a) : a.isBelow b = false := by
  rw [Bool.eq_false_iff]
  intro hbelow
  cases a <;> cases b <;>
    simp only [AtMost, Bound.isBelow, Bool.false_eq_true, decide_eq_true_eq] at h hbelow
  exact h (TolerantScalar.lt_of_lt_sub hbelow)

end Bound

namespace Interval

structure Upright (a : Interval R) : Prop where
  left : a.left.Defined
  right : a.right.Defined
  le : a.left.AtMost a.right

/-- The first interval ends before the second one starts, by more than the tolerance. -/
def Precedes (a b : Interval R) : Prop := a.right.isBelow b.left = true

variable [TolerantScalar R] {a b c : Interval R}

theorem Upright.merge (ha : a.Upright) (hb : b.Upright) : (a.merge b).Upright := by
  unfold Interval.merge
  rcases Bound.min_cases a.left b.left with ⟨hl, -⟩ | ⟨hl, hleft⟩ <;>
    rcases Bound.max_cases a.right b.right with ⟨hr, -⟩ | ⟨hr, hright⟩ <;> rw [hl, hr]
  · exact ha
  · exact ⟨ha.left, hb.right, ha.le.trans ha.right (Bound.atMost_of_isBelow hright)⟩
  · exact ⟨hb.left, ha.right, (Bound.atMost_of_isBelow hleft).trans ha.left ha.le⟩
  · exact hb

theorem precedes_or_precedes (ha : a.Upright) (hb : b.Upright) (h : b.intersects a = false) :
    a.Precedes b ∨ b.Precedes a := by
  have hbelow : (b.right.min a.right).isBelow (b.left.max a.left) = true := by simpa [intersects] using h
  rcases Bound.min_cases b.right a.right with ⟨hr, -⟩ | ⟨hr, -⟩ <;>
    rcases Bound.max_cases b.left a.left with ⟨hl, -⟩ | ⟨hl, -⟩ <;> rw [hr, hl] at hbelow
  · rw [hb.le.not_isBelow] at hbelow
    contradiction
  · exact .inr hbelow
  · exact .inl hbelow
  · rw [ha.le.not_isBelow] at hbelow
    contradiction

theorem Precedes.trans (hab : a.Precedes b) (ha : a.Upright) (hb : b.Upright) (hbc : b.Precedes c) :
    a.Precedes c :=
  Bound.AtMost.isBelow ha.right ((Bound.atMost_of_isBelow hab).trans hb.left hb.le) hbc

theorem Precedes.left_isBelow (ha : a.Upright) (hab : a.Precedes b) : a.left.isBelow b.left = true :=
  ha.le.isBelow ha.left hab

theorem Precedes.not_left_isBelow (ha : a.Upright) (hab : a.Precedes b) : b.left.isBelow a.left = false :=
  (Bound.atMost_of_isBelow (hab.left_isBelow ha)).not_isBelow

end Interval

namespace Domain

open PayoffPricing.Script.Interval

/-- No interval is inverted, and each one ends before the next one starts, by more than the tolerance. -/
structure Tidy (d : Domain R) : Prop where
  upright : ∀ a ∈ d.intervals, a.Upright
  sorted : d.intervals.Pairwise Precedes

/-- A number of turns of the loop that merges an interval with the first one that it touches, until it touches
none. -/
inductive Merges : ℕ → Interval R → List (Interval R) → Interval R × List (Interval R) → Prop
  | done {a others} : (∀ b ∈ others, b.intersects a = false) → Merges 0 a others (a, others)
  | turn {n a b others result} : (others.find? fun b => b.intersects a) = some b →
      Merges n (a.merge b) (others.eraseP fun b => b.intersects a) result → Merges (n + 1) a others result

theorem merges_absorb (a : Interval R) (others : List (Interval R)) :
    ∃ n ≤ others.length, Merges n a others (absorb a others) := by
  fun_induction absorb a others with
  | case1 a others hnone =>
    refine ⟨0, Nat.zero_le _, .done fun b hb => ?_⟩
    simpa using List.find?_eq_none.1 hnone b hb
  | case2 a others b hsome ih =>
    obtain ⟨n, hn, h⟩ := ih
    refine ⟨n + 1, ?_, .turn hsome h⟩
    have hlength := (perm_of_find? hsome).length_eq
    rw [List.length_cons] at hlength
    omega

section Turns

variable {n : ℕ} {a : Interval R} {others : List (Interval R)} {result : Interval R × List (Interval R)}

theorem Merges.sublist (h : Merges n a others result) : result.2.Sublist others := by
  induction h with
  | done _ => exact .refl _
  | turn _ _ ih => exact ih.trans List.eraseP_sublist

theorem Merges.apart (h : Merges n a others result) : ∀ b ∈ result.2, b.intersects result.1 = false := by
  induction h with
  | done h => exact h
  | turn _ _ ih => exact ih

/-- What merging two intervals keeps, the loop keeps. -/
theorem Merges.keeps {Q : Interval R → Prop} (hQ : ∀ {a b : Interval R}, Q a → Q b → Q (a.merge b))
    (h : Merges n a others result) (ha : Q a) (ho : ∀ b ∈ others, Q b) : Q result.1 := by
  induction h with
  | done _ => exact ha
  | turn hfind _ ih =>
    apply ih
    · exact hQ ha (ho _ (List.mem_of_find?_eq_some hfind))
    · exact fun c hc => ho c (List.eraseP_subset hc)

end Turns

/-- Domains that come from the empty one by insertions and unions of upright intervals. -/
inductive Built : Domain R → Prop
  | empty : Built empty
  | insert {d : Domain R} {a : Interval R} : Built d → a.Upright → Built (d.insert a)
  | union {d e : Domain R} : Built d → (∀ a ∈ e.intervals, a.Upright) → Built (d.union e)

variable [TolerantScalar R] {d : Domain R} {a : Interval R} {others : List (Interval R)}

theorem sorted_place (ha : a.Upright) (ho : ∀ b ∈ others, b.Upright) (hs : others.Pairwise Precedes)
    (hapart : ∀ b ∈ others, b.intersects a = false) : (place a others).Pairwise Precedes := by
  have hside : ∀ b ∈ others, a.Precedes b ∨ b.Precedes a := fun b hb =>
    precedes_or_precedes ha (ho b hb) (hapart b hb)
  apply pairwise_place hs
  · intro b hb hleft
    refine (hside b hb).resolve_left fun hab => ?_
    rw [hab.left_isBelow ha] at hleft
    contradiction
  · intro b hb hleft
    refine (hside b hb).resolve_right fun hba => ?_
    rw [hba.not_left_isBelow (ho b hb)] at hleft
    contradiction
  · exact fun b hb c _ hab hbc => hab.trans ha (ho b hb) hbc

theorem Tidy.insert (hd : d.Tidy) (ha : a.Upright) : (d.insert a).Tidy := by
  unfold Domain.insert
  split
  · refine ⟨fun b hb => ?_, List.pairwise_singleton _ _⟩
    rwa [List.mem_singleton.1 hb]
  · obtain ⟨n, -, h⟩ := merges_absorb a d.intervals
    generalize absorb a d.intervals = result at h ⊢
    obtain ⟨merged, rest⟩ := result
    have hm : merged.Upright := h.keeps Upright.merge ha hd.upright
    have hrest : ∀ b ∈ rest, b.Upright := fun b hb => hd.upright b (h.sublist.subset hb)
    refine ⟨fun b hb => ?_, sorted_place hm hrest (hd.sorted.sublist h.sublist) h.apart⟩
    rcases List.mem_cons.1 ((perm_place merged rest).mem_iff.1 hb) with rfl | hb
    · exact hm
    · exact hrest b hb

theorem Tidy.insertAll {l : List (Interval R)} (hd : d.Tidy) (hl : ∀ a ∈ l, a.Upright) : (d.insertAll l).Tidy := by
  induction l generalizing d with
  | nil => exact hd
  | cons a l ih =>
    apply ih
    · exact hd.insert (hl a List.mem_cons_self)
    · exact fun b hb => hl b (List.mem_cons_of_mem _ hb)

theorem Built.tidy (h : d.Built) : d.Tidy := by
  induction h with
  | empty => exact ⟨fun a ha => by contradiction, List.Pairwise.nil⟩
  | insert _ ha ih => exact ih.insert ha
  | union _ he ih => exact ih.insertAll he

/-- However a domain is built, its intervals are in order and further apart than the tolerance, and another
interval is merged into it in no more turns than there are intervals. -/
theorem tidy_of_built (h : d.Built) :
    d.Tidy ∧ ∀ a : Interval R, ∃ n ≤ d.intervals.length, Merges n a d.intervals (absorb a d.intervals) :=
  ⟨h.tidy, fun a => merges_absorb a d.intervals⟩

/-- A ray and an interval, and another interval and another ray after them. -/
def fromRays : Domain Float :=
  ((empty.insert ⟨.finite 3, .finite 4⟩).insert ⟨.minusInfinity, .finite 1⟩).union
    ⟨[⟨.finite 0, .finite 2⟩, ⟨.finite 6, .plusInfinity⟩]⟩

theorem built_fromRays : fromRays.Built := by
  apply Built.union
  · apply Built.insert
    · apply Built.insert .empty
      refine ⟨?_, ?_, ?_⟩
      · exact (by decide : Scalar.isUndefined (3 : Float) = false)
      · exact (by decide : Scalar.isUndefined (4 : Float) = false)
      · exact (by decide : ¬ (4 : Float) < 3)
    · exact ⟨trivial, (by decide : Scalar.isUndefined (1 : Float) = false), trivial⟩
  · intro a ha
    rcases List.mem_cons.1 ha with rfl | ha
    · refine ⟨?_, ?_, ?_⟩
      · exact (by decide : Scalar.isUndefined (0 : Float) = false)
      · exact (by decide : Scalar.isUndefined (2 : Float) = false)
      · exact (by decide : ¬ (2 : Float) < 0)
    · rw [List.mem_singleton.1 ha]
      exact ⟨(by decide : Scalar.isUndefined (6 : Float) = false), trivial, trivial⟩

theorem tidy_of_built_fromRays : fromRays.Built ∧ fromRays.Tidy ∧
    ∀ a, ∃ n ≤ fromRays.intervals.length, Merges n a fromRays.intervals (absorb a fromRays.intervals) :=
  ⟨built_fromRays, tidy_of_built built_fromRays⟩

end Domain

end PayoffPricing.Script
