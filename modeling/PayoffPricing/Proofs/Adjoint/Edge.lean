import Mathlib.Data.List.Perm.Basic
import PayoffPricing.Adjoint.Tape
import PayoffPricing.Proofs.Adjoint.Arena
/-!
Merged edges. Merging reorders edges and adds up their weights, but brings in no new target. The targets that are left
are those of the edges with a target, each one once and in order.
-/

namespace PayoffPricing.Edge

variable {R : Type} [Scalar R]

omit [Scalar R] in
theorem perm_insertByTarget (e : Edge R) (ds : List (Edge R)) : (insertByTarget e ds).Perm (e :: ds) := by
  induction ds with
  | nil => exact List.Perm.refl _
  | cons d ds ih =>
    simp only [insertByTarget]
    split <;> split
    all_goals first
      | exact List.Perm.refl _
      | exact (ih.cons d).trans (List.Perm.swap e d ds)

omit [Scalar R] in
theorem perm_sortByTarget (es : List (Edge R)) : (sortByTarget es).Perm es := by
  induction es with
  | nil => exact List.Perm.refl _
  | cons e es ih =>
    rw [sortByTarget, List.foldr_cons]
    exact (perm_insertByTarget e _).trans (ih.cons e)

theorem length_sumRuns_le (es : List (Edge R)) : (sumRuns es).length ≤ es.length := by
  fun_induction sumRuns es with
  | case1 => exact Nat.le_refl _
  | case2 => exact Nat.le_refl _
  | case3 e f rest h ih =>
    simp only [List.length_cons] at ih ⊢
    omega
  | case4 e f rest h ih =>
    simp only [List.length_cons] at ih ⊢
    omega

theorem target_of_mem_sumRuns {es : List (Edge R)} {e : Edge R} (h : e ∈ sumRuns es) :
    ∃ d ∈ es, d.target = e.target := by
  fun_induction sumRuns es with
  | case1 => cases h
  | case2 d => exact ⟨e, h, rfl⟩
  | case3 d f rest hdf ih =>
    obtain ⟨c, hc, hct⟩ := ih h
    rcases List.mem_cons.1 hc with rfl | hc
    · exact ⟨d, List.mem_cons_self, hct⟩
    · exact ⟨c, by simp [hc], hct⟩
  | case4 d f rest hdf ih =>
    rcases List.mem_cons.1 h with rfl | h
    · exact ⟨e, List.mem_cons_self, rfl⟩
    · obtain ⟨c, hc, hct⟩ := ih h
      exact ⟨c, List.mem_cons_of_mem _ hc, hct⟩

theorem length_merge_le (es : List (Edge R)) : (merge es).length ≤ es.length :=
  calc (merge es).length ≤ ((sortByTarget es).filter isActive).length := length_sumRuns_le _
    _ ≤ (sortByTarget es).length := List.length_filter_le ..
    _ = es.length := (perm_sortByTarget es).length_eq

/-- Every merged edge has the target of one of the edges that were merged, and it has one. -/
theorem target_of_mem_merge {es : List (Edge R)} {e : Edge R} (h : e ∈ merge es) :
    ∃ d ∈ es, d.target = e.target ∧ d.isActive = true := by
  obtain ⟨d, hd, hde⟩ := target_of_mem_sumRuns h
  obtain ⟨hd, hactive⟩ := List.mem_filter.1 hd
  exact ⟨d, (perm_sortByTarget es).mem_iff.1 hd, hde, hactive⟩

section Order

/-- The targets are in order, where both edges have one. -/
def Before (e f : Edge R) : Prop := ∀ p ∈ e.target, ∀ q ∈ f.target, p ≤ q

/-- The targets are in order and differ, where both edges have one. -/
def StrictlyBefore (e f : Edge R) : Prop := ∀ p ∈ e.target, ∀ q ∈ f.target, p < q

omit [Scalar R] in
theorem pairwise_insertByTarget (e : Edge R) {ds : List (Edge R)} (h : ds.Pairwise Before) :
    (insertByTarget e ds).Pairwise Before := by
  induction ds with
  | nil => exact List.pairwise_singleton ..
  | cons d ds ih =>
    obtain ⟨hd, hds⟩ := List.pairwise_cons.1 h
    have hlater : (∀ p ∈ d.target, ∀ q ∈ e.target, p ≤ q) → (d :: insertByTarget e ds).Pairwise Before := by
      intro hde
      refine List.pairwise_cons.2 ⟨fun f hf => ?_, ih hds⟩
      rcases List.mem_cons.1 ((perm_insertByTarget e ds).mem_iff.1 hf) with rfl | hf
      · exact hde
      · exact hd f hf
    simp only [insertByTarget]
    cases he : e.target with
    | none => exact List.pairwise_cons.2 ⟨fun f _ p hp => by simp [he] at hp, h⟩
    | some p =>
      cases hdt : d.target with
      | none => exact hlater fun q hq => by simp [hdt] at hq
      | some q =>
        by_cases hpq : p ≤ q
        · rw [if_pos (decide_eq_true hpq)]
          refine List.pairwise_cons.2 ⟨fun f hf a ha b hb => ?_, h⟩
          obtain rfl := Option.some.inj (he.symm.trans ha)
          rcases List.mem_cons.1 hf with rfl | hf
          · exact Option.some.inj (hdt.symm.trans hb) ▸ hpq
          · exact hpq.trans (hd f hf q hdt b hb)
        · rw [if_neg (by simpa using hpq)]
          refine hlater fun a ha b hb => ?_
          obtain rfl := Option.some.inj (hdt.symm.trans ha)
          obtain rfl := Option.some.inj (he.symm.trans hb)
          exact (not_le.1 hpq).le

omit [Scalar R] in
theorem pairwise_sortByTarget (es : List (Edge R)) : (sortByTarget es).Pairwise Before := by
  induction es with
  | nil => exact List.Pairwise.nil
  | cons e es ih => exact pairwise_insertByTarget e ih

theorem pairwise_sumRuns {es : List (Edge R)} (h : es.Pairwise Before) (hactive : ∀ e ∈ es, e.isActive = true) :
    (sumRuns es).Pairwise StrictlyBefore := by
  fun_induction sumRuns es with
  | case1 => exact List.Pairwise.nil
  | case2 e => exact List.pairwise_singleton ..
  | case3 e f rest hef ih =>
    obtain ⟨he, hrest⟩ := List.pairwise_cons.1 h
    refine ih (List.pairwise_cons.2 ⟨fun d hd => he d (List.mem_cons_of_mem f hd), hrest.tail⟩) ?_
    simp only [List.forall_mem_cons] at hactive ⊢
    exact ⟨hactive.1, hactive.2.2⟩
  | case4 e f rest hef ih =>
    obtain ⟨he, hrest⟩ := List.pairwise_cons.1 h
    refine List.pairwise_cons.2 ⟨fun d hd p hp q hq => ?_, ih hrest fun d hd => hactive d (List.mem_cons_of_mem e hd)⟩
    -- a later run has a target after the one of `f`
    obtain ⟨c, hc, hcd⟩ := target_of_mem_sumRuns hd
    obtain ⟨r, hr⟩ := Option.isSome_iff_exists.1 (hactive f (by simp))
    have hpr : p ≤ r := he f List.mem_cons_self p hp r hr
    have hne : p ≠ r := by
      rintro rfl
      exact hef (Eq.trans hp hr.symm)
    refine lt_of_lt_of_le (lt_of_le_of_ne hpr hne) ?_
    rcases List.mem_cons.1 hc with rfl | hc
    · exact (Option.some.inj (hr.symm.trans (hcd.trans hq))).le
    · exact (List.pairwise_cons.1 hrest).1 c hc r hr q (hcd.trans hq)

theorem exists_mem_sumRuns {es : List (Edge R)} {target : Option Position} (h : ∃ e ∈ es, e.target = target) :
    ∃ d ∈ sumRuns es, d.target = target := by
  fun_induction sumRuns es with
  | case1 => exact h
  | case2 d => exact h
  | case3 d f rest hdf ih =>
    obtain ⟨e, he, htarget⟩ := h
    refine ih ?_
    rcases List.mem_cons.1 he with rfl | he
    · exact ⟨_, List.mem_cons_self, htarget⟩
    · rcases List.mem_cons.1 he with rfl | he
      · exact ⟨_, List.mem_cons_self, hdf.trans htarget⟩
      · exact ⟨e, List.mem_cons_of_mem _ he, htarget⟩
  | case4 d f rest hdf ih =>
    obtain ⟨e, he, htarget⟩ := h
    rcases List.mem_cons.1 he with rfl | he
    · exact ⟨e, List.mem_cons_self, htarget⟩
    · obtain ⟨c, hc, hct⟩ := ih ⟨e, he, htarget⟩
      exact ⟨c, List.mem_cons_of_mem _ hc, hct⟩

theorem pairwise_merge (es : List (Edge R)) : (merge es).Pairwise StrictlyBefore :=
  pairwise_sumRuns ((pairwise_sortByTarget es).filter isActive) fun _ he => (List.mem_filter.1 he).2

theorem exists_mem_merge {es : List (Edge R)} {e : Edge R} (h : e ∈ es) (hactive : e.isActive = true) :
    ∃ d ∈ merge es, d.target = e.target :=
  exists_mem_sumRuns ⟨e, List.mem_filter.2 ⟨(perm_sortByTarget es).mem_iff.2 h, hactive⟩, rfl⟩

end Order

end PayoffPricing.Edge
