import Mathlib.Data.List.Forall2
import PayoffPricing.Proofs.Script.Process
/-!
Tables of variables: reads and writes, and tables that differ in known slots at most.
-/

namespace PayoffPricing.Script

variable {R S T : Type}

namespace Variables

variable {values first second : Variables T} {slots : List Nat} {xs : List T} {r : S}

/-- The slots hold the values of the list, one after the other. -/
def Holds (values : Variables T) (slots : List Nat) (xs : List T) : Prop :=
  List.Forall₂ (fun slot x => values[slot]? = some x) slots xs

/-- Tables of one size that differ in the slots of the list at most. -/
structure SameOff (slots : List Nat) (a b : Variables T) : Prop where
  size : a.size = b.size
  get : ∀ i ∉ slots, a[i]? = b[i]?

theorem SameOff.refl (slots : List Nat) (a : Variables T) : SameOff slots a a := ⟨rfl, fun _ _ => rfl⟩

theorem SameOff.symm {a b : Variables T} (h : SameOff slots a b) : SameOff slots b a :=
  ⟨h.size.symm, fun i hi => (h.get i hi).symm⟩

theorem SameOff.trans {a b c : Variables T} (h : SameOff slots a b) (h' : SameOff slots b c) : SameOff slots a c :=
  ⟨h.size.trans h'.size, fun i hi => (h.get i hi).trans (h'.get i hi)⟩

theorem SameOff.mono {a b : Variables T} {more : List Nat} (h : SameOff slots a b) (hm : ∀ i ∈ slots, i ∈ more) :
    SameOff more a b := ⟨h.size, fun i hi => h.get i fun hs => hi (hm i hs)⟩

theorem SameOff.eq {a b : Variables T} (h : SameOff [] a b) : a = b :=
  Array.ext_getElem? fun i => h.get i List.not_mem_nil

theorem sameOff_set (values : Variables T) (slot : Nat) (x : T) :
    SameOff [slot] (values.setIfInBounds slot x) values where
  size := Array.size_setIfInBounds
  get _ hi := Array.getElem?_setIfInBounds_ne fun h => hi (List.mem_singleton.2 h.symm)

@[simp]
theorem exec_fetch (slot : Nat) :
    (values.fetch slot : Evaluation R S T).exec r =
      (match values[slot]? with
        | some x => .ok x
        | none => .error (.misuse .outOfRange), r) := by
  unfold fetch
  cases values[slot]? <;> rfl

@[simp]
theorem exec_store (slot : Nat) (x : T) :
    (values.store slot x : Evaluation R S (Variables T)).exec r =
      (if slot < values.size then .ok (values.setIfInBounds slot x) else .error (.misuse .outOfRange), r) := by
  unfold store
  split <;> rfl

theorem exec_store_eq_ok {slot : Nat} {x : T} {r' : S} {after : Variables T}
    (h : (values.store slot x : Evaluation R S (Variables T)).exec r = (.ok after, r')) :
    SameOff [slot] after values := by
  rw [exec_store] at h
  split at h
  · cases h
    exact sameOff_set values slot x
  · cases h

theorem exec_fetchAll (h : ∀ slot ∈ slots, slot < values.size) :
    ∃ xs, (values.fetchAll slots : Evaluation R S (List T)).exec r = (.ok xs, r) ∧ values.Holds slots xs := by
  induction slots with
  | nil => exact ⟨[], rfl, .nil⟩
  | cons slot slots ih =>
    rw [List.forall_mem_cons] at h
    obtain ⟨xs, hxs, hold⟩ := ih h.2
    have hslot : values[slot]? = some values[slot] := Array.getElem?_eq_getElem h.1
    refine ⟨values[slot] :: xs, ?_, .cons hslot hold⟩
    unfold fetchAll at hxs ⊢
    simp [hslot, hxs]

theorem exec_fetchAll_of_missing (h : ∃ slot ∈ slots, values.size ≤ slot) :
    (values.fetchAll slots : Evaluation R S (List T)).exec r = (.error (.misuse .outOfRange), r) := by
  induction slots with
  | nil => simp at h
  | cons slot slots ih =>
    by_cases hslot : slot < values.size
    · have hrest : ∃ slot ∈ slots, values.size ≤ slot := by
        obtain ⟨i, hi, hsize⟩ := h
        refine ⟨i, (List.mem_cons.1 hi).resolve_left ?_, hsize⟩
        omega
      have hxs := ih hrest
      unfold fetchAll at hxs ⊢
      simp [hslot, hxs]
    · unfold fetchAll
      simp [Array.getElem?_eq_none (Nat.le_of_not_lt hslot)]

theorem exec_storeAll_of_holds (hold : values.Holds slots xs) (h : SameOff slots first values) :
    (first.storeAll (slots.zip xs) : Evaluation R S (Variables T)).exec r = (.ok values, r) := by
  induction hold generalizing first with
  | nil =>
    obtain rfl := h.eq
    rfl
  | @cons slot x slots xs hx _ ih =>
    have hslot : slot < first.size := h.size ▸ (Array.getElem?_eq_some_iff.1 hx).1
    have hset : SameOff slots (first.setIfInBounds slot x) values := by
      refine ⟨Array.size_setIfInBounds.trans h.size, fun i hi => ?_⟩
      by_cases heq : i = slot
      · subst heq
        rw [hx, Array.getElem?_setIfInBounds_self_of_lt hslot]
      · rw [Array.getElem?_setIfInBounds_ne (Ne.symm heq)]
        exact h.get i fun hm => hi ((List.mem_cons.1 hm).resolve_left heq)
    have hrest := ih hset
    unfold storeAll at hrest ⊢
    simp [hslot, hrest]

end Variables

end PayoffPricing.Script
