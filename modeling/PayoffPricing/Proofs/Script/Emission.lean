import Mathlib.Data.List.Infix
import PayoffPricing.Proofs.Scalar
import PayoffPricing.Proofs.Script.Machine
/-!
Emission of code. Compilation only adds to the pool of constants, so whatever it emits keeps its
meaning under every later pool.
-/

namespace PayoffPricing.Script

namespace Program

variable {R : Type}

/-- The words stand in the stream, one after the other, from a place on. -/
def HasCode (p : Program R) : Nat → List Nat → Prop
  | _, [] => True
  | i, w :: ws => p.code[i]? = some w ∧ HasCode p (i + 1) ws

@[simp]
theorem hasCode_nil (p : Program R) (i : Nat) : p.HasCode i [] := trivial

@[simp]
theorem hasCode_cons {p : Program R} {i w : Nat} {ws : List Nat} :
    p.HasCode i (w :: ws) ↔ p.code[i]? = some w ∧ p.HasCode (i + 1) ws := Iff.rfl

@[simp]
theorem hasCode_append {p : Program R} {i : Nat} {ws us : List Nat} :
    p.HasCode i (ws ++ us) ↔ p.HasCode i ws ∧ p.HasCode (i + ws.length) us := by
  induction ws generalizing i with
  | nil => simp
  | cons w ws ih => simp [ih, and_assoc, Nat.add_assoc, Nat.add_comm 1]

theorem hasCode_toList (p : Program R) : p.HasCode 0 p.code.toList := by
  have h : ∀ ws i, (∀ k, p.code[i + k]? = ws[k]?) → p.HasCode i ws := by
    intro ws
    induction ws with
    | nil => intros; trivial
    | cons w ws ih =>
      intro i hk
      refine ⟨hk 0, ih (i + 1) fun k => ?_⟩
      rw [Nat.add_assoc, Nat.add_comm 1, hk (k + 1), List.getElem?_cons_succ]
  exact h _ 0 fun k => by simp

end Program

section Pool

variable {R α β : Type}

/-- A step of compilation adds to the pool, and its result is as it should be under all pools that
extend the one it leaves. -/
def Emits (step : StateM (Array R) α) (good : Array R → α → Prop) : Prop :=
  ∀ pool, pool.toList <+: (step pool).2.toList ∧
    ∀ final : Array R, (step pool).2.toList <+: final.toList → good final (step pool).1

namespace Emits

variable {good : Array R → α → Prop}

theorem pure {a : α} (h : ∀ final, good final a) : Emits (Pure.pure a) good :=
  fun _ => ⟨List.prefix_refl _, fun final _ => h final⟩

theorem bind {step : StateM (Array R) α} {next : α → StateM (Array R) β}
    {after : Array R → β → Prop} (hs : Emits step good)
    (hn : ∀ a, Emits (next a) fun final b => good final a → after final b) :
    Emits (step >>= next) after := by
  intro pool
  have ⟨grown, hgood⟩ := hs pool
  have ⟨more, hafter⟩ := hn (step pool).1 (step pool).2
  exact ⟨grown.trans more, fun final hf => hafter final hf (hgood final (more.trans hf))⟩

theorem mono {step : StateM (Array R) α} {weaker : Array R → α → Prop} (hs : Emits step good)
    (h : ∀ final a, good final a → weaker final a) : Emits step weaker :=
  fun pool => ⟨(hs pool).1, fun final hf => h _ _ ((hs pool).2 final hf)⟩

end Emits

theorem emits_placeOf [Scalar R] [RepresentedScalar R] (v : R) :
    Emits (placeOf v) fun final place => final[place]? = some v := by
  intro pool
  simp only [placeOf]
  split
  · next place hplace =>
    refine ⟨List.prefix_refl _, fun final hf => ?_⟩
    obtain ⟨hlt, hsame, -⟩ := Array.findIdx?_eq_some_iff_getElem.1 hplace
    have hread : pool.toList[place]? = some v := by
      simp [hlt, RepresentedScalar.eq_of_identical _ _ hsame]
    obtain ⟨more, hmore⟩ := hf
    rw [← Array.getElem?_toList, ← hmore, List.getElem?_append_left (by simpa using hlt), hread]
  · refine ⟨by simp, fun final hf => ?_⟩
    obtain ⟨more, hmore⟩ := hf
    rw [← Array.getElem?_toList, ← hmore]
    simp

end Pool

end PayoffPricing.Script
