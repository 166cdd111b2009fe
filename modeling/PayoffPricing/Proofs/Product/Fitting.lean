import PayoffPricing.Proofs.Product.Meaning
import PayoffPricing.Proofs.Script.Fitting
/-!
Built products fit their tables of variables.
-/

namespace PayoffPricing.Script

variable {R : Type} [Scalar R] {fuzzy : Bool} {n : Nat}

/-- What findings play no part in holds of folded events as it held before. -/
theorem forall_foldEvents {P : Event R → Prop} (hbare : ∀ event, P (Statement.bareBlock event) ↔ P event)
    {events results : List (Event R)} {k k' : Knowledge R} (h : ∀ event ∈ events, P event)
    (hf : foldEvents events k = (⟨results, none⟩, k')) : ∀ event ∈ results, P event := by
  induction events generalizing results k with
  | nil =>
    cases hf
    simp
  | cons event rest ih =>
    rw [List.forall_mem_cons] at h
    obtain ⟨first, k₁, others, hfirst, hrest, rfl⟩ := foldEvents_cons hf
    refine List.forall_mem_cons.2 ⟨?_, ih h.2 hrest⟩
    rw [← hbare, Statement.bare_foldBlock event hfirst, hbare]
    exact h.1

/-- What every stage keeps holds of the analysed events. -/
theorem forall_analyse {P : Event R → Prop} {events : List (Event R)} {a : Analysis R}
    (h : analyse fuzzy events = .ok a) (hmarked : ∀ event ∈ (markAffected (assignSlots events).1).1, P event)
    (hinfer : ∀ {events}, (∀ event ∈ events, P event) →
      Gives (inferEvents fuzzy events) fun r => ∀ event ∈ r.term, P event)
    (hcollapse : ∀ event, P event → P (Statement.collapseBlock event).1)
    (hbare : ∀ event, P (Statement.bareBlock event) ↔ P event) : ∀ event ∈ a.events, P event := by
  unfold analyse at h
  generalize assignSlots events = indexed at h hmarked
  obtain ⟨indexed, names⟩ := indexed
  obtain ⟨inferred, hinferred, h⟩ := bind_eq_ok_iff.1 h
  obtain ⟨folded, hfold, h⟩ := bind_eq_ok_iff.1 h
  cases h
  have hterm : (inferEvents fuzzy (markAffected indexed).1 (Domains.initial names.size)).1 = ⟨inferred, none⟩ :=
    Annotated.result_eq_ok hinferred
  have hall := hinfer hmarked (Domains.initial names.size)
  rw [hterm] at hall
  have hcollapsed : ∀ event ∈ (collapse inferred).1, P event := by
    simp only [collapse, List.map_map]
    exact List.forall_mem_map.2 fun event he => hcollapse event (hall event he)
  exact forall_foldEvents hbare hcollapsed (Prod.ext (Annotated.result_eq_ok hfold) rfl)

theorem names_analyse {events : List (Event R)} {a : Analysis R} (h : analyse fuzzy events = .ok a) :
    a.names = (assignSlots events).2 := by
  unfold analyse at h
  obtain ⟨inferred, -, h⟩ := bind_eq_ok_iff.1 h
  obtain ⟨folded, -, h⟩ := bind_eq_ok_iff.1 h
  cases h
  rfl

theorem nesting_analyse {events : List (Event R)} {a : Analysis R} (h : analyse fuzzy events = .ok a) :
    a.nesting = (markAffected (assignSlots events).1).2 := by
  unfold analyse at h
  obtain ⟨inferred, -, h⟩ := bind_eq_ok_iff.1 h
  obtain ⟨folded, -, h⟩ := bind_eq_ok_iff.1 h
  cases h
  rfl

theorem fits_analyse {events : List (Event R)} {a : Analysis R} (h : analyse fuzzy events = .ok a)
    (hevents : ∀ event ∈ events, Statement.blockHasArities event = true) :
    ∀ event ∈ a.events, Statement.FitsBlock a.names.size event := by
  rw [names_analyse h]
  exact forall_analyse h (fits_markAffected_assignSlots hevents) fits_inferEvents
    Statement.fitsBlock_collapseBlock Statement.fitsBlock_bareBlock

end PayoffPricing.Script

namespace PayoffPricing

open Script

variable {R : Type}

/-- The events fit the table of the variables, the payoff is in it, and the programs are those of the events. -/
structure Product.Fits (p : Product R) [Scalar R] : Prop where
  events : ∀ event ∈ p.events, Statement.FitsBlock p.names.size event
  programs : p.programs = p.events.map .ofEvent
  payoff : p.payoff < p.names.size

variable [Scalar R]

/-- A built product has events that are read from texts and analysed, and the programs of these events. -/
theorem Plan.exists_analysed {plan : Plan R} {p : Product R} (h : plan.build = .ok p) :
    ∃ parsed a, (∀ event ∈ parsed, ∃ text i, parseEvent text i plan.constants = .ok event) ∧
      analyse plan.fuzzy parsed = .ok a ∧ p.events = a.events ∧ p.names = a.names ∧
      p.programs = p.events.map .ofEvent ∧ p.payoff < p.names.size ∧ p.nesting = a.nesting := by
  simp only [build] at h
  split at h
  · obtain ⟨timeline, -, h⟩ := bind_eq_ok_iff.1 h
    obtain ⟨parsed, hparsed, h⟩ := bind_eq_ok_iff.1 h
    obtain ⟨a, ha, h⟩ := bind_eq_ok_iff.1 h
    split at h
    · cases h
    · next slot hslot =>
      cases h
      refine ⟨parsed, a, fun event he => ?_, ha, rfl, rfl, rfl, lt_of_idxOf? hslot, rfl⟩
      obtain ⟨⟨text, i⟩, -, hparse⟩ := exists_left_of_forall₂ (mapM_eq_ok_iff.1 (liftError_eq_ok.1 hparsed)) he
      exact ⟨text, i, hparse⟩
  · cases h

theorem Plan.fits_build {plan : Plan R} {p : Product R} (h : plan.build = .ok p) : p.Fits := by
  obtain ⟨parsed, a, hparsed, ha, hevents, hnames, hprograms, hpayoff, -⟩ := exists_analysed h
  refine ⟨?_, hprograms, hpayoff⟩
  rw [hevents, hnames]
  refine fits_analyse ha fun event he => ?_
  obtain ⟨text, i, hparse⟩ := hparsed event he
  exact blockHasArities_parseEvent hparse

end PayoffPricing
