import PayoffPricing.Proofs.Product.Meaning
/-!
Domains at the end of a run. As far as the tolerance tells apart what the analysis compares, the inferred
domain of every variable includes the value that the events leave in it.
-/

namespace PayoffPricing.Script

open Statement

variable {R : Type} [ExactScalar R]

theorem Interval.Has.includes {a : Interval R} {x : R} (h : a.Has x) : a.includes x = true := by
  have hpos : (0 : R) < Bound.tolerance := Bound.tolerance_pos
  obtain ⟨l, r⟩ := a
  obtain ⟨hl, hr⟩ := h
  have hleft : (Bound.finite x).isBelow l = false := by
    cases l with
    | minusInfinity => rfl
    | plusInfinity => exact hl.elim
    | finite v =>
      simp only [Bound.IsLower] at hl
      simp only [Bound.isBelow, decide_eq_false_iff_not]
      linarith
  have hright : r.isBelow (Bound.finite x) = false := by
    cases r with
    | minusInfinity => exact hr.elim
    | plusInfinity => rfl
    | finite v =>
      simp only [Bound.IsUpper] at hr
      simp only [Bound.isBelow, decide_eq_false_iff_not]
      linarith
  simp [Interval.includes, hleft, hright]

theorem Domain.Has.includes {d : Domain R} {x : R} (h : d.Has x) : d.includes x = true := by
  obtain ⟨a, ha, hx⟩ := h
  exact List.any_eq_true.2 ⟨a, ha, hx.includes⟩

theorem hold_walk {fuzzy : Bool} {events results : List (Event R)} {samples : List (Sample R)}
    {domains domains' : Domains R} {vs vs' : Variables R} (hlength : samples.length = events.length)
    (hn : ∀ s ∈ samples, 0 < s.numeraire) (hD : domains.Sharp) (hm : ∀ event ∈ events, MarkedBlock event)
    (hs : SettledEvents fuzzy domains events)
    (h : inferEvents fuzzy events domains = (⟨results, none⟩, domains')) (hin : domains.Hold vs)
    (hrun : (walk (events.map bareBlock) samples.toArray : Process R Prop (Variables R) Unit).Yields vs () vs') :
    domains'.Hold vs' := by
  induction events generalizing results samples domains vs with
  | nil =>
    cases h
    cases hrun
    exact hin
  | cons event rest ih =>
    obtain ⟨first, domains₁, others, hfirst, hrest, rfl⟩ := inferEvents_cons h
    cases samples with
    | nil => simp at hlength
    | cons s samples =>
      obtain ⟨hse, hsr⟩ := hs
      rw [show (inferBlock fuzzy event).run domains = (⟨first, none⟩, domains₁) from hfirst] at hsr
      have hf := follows_inferBlock (hn s List.mem_cons_self) event hD (hm event List.mem_cons_self) hse hfirst
      obtain ⟨_, us, hev, hrun⟩ := hrun.bind_inv fun _ => remembers_walk (rest.map bareBlock) samples
      apply ih _ (fun s hs => hn s (List.mem_cons_of_mem _ hs)) hf.sharp
        (fun e he => hm e (List.mem_cons_of_mem _ he)) hsr hrest (hf.run vs us hin hev).1 hrun
      simpa using hlength

end PayoffPricing.Script
