import PayoffPricing.Proofs.Script.Decision
import PayoffPricing.Proofs.Script.Effects
/-!
Statements under the domain analysis. When the analysis goes through and decided conditions are
dropped, a statement leaves the variables as it does without analysis, and in their domains.
-/

namespace PayoffPricing.Script

variable {R : Type} [ExactScalar R]

namespace Domains

omit [ExactScalar R] in
theorem collect_eq_ok {slots : List Nat} {domains : Domains R} {ds : List (Domain R)} :
    collect slots domains = .ok ds ↔ List.Forall₂ (fun i d => domains[i]? = some d) slots ds := by
  have h : ∀ (o : Option (Domain R)) d, Fault.ofOption (ε := ScriptError R) o = .ok d ↔ o = some d := by
    intro o d
    cases o <;> simp [Fault.ofOption]
  simp only [collect, mapM_eq_ok_iff, h]

omit [ExactScalar R] in
theorem getElem?_storeAll_of_notMem {slots : List Nat} {ds : List (Domain R)} {domains : Domains R} {i : Nat}
    (h : i ∉ slots) : (storeAll (slots.zip ds) domains)[i]? = domains[i]? := by
  induction slots generalizing ds domains with
  | nil => rfl
  | cons n slots ih =>
    cases ds with
    | nil => rfl
    | cons d ds =>
      rw [List.mem_cons, not_or] at h
      have hstep : (domains.setIfInBounds n d)[i]? = domains[i]? := by
        rw [Array.getElem?_setIfInBounds_ne (Ne.symm h.1)]
      exact (ih h.2).trans hstep

omit [ExactScalar R] in
/-- Every slot of the list holds a domain that was stored for it. -/
theorem exists_getElem?_storeAll {p : Nat → Domain R → Prop} {slots : List Nat} {ds : List (Domain R)}
    {domains : Domains R} {i : Nat} (hall : List.Forall₂ p slots ds) (hi : i ∈ slots)
    (hsize : i < domains.size) : ∃ d, (storeAll (slots.zip ds) domains)[i]? = some d ∧ p i d := by
  induction hall generalizing domains with
  | nil => simp at hi
  | @cons n d slots ds hp hrest ih =>
    by_cases hmem : i ∈ slots
    · exact ih hmem (by simpa using hsize)
    · have hn : i = n := (List.mem_cons.1 hi).resolve_right hmem
      subst hn
      refine ⟨d, (getElem?_storeAll_of_notMem hmem).trans ?_, hp⟩
      simp [hsize]

end Domains

namespace Statement

/-- The tolerance tells apart what the analysis of a payment compares. -/
def PaySettled (domains : Domains R) (slot : Nat) (paid : Domain R) : Prop :=
  Domain.DivResolved paid .nonNegative ∧ ∀ old payment, domains[slot]? = some old →
    paid.div .nonNegative = .ok payment → Operator.add.Settled old payment

mutual

/-- The tolerance tells apart what the analysis of a statement compares, and its verdicts are right at
the tolerances that the statement states. -/
def Settled (fuzzy : Bool) (domains : Domains R) : Statement R → Prop
  | assign _ e => e.Settled domains
  | pays v e => e.Settled domains ∧ ∀ paid, e.domain domains = .ok paid → PaySettled domains v.slot paid
  | branch c body otherwise affected => c.Settled domains ∧
      match (c.decide fuzzy domains).term.decided? with
      | some true => SettledBlock fuzzy domains body
      | some false => SettledBlock fuzzy domains otherwise
      | none => SettledBlock fuzzy domains body ∧ SettledBlock fuzzy domains otherwise ∧
          ∀ i ∈ affected, ∀ a b, ((inferBlock fuzzy body).run domains).2[i]? = some a →
            ((inferBlock fuzzy otherwise).run domains).2[i]? = some b → b.Distinct a
  | sequence body => SettledBlock fuzzy domains body

def SettledBlock (fuzzy : Bool) (domains : Domains R) : List (Statement R) → Prop
  | [] => True
  | s :: rest => s.Settled fuzzy domains ∧ SettledBlock fuzzy ((s.infer fuzzy).run domains).2 rest

end

section Inversion

variable {fuzzy : Bool} {domains domains' : Domains R} {result : Statement R}
  {results : List (Statement R)} {v : Variable} {e : Expr R} {c : Cond R}
  {body otherwise : List (Statement R)} {affected : List Nat}

omit [ExactScalar R] in
theorem store_eq {slot : Nat} {d : Domain R} (h : Domains.store slot d domains = (none, domains')) :
    slot < domains.size ∧ domains' = domains.setIfInBounds slot d := by
  unfold Domains.store at h
  by_cases hs : slot < domains.size
  · rw [if_pos hs] at h
    cases h
    exact ⟨hs, rfl⟩
  · rw [if_neg hs] at h
    cases h

theorem infer_assign (h : (assign v e).infer fuzzy domains = (⟨result, none⟩, domains')) :
    ∃ d, e.domain domains = .ok d ∧ v.slot < domains.size ∧ result = assign v e ∧
      domains' = domains.setIfInBounds v.slot d := by
  simp only [infer, bind, StateT.bind, get, getThe, MonadStateOf.get, StateT.get, pure] at h
  cases hd : e.domain domains with
  | error stop =>
    rw [hd] at h
    cases h
  | ok d =>
    rw [hd] at h
    simp only [StateT.bind, StateT.pure, pure] at h
    generalize hs : Domains.store v.slot d domains = stored at h
    obtain ⟨stop, next⟩ := stored
    cases h
    obtain ⟨hslot, rfl⟩ := store_eq hs
    exact ⟨d, rfl, hslot, rfl, rfl⟩

theorem infer_pays (h : (pays v e).infer fuzzy domains = (⟨result, none⟩, domains')) :
    ∃ paid payment old, e.domain domains = .ok paid ∧ paid.div .nonNegative = .ok payment ∧
      domains[v.slot]? = some old ∧ result = pays v e ∧
      domains' = domains.setIfInBounds v.slot (old.add payment) := by
  simp only [infer, bind, StateT.bind, get, getThe, MonadStateOf.get, StateT.get, pure] at h
  cases hd : e.domain domains with
  | error stop =>
    rw [hd] at h
    cases h
  | ok paid =>
    rw [hd] at h
    cases hp : paidDomain domains v.slot paid with
    | error stop =>
      simp only [Except.bind, hp] at h
      cases h
    | ok d =>
      simp only [Except.bind, hp, StateT.bind, StateT.pure, pure] at h
      generalize hs : Domains.store v.slot d domains = stored at h
      obtain ⟨stop, next⟩ := stored
      cases h
      obtain ⟨hslot, rfl⟩ := store_eq hs
      obtain ⟨payment, hpay, hp⟩ := bind_eq_ok_iff.1 hp
      obtain ⟨old, hold, hp⟩ := bind_eq_ok_iff.1 hp
      cases hp
      refine ⟨paid, payment, old, rfl, liftError_eq_ok.1 hpay, ?_, rfl, rfl⟩
      cases ho : domains[v.slot]? <;> simp_all [Fault.ofOption]

theorem inferBlock_nil (h : inferBlock fuzzy [] domains = (⟨results, none⟩, domains')) :
    results = [] ∧ domains' = domains := by
  cases h
  exact ⟨rfl, rfl⟩

theorem inferBlock_cons {s : Statement R} {rest : List (Statement R)}
    (h : inferBlock fuzzy (s :: rest) domains = (⟨results, none⟩, domains')) :
    ∃ first domains₁ others, s.infer fuzzy domains = (⟨first, none⟩, domains₁) ∧
      inferBlock fuzzy rest domains₁ = (⟨others, none⟩, domains') ∧ results = first :: others := by
  simp only [inferBlock, bind, StateT.bind, pure] at h
  generalize hs : s.infer fuzzy domains = r at h
  obtain ⟨⟨first, stop⟩, domains₁⟩ := r
  cases stop with
  | some e => cases h
  | none =>
    simp only [Option.isSome_none, Bool.false_eq_true, if_false, StateT.bind] at h
    generalize hr : inferBlock fuzzy rest domains₁ = r at h
    obtain ⟨⟨others, stop⟩, domains₂⟩ := r
    cases h
    exact ⟨first, domains₁, others, rfl, hr, rfl⟩

theorem infer_sequence (h : (sequence body).infer fuzzy domains = (⟨result, none⟩, domains')) :
    ∃ body', inferBlock fuzzy body domains = (⟨body', none⟩, domains') ∧ result = sequence body' := by
  simp only [infer, bind, StateT.bind, pure] at h
  generalize hb : inferBlock fuzzy body domains = r at h
  obtain ⟨⟨body', stop⟩, domains₁⟩ := r
  cases h
  exact ⟨body', rfl, rfl⟩

/-- A conditional statement whose condition is decided is followed on the branch that is taken. -/
theorem infer_branch_decided {c' : Cond R} {b : Bool} (hc : c.decide fuzzy domains = ⟨c', none⟩)
    (hb : c'.decided? = some b)
    (h : (branch c body otherwise affected).infer fuzzy domains = (⟨result, none⟩, domains')) :
    ∃ taken, inferBlock fuzzy (if b then body else otherwise) domains = (⟨taken, none⟩, domains') ∧
      result = if b then branch c' taken otherwise affected else branch c' body taken affected := by
  simp only [infer, bind, StateT.bind, get, getThe, MonadStateOf.get, StateT.get, pure, hc, hb,
    Option.isSome_none, Bool.false_eq_true, if_false] at h
  cases b
  all_goals
    simp only [StateT.bind] at h
    generalize ht : inferBlock fuzzy _ domains = r at h
    obtain ⟨⟨taken, stop⟩, domains₁⟩ := r
    cases h
    exact ⟨taken, ht, rfl⟩

/-- Both branches of an undecided one are followed from the same domains, and what they leave is
united. -/
theorem infer_branch_undecided {c' : Cond R} (hc : c.decide fuzzy domains = ⟨c', none⟩)
    (hb : c'.decided? = none)
    (h : (branch c body otherwise affected).infer fuzzy domains = (⟨result, none⟩, domains')) :
    ∃ before body' domains₁ after otherwise' domains₂ others,
      Domains.collect affected domains = .ok before ∧
      inferBlock fuzzy body domains = (⟨body', none⟩, domains₁) ∧
      Domains.collect affected domains₁ = .ok after ∧
      inferBlock fuzzy otherwise (Domains.storeAll (affected.zip before) domains₁) =
        (⟨otherwise', none⟩, domains₂) ∧
      Domains.collect affected domains₂ = .ok others ∧
      result = branch c' body' otherwise' affected ∧
      domains' = Domains.storeAll (affected.zip (List.zipWith Domain.union others after)) domains₂ := by
  simp only [infer, bind, StateT.bind, get, getThe, MonadStateOf.get, StateT.get, pure, hc, hb,
    Option.isSome_none, Bool.false_eq_true, if_false] at h
  cases hbefore : Domains.collect affected domains with
  | error stop =>
    rw [hbefore] at h
    cases h
  | ok before =>
    simp only [hbefore, StateT.bind] at h
    generalize hbody : inferBlock fuzzy body domains = r at h
    obtain ⟨⟨body', stop⟩, domains₁⟩ := r
    cases stop with
    | some stop => cases h
    | none =>
      simp only [bind, Option.isSome_none, Bool.false_eq_true, if_false, StateT.bind, StateT.get, pure] at h
      cases hafter : Domains.collect affected domains₁ with
      | error stop =>
        rw [hafter] at h
        cases h
      | ok after =>
        simp only [hafter, StateT.bind, modify, modifyGet, MonadStateOf.modifyGet, StateT.modifyGet, bind,
          pure] at h
        generalize hotherwise : inferBlock fuzzy otherwise _ = r at h
        obtain ⟨⟨otherwise', stop⟩, domains₂⟩ := r
        cases stop with
        | some stop => cases h
        | none =>
          simp only [Option.isSome_none, Bool.false_eq_true, if_false, StateT.bind, StateT.get, bind, pure] at h
          cases hothers : Domains.collect affected domains₂ with
          | error stop =>
            rw [hothers] at h
            cases h
          | ok others =>
            rw [hothers] at h
            cases h
            exact ⟨before, body', domains₁, after, otherwise', domains₂, others, rfl, rfl, hafter,
              hotherwise, hothers, rfl, rfl⟩

theorem infer_branch_decide
    (h : (branch c body otherwise affected).infer fuzzy domains = (⟨result, none⟩, domains')) :
    ∃ c', c.decide fuzzy domains = ⟨c', none⟩ := by
  simp only [infer, bind, StateT.bind, get, getThe, MonadStateOf.get, StateT.get, pure] at h
  generalize hc : c.decide fuzzy domains = r at h
  obtain ⟨c', stop⟩ := r
  cases stop with
  | some stop => cases h
  | none => exact ⟨c', rfl⟩

end Inversion

section Writes

variable {vs vs' : Variables R} {s : Sample R} {v : Variable} {e : Expr R}

theorem yields_assign (h : ((assign v e).run s : Process R Prop (Variables R) Unit).Yields vs () vs') :
    ∃ x, (e.eval vs s : Evaluation R Prop R).Yields x ∧ v.slot < vs.size ∧
      vs' = vs.setIfInBounds v.slot x := by
  simp only [run, Process.Yields, Process.exec_bind, Process.exec_get, Process.exec_ofEvaluation] at h
  unfold Evaluation.Yields
  generalize (e.eval vs s : Evaluation R Prop R).exec True = r at h ⊢
  obtain ⟨_ | x, nonzero⟩ := r
  · simp at h
  by_cases hs : v.slot < vs.size
  · simp only [Variables.store, hs, if_true, Evaluation.exec_pure, Process.exec_set, Prod.mk.injEq,
      true_and] at h
    obtain ⟨rfl, rfl⟩ := h
    exact ⟨x, rfl, hs, rfl⟩
  · simp [Variables.store, hs] at h

theorem exec_assign {x : R} (h : (e.eval vs s : Evaluation R Unit R).exec () = (.ok x, ()))
    (hs : v.slot < vs.size) :
    ((assign v e).run s : Process R Unit (Variables R) Unit).exec vs () =
      ((.ok (), vs.setIfInBounds v.slot x), ()) := by
  simp [run, h, Variables.store, hs]

theorem yields_pays (h : ((pays v e).run s : Process R Prop (Variables R) Unit).Yields vs () vs') :
    ∃ paid old, (e.eval vs s : Evaluation R Prop R).Yields paid ∧ vs[v.slot]? = some old ∧
      vs' = vs.setIfInBounds v.slot (old + paid / s.numeraire) := by
  simp only [run, Process.Yields, Process.exec_bind, Process.exec_get, Process.exec_ofEvaluation] at h
  unfold Evaluation.Yields
  generalize (e.eval vs s : Evaluation R Prop R).exec True = r at h ⊢
  obtain ⟨_ | paid, nonzero⟩ := r
  · simp at h
  cases hv : vs[v.slot]? with
  | none => simp [Variables.pay, Variables.fetch, hv] at h
  | some old =>
    have hs : v.slot < vs.size := (Array.getElem?_eq_some_iff.1 hv).1
    simp only [Variables.pay, Variables.fetch, hv, pure_bind, Evaluation.exec_bind,
      Evaluation.exec_record, Variables.store, hs, if_true, Evaluation.exec_pure, Process.exec_set] at h
    obtain ⟨h, hn⟩ := Prod.mk.inj h
    have hn' : nonzero ∧ s.numeraire ≠ 0 := of_eq_true hn
    rw [eq_true hn'.1]
    exact ⟨paid, old, rfl, rfl, (congrArg Prod.snd h).symm⟩

theorem exec_pays {paid old : R} (h : (e.eval vs s : Evaluation R Unit R).exec () = (.ok paid, ()))
    (hs : vs[v.slot]? = some old) :
    ((pays v e).run s : Process R Unit (Variables R) Unit).exec vs () =
      ((.ok (), vs.setIfInBounds v.slot (old + paid / s.numeraire)), ()) := by
  have hsize : v.slot < vs.size := (Array.getElem?_eq_some_iff.1 hs).1
  simp only [run, Process.exec_bind, Process.exec_get, Process.exec_ofEvaluation, h, Variables.pay,
    Variables.fetch, hs, pure_bind, Evaluation.exec_bind, Evaluation.exec_record, Variables.store, hsize,
    if_true, Evaluation.exec_pure, Process.exec_set]
  rfl

end Writes

section Runs

variable {fuzzy : Bool} {domains domains' : Domains R} {s : Sample R}

/-- The analysis of a statement leaves sharp domains, changes those of written slots only, and a run
without analysis is also one of the analysed statement and keeps all variables in their domains. -/
structure Follows (domains domains' : Domains R) (writes : List Nat)
    (before : Process R Prop (Variables R) Unit) (after : Process R Unit (Variables R) Unit) : Prop where
  sharp : domains'.Sharp
  frame (i : Nat) : i ∉ writes → domains'[i]? = domains[i]?
  run (vs vs' : Variables R) : domains.Hold vs → before.Yields vs () vs' →
    domains'.Hold vs' ∧ after.exec vs () = ((.ok (), vs'), ())

theorem Follows.trans {domains'' : Domains R} {writes more : List Nat}
    {a b : Process R Prop (Variables R) Unit} {a' b' : Process R Unit (Variables R) Unit}
    (h : Follows domains domains' writes a a') (h' : Follows domains' domains'' more b b')
    (hb : b.Remembers) :
    Follows domains domains'' (writes ++ more) (a >>= fun _ => b) (a' >>= fun _ => b') := by
  refine ⟨h'.sharp, fun i hi => ?_, fun vs vs' hin hrun => ?_⟩
  · rw [List.mem_append, not_or] at hi
    rw [h'.frame i hi.2, h.frame i hi.1]
  · obtain ⟨_, us, ha, hb⟩ := hrun.bind_inv fun _ => hb
    obtain ⟨hin, ha⟩ := h.run vs us hin ha
    obtain ⟨hin, hb⟩ := h'.run us vs' hin hb
    exact ⟨hin, by simp [ha, hb]⟩

theorem sharp_set {slot : Nat} {d : Domain R} (hD : domains.Sharp) (hd : d.Sharp) :
    Domains.Sharp (domains.setIfInBounds slot d) := by
  intro i d' h
  rw [Array.getElem?_setIfInBounds] at h
  split_ifs at h
  · exact Option.some.inj h ▸ hd
  · exact hD i d' h

theorem hold_set {slot : Nat} {d : Domain R} {vs : Variables R} {x : R} (hin : domains.Hold vs)
    (hx : d.Has x) : Domains.Hold (domains.setIfInBounds slot d) (vs.setIfInBounds slot x) := by
  intro i d' y hd hy
  rw [Array.getElem?_setIfInBounds] at hd hy
  split_ifs at hd hy with h
  · exact Option.some.inj hd ▸ Option.some.inj hy ▸ hx
  · exact hin i d' y hd hy

omit [ExactScalar R] in
theorem frame_set {slot : Nat} {d : Domain R} {i : Nat} (h : i ∉ [slot]) :
    (domains.setIfInBounds slot d)[i]? = domains[i]? := by
  rw [Array.getElem?_setIfInBounds_ne (Ne.symm (List.mem_singleton.not.1 h))]

theorem has_payment {paid payment old : Domain R} {x y n : R} (hp : paid.Sharp) (ho : old.Sharp)
    (hs : Domain.DivResolved paid .nonNegative) (hadd : Operator.add.Settled old payment)
    (hpay : paid.div .nonNegative = .ok payment) (hn : 0 < n) :
    (old.add payment).Sharp ∧ (paid.Has x → old.Has y → (old.add payment).Has (y + x / n)) := by
  obtain ⟨hsharp, hhas⟩ := Domain.results_div hp sharp_nonNegative hs hpay
  obtain ⟨hsharp', hhas'⟩ := Domain.results_add ho hsharp hadd
  refine ⟨hsharp', fun hx hy => hhas' y (x / n) hy (hhas x n hx ?_ hn.ne')⟩
  exact Domain.has_ofInterval (Interval.has_nonNegative hn.le)

omit [ExactScalar R] in
/-- What was set aside is put back as it was. -/
theorem restored_eq {affected : List Nat} {before after : List (Domain R)} {domains₁ : Domains R}
    (hbefore : Domains.collect affected domains = .ok before)
    (hafter : Domains.collect affected domains₁ = .ok after)
    (hframe : ∀ i, i ∉ affected → domains₁[i]? = domains[i]?) :
    Domains.storeAll (affected.zip before) domains₁ = domains := by
  refine Array.ext_getElem? fun i => ?_
  by_cases hi : i ∈ affected
  · obtain ⟨d, -, hd⟩ := exists_right_of_forall₂ (Domains.collect_eq_ok.1 hafter) hi
    have hsize : i < domains₁.size := (Array.getElem?_eq_some_iff.1 hd).1
    obtain ⟨b, hb, hib⟩ := Domains.exists_getElem?_storeAll (Domains.collect_eq_ok.1 hbefore) hi hsize
    rw [hb, hib]
  · rw [Domains.getElem?_storeAll_of_notMem hi, hframe i hi]

theorem forall₂_union {slots : List Nat} {after others : List (Domain R)} {domains₁ domains₂ : Domains R}
    (hafter : List.Forall₂ (fun i d => domains₁[i]? = some d) slots after)
    (hothers : List.Forall₂ (fun i d => domains₂[i]? = some d) slots others) :
    List.Forall₂ (fun i d => ∃ a b, domains₁[i]? = some a ∧ domains₂[i]? = some b ∧ d = b.union a) slots
      (List.zipWith Domain.union others after) := by
  induction hafter generalizing others with
  | nil =>
    cases hothers
    exact List.Forall₂.nil
  | cons ha _ ih =>
    cases hothers with
    | cons hb hrest => exact List.Forall₂.cons ⟨_, _, ha, hb, rfl⟩ (ih hrest)

/-- What two branches leave is united in the affected slots. -/
theorem joined {affected : List Nat} {after others : List (Domain R)} {domains₁ domains₂ domains' : Domains R}
    (h₁ : domains₁.Sharp) (h₂ : domains₂.Sharp)
    (hafter : Domains.collect affected domains₁ = .ok after)
    (hothers : Domains.collect affected domains₂ = .ok others)
    (hframe : ∀ i, i ∉ affected → domains₁[i]? = domains₂[i]?)
    (hdistinct : ∀ i ∈ affected, ∀ a b, domains₁[i]? = some a → domains₂[i]? = some b → b.Distinct a)
    (h : domains' = Domains.storeAll (affected.zip (List.zipWith Domain.union others after)) domains₂) :
    domains'.Sharp ∧ (∀ i, i ∉ affected → domains'[i]? = domains₂[i]?) ∧
      (∀ vs, domains₁.Hold vs ∨ domains₂.Hold vs → domains'.Hold vs) := by
  subst h
  have hall := forall₂_union (Domains.collect_eq_ok.1 hafter) (Domains.collect_eq_ok.1 hothers)
  have hout : ∀ i, i ∉ affected →
      (Domains.storeAll (affected.zip (List.zipWith Domain.union others after)) domains₂)[i]? = domains₂[i]? :=
    fun i hi => Domains.getElem?_storeAll_of_notMem hi
  have hin : ∀ i ∈ affected, ∃ a b, domains₁[i]? = some a ∧ domains₂[i]? = some b ∧
      (Domains.storeAll (affected.zip (List.zipWith Domain.union others after)) domains₂)[i]? =
        some (b.union a) := by
    intro i hi
    obtain ⟨d, -, hd⟩ := exists_right_of_forall₂ (Domains.collect_eq_ok.1 hothers) hi
    obtain ⟨u, hu, a, b, ha, hb, rfl⟩ :=
      Domains.exists_getElem?_storeAll hall hi (Array.getElem?_eq_some_iff.1 hd).1
    exact ⟨a, b, ha, hb, hu⟩
  have hunion : ∀ i ∈ affected, ∀ a b, domains₁[i]? = some a → domains₂[i]? = some b →
      (b.union a).Sharp ∧ ∀ x, b.Has x ∨ a.Has x → (b.union a).Has x := fun i hi a b ha hb =>
    Domain.extends_union (h₂ i b hb) (h₁ i a ha) (hdistinct i hi a b ha hb)
  refine ⟨fun i d hd => ?_, hout, fun vs hvs i d x hd hx => ?_⟩
  · by_cases hi : i ∈ affected
    · obtain ⟨a, b, ha, hb, hu⟩ := hin i hi
      rw [hu] at hd
      exact Option.some.inj hd ▸ (hunion i hi a b ha hb).1
    · exact h₂ i d (hout i hi ▸ hd)
  · by_cases hi : i ∈ affected
    · obtain ⟨a, b, ha, hb, hu⟩ := hin i hi
      rw [hu] at hd
      refine Option.some.inj hd ▸ (hunion i hi a b ha hb).2 x ?_
      exact hvs.elim (fun h => .inr (h i a x ha hx)) fun h => .inl (h i b x hb hx)
    · rw [hout i hi] at hd
      exact hvs.elim (fun h => h i d x ((hframe i hi).trans hd) hx) fun h => h i d x hd hx

theorem yields_branch {c : Cond R} {body otherwise : List (Statement R)} {affected : List Nat}
    {vs vs' : Variables R}
    (h : ((branch c body otherwise affected).run s : Process R Prop (Variables R) Unit).Yields vs () vs') :
    ∃ b, (c.eval vs s : Evaluation R Prop Bool).Yields b ∧
      (runBlock s (if b then body else otherwise) : Process R Prop (Variables R) Unit).Yields vs () vs' := by
  simp only [run] at h
  have hrest : ∀ b : Bool, (if b then runBlock s body else runBlock s otherwise :
      Process R Prop (Variables R) Unit).Remembers := by
    intro b
    cases b <;> exact remembers_runBlock _
  obtain ⟨us, us', hget, h⟩ := h.bind_inv fun us =>
    (Process.Remembers.ofEvaluation c.remembers_eval).bind hrest
  cases hget
  obtain ⟨b, us', hb, h⟩ := h.bind_inv hrest
  obtain ⟨hb, rfl⟩ := Process.yields_ofEvaluation_iff.1 hb
  refine ⟨b, hb, ?_⟩
  cases b <;> exact h

theorem exec_branch {c : Cond R} {body otherwise : List (Statement R)} {affected : List Nat}
    {vs : Variables R} {b : Bool} (h : c.Outcome vs s b) :
    ((branch c body otherwise affected).run s : Process R Unit (Variables R) Unit).exec vs () =
      (runBlock s (if b then body else otherwise) : Process R Unit (Variables R) Unit).exec vs () := by
  have hb : (c.eval vs s : Evaluation R Unit Bool).exec () = (.ok b, ()) := h
  simp only [run, Process.exec_bind, Process.exec_get, Process.exec_ofEvaluation, hb]
  cases b <;> rfl

mutual

theorem follows_infer (hn : 0 < s.numeraire) : (st : Statement R) → {domains domains' : Domains R} →
    {result : Statement R} → domains.Sharp → st.Marked → st.Settled fuzzy domains →
    st.infer fuzzy domains = (⟨result, none⟩, domains') →
    Follows domains domains' st.writes (st.bare.run s) (result.collapse.1.bare.run s)
  | .assign v e, domains, domains', result, hD, _, hs, h => by
    obtain ⟨d, hd, -, rfl, rfl⟩ := infer_assign h
    have hsharp := e.sharp_domain hD hs hd
    refine ⟨sharp_set hD hsharp, fun i hi => frame_set hi, fun vs vs' hin hrun => ?_⟩
    obtain ⟨x, hx, hslot, rfl⟩ := yields_assign hrun
    refine ⟨hold_set hin ((e.contains_domain hD hs hd).2 hin x hx), ?_⟩
    exact exec_assign (Expr.exec_of_yields hx) hslot
  | .pays v e, domains, domains', result, hD, _, hs, h => by
    obtain ⟨paid, payment, old, hd, hpay, hold, rfl, rfl⟩ := infer_pays h
    obtain ⟨hdiv, hadd⟩ := hs.2 paid hd
    have hsharp := e.sharp_domain hD hs.1 hd
    have hpaid := has_payment (x := 0) (y := 0) hsharp (hD _ _ hold) hdiv (hadd old payment hold hpay) hpay hn
    refine ⟨sharp_set hD hpaid.1, fun i hi => frame_set hi, fun vs vs' hin hrun => ?_⟩
    obtain ⟨x, y, hx, hy, rfl⟩ := yields_pays hrun
    refine ⟨hold_set hin ?_, exec_pays (Expr.exec_of_yields hx) hy⟩
    exact (has_payment hsharp (hD _ _ hold) hdiv (hadd old payment hold hpay) hpay hn).2
      ((e.contains_domain hD hs.1 hd).2 hin x hx) (hin _ _ _ hold hy)
  | .branch c body otherwise affected, domains, domains', result, hD, hm, hs, h => by
    obtain ⟨c', hc⟩ := infer_branch_decide h
    obtain ⟨hcond, hs⟩ := hs
    obtain ⟨hmarked, hmb, hmo⟩ := hm
    rw [hc] at hs
    have hout : ∀ {vs b}, domains.Hold vs → (c.bare.eval vs s : Evaluation R Prop Bool).Yields b →
        c'.collapse.bare.Outcome vs s b := fun hin hb => c.outcome_decide hD hin hcond hc hb
    cases hb : c'.decided? with
    | some b =>
      rw [hb] at hs
      obtain ⟨taken, htaken, rfl⟩ := infer_branch_decided hc hb h
      have heq : ∀ {vs b'}, domains.Hold vs → (c.bare.eval vs s : Evaluation R Prop Bool).Yields b' → b' = b := by
        intro vs b' hin hb'
        rcases Cond.decided_of_outcome (hout hin hb') with h | h
        · rw [hb] at h
          contradiction
        · rw [hb] at h
          exact (Option.some.inj h).symm
      cases b with
      | true =>
        have hf := follows_inferBlock hn body hD hmb hs htaken
        refine ⟨hf.sharp, fun i hi => hf.frame i fun hw => hi (List.mem_append_left _ hw), fun vs vs' hin hrun => ?_⟩
        obtain ⟨b, hb', hrun⟩ := yields_branch hrun
        cases heq hin hb'
        simpa [collapse, hb, bare, run] using hf.run vs vs' hin hrun
      | false =>
        have hf := follows_inferBlock hn otherwise hD hmo hs htaken
        refine ⟨hf.sharp, fun i hi => hf.frame i fun hw => hi (List.mem_append_right _ hw), fun vs vs' hin hrun => ?_⟩
        obtain ⟨b, hb', hrun⟩ := yields_branch hrun
        cases heq hin hb'
        simpa [collapse, hb, bare, run] using hf.run vs vs' hin hrun
    | none =>
      rw [hb] at hs
      obtain ⟨before, body', domains₁, after, otherwise', domains₂, others, hbefore, hbody, hafter,
        hother, hothers, rfl, hjoin⟩ := infer_branch_undecided hc hb h
      obtain ⟨hsb, hso, hdistinct⟩ := hs
      have hf₁ := follows_inferBlock hn body hD hmb hsb hbody
      have hrestored : Domains.storeAll (affected.zip before) domains₁ = domains :=
        restored_eq hbefore hafter fun i hi =>
          hf₁.frame i fun hw => hi ((hmarked i).2 (List.mem_append_left _ hw))
      rw [hrestored] at hother
      have hf₂ := follows_inferBlock hn otherwise hD hmo hso hother
      rw [show ((inferBlock fuzzy body).run domains).2 = domains₁ from congrArg Prod.snd hbody,
        show ((inferBlock fuzzy otherwise).run domains).2 = domains₂ from congrArg Prod.snd hother] at hdistinct
      have houtside : ∀ i, i ∉ affected → i ∉ blockWrites body ∧ i ∉ blockWrites otherwise := fun i hi =>
        ⟨fun hw => hi ((hmarked i).2 (List.mem_append_left _ hw)),
          fun hw => hi ((hmarked i).2 (List.mem_append_right _ hw))⟩
      obtain ⟨hsharp, hframe, hhold⟩ := joined hf₁.sharp hf₂.sharp hafter hothers
        (fun i hi => (hf₁.frame i (houtside i hi).1).trans (hf₂.frame i (houtside i hi).2).symm)
        hdistinct hjoin
      refine ⟨hsharp, fun i hi => ?_, fun vs vs' hin hrun => ?_⟩
      · have hout : i ∉ affected := fun h => hi ((hmarked i).1 h)
        rw [hframe i hout, hf₂.frame i (houtside i hout).2]
      · obtain ⟨b, hb', hrun⟩ := yields_branch hrun
        have hcollapse : (branch c' body' otherwise' affected).collapse.1.bare =
            branch c'.collapse.bare (bareBlock (collapseBlock body').1) (bareBlock (collapseBlock otherwise').1)
              affected := by
          simp [collapse, hb, bare]
        rw [hcollapse, exec_branch (hout hin hb')]
        cases b with
        | true =>
          obtain ⟨hin, hexec⟩ := hf₁.run vs vs' hin hrun
          exact ⟨hhold vs' (.inl hin), hexec⟩
        | false =>
          obtain ⟨hin, hexec⟩ := hf₂.run vs vs' hin hrun
          exact ⟨hhold vs' (.inr hin), hexec⟩
  | .sequence body, domains, domains', result, hD, hm, hs, h => by
    obtain ⟨body', hbody, rfl⟩ := infer_sequence h
    exact follows_inferBlock hn body hD hm hs hbody

theorem follows_inferBlock (hn : 0 < s.numeraire) : (body : List (Statement R)) →
    {domains domains' : Domains R} → {results : List (Statement R)} → domains.Sharp → MarkedBlock body →
    SettledBlock fuzzy domains body → inferBlock fuzzy body domains = (⟨results, none⟩, domains') →
    Follows domains domains' (blockWrites body) (runBlock s (bareBlock body))
      (runBlock s (bareBlock (collapseBlock results).1))
  | [], domains, domains', results, hD, _, _, h => by
    obtain ⟨rfl, rfl⟩ := inferBlock_nil h
    refine ⟨hD, fun _ _ => rfl, fun vs vs' hin hrun => ?_⟩
    cases hrun
    exact ⟨hin, rfl⟩
  | st :: rest, domains, domains', results, hD, hm, hs, h => by
    obtain ⟨first, domains₁, others, hfirst, hrest, rfl⟩ := inferBlock_cons h
    obtain ⟨hss, hsr⟩ := hs
    rw [show (st.infer fuzzy).run domains = (⟨first, none⟩, domains₁) from hfirst] at hsr
    have hf := follows_infer hn st hD hm.1 hss hfirst
    exact hf.trans (follows_inferBlock hn rest hf.sharp hm.2 hsr hrest) (remembers_runBlock _)

end

end Runs

end Statement

end PayoffPricing.Script
