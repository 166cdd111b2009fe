import PayoffPricing.Proofs.Script.Folding
/-!
Folded conditions and statements. Their runs come to the same values as before, and at every statement what
folding knows of a variable is its value.
-/

namespace PayoffPricing.Script

variable {R : Type} [Scalar R]

namespace Cond

variable {known : Array (Option R)} {vs : Variables R} {s : Sample R}

theorem bare_fold (known : Array (Option R)) (c : Cond R) : (c.fold known).term.bare = c.bare := by
  induction c with
  | literal b => rfl
  | compare decided c =>
    have harg := c.arg.bare_fold known
    simp only [fold]
    split
    · next ha =>
      rw [ha] at harg
      simp only [bare, harg]
    · next ha =>
      rw [ha] at harg
      simp only [bare, harg]
  | not decided arg ih => simp only [fold, bare, ih]
  | and decided lhs rhs ihl ihr =>
    simp only [fold]
    split
    · simp only [bare, ihl]
    · simp only [bare, ihl, ihr]
  | or decided lhs rhs ihl ihr =>
    simp only [fold]
    split
    · simp only [bare, ihl]
    · simp only [bare, ihl, ihr]

theorem bare_eq_of_fold {c c' : Cond R} {stop : Option (Fault (ScriptError R))} (h : c.fold known = ⟨c', stop⟩) :
    c'.bare = c.bare := by
  have hbare := c.bare_fold known
  rwa [h] at hbare

/-- A folded condition without decided parts evaluates as it did. -/
theorem folded_fold [OrderedScalar R] (h : Knows known vs) (c : Cond R) {c' : Cond R} (hc : c.Undecided)
    (hd : c.Reached (Expr.DefinedAt vs s) vs s) (hf : c.fold known = ⟨c', none⟩) :
    (c'.eval vs s : Evaluation R Unit Bool) = c.bare.eval vs s ∧ c'.Reached (Expr.KnownAt vs s) vs s := by
  induction c generalizing c' with
  | literal b =>
    cases hf
    exact ⟨rfl, trivial⟩
  | compare decided c =>
    cases hc
    simp only [fold] at hf
    split at hf
    · next arg value ha =>
      cases hf
      obtain ⟨heq, -, hparts⟩ := c.arg.folded_fold h hd ha
      refine ⟨?_, hparts⟩
      rw [eval, bare, eval, heq]
      rfl
    · cases hf
  | not decided arg ih =>
    obtain ⟨rfl, hc⟩ := hc
    simp only [fold] at hf
    generalize ha : arg.fold known = r at hf
    obtain ⟨arg', stop⟩ := r
    cases hf
    obtain ⟨heq, hparts⟩ := ih hc hd ha
    exact ⟨by rw [eval, bare, eval, heq], hparts⟩
  | and decided lhs rhs ihl ihr =>
    obtain ⟨rfl, hcl, hcr⟩ := hc
    simp only [fold] at hf
    generalize hl : lhs.fold known = r at hf
    obtain ⟨lhs', _ | stop⟩ := r
    · generalize hr : rhs.fold known = r at hf
      obtain ⟨rhs', stop⟩ := r
      cases hf
      obtain ⟨heq, hparts⟩ := ihl hcl hd.1 hl
      refine ⟨?_, hparts, fun hb => (ihr hcr (hd.2 (bare_eq_of_fold hl ▸ hb)) hr).2⟩
      rw [eval, bare, eval]
      refine Evaluation.bind_congr_ok heq fun b hb => ?_
      rw [(ihr hcr (hd.2 ⟨b, hb⟩) hr).1]
    · cases hf
  | or decided lhs rhs ihl ihr =>
    obtain ⟨rfl, hcl, hcr⟩ := hc
    simp only [fold] at hf
    generalize hl : lhs.fold known = r at hf
    obtain ⟨lhs', _ | stop⟩ := r
    · generalize hr : rhs.fold known = r at hf
      obtain ⟨rhs', stop⟩ := r
      cases hf
      obtain ⟨heq, hparts⟩ := ihl hcl hd.1 hl
      refine ⟨?_, hparts, fun hb => (ihr hcr (hd.2 (bare_eq_of_fold hl ▸ hb)) hr).2⟩
      rw [eval, bare, eval]
      refine Evaluation.bind_congr_ok heq fun b hb => ?_
      rw [(ihr hcr (hd.2 ⟨b, hb⟩) hr).1]
    · cases hf

end Cond

omit [Scalar R] in
theorem Knowledge.write_eq {slot : Nat} {value : Option R} {conditional : Bool} {k k' : Knowledge R}
    (h : Knowledge.write slot value conditional k = (none, k')) :
    k'.values = k.values.setIfInBounds slot none ∨
      conditional = false ∧ k'.values = k.values.setIfInBounds slot value := by
  simp only [write] at h
  split at h
  · cases h
  · split at h
    · cases h
      exact .inl rfl
    · next hc =>
      cases h
      rw [Bool.or_eq_true, not_or, Bool.not_eq_true] at hc
      exact .inr ⟨hc.1, rfl⟩

namespace Statement

section Inversion

variable {conditional : Bool} {k k' : Knowledge R} {result : Statement R} {results : List (Statement R)}
  {v : Variable} {e : Expr R} {c : Cond R} {body otherwise : List (Statement R)} {affected : List Nat}

theorem fold_assign (h : (assign v e).fold conditional k = (⟨result, none⟩, k')) :
    ∃ e' value, e.fold k.values = (e', .ok value) ∧
      Knowledge.write v.slot value conditional k = (none, k') ∧ result = assign v e' := by
  simp only [fold, bind, StateT.bind, get, getThe, MonadStateOf.get, StateT.get, pure] at h
  generalize he : e.fold k.values = r at h
  obtain ⟨e', _ | value⟩ := r
  · cases h
  · simp only [StateT.bind, StateT.pure, pure] at h
    generalize hw : Knowledge.write v.slot value conditional k = written at h
    obtain ⟨stop, next⟩ := written
    cases h
    exact ⟨e', value, rfl, hw, rfl⟩

theorem fold_pays (h : (pays v e).fold conditional k = (⟨result, none⟩, k')) :
    ∃ e' value, e.fold k.values = (e', .ok value) ∧
      Knowledge.write v.slot none true k = (none, k') ∧ result = pays v e' := by
  simp only [fold, bind, StateT.bind, get, getThe, MonadStateOf.get, StateT.get, pure] at h
  generalize he : e.fold k.values = r at h
  obtain ⟨e', _ | value⟩ := r
  · cases h
  · simp only [StateT.bind, StateT.pure, pure] at h
    generalize Knowledge.write v.slot none true k = written at h
    obtain ⟨stop, next⟩ := written
    cases h
    exact ⟨e', value, rfl, rfl, rfl⟩

theorem foldBlock_nil (h : foldBlock conditional [] k = (⟨results, none⟩, k')) : results = [] ∧ k' = k := by
  cases h
  exact ⟨rfl, rfl⟩

theorem foldBlock_cons {s : Statement R} {rest : List (Statement R)}
    (h : foldBlock conditional (s :: rest) k = (⟨results, none⟩, k')) :
    ∃ first k₁ others, s.fold conditional k = (⟨first, none⟩, k₁) ∧
      foldBlock conditional rest k₁ = (⟨others, none⟩, k') ∧ results = first :: others := by
  simp only [foldBlock, bind, StateT.bind, pure] at h
  generalize hs : s.fold conditional k = r at h
  obtain ⟨⟨first, _ | stop⟩, k₁⟩ := r
  · simp only [Option.isSome_none, Bool.false_eq_true, if_false, StateT.bind] at h
    generalize hr : foldBlock conditional rest k₁ = r at h
    obtain ⟨⟨others, stop⟩, k₂⟩ := r
    cases h
    exact ⟨first, k₁, others, rfl, hr, rfl⟩
  · cases h

theorem fold_sequence (h : (sequence body).fold conditional k = (⟨result, none⟩, k')) :
    ∃ body', foldBlock conditional body k = (⟨body', none⟩, k') ∧ result = sequence body' := by
  simp only [fold, bind, StateT.bind, pure] at h
  generalize hb : foldBlock conditional body k = r at h
  obtain ⟨⟨body', stop⟩, k₁⟩ := r
  cases h
  exact ⟨body', rfl, rfl⟩

theorem fold_branch (h : (branch c body otherwise affected).fold conditional k = (⟨result, none⟩, k')) :
    ∃ c' body' k₁ otherwise', c.fold k.values = ⟨c', none⟩ ∧
      foldBlock true body k = (⟨body', none⟩, k₁) ∧ foldBlock true otherwise k₁ = (⟨otherwise', none⟩, k') ∧
      result = branch c' body' otherwise' affected := by
  simp only [fold, bind, StateT.bind, get, getThe, MonadStateOf.get, StateT.get, pure] at h
  generalize hc : c.fold k.values = r at h
  obtain ⟨c', _ | stop⟩ := r
  · simp only [Option.isSome_none, Bool.false_eq_true, if_false, StateT.bind, bind] at h
    generalize hb : foldBlock true body k = r at h
    obtain ⟨⟨body', _ | stop⟩, k₁⟩ := r
    · simp only [Option.isSome_none, Bool.false_eq_true, if_false, StateT.bind, bind] at h
      generalize ho : foldBlock true otherwise k₁ = r at h
      obtain ⟨⟨otherwise', stop⟩, k₂⟩ := r
      cases h
      exact ⟨c', body', k₁, otherwise', rfl, rfl, ho, rfl⟩
    · cases h
  · cases h

mutual

theorem bare_fold : (st : Statement R) → {conditional : Bool} → {k k' : Knowledge R} → {result : Statement R} →
    st.fold conditional k = (⟨result, none⟩, k') → result.bare = st.bare
  | assign v e, _, k, _, _, h => by
    obtain ⟨e', value, he, -, rfl⟩ := fold_assign h
    have hbare := e.bare_fold k.values
    rw [he] at hbare
    rw [bare, bare, hbare]
  | pays v e, _, k, _, _, h => by
    obtain ⟨e', value, he, -, rfl⟩ := fold_pays h
    have hbare := e.bare_fold k.values
    rw [he] at hbare
    rw [bare, bare, hbare]
  | branch c body otherwise affected, _, k, _, _, h => by
    obtain ⟨c', body', k₁, otherwise', hc, hb, ho, rfl⟩ := fold_branch h
    have hbare := c.bare_fold k.values
    rw [hc] at hbare
    rw [bare, bare, hbare, bare_foldBlock body hb, bare_foldBlock otherwise ho]
  | sequence body, _, _, _, _, h => by
    obtain ⟨body', hb, rfl⟩ := fold_sequence h
    rw [bare, bare, bare_foldBlock body hb]

theorem bare_foldBlock : (body : List (Statement R)) → {conditional : Bool} → {k k' : Knowledge R} →
    {results : List (Statement R)} → foldBlock conditional body k = (⟨results, none⟩, k') →
    bareBlock results = bareBlock body
  | [], _, _, _, _, h => by rw [(foldBlock_nil h).1]
  | st :: rest, _, _, _, _, h => by
    obtain ⟨first, k₁, others, hfirst, hrest, rfl⟩ := foldBlock_cons h
    rw [bareBlock, bareBlock, bare_fold st hfirst, bare_foldBlock rest hrest]

end

end Inversion

section Runs

variable {conditional : Bool} {k k' k'' : Knowledge R} {vs vs' : Variables R} {v : Variable} {e : Expr R}
  {s : Sample R}

/-- Folding changes no run that comes to no undefined number, from variables that have the known values; what
it knows afterwards are their values then, and what it notes are the values of what is reached. A conditional
statement may only make it know less. -/
structure Folds (conditional : Bool) (k k' : Knowledge R) (before after : Process R Unit (Variables R) Unit)
    (defined known : Variables R → Prop) : Prop where
  run (vs : Variables R) : Knows k.values vs → defined vs → after.exec vs () = before.exec vs ()
  known (vs : Variables R) : Knows k.values vs → defined vs → known vs
  knows (vs vs' : Variables R) : Knows k.values vs → defined vs → before.exec vs () = ((.ok (), vs'), ()) →
    Knows k'.values vs'
  fades : conditional = true → Fades k.values k'.values

omit [Scalar R] in
theorem Folds.trans {a b a' b' : Process R Unit (Variables R) Unit} {defined known defined' known' : Variables R → Prop}
    (h : Folds conditional k k' a a' defined known) (h' : Folds conditional k' k'' b b' defined' known') :
    Folds conditional k k'' (a >>= fun _ => b) (a' >>= fun _ => b')
      (fun vs => defined vs ∧ ∀ vs', a.exec vs () = ((.ok (), vs'), ()) → defined' vs')
      (fun vs => known vs ∧ ∀ vs', a.exec vs () = ((.ok (), vs'), ()) → known' vs') := by
  refine ⟨fun vs hk hd => ?_, fun vs hk hd => ⟨h.known vs hk hd.1, fun us ha => ?_⟩, fun vs vs' hk hd hrun => ?_,
    fun hc => (h.fades hc).trans (h'.fades hc)⟩
  · rw [Process.exec_bind, Process.exec_bind, h.run vs hk hd.1]
    cases ha : a.exec vs () with
    | mk r u =>
      obtain ⟨_ | _, us⟩ := r
      · rfl
      · exact h'.run us (h.knows vs us hk hd.1 ha) (hd.2 us ha)
  · exact h'.known us (h.knows vs us hk hd.1 ha) (hd.2 us ha)
  · rw [Process.exec_bind] at hrun
    cases ha : a.exec vs () with
    | mk r u =>
      rw [ha] at hrun
      obtain ⟨_ | _, us⟩ := r
      · cases hrun
      · exact h'.knows us vs' (h.knows vs us hk hd.1 ha) (hd.2 us ha) hrun

theorem exec_assign_inv
    (h : ((assign v e).run s : Process R Unit (Variables R) Unit).exec vs () = ((.ok (), vs'), ())) :
    ∃ x, (e.eval vs s : Evaluation R Unit R).exec () = (.ok x, ()) ∧ v.slot < vs.size ∧
      vs' = vs.setIfInBounds v.slot x := by
  simp only [run, Process.exec_bind, Process.exec_get, Process.exec_ofEvaluation] at h
  generalize (e.eval vs s : Evaluation R Unit R).exec () = r at h ⊢
  obtain ⟨_ | x, u⟩ := r
  · simp at h
  by_cases hs : v.slot < vs.size
  · simp only [Variables.store, hs, if_true, Evaluation.exec_pure, Process.exec_set, Prod.mk.injEq,
      true_and] at h
    exact ⟨x, rfl, hs, h.1.symm⟩
  · simp [Variables.store, hs] at h

theorem exec_pays_inv
    (h : ((pays v e).run s : Process R Unit (Variables R) Unit).exec vs () = ((.ok (), vs'), ())) :
    ∃ x, v.slot < vs.size ∧ vs' = vs.setIfInBounds v.slot x := by
  simp only [run, Process.exec_bind, Process.exec_get, Process.exec_ofEvaluation] at h
  generalize (e.eval vs s : Evaluation R Unit R).exec () = r at h
  obtain ⟨_ | x, u⟩ := r
  · simp at h
  cases hv : vs[v.slot]? with
  | none => simp [Variables.pay, Variables.fetch, hv] at h
  | some old =>
    have hs : v.slot < vs.size := (Array.getElem?_eq_some_iff.1 hv).1
    simp only [Variables.pay, Variables.fetch, hv, pure_bind, Evaluation.exec_bind,
      Evaluation.exec_record, Variables.store, hs, if_true, Evaluation.exec_pure, Process.exec_set] at h
    exact ⟨_, hs, (congrArg (fun r => r.1.2) h).symm⟩

theorem exec_branch_congr {c c' : Cond R} {body otherwise body' otherwise' : List (Statement R)}
    {affected : List Nat} (hc : (c'.eval vs s : Evaluation R Unit Bool) = c.eval vs s)
    (hb : (c.eval vs s : Evaluation R Unit Bool).exec () = (.ok true, ()) →
      (runBlock s body' : Process R Unit (Variables R) Unit).exec vs () = (runBlock s body).exec vs ())
    (ho : (c.eval vs s : Evaluation R Unit Bool).exec () = (.ok false, ()) →
      (runBlock s otherwise' : Process R Unit (Variables R) Unit).exec vs () = (runBlock s otherwise).exec vs ()) :
    ((branch c' body' otherwise' affected).run s : Process R Unit (Variables R) Unit).exec vs () =
      ((branch c body otherwise affected).run s).exec vs () := by
  simp only [run, Process.exec_bind, Process.exec_get, Process.exec_ofEvaluation, hc]
  rcases hr : (c.eval vs s : Evaluation R Unit Bool).exec () with ⟨_ | b, u⟩
  · rfl
  · cases b
    · exact ho hr
    · exact hb hr

theorem exec_branch_inv {c : Cond R} {body otherwise : List (Statement R)} {affected : List Nat}
    (h : ((branch c body otherwise affected).run s : Process R Unit (Variables R) Unit).exec vs () =
      ((.ok (), vs'), ())) :
    ((c.eval vs s : Evaluation R Unit Bool).exec () = (.ok true, ()) ∧
        (runBlock s body : Process R Unit (Variables R) Unit).exec vs () = ((.ok (), vs'), ())) ∨
      ((c.eval vs s : Evaluation R Unit Bool).exec () = (.ok false, ()) ∧
        (runBlock s otherwise : Process R Unit (Variables R) Unit).exec vs () = ((.ok (), vs'), ())) := by
  simp only [run, Process.exec_bind, Process.exec_get, Process.exec_ofEvaluation] at h
  generalize (c.eval vs s : Evaluation R Unit Bool).exec () = r at h ⊢
  obtain ⟨_ | b, u⟩ := r
  · cases h
  · cases b
    · exact .inr ⟨rfl, h⟩
    · exact .inl ⟨rfl, h⟩

mutual

theorem folds [OrderedScalar R] (s : Sample R) : (st : Statement R) → {conditional : Bool} → {k k' : Knowledge R} →
    {result : Statement R} → st.Undecided → st.fold conditional k = (⟨result, none⟩, k') →
    Folds conditional k k' (st.bare.run s) (result.run s) (st.Reached Expr.DefinedAt s) (result.Reached Expr.KnownAt s)
  | assign v e, conditional, k, k', result, _, h => by
    obtain ⟨e', value, he, hw, rfl⟩ := fold_assign h
    refine ⟨fun vs hk hd => ?_, fun vs hk hd => (e.folded_fold hk hd he).known, fun vs vs' hk hd hrun => ?_, fun hc => ?_⟩
    · simp only [bare, run, Process.exec_bind, Process.exec_get, Process.exec_ofEvaluation,
        (e.folded_fold hk hd he).eval_eq]
    · obtain ⟨x, hx, hs, rfl⟩ := exec_assign_inv hrun
      rcases Knowledge.write_eq hw with hw | ⟨-, hw⟩
      · rw [hw]
        exact hk.store hs fun _ hv => by cases hv
      · rw [hw]
        refine hk.store hs fun y hy => ?_
        rw [(e.folded_fold hk hd he).value_eq y hy] at hx
        exact (Except.ok.inj (congrArg Prod.fst hx)).symm
    · rcases Knowledge.write_eq hw with hw | ⟨hc', -⟩
      · rw [hw]
        exact Fades.erase _ _
      · rw [hc] at hc'
        contradiction
  | pays v e, conditional, k, k', result, _, h => by
    obtain ⟨e', value, he, hw, rfl⟩ := fold_pays h
    have hw : k'.values = k.values.setIfInBounds v.slot none :=
      (Knowledge.write_eq hw).elim id fun h => h.2
    refine ⟨fun vs hk hd => ?_, fun vs hk hd => (e.folded_fold hk hd he).known, fun vs vs' hk hd hrun => ?_,
      fun _ => hw ▸ Fades.erase _ _⟩
    · simp only [bare, run, Process.exec_bind, Process.exec_get, Process.exec_ofEvaluation,
        (e.folded_fold hk hd he).eval_eq]
    · obtain ⟨x, hs, rfl⟩ := exec_pays_inv hrun
      rw [hw]
      exact hk.store hs fun _ hv => by cases hv
  | branch c body otherwise affected, conditional, k, k', result, hu, h => by
    obtain ⟨c', body', k₁, otherwise', hc, hb, ho, rfl⟩ := fold_branch h
    have hfb := foldsBlock s body hu.2.1 hb
    have hfo := foldsBlock s otherwise hu.2.2 ho
    have hk₁ := hfb.fades rfl
    have hk' := hfo.fades rfl
    have hbare : c'.bare = c.bare := by
      have := c.bare_fold k.values
      rwa [hc] at this
    refine ⟨fun vs hk hd => ?_, fun vs hk hd => ⟨(c.folded_fold hk hu.1 hd.1 hc).2, fun ht => ?_, fun ht => ?_⟩,
      fun vs vs' hk hd hrun => ?_, fun _ => hk₁.trans hk'⟩
    · exact exec_branch_congr (c.folded_fold hk hu.1 hd.1 hc).1 (fun ht => hfb.run vs hk (hd.2.1 ht))
        fun ht => hfo.run vs (hk.fade hk₁) (hd.2.2 ht)
    · exact hfb.known vs hk (hd.2.1 (hbare ▸ ht))
    · exact hfo.known vs (hk.fade hk₁) (hd.2.2 (hbare ▸ ht))
    · rcases exec_branch_inv hrun with ⟨ht, hrun⟩ | ⟨ht, hrun⟩
      · exact (hfb.knows vs vs' hk (hd.2.1 ht) hrun).fade hk'
      · exact hfo.knows vs vs' (hk.fade hk₁) (hd.2.2 ht) hrun
  | sequence body, conditional, k, k', result, hu, h => by
    obtain ⟨body', hb, rfl⟩ := fold_sequence h
    exact foldsBlock s body hu hb

theorem foldsBlock [OrderedScalar R] (s : Sample R) : (body : List (Statement R)) → {conditional : Bool} → {k k' : Knowledge R} →
    {results : List (Statement R)} → UndecidedBlock body →
    foldBlock conditional body k = (⟨results, none⟩, k') →
    Folds conditional k k' (runBlock s (bareBlock body)) (runBlock s results) (ReachedBlock Expr.DefinedAt s body)
      (ReachedBlock Expr.KnownAt s results)
  | [], conditional, k, k', results, _, h => by
    obtain ⟨rfl, rfl⟩ := foldBlock_nil h
    refine ⟨fun vs _ _ => rfl, fun vs _ _ => trivial, fun vs vs' hk _ hrun => ?_, fun _ => Fades.refl _⟩
    cases hrun
    exact hk
  | st :: rest, conditional, k, k', results, hu, h => by
    obtain ⟨first, k₁, others, hfirst, hrest, rfl⟩ := foldBlock_cons h
    have hboth := (folds s st hu.1 hfirst).trans (foldsBlock s rest hu.2 hrest)
    refine ⟨hboth.run, fun vs hk hd => ?_, hboth.knows, hboth.fades⟩
    obtain ⟨hknown, hlater⟩ := hboth.known vs hk hd
    exact ⟨hknown, fun vs' hrun => hlater vs' (bare_fold st hfirst ▸ hrun)⟩

end

end Runs

end Statement

end PayoffPricing.Script
