import PayoffPricing.Proofs.Adjoint.Checkpoint
import PayoffPricing.Proofs.Adjoint.Number
import PayoffPricing.Proofs.Simulation.Likeness
import PayoffPricing.Proofs.Simulation.Runs
/-!
A worker with sensitivities, path by path. It finds its tape as it was at the checkpoint and leaves the
payoff that a worker without sensitivities leaves.
-/

namespace PayoffPricing.Simulation

open PayoffPricing.Random Worlds Likeness

variable {R G : Type} [Scalar R]

namespace Job

/-- What propagating a payoff does to the adjoints. -/
def payoffChange (t : Tape R) (id : Position) (as : Position → R) : Position → R :=
  if t.nodes.mark ≤ id then t.pushAll (t.visited t.nodes.mark id.next) (Function.update as id 1)
  else Function.update as id (as id + 1)

theorem propagatePayoff_passive {payoff : Number R} (h : payoff.node = none) (t : Tape R) :
    propagatePayoff payoff t = .ok t := by
  simp only [propagatePayoff, h]

theorem propagatePayoff_ok {t : Tape R} (ht : t.Sound) (hcount : t.adjointCount = 1) {payoff : Number R}
    {id : Position} (hid : payoff.node = some id) (hon : (t.nodes.get? id).isSome) :
    ∃ t', propagatePayoff payoff t = .ok t' ∧ Tape.SameRecord t t' ∧
      t'.column 0 = payoffChange t id (t.column 0) := by
  have hk : 0 < t.adjointCount := by omega
  by_cases hmark : t.nodes.mark ≤ id
  · obtain ⟨t₁, hseed, hchanges⟩ := ht.setAdjoint_ok hon hk 1
    have hsame : Tape.SameRecord t t₁ := hchanges.same
    have hon₁ : (t₁.nodes.get? id).isSome := hsame.nodes_eq ▸ hon
    have hmark₁ : t₁.nodes.mark ≤ id := hsame.nodes_eq ▸ hmark
    obtain ⟨t₂, hsweep, hsweeps⟩ := (hsame.sound ht).propagateToMark_ok hon₁ hmark₁
    refine ⟨t₂, ?_, hsame.trans hsweeps.same, ?_⟩
    · simp only [propagatePayoff, hid, if_pos hmark, Number.propagateToMark, hseed]
      exact hsweep
    · have hvisited : t₁.visited t₁.nodes.mark id.next = t.visited t.nodes.mark id.next := by
        rw [Tape.visited, hsame.nodes_eq, Tape.visited]
      rw [hsweeps.column_eq 0 (hsame.count_eq ▸ hk), hchanges.column_eq 0 hk, if_pos rfl, hsame.pushAll_eq, hvisited,
        payoffChange, if_pos hmark]
  · obtain ⟨t₁, hadd, hchanges⟩ := ht.modifyAdjoint_ok hon hk (· + 1)
    refine ⟨t₁, ?_, hchanges.same, ?_⟩
    · simp only [propagatePayoff, hid, if_neg hmark]
      exact hadd
    · rw [hchanges.column_eq 0 hk, if_pos rfl, payoffChange, if_neg hmark]

variable [DrawStream R G]

theorem exec_recordPath (p : Product R) (m : Model R (Number R)) (dimension : Nat) (u : Workspace R G (Number R))
    (t : Tape R) :
    (recordPath p m dimension).exec u t =
      match (Working.nextPayoff p m dimension : Working R G (Tape R) (Number R) (Number R)).exec u t.rewindToMark with
      | ((.ok payoff, u), t) =>
        match propagatePayoff payoff t with
        | .ok t => ((.ok payoff.value, u), t)
        | .error cause => ((.error (.misuse cause), u), t)
      | ((.error e, u), t) => ((.error e, u), t) := by
  rw [recordPath, Working.exec_bind, Working.exec_modifyThe]
  dsimp only
  rw [Working.exec_bind]
  rcases (Working.nextPayoff p m dimension : Working R G (Tape R) (Number R) (Number R)).exec u t.rewindToMark
    with ⟨⟨e | payoff, u⟩, t⟩
  · rfl
  · dsimp only
    rw [Working.exec_bind, Working.exec_getThe]
    dsimp only
    cases propagatePayoff payoff t <;> rfl

/-- A plain workspace beside a workspace whose tape returns to `base`, both of the frame `f`, with their
streams at one place. -/
structure Beside (base : Tape R) (f : List Nat × Method R × Nat) (u : Workspace R G R) (_ : Unit)
    (u' : Workspace R G (Number R)) (t : Tape R) : Prop where
  stream_eq : u.stream = u'.stream
  frame_left : u.frame = f
  frame_right : u'.frame = f
  returns : base.Returns t

variable {base : Tape R} {f : List Nat × Method R × Nat} {m : Model R R} {m' : Model R (Number R)} {n : Nat}

omit [Scalar R] [DrawStream R G] in
theorem alike_rewound {t : Tape R} (ht : base.Returns t) (hm : Model.Alike (Carries base) n m m') :
    Model.Alike (Carries t.rewindToMark) n m m' := by
  refine hm.imp fun x x' hx => ⟨hx.1, fun id hid => ?_⟩
  rw [ht.get?_nodes]
  exact hx.2 id hid

omit [Scalar R] in
theorem placeable_beside : Working.Placeable (Beside (G := G) base f) :=
  fun _ _ _ _ _ h => ⟨congrArg _ h.stream_eq, h.frame_left, h.frame_right, h.returns⟩

/-- Recording a path changes neither its payoff nor where it stops, and leaves a tape that returns. -/
theorem matches_recordPath (p : Product R) (hbase : base.Sound) (hcount : base.adjointCount = 1)
    (hm : Model.Alike (Carries base) n m m') (dimension : Nat) :
    Working.Matches (Beside (G := G) base f) (Working.nextPayoff p m dimension) (recordPath p m' dimension) Eq := by
  intro u _ u' t h
  have ht : t.rewindToMark.Sound := h.returns.sound_rewindToMark hbase
  have hagree := Working.agree_nextPayoff (L := recordingLikeness R) (w := ((), t.rewindToMark)) p
    (alike_rewound h.returns hm) dimension h.stream_eq (h.frame_left.trans h.frame_right.symm) ht
  rw [exec_recordPath]
  generalize hplain : (Working.nextPayoff p m dimension : Working R G Unit R R).exec u () = r
  generalize hrecorded : (Working.nextPayoff p m' dimension : Working R G (Tape R) (Number R) (Number R)).exec u'
    t.rewindToMark = r'
  have hboth : r'.2.Sound ∧ t.rewindToMark.Grows r'.2 ∧ Outcome (fun x x' => Carries r'.2 x x' ∧
      r.1.2.frame = u.frame ∧ r'.1.2.frame = u.frame ∧
      r.1.2.stream = ((DrawStream.normals dimension).run u.stream).2 ∧ r.1.2.stream = r'.1.2.stream) r.1.1 r'.1.1 := by
    rw [← hplain, ← hrecorded]
    exact hagree
  obtain ⟨hsound, hlater, hr⟩ := hboth
  have hreturns := (h.returns.rewindToMark hbase).builtFrom hlater.built
  rcases r with ⟨⟨e | x, v⟩, _⟩ <;> rcases r' with ⟨⟨e' | x', v'⟩, t'⟩
  · exact hr
  · exact hr.elim
  · exact hr.elim
  · obtain ⟨⟨hvalue, hon⟩, hframe, hframe', -, hstream⟩ := hr
    cases hid : x'.node with
    | none =>
      simp only [propagatePayoff_passive hid]
      exact ⟨hvalue, hstream, hframe.trans h.frame_left, hframe'.trans h.frame_left, hreturns⟩
    | some id =>
      have hcount' : t'.adjointCount = 1 := hreturns.count_eq.trans hcount
      obtain ⟨t₁, hok, hsame, -⟩ := propagatePayoff_ok hsound hcount' hid (hon id hid)
      simp only [hok]
      exact ⟨hvalue, hstream, hframe.trans h.frame_left, hframe'.trans h.frame_left, hreturns.sameRecord hsame⟩

end Job

end PayoffPricing.Simulation
