import PayoffPricing.Proofs.Script.Likeness
import PayoffPricing.Script.Machine
/-!
The stack machine preserves likeness of quantities. What earlier runs left on its stacks plays no part.
-/

namespace PayoffPricing

open Script Worlds Likeness

namespace Likeness

variable {R S S' T T' : Type} [Scalar R] [Quantity R S T] [Quantity R S' T']
  {L : Likeness R S S' T T'} {w : S × S'} {x : T} {x' : T'} {n : Nat}

/-- Machines with like values, like numbers on the stack and the same outcomes. -/
structure LikeMachine (L : Likeness R S S' T T') (n : Nat) (w : S × S') (m : Machine T) (m' : Machine T') :
    Prop where
  values : L.LikeTable n w m.values m'.values
  numbers : L.LikeList w m.numbers m'.numbers
  outcomes : m.outcomes = m'.outcomes

theorem LikeMachine.mono {v : S × S'} {m : Machine T} {m' : Machine T'} (hl : L.Later w v)
    (h : L.LikeMachine n w m m') : L.LikeMachine n v m m' :=
  ⟨h.values.mono hl, h.numbers.mono hl, h.outcomes⟩

/-- Processes on machines. -/
abbrev TracksMachine {α α' : Type} (L : Likeness R S S' T T') (n : Nat) (w : S × S')
    (a : Process R S (Machine T) α) (a' : Process R S' (Machine T') α')
    (rel : S × S' → α → α' → Prop) : Prop := L.toWorlds.Tracks w (L.LikeMachine n) a a' rel

/-- Processes on machines that have no result. -/
abbrev TracksSteps (L : Likeness R S S' T T') (n : Nat) (w : S × S') (a : Process R S (Machine T) Unit)
    (a' : Process R S' (Machine T') Unit) : Prop := L.TracksMachine n w a a' fun _ _ _ => True

theorem tracks_ofEvaluation_machine {α α' : Type} {rel : S × S' → α → α' → Prop}
    {a : Evaluation R S α} {a' : Evaluation R S' α'} (h : L.toWorlds.Alike w a a' rel) :
    L.TracksMachine n w (Process.ofEvaluation a) (Process.ofEvaluation a') rel :=
  Tracks.keeping (L.LikeMachine n) LikeMachine.mono h

theorem tracks_pushNumber (hx : L.Like w x x') :
    L.TracksSteps n w (Machine.pushNumber x) (Machine.pushNumber x') :=
  Tracks.modify fun hm => ⟨hm.values, List.Forall₂.cons hx hm.numbers, hm.outcomes⟩

theorem tracks_popNumber :
    L.TracksMachine n w (Machine.popNumber : Process R S (Machine T) T) Machine.popNumber L.Like := by
  refine Tracks.get.bind fun u m m' _ hm => ?_
  obtain ⟨values, numbers, outcomes⟩ := m
  obtain ⟨values', numbers', outcomes'⟩ := m'
  obtain ⟨hvalues, hnumbers, houtcomes⟩ := hm
  cases hnumbers with
  | nil => exact Tracks.throw _
  | cons hx hrest =>
    refine Tracks.bind (Tracks.set ⟨hvalues, hrest, houtcomes⟩) fun v _ _ hv _ => ?_
    exact Tracks.pure (L.mono hv hx)

theorem tracks_pushOutcome (b : Bool) :
    L.TracksSteps n w (Machine.pushOutcome b) (Machine.pushOutcome b) :=
  Tracks.modify fun hm => ⟨hm.values, hm.numbers, congrArg (b :: ·) hm.outcomes⟩

theorem tracks_popOutcome :
    L.TracksMachine n w (Machine.popOutcome : Process R S (Machine T) Bool) Machine.popOutcome
      fun _ => Eq := by
  refine Tracks.get.bind fun u m m' _ hm => ?_
  obtain ⟨values, numbers, outcomes⟩ := m
  obtain ⟨values', numbers', _⟩ := m'
  obtain ⟨hvalues, hnumbers, rfl⟩ := hm
  cases outcomes with
  | nil => exact Tracks.throw _
  | cons b rest =>
    exact Tracks.bind (Tracks.set ⟨hvalues, hnumbers, rfl⟩) fun _ _ _ _ _ => Tracks.pure rfl

section Operations

variable {f : T → Evaluation R S T} {f' : T' → Evaluation R S' T'}
  {g : T → T → Evaluation R S T} {g' : T' → T' → Evaluation R S' T'}

theorem tracks_onTop (hf : ∀ v x x', L.Later w v → L.Like v x x' → L.AlikeEval v (f x) (f' x')) :
    L.TracksSteps n w (Machine.onTop f) (Machine.onTop f') :=
  tracks_popNumber.bind fun u _ _ hu hx =>
    (tracks_ofEvaluation_machine (hf u _ _ hu hx)).bind fun _ _ _ _ hy => tracks_pushNumber hy

theorem tracks_onTopTwo (hg : ∀ v x x' y y', L.Later w v → L.Like v x x' → L.Like v y y' →
    L.AlikeEval v (g x y) (g' x' y')) : L.TracksSteps n w (Machine.onTopTwo g) (Machine.onTopTwo g') :=
  tracks_popNumber.bind fun _ _ _ hu hy =>
    tracks_onTop fun v _ _ hv hx => hg v _ _ _ _ (L.trans hu hv) hx (L.mono hv hy)

theorem tracks_onOutcomes (f : Bool → Bool → Bool) :
    L.TracksSteps n w (Machine.onOutcomes f) (Machine.onOutcomes f) := by
  refine tracks_popOutcome.bind fun _ b _ _ hb => ?_
  subst hb
  refine tracks_popOutcome.bind fun _ a _ _ ha => ?_
  subst ha
  exact tracks_pushOutcome _

theorem tracks_test (relation : Relation) (tolerance : R) :
    L.TracksSteps n w (Machine.test relation tolerance) (Machine.test relation tolerance) := by
  refine tracks_popNumber.bind fun u _ _ _ hx => ?_
  rw [L.value hx]
  exact tracks_pushOutcome _

theorem tracks_onMachineVariables {step : Variables T → Evaluation R S (Variables T)}
    {step' : Variables T' → Evaluation R S' (Variables T')}
    (h : ∀ v vs vs', L.Later w v → L.LikeTable n v vs vs' →
      L.toWorlds.Alike v (step vs) (step' vs') (L.LikeTable n)) :
    L.TracksSteps n w (Machine.onVariables step) (Machine.onVariables step') := by
  refine Tracks.get.bind fun u m m' hu hm => ?_
  refine (tracks_ofEvaluation_machine (h u _ _ hu hm.values)).bind fun v _ _ hv hvs => ?_
  exact Tracks.set ⟨hvs, hm.numbers.mono hv, hm.outcomes⟩

theorem tracks_wordAt (p : Program R) (i : Nat) :
    L.TracksMachine n w (Machine.wordAt p i : Process R S (Machine T) Nat) (Machine.wordAt p i)
      fun _ => Eq := by
  unfold Machine.wordAt
  split
  · exact Tracks.pure rfl
  · exact Tracks.throw _

theorem tracks_constantAt (p : Program R) (i : Nat) :
    L.TracksMachine n w (Machine.constantAt p i : Process R S (Machine T) R) (Machine.constantAt p i)
      fun _ => Eq := by
  refine (tracks_wordAt p i).bind fun u k k' _ hk => ?_
  subst hk
  split
  · exact Tracks.pure rfl
  · exact Tracks.throw _

theorem tracks_withConstant (p : Program R) (i : Nat)
    (hg : ∀ v x x' y y', L.Later w v → L.Like v x x' → L.Like v y y' →
      L.AlikeEval v (g x y) (g' x' y')) :
    L.TracksSteps n w (Machine.withConstant p i g) (Machine.withConstant p i g') := by
  refine (tracks_constantAt p i).bind fun u c c' hu hc => ?_
  subst hc
  exact tracks_onTop fun v _ _ hv hx => hg v _ _ _ _ (L.trans hu hv) hx (L.constant v c)

end Operations

variable {s : Sample T} {s' : Sample T'}

theorem tracks_execute (p : Program R) (hs : L.LikeSample w s s') (i : Nat) (op : Opcode) :
    L.TracksSteps n w (Machine.execute p s i op) (Machine.execute p s' i op) := by
  have hbinary (op : Operator) (v : S × S') (x : T) (x' : T') (y : T) (y' : T') (_ : L.Later w v)
      (hx : L.Like v x x') (hy : L.Like v y y') :
      L.AlikeEval v (Intrinsic.binary op x y) (Intrinsic.binary op x' y') := alike_binary op hx hy
  have hflipped (op : Operator) (v : S × S') (x : T) (x' : T') (y : T) (y' : T') (_ : L.Later w v)
      (hx : L.Like v x x') (hy : L.Like v y y') :
      L.AlikeEval v (Intrinsic.binary op y x) (Intrinsic.binary op y' x') := alike_binary op hy hx
  have hmax (v : S × S') (x : T) (x' : T') (y : T) (y' : T') (_ : L.Later w v)
      (hx : L.Like v x x') (hy : L.Like v y y') :
      L.AlikeEval v (pure (Quantity.max x y)) (pure (Quantity.max x' y')) := Alike.pure (L.max hx hy)
  have hmin (v : S × S') (x : T) (x' : T') (y : T) (y' : T') (_ : L.Later w v)
      (hx : L.Like v x x') (hy : L.Like v y y') :
      L.AlikeEval v (pure (Quantity.min x y)) (pure (Quantity.min x' y')) := Alike.pure (L.min hx hy)
  have hunary (f : Function) (v : S × S') (x : T) (x' : T') (_ : L.Later w v) (hx : L.Like v x x') :
      L.AlikeEval v (Intrinsic.unary f x) (Intrinsic.unary f x') := alike_unary f hx
  have htest (relation : Relation) : L.TracksSteps n w
      (do Machine.test relation (← Machine.constantAt p (i + 1)))
      (do Machine.test relation (← Machine.constantAt p (i + 1))) :=
    (tracks_constantAt p (i + 1)).bind fun u c c' _ hc => by
      subst hc
      exact tracks_test relation c
  unfold Machine.execute
  cases op with
  | add => exact tracks_onTopTwo (hbinary .add)
  | addConst => exact tracks_withConstant p _ (hbinary .add)
  | sub => exact tracks_onTopTwo (hbinary .sub)
  | subConst => exact tracks_withConstant p _ (hbinary .sub)
  | constSub => exact tracks_withConstant p _ (hflipped .sub)
  | mul => exact tracks_onTopTwo (hbinary .mul)
  | mulConst => exact tracks_withConstant p _ (hbinary .mul)
  | div => exact tracks_onTopTwo (hbinary .div)
  | divConst => exact tracks_withConstant p _ (hbinary .div)
  | constDiv => exact tracks_withConstant p _ (hflipped .div)
  | pow => exact tracks_onTopTwo (hbinary .pow)
  | powConst => exact tracks_withConstant p _ (hbinary .pow)
  | constPow => exact tracks_withConstant p _ (hflipped .pow)
  | max => exact tracks_onTopTwo hmax
  | maxConst => exact tracks_withConstant p _ hmax
  | min => exact tracks_onTopTwo hmin
  | minConst => exact tracks_withConstant p _ hmin
  | spot => exact tracks_pushNumber hs.spot
  | load =>
    refine (tracks_wordAt p _).bind fun u slot _ hu hslot => ?_
    subst hslot
    refine Tracks.get.bind fun v m m' hv hm => ?_
    exact (tracks_ofEvaluation_machine (alike_fetch hm.values slot)).bind fun _ _ _ _ hx => tracks_pushNumber hx
  | const =>
    refine (tracks_constantAt p _).bind fun u c _ hu hc => ?_
    subst hc
    exact tracks_pushNumber (L.constant u c)
  | store =>
    refine (tracks_wordAt p _).bind fun u slot _ hu hslot => ?_
    subst hslot
    refine tracks_popNumber.bind fun v x x' hv hx => ?_
    exact tracks_onMachineVariables fun t _ _ ht hvs => alike_store hvs slot (L.mono ht hx)
  | storeConst =>
    refine (tracks_wordAt p _).bind fun u slot _ hu hslot => ?_
    subst hslot
    refine (tracks_constantAt p _).bind fun v c _ hv hc => ?_
    subst hc
    exact tracks_onMachineVariables fun t _ _ _ hvs => alike_store hvs slot (L.constant t c)
  | pay =>
    refine (tracks_wordAt p _).bind fun u slot _ hu hslot => ?_
    subst hslot
    refine tracks_popNumber.bind fun v x x' hv hx => ?_
    exact tracks_onMachineVariables fun t _ _ ht hvs =>
      alike_pay hvs slot (L.mono ht hx) (hs.mono (L.trans hu (L.trans hv ht))).numeraire
  | payConst =>
    refine (tracks_wordAt p _).bind fun u slot _ hu hslot => ?_
    subst hslot
    refine (tracks_constantAt p _).bind fun v c _ hv hc => ?_
    subst hc
    exact tracks_onMachineVariables fun t _ _ ht hvs =>
      alike_pay hvs slot (L.constant t c) (hs.mono (L.trans hu (L.trans hv ht))).numeraire
  | equal => exact htest .equal
  | above => exact htest .above
  | aboveOrEqual => exact htest .aboveOrEqual
  | and => exact tracks_onOutcomes _
  | or => exact tracks_onOutcomes _
  | not =>
    refine tracks_popOutcome.bind fun u b _ _ hb => ?_
    subst hb
    exact tracks_pushOutcome _
  | yes => exact tracks_pushOutcome true
  | no => exact tracks_pushOutcome false
  | smooth =>
    refine tracks_popNumber.bind fun v₁ _ _ _ hwidth => ?_
    refine tracks_popNumber.bind fun v₂ _ _ h₂ hbelow => ?_
    refine tracks_popNumber.bind fun v₃ _ _ h₃ habove => ?_
    refine tracks_onTop fun v _ _ hv hx => alike_smooth hx (L.mono hv habove) (L.mono (L.trans h₃ hv) hbelow) ?_
    exact L.mono (L.trans h₂ (L.trans h₃ hv)) hwidth
  | sqrt => exact tracks_onTop (hunary .sqrt)
  | log => exact tracks_onTop (hunary .log)
  | exp => exact tracks_onTop (hunary .exp)
  | neg => exact tracks_onTop fun v _ _ _ hx => Alike.lift (L.neg hx)
  | skip => exact Tracks.pure trivial
  | select => exact Tracks.pure trivial

/-- Both runs make the same jumps. -/
theorem tracks_runFrom (p : Program R) {w : S × S'} (hs : L.LikeSample w s s') (i last : Nat) :
    L.TracksSteps n w (Machine.runFrom p s i last) (Machine.runFrom p s' i last) := by
  rw [Machine.runFrom.eq_def p s, Machine.runFrom.eq_def p s']
  split
  · split
    · exact Tracks.throw _
    · next word hcode =>
      have hlt : i < p.code.size := (Array.getElem?_eq_some_iff.1 hcode).1
      dsimp only
      split
      · exact Tracks.throw _
      · refine (tracks_wordAt p _).bind fun u target _ hu htarget => ?_
        subst htarget
        refine tracks_popOutcome.bind fun v b _ hv hb => ?_
        subst hb
        have hs := hs.mono (L.trans hu hv)
        split
        · exact tracks_runFrom p hs _ last
        split
        · exact tracks_runFrom p hs _ last
        · exact Tracks.throw _
      · refine (tracks_wordAt p _).bind fun v₁ second _ h₁ hsecond => ?_
        subst hsecond
        refine (tracks_wordAt p _).bind fun v₂ stop _ h₂ hstop => ?_
        subst hstop
        refine tracks_popOutcome.bind fun v₃ b _ h₃ hb => ?_
        subst hb
        have hs := hs.mono (L.trans h₁ (L.trans h₂ h₃))
        split
        · refine (tracks_runFrom p hs _ second).bind fun v₄ _ _ h₄ _ => ?_
          split
          · exact tracks_runFrom p (hs.mono h₄) _ last
          · exact Tracks.throw _
        split
        · exact tracks_runFrom p hs _ last
        · exact Tracks.throw _
      · next op _ _ _ =>
        exact (tracks_execute p hs i op).bind fun u _ _ hu _ => tracks_runFrom p (hs.mono hu) _ last
  · exact Tracks.pure trivial
termination_by p.code.size - i

/-- A run starts from empty stacks, so the values alone have to be alike. -/
theorem tracks_runMachine (p : Program R) (hs : L.LikeSample w s s') :
    L.toWorlds.Tracks w (fun v m m' => L.LikeTable n v m.values m'.values)
      (Machine.run p s : Process R S (Machine T) Unit) (Machine.run p s') fun _ _ _ => True := by
  intro m m' hm
  have hempty : L.LikeMachine n w { m with numbers := [], outcomes := [] }
      { m' with numbers := [], outcomes := [] } := ⟨hm, List.Forall₂.nil, rfl⟩
  refine (tracks_runFrom p hs 0 p.code.size _ _ hempty).imp fun v r r' _ h => ?_
  rcases r with ⟨_ | _, _⟩ <;> rcases r' with ⟨_ | _, _⟩
  · exact h
  · exact h
  · exact h
  · exact ⟨trivial, h.2.values⟩

end Likeness

end PayoffPricing
