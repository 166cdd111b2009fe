import Mathlib
import PayoffPricing.Proofs.Adjoint.Number
import PayoffPricing.Proofs.Product.Events
import PayoffPricing.Proofs.Product.Likeness
import PayoffPricing.Proofs.Script.FoldedRuns
/-!
Folding is sound. As far as the events come to no undefined number, they run as they did, on plain scalars and
on recorded numbers, and all that folding notes or knows in the end is what a run finds.
-/

namespace PayoffPricing.Script

open Statement Worlds Evaluator

variable {R : Type} [Scalar R]

theorem foldEvents_cons {event : Event R} {rest results : List (Event R)} {k k' : Knowledge R}
    (h : foldEvents (event :: rest) k = (⟨results, none⟩, k')) :
    ∃ first k₁ others, foldBlock false event k = (⟨first, none⟩, k₁) ∧
      foldEvents rest k₁ = (⟨others, none⟩, k') ∧ results = first :: others := by
  simp only [foldEvents, bind, StateT.bind, pure] at h
  generalize hs : foldBlock false event k = r at h
  obtain ⟨⟨first, _ | stop⟩, k₁⟩ := r
  · simp only [Option.isSome_none, Bool.false_eq_true, if_false, StateT.bind] at h
    generalize hr : foldEvents rest k₁ = r at h
    obtain ⟨⟨others, stop⟩, k₂⟩ := r
    cases h
    exact ⟨first, k₁, others, rfl, hr, rfl⟩
  · cases h

theorem knows_initial (n : Nat) : Knows (Knowledge.initial n : Knowledge R).values (Array.replicate n Quantity.zero) := by
  intro i v h
  rw [Knowledge.initial, Array.getElem?_replicate] at h
  rw [Array.getElem?_replicate]
  split_ifs at h ⊢
  exact congrArg some (Option.some.inj (Option.some.inj h))

variable [OrderedScalar R]

/-- Event by event: the runs are the same, what is noted is found, and so is what is known after the last event. -/
theorem exec_runEvents_fold {events results : List (Event R)} {samples : List (Sample R)} {k k' : Knowledge R}
    {vs : Variables R} (hu : ∀ event ∈ events, UndecidedBlock event)
    (h : foldEvents events k = (⟨results, none⟩, k')) (hk : Knows k.values vs)
    (hd : ReachedEvents Expr.DefinedAt events samples vs) :
    (runEvents (fun event s => runBlock s event) results samples.toArray : Process R Unit (Variables R) Unit).exec vs () =
        (runEvents (fun event s => runBlock s event) (events.map bareBlock) samples.toArray).exec vs () ∧
      ReachedEvents Expr.KnownAt results samples vs ∧
      (samples.length = events.length → ∀ vs',
        (runEvents (fun event s => runBlock s event) (events.map bareBlock) samples.toArray :
          Process R Unit (Variables R) Unit).exec vs () = ((.ok (), vs'), ()) → Knows k'.values vs') := by
  induction events generalizing results samples k vs with
  | nil =>
    cases h
    refine ⟨rfl, trivial, fun _ vs' hrun => ?_⟩
    cases hrun
    exact hk
  | cons event rest ih =>
    obtain ⟨first, k₁, others, hfirst, hrest, rfl⟩ := foldEvents_cons h
    cases samples with
    | nil => exact ⟨rfl, trivial, fun hlength => absurd hlength (Nat.succ_ne_zero _).symm⟩
    | cons s samples =>
      have hf := foldsBlock s event (hu event List.mem_cons_self) hfirst
      have hlater (us : Variables R) (hev : (runBlock s (bareBlock event) : Process R Unit (Variables R) Unit).exec vs () =
          ((.ok (), us), ())) :=
        ih (fun e he => hu e (List.mem_cons_of_mem _ he)) hrest (hf.knows vs us hk hd.1 hev) (hd.2 us hev)
      rw [List.map_cons, runEvents_cons, runEvents_cons, Process.exec_bind, Process.exec_bind, hf.run vs hk hd.1]
      refine ⟨?_, ⟨hf.known vs hk hd.1, fun us hev => ?_⟩, fun hlength vs' hrun => ?_⟩
      · rcases hev : (runBlock s (bareBlock event) : Process R Unit (Variables R) Unit).exec vs () with ⟨⟨_ | _, us⟩, _⟩
        · rfl
        · exact (hlater us hev).1
      · rw [bare_foldBlock event hfirst] at hev
        exact (hlater us hev).2.1
      · rcases hev : (runBlock s (bareBlock event) : Process R Unit (Variables R) Unit).exec vs () with ⟨⟨_ | _, us⟩, _⟩
        · rw [hev] at hrun
          cases hrun
        · rw [hev] at hrun
          exact (hlater us hev).2.2 (Nat.succ.inj hlength) vs' hrun

section Recorded

omit [OrderedScalar R]

/-- What a run leaves: the values of all variables, or the error that stops it. -/
def left {S T : Type} [Valued R T] (r : (Except (Fault (ScriptError R)) Unit × Variables T) × S) :
    Except (Fault (ScriptError R)) (Variables R) := r.1.1.map fun _ => r.1.2.map Valued.value

theorem left_eq_of_outcome {n : Nat} {w : Unit × Tape R} {rel : Unit → Unit → Prop}
    {r : (Except (Fault (ScriptError R)) Unit × Variables R) × Unit}
    {r' : (Except (Fault (ScriptError R)) Unit × Variables (Number R)) × Tape R} (h : Outcome rel r.1.1 r'.1.1)
    (hrel : ∀ x x', rel x x' → (recordingLikeness R).LikeTable n w r.1.2 r'.1.2) : left r' = left r := by
  obtain ⟨⟨_ | x, vs⟩, _⟩ := r <;> obtain ⟨⟨_ | x', vs'⟩, _⟩ := r'
  · exact congrArg Except.error h.symm
  · exact h.elim
  · exact h.elim
  · refine congrArg Except.ok (Array.toList_inj.1 ?_)
    have hlist : List.Forall₂ (Carries w.2) vs.toList vs'.toList := (hrel x x' h).toList
    have hvalues := hlist.imp fun _ _ hx => hx.1
    rw [Array.toList_map, Array.toList_map]
    rw [← List.forall₂_map_right_iff, List.forall₂_eq_eq_eq] at hvalues
    exact hvalues.symm.trans (List.map_id _).symm

/-- A recorded run leaves what the plain one does. -/
theorem left_runEvents (events : List (Event R)) {scenario : Scenario R} {numbers : Scenario (Number R)}
    {t : Tape R} (ht : t.Sound) (hs : (recordingLikeness R).LikeScenario ((), t) scenario numbers) (n : Nat) :
    left ((runEvents (fun event s => runBlock s event) events numbers :
        Process R (Tape R) (Variables (Number R)) Unit).exec (Array.replicate n Quantity.zero) t) =
      left ((runEvents (fun event s => runBlock s event) events scenario : Process R Unit (Variables R) Unit).exec
        (Array.replicate n Quantity.zero) ()) := by
  have hzeros : (recordingLikeness R).LikeTable n ((), t) (Array.replicate n Quantity.zero)
      (Array.replicate n Quantity.zero) := Likeness.LikeTable.replicate n ((recordingLikeness R).zero ((), t))
  have htracks : (recordingLikeness R).TracksTables n ((), t)
      (runEvents (fun event s => runBlock s event) events scenario)
      (runEvents (fun event s => runBlock s event) events numbers) :=
    Likeness.tracks_runEvents (fun _ event _ _ hx => Statement.tracks_runBlock event hx) events hs
  obtain ⟨-, -, h⟩ := htracks _ _ hzeros ht
  exact left_eq_of_outcome h fun _ _ hx => hx.2

end Recorded

/-- Folding keeps what a run leaves. Whatever it notes of an expression that a run reaches is the value of the
expression, and what it knows of a variable in the end is the value of the variable then. -/
theorem folding_is_sound {events folded : List (Event R)} {n : Nat} {k : Knowledge R} {scenario : Scenario R}
    (hbare : events.map bareBlock = events)
    (hfold : foldEvents events (Knowledge.initial n) = (⟨folded, none⟩, k))
    (hsize : scenario.size = events.length)
    (hdefined : ReachedEvents Expr.DefinedAt events scenario.toList (Array.replicate n Quantity.zero)) :
    (runEvents (fun event s => runBlock s event) folded scenario : Process R Unit (Variables R) Unit).exec
        (Array.replicate n Quantity.zero) () =
      (runEvents (fun event s => runBlock s event) events scenario).exec (Array.replicate n Quantity.zero) () ∧
    (∀ (t : Tape R) (numbers : Scenario (Number R)), t.Sound →
      (recordingLikeness R).LikeScenario ((), t) scenario numbers →
      left ((runEvents (fun event s => runBlock s event) folded numbers :
          Process R (Tape R) (Variables (Number R)) Unit).exec (Array.replicate n Quantity.zero) t) =
        left ((runEvents (fun event s => runBlock s event) events numbers).exec
          (Array.replicate n Quantity.zero) t)) ∧
    ReachedEvents Expr.KnownAt folded scenario.toList (Array.replicate n Quantity.zero) ∧
    ∀ vs, (runEvents (fun event s => runBlock s event) events scenario : Process R Unit (Variables R) Unit).exec
        (Array.replicate n Quantity.zero) () = ((.ok (), vs), ()) →
      ∀ (i : Nat) (v : R), k.values[i]? = some (some v) → vs[i]? = some v := by
  have hundecided : ∀ event ∈ events, UndecidedBlock event := by
    intro event he
    rw [← hbare] at he
    obtain ⟨body, -, rfl⟩ := List.mem_map.1 he
    exact undecided_bareBlock body
  obtain ⟨hrun, hknown, hknows⟩ := exec_runEvents_fold hundecided hfold (knows_initial n) hdefined
  rw [hbare] at hrun hknows
  refine ⟨hrun, fun t numbers ht hs => ?_, hknown, hknows hsize⟩
  rw [left_runEvents folded ht hs, left_runEvents events ht hs]
  exact congrArg left hrun

section Tripled

/-- `A = MIN(2, 3) B = A * 3 + 1 IF SPOT() > B THEN C PAYS SPOT() - B ENDIF`. -/
noncomputable def tripledEvent : Event ℝ :=
  [.assign ⟨"A", 0⟩ (.call none .min [.literal (Scalar.ofNat 2), .literal (Scalar.ofNat 3)]),
    .assign ⟨"B", 1⟩ (.binary none .add (.binary none .mul (.read none ⟨"A", 0⟩) (.literal (Scalar.ofNat 3)))
      (.literal (Scalar.ofNat 1))),
    .branch (.compare none (.new .above (.difference .spot (.read none ⟨"B", 1⟩)) none))
      [.pays ⟨"C", 2⟩ (.binary none .sub .spot (.read none ⟨"B", 1⟩))] [] [2]]

noncomputable def tripledLeast : ℝ := Scalar.minDefined (Scalar.ofNat 2) (Scalar.ofNat 3)

theorem foldEvents_tripled : ∃ folded k, foldEvents [tripledEvent] (Knowledge.initial 3) = (⟨folded, none⟩, k) ∧
    k.values = #[some tripledLeast, some (tripledLeast * Scalar.ofNat 3 + Scalar.ofNat 1), none] := ⟨_, _, rfl, rfl⟩

noncomputable def tripledScenario : Scenario ℝ := #[⟨Scalar.ofNat 100, Scalar.ofNat 1, #[], #[]⟩]

theorem folding_is_sound_tripled : ∃ folded k,
    foldEvents [tripledEvent] (Knowledge.initial 3) = (⟨folded, none⟩, k) ∧
    (runEvents (fun event s => runBlock s event) folded tripledScenario :
        Process ℝ Unit (Variables ℝ) Unit).exec (Array.replicate 3 Quantity.zero) () =
      (runEvents (fun event s => runBlock s event) [tripledEvent] tripledScenario).exec
        (Array.replicate 3 Quantity.zero) () ∧
    ∀ vs, (runEvents (fun event s => runBlock s event) [tripledEvent] tripledScenario :
        Process ℝ Unit (Variables ℝ) Unit).exec (Array.replicate 3 Quantity.zero) () = ((.ok (), vs), ()) →
      vs[1]? = some (tripledLeast * Scalar.ofNat 3 + Scalar.ofNat 1) := by
  obtain ⟨folded, k, hfold, hk⟩ := foldEvents_tripled
  have hsize : tripledScenario.size = [tripledEvent].length := rfl
  have hdefined : ReachedEvents Expr.DefinedAt [tripledEvent] tripledScenario.toList
      (Array.replicate 3 Quantity.zero) :=
    reachedEvents_of_forall (fun _ _ _ x _ => isUndefined_exact x) _ _ _
  obtain ⟨hrun, -, -, hvalues⟩ := folding_is_sound rfl hfold hsize hdefined
  exact ⟨folded, k, hfold, hrun, fun vs h => hvalues vs h 1 _ (by rw [hk]; rfl)⟩

end Tripled

end PayoffPricing.Script
