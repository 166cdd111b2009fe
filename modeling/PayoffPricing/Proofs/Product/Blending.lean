import Mathlib
import PayoffPricing.Proofs.Product.Fitting
import PayoffPricing.Proofs.Product.Reuse
import PayoffPricing.Proofs.Script.Degrees
import PayoffPricing.Proofs.Script.Frames
/-!
Blending of branches. Degrees of truth lie between zero and one, so that a conditional statement that notes all that
its branches write leaves every variable between what the one branch and what the other branch leaves in it.
-/

namespace PayoffPricing.Script

open Fuzzy

namespace Statement

variable {R : Type} {n : ℕ} {slots : List ℕ}

/-- A conditional statement notes slots of a table of `n` variables, and all slots that its branches write. -/
structure Noted (n : ℕ) (body otherwise : List (Statement R)) (affected : List ℕ) : Prop where
  inside : ∀ i ∈ affected, i < n
  body : ConfinedBlock affected body
  otherwise : ConfinedBlock affected otherwise

/-- The statement stands somewhere in a block. -/
inductive Occurs (s : Statement R) : List (Statement R) → Prop
  | here {block} (h : s ∈ block) : Occurs s block
  | body {block c body otherwise affected} (h : branch c body otherwise affected ∈ block) (ho : s.Occurs body) :
      Occurs s block
  | otherwise {block c body otherwise affected} (h : branch c body otherwise affected ∈ block)
      (ho : s.Occurs otherwise) : Occurs s block
  | sequence {block body} (h : sequence body ∈ block) (ho : s.Occurs body) : Occurs s block

theorem confinedBlock_iff {block : List (Statement R)} :
    ConfinedBlock slots block ↔ ∀ s ∈ block, s.Confined slots := by
  induction block with
  | nil => simp [ConfinedBlock]
  | cons s rest ih => rw [ConfinedBlock, ih, List.forall_mem_cons]

theorem fitsBlock_iff {block : List (Statement R)} : FitsBlock n block ↔ ∀ s ∈ block, s.Fits n := by
  induction block with
  | nil => simp [FitsBlock]
  | cons s rest ih => rw [FitsBlock, ih, List.forall_mem_cons]

theorem Occurs.noted {c : Cond R} {body otherwise block : List (Statement R)} {affected : List ℕ}
    (h : (branch c body otherwise affected).Occurs block) (hfits : FitsBlock n block)
    (hconfined : ConfinedBlock slots block) : Noted n body otherwise affected := by
  induction h generalizing slots with
  | here h =>
    have hf := fitsBlock_iff.1 hfits _ h
    have hc := confinedBlock_iff.1 hconfined _ h
    exact ⟨hf.2.2.2, hc.2.1, hc.2.2⟩
  | body h _ ih =>
    have hf := fitsBlock_iff.1 hfits _ h
    have hc := confinedBlock_iff.1 hconfined _ h
    exact ih hf.2.1 hc.2.1
  | otherwise h _ ih =>
    have hf := fitsBlock_iff.1 hfits _ h
    have hc := confinedBlock_iff.1 hconfined _ h
    exact ih hf.2.2.1 hc.2.2
  | sequence h _ ih =>
    have hf := fitsBlock_iff.1 hfits _ h
    have hc := confinedBlock_iff.1 hconfined _ h
    exact ih hf hc

end Statement

section Built

variable {R : Type} [Scalar R] {plan : Plan R} {p : Product R}

theorem confined_build (h : plan.build = .ok p) : ∀ event ∈ p.events, ∃ slots, Statement.ConfinedBlock slots event := by
  obtain ⟨parsed, a, -, ha, hevents, -, -, -⟩ := Plan.exists_analysed h
  rw [hevents]
  refine forall_analyse ha ?_ (Statement.forall_inferEvents ?_) ?_ ?_
  · refine List.forall_mem_map.2 fun event _ => ⟨Statement.blockWrites event, ?_⟩
    exact Statement.confinedBlock_markAffectedBlock event fun _ hi => hi
  · exact fun hrebuilt ⟨slots, hevent⟩ => ⟨slots, Statement.confinedBlock_rebuilt hrebuilt hevent⟩
  · exact fun event ⟨slots, hevent⟩ => ⟨slots, Statement.confinedBlock_collapseBlock event hevent⟩
  · exact fun event => exists_congr fun _ => Statement.confinedBlock_bareBlock event

/-- The conditional statements of a built product note all that their branches write. -/
theorem noted_build (h : plan.build = .ok p) {event : Event R} (he : event ∈ p.events) {c : Cond R}
    {body otherwise : List (Statement R)} {affected : List ℕ}
    (hoccurs : (Statement.branch c body otherwise affected).Occurs event) :
    Statement.Noted p.names.size body otherwise affected := by
  obtain ⟨slots, hconfined⟩ := confined_build h event he
  exact hoccurs.noted ((Plan.fits_build h).events event he) hconfined

end Built

section Values

variable {R S T : Type} [Scalar R] [Quantity R S T] {width : R} {sample : Sample T}

/-- What is set aside, and how deep the nesting is, plays no part in a run. -/
theorem exec_runBlock_of_values {body : List (Statement R)} {s after : State T} (s' : State T) {r r' : S}
    (hrun : (runBlock width sample body : Process R S (State T) Unit).exec s r = ((.ok (), after), r'))
    (h : s'.values = s.values) :
    ∃ after' : State T, (runBlock width sample body : Process R S (State T) Unit).exec s' r = ((.ok (), after'), r') ∧
      after'.values = after.values := by
  have hsample : (Likeness.same R S T).LikeSample (r, r) sample sample := ⟨rfl, rfl⟩
  have hvalues : (Likeness.same R S T).LikeValues s.values.size (r, r) s s' := by
    refine ⟨rfl, ?_⟩
    rw [h]
    exact List.forall₂_same.2 fun _ _ => rfl
  have htracks : (Likeness.same R S T).TracksValues s.values.size (r, r) (runBlock width sample body)
      (runBlock width sample body) := Fuzzy.tracks_runBlock body hsample
  obtain ⟨_, after', r₁, hrun', hrecord, -, -, hafter⟩ := htracks.exec_ok rfl hvalues hrun
  obtain rfl : r' = r₁ := hrecord
  exact ⟨after', hrun', (Likeness.LikeTable.eq hafter).symm⟩

end Values

variable {R : Type} [ExactScalar R]

/-- The values of the third table lie between those of the first and of the second one. -/
structure Variables.Between (first second values : Variables R) : Prop where
  size_first : first.size = values.size
  size_second : second.size = values.size
  get : ∀ (i : Nat) (x y z : R), first[i]? = some x → second[i]? = some y → values[i]? = some z →
    min x y ≤ z ∧ z ≤ max x y

section Blends

theorem Variables.Between.first {first second : Variables R} (h : first.size = second.size) :
    Variables.Between first second first := by
  refine ⟨rfl, h.symm, fun i x y z hx _ hz => ?_⟩
  obtain rfl : x = z := Option.some.inj (hx.symm.trans hz)
  exact ⟨min_le_left x y, le_max_left x y⟩

theorem Variables.Between.second {first second : Variables R} (h : first.size = second.size) :
    Variables.Between first second second := by
  refine ⟨h, rfl, fun i x y z _ hy hz => ?_⟩
  obtain rfl : y = z := Option.some.inj (hy.symm.trans hz)
  exact ⟨min_le_right x y, le_max_right x y⟩

variable {d x y z : R} {first second values : Variables R} {slots : List Nat} {xs : List R}

theorem IsDegree.mix (hd : IsDegree d) (hz : min x y ≤ z ∧ z ≤ max x y) :
    min x y ≤ d * x + (1 - d) * z ∧ d * x + (1 - d) * z ≤ max x y := by
  obtain ⟨h0, h1⟩ := hd.compl
  constructor
  · have hx : d * min x y ≤ d * x := mul_le_mul_of_nonneg_left (min_le_left x y) hd.1
    have hz : (1 - d) * min x y ≤ (1 - d) * z := mul_le_mul_of_nonneg_left hz.1 h0
    linarith
  · have hx : d * x ≤ d * max x y := mul_le_mul_of_nonneg_left (le_max_left x y) hd.1
    have hz : (1 - d) * z ≤ (1 - d) * max x y := mul_le_mul_of_nonneg_left hz.2 h0
    linarith

theorem between_blendSlots (hd : IsDegree d) (hold : first.Holds slots xs) (hslots : ∀ i ∈ slots, i < values.size)
    (h : Variables.Between first second values) :
    ∃ after, (blendSlots d (1 - d) (slots.zip xs) values : Evaluation R Unit (Variables R)).exec () = (.ok after, ()) ∧
      Variables.Between first second after := by
  induction hold generalizing values with
  | nil => exact ⟨values, rfl, h⟩
  | @cons slot x slots xs hx _ ih =>
    rw [List.forall_mem_cons] at hslots
    have hheld : values[slot]? = some values[slot] := Array.getElem?_eq_getElem hslots.1
    have hmixed : Variables.Between first second (values.setIfInBounds slot (d * x + (1 - d) * values[slot])) := by
      refine ⟨by simp [h.size_first], by simp [h.size_second], fun i a b z ha hb hz => ?_⟩
      by_cases hi : i = slot
      · subst hi
        obtain rfl : x = a := Option.some.inj (hx.symm.trans ha)
        rw [Array.getElem?_setIfInBounds_self_of_lt hslots.1, Option.some.injEq] at hz
        rw [← hz]
        exact hd.mix (h.get i x b values[i] hx hb hheld)
      · rw [Array.getElem?_setIfInBounds_ne (Ne.symm hi)] at hz
        exact h.get i a b z ha hb hz
    obtain ⟨after, hrun, hafter⟩ := ih (by simpa using hslots.2) hmixed
    refine ⟨after, ?_, hafter⟩
    rw [← hrun]
    simp only [blendSlots, List.zip_cons_cons, List.foldlM_cons, Evaluation.exec_bind, Evaluation.exec_record,
      Variables.exec_fetch, hheld, Variables.exec_store, hslots.1, if_true]
    rfl

end Blends

section Branches

variable {width : R} {s : Sample R} {body otherwise : List (Statement R)} {affected : List Nat}
  {state first second : State R} {d : R}

theorem exec_inPlace_between (hd : IsDegree d) (hnoted : Statement.Noted state.values.size body otherwise affected)
    (hfirst : (runBlock width s body : Process R Unit (State R) Unit).exec state () = ((.ok (), first), ()))
    (hsecond : (runBlock width s otherwise : Process R Unit (State R) Unit).exec state () = ((.ok (), second), ())) :
    ∃ after, (Branching.inPlace width s d body otherwise affected : Process R Unit (State R) Unit).exec state () =
        ((.ok (), after), ()) ∧ Variables.Between first.values second.values after.values := by
  have hoff : Variables.SameOff affected first.values state.values :=
    keeps_runBlock body hnoted.body _ _ _ _ _ hfirst
  have hoff' : Variables.SameOff affected second.values state.values :=
    keeps_runBlock otherwise hnoted.otherwise _ _ _ _ _ hsecond
  -- The slots that are not noted are as before, so that putting the noted ones back gives the first table again.
  obtain ⟨inside, henter, hvalues, -⟩ := Branching.exec_enter (R := R) state ()
  obtain ⟨before, hbefore, hold⟩ := Variables.exec_fetchAll (R := R) (r := ()) hnoted.inside
  obtain ⟨left, hleft, hleftValues⟩ := exec_runBlock_of_values inside hfirst hvalues
  obtain ⟨after, hafter, hold₁⟩ := Variables.exec_fetchAll (R := R) (r := ()) (hoff.size ▸ hnoted.inside)
  have hback := Variables.exec_storeAll_of_holds (R := R) (r := ()) hold hoff
  obtain ⟨right, hright, hrightValues⟩ := exec_runBlock_of_values { left with values := state.values } hsecond rfl
  have hbetween : Variables.Between first.values second.values second.values :=
    .second (hoff.size.trans hoff'.size.symm)
  obtain ⟨values, hblend, hvalues'⟩ := between_blendSlots hd hold₁ (hoff'.size ▸ hnoted.inside) hbetween
  have hmixed :
      (blend d affected after second.values : Evaluation R Unit (Variables R)).exec () = (.ok values, ()) := by
    rw [blend_eq, Evaluation.exec_bind, Evaluation.exec_record, ← hblend, ← crisp_true]
    rfl
  simp only [Branching.inPlace, Process.exec_bind, henter, Process.exec_get, Process.exec_ofEvaluation, hvalues,
    hbefore, hleft, hleftValues, hafter, onVariables, hback, Process.exec_set, hright, hrightValues, hmixed]
  exact ⟨_, rfl, hvalues'⟩

theorem exec_branch_between {c : Cond R}
    (hrun : (degree width state.values s c : Evaluation R Unit R).exec () = (.ok d, ())) (hd : IsDegree d)
    (hnoted : Statement.Noted state.values.size body otherwise affected)
    (hfirst : (runBlock width s body : Process R Unit (State R) Unit).exec state () = ((.ok (), first), ()))
    (hsecond : (runBlock width s otherwise : Process R Unit (State R) Unit).exec state () = ((.ok (), second), ())) :
    ∃ after, (run width s (.branch c body otherwise affected) : Process R Unit (State R) Unit).exec state () =
        ((.ok (), after), ()) ∧ Variables.Between first.values second.values after.values := by
  have hoff : Variables.SameOff affected first.values state.values :=
    keeps_runBlock body hnoted.body _ _ _ _ _ hfirst
  have hoff' : Variables.SameOff affected second.values state.values :=
    keeps_runBlock otherwise hnoted.otherwise _ _ _ _ _ hsecond
  have hsizes := hoff.size.trans hoff'.size.symm
  simp only [Fuzzy.run, Process.exec_bind, Process.exec_get, Process.exec_ofEvaluation, hrun]
  split
  · exact ⟨first, hfirst, .first hsizes⟩
  split
  · exact ⟨second, hsecond, .second hsizes⟩
  · exact exec_inPlace_between hd hnoted hfirst hsecond

end Branches

section Recorded

variable {width : R} {s : Sample R} {state after : State R} {n : ℕ} {t : Tape R} {numbers : State (Number R)}
  {sample : Sample (Number R)}

theorem exec_run_recorded {st : Statement R} (ht : t.Sound)
    (hv : (recordingLikeness R).LikeTable n ((), t) state.values numbers.values)
    (hs : (recordingLikeness R).LikeSample ((), t) s sample)
    (hrun : (run width s st : Process R Unit (State R) Unit).exec state () = ((.ok (), after), ())) :
    ∃ after' t', (run width sample st : Process R (Tape R) (State (Number R)) Unit).exec numbers t =
      ((.ok (), after'), t') ∧ after'.values.map (·.value) = after.values := by
  have htracks : (recordingLikeness R).TracksValues n ((), t) (run width s st) (run width sample st) :=
    Fuzzy.tracks_run st hs
  obtain ⟨_, after', t', hrun', -, -, -, hafter⟩ := htracks.exec_ok ht hv hrun
  exact ⟨after', t', hrun', map_value_eq hafter.toList⟩

end Recorded

/-- A condition holds to a degree between zero and one, whatever windows and tolerances its comparisons have, once the
arguments of these have values. A conditional statement that notes all that its branches write, as those of a built
product do by `noted_build`, leaves every variable between what its first and what its second branch leave, each run
from the same table. Recorded numbers give the same degrees and the same values. -/
theorem degree_blends_between {width : R} (hw : 0 < width) {c : Cond R} {s : Sample R} {state : State R}
    (hc : c.Evaluates state.values s) :
    ∃ d, (degree width state.values s c : Evaluation R Unit R).exec () = (.ok d, ()) ∧ IsDegree d ∧
      (∀ (n : ℕ) (t : Tape R) (numbers : Variables (Number R)) (sample : Sample (Number R)), t.Sound →
        (recordingLikeness R).LikeTable n ((), t) state.values numbers →
        (recordingLikeness R).LikeSample ((), t) s sample →
        ∃ d' t', (degree width numbers sample c : Evaluation R (Tape R) (Number R)).exec t = (.ok d', t') ∧
          d'.value = d) ∧
      ∀ (body otherwise : List (Statement R)) (affected : List ℕ) (first second : State R),
        Statement.Noted state.values.size body otherwise affected →
        (runBlock width s body : Process R Unit (State R) Unit).exec state () = ((.ok (), first), ()) →
        (runBlock width s otherwise : Process R Unit (State R) Unit).exec state () = ((.ok (), second), ()) →
        ∃ after, (run width s (.branch c body otherwise affected) : Process R Unit (State R) Unit).exec state () =
            ((.ok (), after), ()) ∧
          Variables.Between first.values second.values after.values ∧
          ∀ (n : ℕ) (t : Tape R) (numbers : State (Number R)) (sample : Sample (Number R)), t.Sound →
            (recordingLikeness R).LikeTable n ((), t) state.values numbers.values →
            (recordingLikeness R).LikeSample ((), t) s sample →
            ∃ after' t', (run width sample (.branch c body otherwise affected) :
                Process R (Tape R) (State (Number R)) Unit).exec numbers t = ((.ok (), after'), t') ∧
              after'.values.map (·.value) = after.values := by
  obtain ⟨d, hrun, hd⟩ := isDegree_degree hw hc
  refine ⟨d, hrun, hd, fun n t numbers sample ht hv hs => exec_degree_recorded ht hv hs hrun, ?_⟩
  intro body otherwise affected first second hnoted hfirst hsecond
  obtain ⟨after, hafter, hbetween⟩ := exec_branch_between hrun hd hnoted hfirst hsecond
  exact ⟨after, hafter, hbetween, fun n t numbers sample ht hv hs => exec_run_recorded ht hv hs hafter⟩

section Halfway

/-- What a path writes when the spot is above zero. -/
def aboveZero : List (Statement ℝ) := [.assign ⟨"X", 0⟩ (.literal 1)]

/-- At the spot zero, the condition holds by half. -/
theorem degree_blends_between_aboveZero :
    ∃ d, (degree 1 #[0] ⟨0, 1, #[], #[]⟩ (.compare none (.new .above .spot none)) : Evaluation ℝ Unit ℝ).exec () =
        (.ok d, ()) ∧ IsDegree d ∧
      ∃ after, (run 1 ⟨0, 1, #[], #[]⟩ (.branch (.compare none (.new .above .spot none)) aboveZero [] [0]) :
          Process ℝ Unit (State ℝ) Unit).exec ⟨#[0], #[], 0⟩ () = ((.ok (), after), ()) ∧
        Variables.Between #[1] #[0] after.values := by
  have hevaluates : (Cond.compare none (.new .above .spot none)).Evaluates (⟨#[0], #[], 0⟩ : State ℝ).values
      (⟨0, 1, #[], #[]⟩ : Sample ℝ) := ⟨0, rfl⟩
  have hnoted : Statement.Noted 1 aboveZero [] [0] := ⟨by simp, ⟨List.mem_singleton_self 0, trivial⟩, trivial⟩
  obtain ⟨d, hd, hdegree, -, hbetween⟩ := degree_blends_between (zero_lt_one' ℝ) hevaluates
  obtain ⟨after, hrun, hafter, -⟩ :=
    hbetween aboveZero [] [0] ⟨#[1], #[], 0⟩ ⟨#[0], #[], 0⟩ hnoted rfl rfl
  exact ⟨d, hd, hdegree, after, hrun, hafter⟩

end Halfway

end PayoffPricing.Script
