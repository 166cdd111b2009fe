import PayoffPricing.Proofs.Double.Representation
import PayoffPricing.Proofs.Product.Stages
import PayoffPricing.Proofs.Scalar
import PayoffPricing.Proofs.Script.Sequencing
/-!
Events that share a time are their scripts in sequence. Texts of one time are joined before they are read, but reading
tells them apart again, so that the statements at a time are those of its texts, each read on its own.
-/

namespace PayoffPricing

open Script

/-- A text at one of its times, and the statements that it has on its own. -/
structure Occurrence (R : Type) where
  time : R
  text : String
  statements : Event R

/-- What an event of a plan stands for: its times, its text without macros, and the statements of that text. -/
structure Reading (R : Type) where
  times : List R
  text : String
  statements : Event R

def Reading.occurrences {R : Type} (r : Reading R) : List (Occurrence R) :=
  r.times.map fun t => ⟨t, r.text, r.statements⟩

namespace Occurrence

section Joining

variable {R : Type} [Scalar R]

def timed (o : Occurrence R) : R × String := (o.time, o.text)

/-- One occurrence and then another one at its time. -/
def followedBy (o p : Occurrence R) : Occurrence R :=
  ⟨o.time, o.text ++ "\n" ++ p.text, o.statements ++ p.statements⟩

/-- Neighbours that have one time, joined. -/
def joined : List (Occurrence R) → List (Occurrence R)
  | [] => []
  | [last] => [last]
  | o :: p :: rest => if o.time == p.time then joined (o.followedBy p :: rest) else o :: joined (p :: rest)
termination_by occurrences => occurrences.length

/-- The statements of an occurrence are those of its text. -/
def Parsed (constants : Constants R) (o : Occurrence R) : Prop := parseEvent o.text 0 constants = .ok o.statements

theorem joinTexts_timed (os : List (Occurrence R)) : Plan.joinTexts (os.map timed) = (joined os).map timed := by
  fun_induction joined os with
  | case1 => rw [List.map_nil, Plan.joinTexts]
  | case2 last => rw [List.map_cons, List.map_nil, Plan.joinTexts]
  | case3 o p rest hsame ih =>
    rw [← ih]
    simp only [List.map_cons, timed, Plan.joinTexts, hsame, if_true, followedBy]
  | case4 o p rest hsame ih =>
    simp only [List.map_cons, timed, Plan.joinTexts, hsame] at ih ⊢
    rw [← ih]
    rfl

theorem parsed_joined {constants : Constants R} {os : List (Occurrence R)} (h : ∀ o ∈ os, o.Parsed constants) :
    ∀ o ∈ joined os, o.Parsed constants := by
  fun_induction joined os with
  | case1 => exact h
  | case2 => exact h
  | case3 o p rest hsame ih =>
    simp only [List.mem_cons, forall_eq_or_imp] at h ih
    exact ih ⟨parseEvent_append h.1 h.2.1 0, h.2.2⟩
  | case4 o p rest hsame ih =>
    rw [List.forall_mem_cons] at h ⊢
    exact ⟨h.1, ih h.2⟩

/-- Joining keeps all statements in their order. -/
theorem flatMap_statements_joined (os : List (Occurrence R)) :
    (joined os).flatMap statements = os.flatMap statements := by
  fun_induction joined os with
  | case1 => rfl
  | case2 => rfl
  | case3 o p rest hsame ih => rw [ih]; simp [followedBy]
  | case4 o p rest hsame ih => rw [List.flatMap_cons, ih, ← List.flatMap_cons]

theorem exists_time_eq_of_mem_joined {os : List (Occurrence R)} {j : Occurrence R} (h : j ∈ joined os) :
    ∃ o ∈ os, o.time = j.time := by
  fun_induction joined os with
  | case1 => cases h
  | case2 => exact ⟨j, h, rfl⟩
  | case3 o p rest hsame ih =>
    obtain ⟨q, hq, htime⟩ := ih h
    rcases List.mem_cons.1 hq with rfl | hq
    · exact ⟨o, by simp, htime⟩
    · exact ⟨q, by simp [hq], htime⟩
  | case4 o p rest hsame ih =>
    rcases List.mem_cons.1 h with rfl | h
    · exact ⟨j, by simp, rfl⟩
    · obtain ⟨q, hq, htime⟩ := ih h
      exact ⟨q, List.mem_cons_of_mem _ hq, htime⟩

end Joining

section Order

open Double

/-- Occurrences at numbers, none of which is after a later one. -/
structure InOrder (os : List (Occurrence Float)) : Prop where
  defined : ∀ o ∈ os, Scalar.isUndefined o.time = false
  sorted : os.Pairwise fun o p => count o.time ≤ count p.time

namespace InOrder

variable {o p : Occurrence Float} {os : List (Occurrence Float)}

theorem tail (h : InOrder (o :: os)) : InOrder os :=
  ⟨fun q hq => h.defined q (List.mem_cons_of_mem _ hq), h.sorted.of_cons⟩

/-- A second occurrence at the time of the first one may be joined with it. -/
theorem followedBy (h : InOrder (o :: p :: os)) : InOrder (o.followedBy p :: os) := by
  obtain ⟨hdefined, hsorted⟩ := h
  simp only [List.mem_cons, forall_eq_or_imp, List.pairwise_cons] at hdefined hsorted
  refine ⟨?_, ?_⟩
  · simp only [List.mem_cons, forall_eq_or_imp]
    exact ⟨hdefined.1, hdefined.2.2⟩
  · rw [List.pairwise_cons]
    exact ⟨hsorted.1.2, hsorted.2.2⟩

/-- What does not have the time of the first occurrence comes later. -/
theorem count_lt (h : InOrder (o :: p :: os)) (hdiffers : ¬(o.time == p.time) = true) :
    ∀ q ∈ p :: os, count o.time < count q.time := by
  have hlt : count o.time < count p.time := by
    have hle := List.rel_of_pairwise_cons h.sorted (List.mem_cons_self (a := p) (l := os))
    rw [beq_iff (h.defined o (by simp)) (h.defined p (by simp))] at hdiffers
    omega
  rw [List.forall_mem_cons]
  exact ⟨hlt, fun q hq => hlt.trans_le (List.rel_of_pairwise_cons h.tail.sorted hq)⟩

theorem beq_iff (h : InOrder os) (ho : o ∈ os) (hp : p ∈ os) :
    (o.time == p.time) = true ↔ count o.time = count p.time :=
  Double.beq_iff (h.defined o ho) (h.defined p hp)

/-- After joining, times are strictly increasing. -/
theorem increasing (h : InOrder os) : (joined os).Pairwise fun o p => o.time < p.time := by
  fun_induction joined os with
  | case1 => exact .nil
  | case2 => exact List.pairwise_singleton _ _
  | case3 o p rest hsame ih => exact ih h.followedBy
  | case4 o p rest hdiffers ih =>
    refine List.pairwise_cons.2 ⟨fun j hj => ?_, ih h.tail⟩
    obtain ⟨q, hq, htime⟩ := exists_time_eq_of_mem_joined hj
    rw [← htime, lt_iff (h.defined o (by simp)) (h.defined q (List.mem_cons_of_mem _ hq))]
    exact h.count_lt hdiffers q hq

/-- Every occurrence is joined into one at its time. -/
theorem exists_joined (h : InOrder os) (ho : o ∈ os) : ∃ j ∈ joined os, count j.time = count o.time := by
  fun_induction joined os generalizing o with
  | case1 => cases ho
  | case2 => exact ⟨o, ho, rfl⟩
  | case3 p q rest hsame ih =>
    have hcount : count p.time = count q.time := (h.beq_iff (by simp) (by simp)).1 hsame
    rcases List.mem_cons.1 ho with rfl | ho
    · exact ih (o := o.followedBy q) h.followedBy (by simp)
    rcases List.mem_cons.1 ho with rfl | ho
    · rw [← hcount]
      exact ih (o := p.followedBy o) h.followedBy (by simp)
    · exact ih h.followedBy (by simp [ho])
  | case4 p q rest hdiffers ih =>
    rcases List.mem_cons.1 ho with rfl | ho
    · exact ⟨o, by simp, rfl⟩
    · obtain ⟨j, hj, hcount⟩ := ih h.tail ho
      exact ⟨j, List.mem_cons_of_mem _ hj, hcount⟩

/-- The statements at a time are those of the occurrences at this time, one after the other. -/
theorem statements_eq (h : InOrder os) {j : Occurrence Float} (hj : j ∈ joined os) :
    j.statements = (os.filter fun o => o.time == j.time).flatMap statements := by
  fun_induction joined os with
  | case1 => cases hj
  | case2 last =>
    obtain rfl := List.mem_singleton.1 hj
    have hself : (j.time == j.time) = true := (h.beq_iff hj hj).2 rfl
    simp [hself]
  | case3 o p rest hsame ih =>
    have hboth : (o.time == j.time) = (p.time == j.time) := by
      have hmem : j ∈ joined (o :: p :: rest) := by rwa [joined, if_pos hsame]
      obtain ⟨q, hq, htime⟩ := exists_time_eq_of_mem_joined hmem
      rw [Bool.eq_iff_iff, ← htime, h.beq_iff (by simp) hq, h.beq_iff (by simp) hq,
        (h.beq_iff (by simp) (by simp)).1 hsame]
    rw [ih h.followedBy hj]
    simp only [List.filter_cons, Occurrence.followedBy, ← hboth]
    split <;> simp
  | case4 o p rest hdiffers ih =>
    have hlater := h.count_lt hdiffers
    rcases List.mem_cons.1 hj with rfl | hj
    · have hself : (j.time == j.time) = true := (h.beq_iff (by simp) (by simp)).2 rfl
      have hnone : (p :: rest).filter (fun q => q.time == j.time) = [] := by
        rw [List.filter_eq_nil_iff]
        intro q hq hsame
        have hcount := (h.beq_iff (List.mem_cons_of_mem _ hq) (by simp)).1 hsame
        have := hlater q hq
        omega
      simp [List.filter_cons_of_pos, hself, hnone]
    · obtain ⟨q, hq, htime⟩ := exists_time_eq_of_mem_joined hj
      have hnot : ¬(o.time == j.time) = true := by
        rw [← htime, h.beq_iff (by simp) (List.mem_cons_of_mem _ hq)]
        exact (hlater q hq).ne
      rw [List.filter_cons, if_neg hnot, ih h.tail hj]

end InOrder

/-- The order of representations, in which timelines are sorted. -/
def before (o p : Occurrence Float) : Bool := Scalar.precedes o.time p.time

theorem before_trans (o p q : Occurrence Float) (hop : before o p = true) (hpq : before p q = true) :
    before o q = true :=
  precedes_trans hop hpq

theorem before_total (o p : Occurrence Float) : (before o p || before p o) = true := precedes_total _ _

theorem inOrder_mergeSort {os : List (Occurrence Float)} (h : ∀ o ∈ os, Scalar.isUndefined o.time = false) :
    InOrder (os.mergeSort before) := by
  have hdefined : ∀ o ∈ os.mergeSort before, Scalar.isUndefined o.time = false :=
    fun o ho => h o (List.mem_mergeSort.1 ho)
  refine ⟨hdefined, (List.pairwise_mergeSort before_trans before_total os).imp_of_mem fun ho hp hbefore => ?_⟩
  exact count_le_of_precedes (hdefined _ ho) (hdefined _ hp) hbefore

/-- What the order does not tell apart stays in its place. -/
theorem filter_mergeSort {os : List (Occurrence Float)} {c : Occurrence Float → Bool}
    (h : ∀ o p, c o = true → c p = true → before o p = true) : (os.mergeSort before).filter c = os.filter c := by
  have hpairwise : (os.filter c).Pairwise fun o p => before o p = true :=
    List.pairwise_of_forall_mem_list fun o ho p hp => h o p (List.of_mem_filter ho) (List.of_mem_filter hp)
  have hsublist := (List.sublist_mergeSort before_trans before_total hpairwise List.filter_sublist).filter c
  rw [List.filter_filter, funext fun o => Bool.and_self (c o)] at hsublist
  exact (hsublist.eq_of_length ((List.mergeSort_perm os before).filter c).length_eq.symm).symm

end Order

end Occurrence

/-- The events at some times are what the occurrences given for these times say, one after the other. -/
structure InSequence (given : List (Occurrence Float)) (times : List Float) (events : List (Event Float)) : Prop where
  increasing : times.Pairwise (· < ·)
  length_eq : events.length = times.length
  given_time : ∀ t ∈ times, ∃ o ∈ given, o.time = t
  every_time : ∀ o ∈ given, ∃ t ∈ times, (o.time == t) = true
  /-- The occurrences at a time are taken in the order of its representations, of which the two zeros have one each,
  and those with one representation as they were given. -/
  statements : ∀ t event, (t, event) ∈ times.zip events →
    ∃ group : List (Occurrence Float), group.Perm (given.filter fun o => o.time == t) ∧
      group.Pairwise (fun o p => Scalar.precedes o.time p.time = true) ∧
      (∀ u, group.filter (fun o => Scalar.identical u o.time) =
        (given.filter fun o => o.time == t).filter fun o => Scalar.identical u o.time) ∧
      event = group.flatMap (·.statements)
  nothing_lost : events.flatten.Perm (given.flatMap (·.statements))

namespace Occurrence

open Double

theorem inSequence_joined {os : List (Occurrence Float)} (h : ∀ o ∈ os, Scalar.isUndefined o.time = false) :
    InSequence os ((joined (os.mergeSort before)).map time) ((joined (os.mergeSort before)).map statements) := by
  have horder := inOrder_mergeSort h
  have hperm := List.mergeSort_perm os before
  refine ⟨List.pairwise_map.2 horder.increasing, by rw [List.length_map, List.length_map], ?_, ?_, ?_, ?_⟩
  · intro t ht
    obtain ⟨j, hj, rfl⟩ := List.mem_map.1 ht
    obtain ⟨o, ho, htime⟩ := exists_time_eq_of_mem_joined hj
    exact ⟨o, List.mem_mergeSort.1 ho, htime⟩
  · intro o ho
    obtain ⟨j, hj, hcount⟩ := horder.exists_joined (List.mem_mergeSort.2 ho)
    obtain ⟨p, hp, htime⟩ := exists_time_eq_of_mem_joined hj
    refine ⟨j.time, List.mem_map_of_mem hj, ?_⟩
    rw [← htime, horder.beq_iff (List.mem_mergeSort.2 ho) hp, htime, hcount]
  · intro t event hmem
    obtain ⟨j, hj, rfl, rfl⟩ : ∃ j ∈ joined (os.mergeSort before), j.time = t ∧ j.statements = event := by
      rw [List.zip_map', List.mem_map] at hmem
      obtain ⟨j, hj, heq⟩ := hmem
      exact ⟨j, hj, Prod.mk.inj heq⟩
    refine ⟨(os.mergeSort before).filter fun o => o.time == j.time, hperm.filter _,
      (List.pairwise_mergeSort before_trans before_total os).filter _, fun u => ?_, horder.statements_eq hj⟩
    rw [List.filter_filter, List.filter_filter]
    refine filter_mergeSort fun o p ho hp => ?_
    have hidentical {v : Float} (hv : Scalar.identical u v = true) : u = v := RepresentedScalar.eq_of_identical u v hv
    simp only [Bool.and_eq_true] at ho hp
    rw [before, ← hidentical ho.1, ← hidentical hp.1]
    exact decide_eq_true le_rfl
  · rw [← List.flatMap_def, flatMap_statements_joined]
    exact hperm.flatMap_right _

end Occurrence

namespace Plan

open Occurrence

/-- An event of a plan has finite times that are not negative, and a text that can be read by itself once macros are
replaced. -/
structure Reads (plan : Plan Float) (event : EventTime Float × String) (r : Reading Float) : Prop where
  times : plan.times event.1 = .ok r.times
  proper : ∀ t ∈ r.times, Scalar.isFinite t = true ∧ 0 ≤ t
  text : plan.expanded event.2 = .ok r.text
  statements : parseEvent r.text 0 plan.constants = .ok r.statements

variable {plan : Plan Float} {readings : List (Reading Float)}

theorem occurrences_eq (h : List.Forall₂ plan.Reads plan.events readings) :
    plan.occurrences = .ok ((readings.flatMap Reading.occurrences).map timed) := by
  have hparts : plan.events.mapM (fun (time, text) => do
      let text ← plan.expanded text
      return (← plan.times time).map fun t => (t, text)) =
      .ok (readings.map fun r => r.occurrences.map timed) := by
    rw [mapM_eq_ok_iff, List.forall₂_map_right_iff]
    refine h.imp fun event r hr => ?_
    simp only [hr.text, hr.times, bind, Except.bind, pure, Except.pure, Reading.occurrences, List.map_map]
    rfl
  rw [occurrences, hparts, List.map_flatMap]
  rfl

theorem timeline_eq (h : List.Forall₂ plan.Reads plan.events readings) :
    plan.timeline = .ok ((joined ((readings.flatMap Reading.occurrences).mergeSort before)).map timed) := by
  have hsort := List.map_mergeSort (r := before) (s := fun a b : Float × String => Scalar.precedes a.1 b.1) (f := timed)
    (l := readings.flatMap Reading.occurrences) fun _ _ _ _ => rfl
  rw [timeline, occurrences_eq h, ← joinTexts_timed, hsort]
  rfl

theorem parseAll_eq_ok {os : List (Occurrence Float)} (h : ∀ o ∈ os, o.Parsed plan.constants) :
    plan.parseAll (os.map (·.text)) = .ok (os.map statements) := by
  have hfrom (k : Nat) : List.Forall₂ (fun (p : String × Nat) ss => parseEvent p.1 p.2 plan.constants = .ok ss)
      ((os.map (·.text)).zipIdx k) (os.map statements) := by
    induction os generalizing k with
    | nil => exact .nil
    | cons o os ih =>
      rw [List.forall_mem_cons] at h
      exact .cons (parseEvent_eq_ok_of_any 0 k h.1) (ih h.2 (k + 1))
  exact mapM_eq_ok_iff.2 (hfrom 0)

/-- Events that share a time are their scripts in sequence: where every event of a plan has finite times that are not
negative and a text that can be read, building parses one event per time, the times are strictly increasing, and the
statements at a time are those of all texts given for it, each read on its own. -/
theorem shared_times_run_in_sequence (h : List.Forall₂ plan.Reads plan.events readings) :
    ∃ timeline events, plan.timeline = .ok timeline ∧ plan.parseAll (timeline.map (·.2)) = .ok events ∧
      InSequence (readings.flatMap Reading.occurrences) (timeline.map (·.1)) events ∧
      ∀ payoff, plan.payoff = some payoff →
        plan.build = analyse plan.fuzzy events >>= assembled plan.fuzzy payoff (timeline.map (·.1)) := by
  have hreading : ∀ o ∈ readings.flatMap Reading.occurrences,
      Scalar.isUndefined o.time = false ∧ o.Parsed plan.constants := by
    intro o ho
    obtain ⟨r, hr, ho⟩ := List.mem_flatMap.1 ho
    obtain ⟨t, ht, rfl⟩ := List.mem_map.1 ho
    obtain ⟨event, -, hreads⟩ := exists_left_of_forall₂ h hr
    exact ⟨Double.defined_of_isFinite (hreads.proper t ht).1, hreads.statements⟩
  have hparsed : ∀ o ∈ joined ((readings.flatMap Reading.occurrences).mergeSort before), o.Parsed plan.constants :=
    parsed_joined fun o ho => (hreading o (List.mem_mergeSort.1 ho)).2
  have hsequence := inSequence_joined fun o ho => (hreading o ho).1
  have hevents := parseAll_eq_ok hparsed
  generalize hjoined : joined ((readings.flatMap Reading.occurrences).mergeSort before) = os at hsequence hevents
  have htimeline : plan.timeline = .ok (os.map timed) := hjoined ▸ timeline_eq h
  have htexts : (os.map timed).map (·.2) = os.map (·.text) := List.map_map
  have htimes : (os.map timed).map (·.1) = os.map time := List.map_map
  refine ⟨os.map timed, os.map statements, htimeline, htexts ▸ hevents, htimes ▸ hsequence, fun payoff hpayoff => ?_⟩
  have hbuild : plan.build = _ := build_eq plan plan.fuzzy
  rw [hbuild, hpayoff, htimeline]
  simp only [liftError, bind, Except.bind, htexts, hevents]

theorem reads_years {t : Float} (hfinite : Scalar.isFinite t = true) (ht : 0 ≤ t) {source text : String}
    {statements : Event Float} (htext : plan.expanded source = .ok text)
    (hstatements : parseEvent text 0 plan.constants = .ok statements) :
    plan.Reads (.years t, source) ⟨[t], text, statements⟩ where
  times := by simp only [times, hfinite, ge_iff_le, ht, decide_true, Bool.and_self, if_true]
  proper := by simp [hfinite, ht]
  text := htext
  statements := hstatements

section Scattered

/-- Three texts at zero, which has two representations, and before them one at a later time. -/
def scattered : Plan Float :=
  ⟨[(.years 1, "z = y"), (.years 0, "x = spot()"), (.years (-0), "y = x"), (.years 0, "y = y")],
    none, [], [], some "Z", false⟩

def taking (target source : String) : Statement Float :=
  .assign ⟨target, Variable.unassigned⟩ (.read none ⟨source, Variable.unassigned⟩)

def scatteredReadings : List (Reading Float) :=
  [⟨[1], "Z = Y", [taking "Z" "Y"]⟩,
    ⟨[0], "X = SPOT()", [.assign ⟨"X", Variable.unassigned⟩ .spot]⟩,
    ⟨[-0], "Y = X", [taking "Y" "X"]⟩, ⟨[0], "Y = Y", [taking "Y" "Y"]⟩]

theorem reads_scattered : List.Forall₂ scattered.Reads scattered.events scatteredReadings :=
  .cons (reads_years (by decide) (by decide) (by cbv) (by cbv))
    (.cons (reads_years (by decide) (by decide) (by cbv) (by cbv))
      (.cons (reads_years (by decide) (by decide) (by cbv) (by cbv))
        (.cons (reads_years (by decide) (by decide) (by cbv) (by cbv)) .nil)))

theorem shared_times_run_in_sequence_scattered :
    List.Forall₂ scattered.Reads scattered.events scatteredReadings ∧
      ∃ timeline events, scattered.timeline = .ok timeline ∧ scattered.parseAll (timeline.map (·.2)) = .ok events ∧
        InSequence (scatteredReadings.flatMap Reading.occurrences) (timeline.map (·.1)) events ∧
        ∀ payoff, scattered.payoff = some payoff →
          scattered.build = analyse scattered.fuzzy events >>= assembled scattered.fuzzy payoff (timeline.map (·.1)) :=
  ⟨reads_scattered, shared_times_run_in_sequence reads_scattered⟩

end Scattered

end Plan

end PayoffPricing
