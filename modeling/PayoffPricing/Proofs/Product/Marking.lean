import PayoffPricing.Proofs.Product.Blending
import PayoffPricing.Proofs.Product.Levels
import PayoffPricing.Proofs.Script.Footprint
/-!
What marking finds out. Every conditional statement notes the slots that are written somewhere in its branches, no
others change when it is evaluated, and the greatest nesting bounds the levels that smoothed runs use.
-/

namespace PayoffPricing.Script

namespace Statement

variable {R : Type} {i : Nat}

/-- The statement itself writes the slot. -/
def Sets (i : Nat) : Statement R → Prop
  | assign v _ => v.slot = i
  | pays v _ => v.slot = i
  | branch _ _ _ _ => False
  | sequence _ => False

theorem Occurs.mono {s : Statement R} {block more : List (Statement R)} (h : s.Occurs block)
    (hm : ∀ t ∈ block, t ∈ more) : s.Occurs more := by
  cases h with
  | here h => exact .here (hm _ h)
  | body h ho => exact .body (hm _ h) ho
  | otherwise h ho => exact .otherwise (hm _ h) ho
  | sequence h ho => exact .sequence (hm _ h) ho

theorem mem_blockWrites_of_mem {s : Statement R} {block : List (Statement R)} (hs : s ∈ block) (hi : i ∈ s.writes) :
    i ∈ blockWrites block := by
  induction block with
  | nil => cases hs
  | cons t rest ih =>
    rcases List.mem_cons.1 hs with rfl | hs
    · exact List.mem_append_left _ hi
    · exact List.mem_append_right _ (ih hs)

theorem Occurs.mem_blockWrites {s : Statement R} {block : List (Statement R)} (h : s.Occurs block) (hs : s.Sets i) :
    i ∈ blockWrites block := by
  induction h with
  | @here block h =>
    refine mem_blockWrites_of_mem h ?_
    cases s with
    | assign | pays => exact List.mem_singleton.2 hs.symm
    | branch | sequence => exact hs.elim
  | body h _ ih => exact mem_blockWrites_of_mem h (List.mem_append_left _ ih)
  | otherwise h _ ih => exact mem_blockWrites_of_mem h (List.mem_append_right _ ih)
  | sequence h _ ih => exact mem_blockWrites_of_mem h ih

mutual

theorem exists_of_mem_writes : (s : Statement R) → i ∈ s.writes → ∃ t : Statement R, t.Occurs [s] ∧ t.Sets i
  | assign v e, h => ⟨assign v e, .here (List.mem_singleton_self _), (List.mem_singleton.1 h).symm⟩
  | pays v e, h => ⟨pays v e, .here (List.mem_singleton_self _), (List.mem_singleton.1 h).symm⟩
  | branch c body otherwise affected, h => by
    rcases List.mem_append.1 h with h | h
    · obtain ⟨t, ht, hset⟩ := exists_of_mem_blockWrites body h
      exact ⟨t, .body (List.mem_singleton_self _) ht, hset⟩
    · obtain ⟨t, ht, hset⟩ := exists_of_mem_blockWrites otherwise h
      exact ⟨t, .otherwise (List.mem_singleton_self _) ht, hset⟩
  | sequence body, h => by
    obtain ⟨t, ht, hset⟩ := exists_of_mem_blockWrites body h
    exact ⟨t, .sequence (List.mem_singleton_self _) ht, hset⟩

theorem exists_of_mem_blockWrites : (block : List (Statement R)) → i ∈ blockWrites block →
    ∃ t : Statement R, t.Occurs block ∧ t.Sets i
  | [], h => absurd h List.not_mem_nil
  | s :: rest, h => by
    rcases List.mem_append.1 h with h | h
    · obtain ⟨t, ht, hset⟩ := exists_of_mem_writes s h
      exact ⟨t, ht.mono fun u hu => List.mem_singleton.1 hu ▸ List.mem_cons_self, hset⟩
    · obtain ⟨t, ht, hset⟩ := exists_of_mem_blockWrites rest h
      exact ⟨t, ht.mono fun u hu => List.mem_cons_of_mem _ hu, hset⟩

end

/-- What a block may write is what some statement in it writes, at whatever depth. -/
theorem mem_blockWrites_iff {block : List (Statement R)} :
    i ∈ blockWrites block ↔ ∃ t : Statement R, t.Occurs block ∧ t.Sets i :=
  ⟨exists_of_mem_blockWrites block, fun ⟨_, ht, hset⟩ => ht.mem_blockWrites hset⟩

theorem markAffectedBlock_eq_map (block : List (Statement R)) : markAffectedBlock block = block.map markAffected := by
  induction block with
  | nil => rfl
  | cons s rest ih => rw [markAffectedBlock, ih, List.map_cons]

theorem exists_of_occurs {t : Statement R} {block marked : List (Statement R)} (h : t.Occurs marked)
    (hmarked : marked = markAffectedBlock block) : ∃ s : Statement R, s.Occurs block ∧ t = s.markAffected := by
  have hback : ∀ {u : Statement R} {marked block : List (Statement R)}, u ∈ marked → marked = markAffectedBlock block →
      ∃ s ∈ block, s.markAffected = u := by
    rintro u _ block hu rfl
    rw [markAffectedBlock_eq_map] at hu
    exact List.mem_map.1 hu
  induction h generalizing block with
  | here h =>
    obtain ⟨s, hs, rfl⟩ := hback h hmarked
    exact ⟨s, .here hs, rfl⟩
  | body h _ ih =>
    obtain ⟨s, hs, hbranch⟩ := hback h hmarked
    cases s with
    | branch c body otherwise affected =>
      cases hbranch
      obtain ⟨s, ho, rfl⟩ := ih rfl
      exact ⟨s, .body hs ho, rfl⟩
    | assign | pays | sequence => cases hbranch
  | otherwise h _ ih =>
    obtain ⟨s, hs, hbranch⟩ := hback h hmarked
    cases s with
    | branch c body otherwise affected =>
      cases hbranch
      obtain ⟨s, ho, rfl⟩ := ih rfl
      exact ⟨s, .otherwise hs ho, rfl⟩
    | assign | pays | sequence => cases hbranch
  | sequence h _ ih =>
    obtain ⟨s, hs, hsequence⟩ := hback h hmarked
    cases s with
    | sequence body =>
      cases hsequence
      obtain ⟨s, ho, rfl⟩ := ih rfl
      exact ⟨s, .sequence hs ho, rfl⟩
    | assign | pays | branch => cases hsequence

mutual

/-- Marks a statement that stands in `depth` conditional ones. The same pass yields the slots that the statement writes
and the greatest nesting so far. -/
def pass (depth : Nat) : Statement R → Nat → Statement R × List Nat × Nat
  | assign v e, deepest => (assign v e, [v.slot], deepest)
  | pays v e, deepest => (pays v e, [v.slot], deepest)
  | branch c body otherwise _, deepest =>
    let (body, first, deepest) := passBlock (depth + 1) body (max deepest (depth + 1))
    let (otherwise, second, deepest) := passBlock (depth + 1) otherwise deepest
    let affected := slotSet (first ++ second)
    (branch c body otherwise affected, affected, deepest)
  | sequence body, deepest =>
    let (body, written, deepest) := passBlock depth body deepest
    (sequence body, written, deepest)

def passBlock (depth : Nat) : List (Statement R) → Nat → List (Statement R) × List Nat × Nat
  | [], deepest => ([], [], deepest)
  | s :: rest, deepest =>
    let (s, first, deepest) := s.pass depth deepest
    let (rest, second, deepest) := passBlock depth rest deepest
    (s :: rest, first ++ second, deepest)

end

theorem slotSet_congr {slots others : List Nat} (h : ∀ i, i ∈ slots ↔ i ∈ others) : slotSet slots = slotSet others :=
  (pairwise_slotSet slots).eq_of_mem_iff (pairwise_slotSet others) fun i => by rw [mem_slotSet, mem_slotSet, h]

mutual

theorem pass_eq : (s : Statement R) → {depth deepest : Nat} → depth ≤ deepest → ∃ written,
    s.pass depth deepest = (s.markAffected, written, max deepest (depth + s.nesting)) ∧ ∀ i, i ∈ written ↔ i ∈ s.writes
  | assign v e, depth, deepest, h => by
    refine ⟨[v.slot], ?_, fun _ => Iff.rfl⟩
    rw [pass, nesting, Nat.add_zero, Nat.max_eq_left h, markAffected]
  | pays v e, depth, deepest, h => by
    refine ⟨[v.slot], ?_, fun _ => Iff.rfl⟩
    rw [pass, nesting, Nat.add_zero, Nat.max_eq_left h, markAffected]
  | branch c body otherwise affected, depth, deepest, h => by
    obtain ⟨first, hbody, hfirst⟩ := passBlock_eq body (le_max_right deepest (depth + 1))
    have hle : depth + 1 ≤ max (max deepest (depth + 1)) (depth + 1 + blockNesting body) :=
      le_max_of_le_left (le_max_right _ _)
    obtain ⟨second, hother, hsecond⟩ := passBlock_eq otherwise hle
    have hmem : ∀ i, i ∈ first ++ second ↔ i ∈ blockWrites body ++ blockWrites otherwise := by
      intro i
      rw [List.mem_append, List.mem_append, hfirst, hsecond]
    refine ⟨slotSet (first ++ second), ?_, fun i => ?_⟩
    · have hdepth : max (max (max deepest (depth + 1)) (depth + 1 + blockNesting body))
          (depth + 1 + blockNesting otherwise) =
            max deepest (depth + (max (blockNesting body) (blockNesting otherwise) + 1)) := by
        omega
      simp only [pass, hbody, hother, markAffected, nesting, slotSet_congr hmem, hdepth]
    · rw [mem_slotSet, hmem, writes]
  | sequence body, depth, deepest, h => by
    obtain ⟨written, hbody, hwritten⟩ := passBlock_eq body h
    exact ⟨written, by simp only [pass, hbody, markAffected, nesting], hwritten⟩

theorem passBlock_eq : (block : List (Statement R)) → {depth deepest : Nat} → depth ≤ deepest → ∃ written,
    passBlock depth block deepest = (markAffectedBlock block, written, max deepest (depth + blockNesting block)) ∧
      ∀ i, i ∈ written ↔ i ∈ blockWrites block
  | [], depth, deepest, h => by
    refine ⟨[], ?_, fun _ => Iff.rfl⟩
    rw [passBlock, blockNesting, Nat.add_zero, Nat.max_eq_left h, markAffectedBlock]
  | s :: rest, depth, deepest, h => by
    obtain ⟨first, hs, hfirst⟩ := pass_eq s h
    obtain ⟨second, hrest, hsecond⟩ := passBlock_eq rest (le_max_of_le_left h : depth ≤ max deepest (depth + s.nesting))
    have hdepth : max (max deepest (depth + s.nesting)) (depth + blockNesting rest) =
        max deepest (depth + max s.nesting (blockNesting rest)) := by
      omega
    refine ⟨first ++ second, ?_, fun i => ?_⟩
    · simp only [passBlock, hs, hrest, markAffectedBlock, blockNesting, hdepth]
    · rw [List.mem_append, hfirst, hsecond, blockWrites, List.mem_append]

end

mutual

/-- A statement without what it notes. -/
def unnoted : Statement R → Statement R
  | assign v e => assign v e
  | pays v e => pays v e
  | branch c body otherwise _ => branch c (unnotedBlock body) (unnotedBlock otherwise) []
  | sequence body => sequence (unnotedBlock body)

def unnotedBlock : List (Statement R) → List (Statement R)
  | [] => []
  | s :: rest => s.unnoted :: unnotedBlock rest

end

mutual

theorem unnoted_markAffected : (s : Statement R) → s.markAffected.unnoted = s.unnoted
  | assign _ _ => rfl
  | pays _ _ => rfl
  | branch _ body otherwise _ => by
    simp only [markAffected, unnoted, unnotedBlock_markAffectedBlock body, unnotedBlock_markAffectedBlock otherwise]
  | sequence body => by simp only [markAffected, unnoted, unnotedBlock_markAffectedBlock body]

theorem unnotedBlock_markAffectedBlock : (block : List (Statement R)) →
    unnotedBlock (markAffectedBlock block) = unnotedBlock block
  | [] => rfl
  | s :: rest => by
    simp only [markAffectedBlock, unnotedBlock, unnoted_markAffected s, unnotedBlock_markAffectedBlock rest]

end

end Statement

/-- One pass over the events, each from the depth zero. -/
def passEvents {R : Type} : List (Event R) → Nat → List (Event R) × Nat
  | [], deepest => ([], deepest)
  | event :: rest, deepest =>
    let (event, _, deepest) := Statement.passBlock 0 event deepest
    let (rest, deepest) := passEvents rest deepest
    (event :: rest, deepest)

theorem passEvents_eq {R : Type} (events : List (Event R)) (deepest : Nat) :
    passEvents events deepest = ((markAffected events).1, (events.map Statement.blockNesting).foldl max deepest) := by
  induction events generalizing deepest with
  | nil => rfl
  | cons event events ih =>
    obtain ⟨written, hevent, -⟩ := Statement.passBlock_eq event (Nat.zero_le deepest)
    simp only [passEvents, hevent, ih, markAffected, List.map_cons, List.foldl_cons, Nat.zero_add]

section Marked

variable {R : Type} {events : List (Event R)}

/-- However the statement is evaluated, from wherever and to whatever ending, all variables but these keep their values,
and in the inference of domains their domains. -/
structure Statement.SparesOthers (S T : Type) [Scalar R] [Quantity R S T] (slots : List Nat) (s : Statement R) :
    Prop where
  exact : ∀ sample : Sample T, Process.Touches id slots (run sample s : Process R S (Variables T) Unit)
  fuzzy : ∀ (width : R) (sample : Sample T),
    Process.Touches Fuzzy.State.values slots (Fuzzy.run width sample s : Process R S (Fuzzy.State T) Unit)
  compiled : ∀ [FaithfulScalar R] [FaithfulQuantity R S T] (sample : Sample T), blockHasArities [s] = true →
    Process.Touches Machine.values slots (Machine.run (Program.ofEvent [s]) sample : Process R S (Machine T) Unit)
  inferred : ∀ smoothed, Domains.Touches slots (s.infer smoothed)

theorem Statement.sparesOthers (S T : Type) [Scalar R] [Quantity R S T] {slots : List Nat} {s : Statement R}
    (h : s.Confined slots) : s.SparesOthers S T slots where
  exact _ := touches_run s h
  fuzzy _ _ := Fuzzy.touches_run s h
  compiled _ harities := Machine.touches_run harities ⟨h, trivial⟩
  inferred _ := touches_infer s h

/-- A conditional statement of marked events notes in increasing order exactly the slots that a statement in its
branches writes, and no evaluation of it changes others. -/
theorem affected_of_occurs {S T : Type} [Scalar R] [Quantity R S T] {event : Event R}
    (he : event ∈ (markAffected events).1) {c : Cond R} {body otherwise : List (Statement R)} {affected : List Nat}
    (h : (Statement.branch c body otherwise affected).Occurs event) :
    affected.Pairwise (· < ·) ∧
      (∀ i, i ∈ affected ↔ ∃ s : Statement R, (s.Occurs body ∨ s.Occurs otherwise) ∧ s.Sets i) ∧
      (Statement.branch c body otherwise affected).SparesOthers S T affected := by
  obtain ⟨source, -, rfl⟩ := List.mem_map.1 he
  obtain ⟨s, -, hs⟩ := Statement.exists_of_occurs h rfl
  cases s with
  | assign | pays | sequence => cases hs
  | branch _ first second _ =>
    cases hs
    have hmem : ∀ i, i ∈ slotSet (Statement.blockWrites first ++ Statement.blockWrites second) ↔
        i ∈ Statement.blockWrites first ∨ i ∈ Statement.blockWrites second := by
      intro i
      rw [mem_slotSet, List.mem_append]
    refine ⟨pairwise_slotSet _, fun i => ?_, Statement.sparesOthers S T ?_⟩
    · rw [hmem, ← Statement.blockWrites_markAffected first, ← Statement.blockWrites_markAffected second,
        Statement.mem_blockWrites_iff, Statement.mem_blockWrites_iff]
      simp only [or_and_right, exists_or]
    · exact Statement.confined_markAffected (.branch c first second []) fun i hi => mem_slotSet.2 hi

end Marked

variable {R S T : Type} [Scalar R] [Quantity R S T]

/-- One pass marks the events, and it changes nothing else in them. Afterwards every conditional statement, at any depth
and in any sequence, notes in increasing order exactly the slots that statements in its branches write, and no
evaluation of it changes another slot. Smoothed runs of the marked events set values aside at no level beyond the
greatest nesting, so that they add none to as many levels. -/
theorem markAffected_is_exact (events : List (Event R)) :
    (markAffected events).1.map Statement.unnotedBlock = events.map Statement.unnotedBlock ∧
    passEvents events 0 = markAffected events ∧
    (∀ event ∈ (markAffected events).1, ∀ (c : Cond R) (body otherwise : List (Statement R)) (affected : List Nat),
      (Statement.branch c body otherwise affected).Occurs event →
        affected.Pairwise (· < ·) ∧
        (∀ i, i ∈ affected ↔ ∃ s : Statement R, (s.Occurs body ∨ s.Occurs otherwise) ∧ s.Sets i) ∧
        (Statement.branch c body otherwise affected).SparesOthers S T affected) ∧
    ∀ (width : R) (scenario : Scenario T),
      Fuzzy.Within (markAffected events).2 0 0
        (Evaluator.runEvents (fun event sample => Fuzzy.runBlock width sample event) (markAffected events).1 scenario :
          Process R S (Fuzzy.State T) Unit) ∧
      ∀ (s : Fuzzy.State T) (r : S), s.depth = 0 → (markAffected events).2 ≤ s.levels.size →
        ((Evaluator.runEvents (fun event sample => Fuzzy.runBlock width sample event) (markAffected events).1 scenario :
          Process R S (Fuzzy.State T) Unit).exec s r).1.2.levels.size = s.levels.size := by
  refine ⟨?_, passEvents_eq events 0, fun event he c body otherwise affected h => affected_of_occurs he h, ?_⟩
  · rw [markAffected, List.map_map]
    exact List.map_congr_left fun event _ => Statement.unnotedBlock_markAffectedBlock event
  · intro width scenario
    have hnesting : ∀ event ∈ (markAffected events).1, Statement.blockNesting event ≤ (markAffected events).2 :=
      fun event he => blockNesting_le he
    exact ⟨Fuzzy.within_runEvents hnesting scenario, Fuzzy.levels_runEvents hnesting scenario⟩

section Nested

variable {R : Type}

/-- A conditional statement that writes one of two variables. -/
def eitherOr (c : Cond R) (x : R) (affected : List Nat) : Statement R :=
  .branch c [.pays ⟨"Z", 1⟩ (.literal x)] [.assign ⟨"Y", 2⟩ (.literal x)] affected

/-- It stands in a branch of another conditional statement, after which a fourth variable is written. -/
def nestedEvent (c : Cond R) (x : R) (inner outer : List Nat) : Event R :=
  [.branch c [.assign ⟨"X", 0⟩ (.literal x), eitherOr c x inner] [.assign ⟨"X", 0⟩ (.literal x)] outer,
    .assign ⟨"W", 3⟩ (.literal x)]

/-- The inner statement notes two slots and the outer one three, and two levels are enough for both. -/
theorem markAffected_is_exact_nested :
    passEvents [nestedEvent (.compare none (.new .above .spot none)) (1 : ℝ) [] []] 0 =
        ([nestedEvent (.compare none (.new .above .spot none)) 1 [1, 2] [0, 1, 2]], 2) ∧
      (eitherOr (.compare none (.new .above .spot none)) (1 : ℝ) [1, 2]).SparesOthers Unit ℝ [1, 2] ∧
      ∀ sample : Sample ℝ, ((Evaluator.runEvents (fun event sample => Fuzzy.runBlock 1 sample event)
        [nestedEvent (.compare none (.new .above .spot none)) (1 : ℝ) [1, 2] [0, 1, 2]] #[sample] :
          Process ℝ Unit (Fuzzy.State ℝ) Unit).exec ⟨#[0, 0, 0, 0], Array.replicate 2 ⟨[], []⟩, 0⟩ ()).1.2.levels.size =
        2 := by
  obtain ⟨-, hpass, hnoted, hlevels⟩ := markAffected_is_exact (S := Unit) (T := ℝ)
    [nestedEvent (.compare none (.new .above .spot none)) (1 : ℝ) [] []]
  refine ⟨hpass, ?_, fun sample => ?_⟩
  · have hinner : (eitherOr (.compare none (.new .above .spot none)) (1 : ℝ) [1, 2]).Occurs
        (nestedEvent (.compare none (.new .above .spot none)) 1 [1, 2] [0, 1, 2]) :=
      .body List.mem_cons_self (.here (List.mem_cons_of_mem _ List.mem_cons_self))
    exact (hnoted _ List.mem_cons_self _ _ _ _ hinner).2.2
  · exact (hlevels 1 #[sample]).2 _ () rfl le_rfl

end Nested

end PayoffPricing.Script
