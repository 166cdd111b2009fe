import PayoffPricing.Product.Evaluator
import PayoffPricing.Proofs.Script.Effects
import PayoffPricing.Proofs.Script.Tables
/-!
Smoothed evaluation on copies. A conditional statement that holds to a degree strictly between zero and one gives
each of its branches a copy of the whole table, and mixes what the branches leave in the slots that they write.
Evaluation in place, which sets aside no more than the slots that it is noted to write, leaves the same.
-/

namespace PayoffPricing.Script

open Statement

variable {R S T : Type}

namespace Branching

variable [Scalar R] [Quantity R S T]

/-- What a slot holds after mixing: `d * x + rest * y` of what the branches leave there, when they write it. -/
def mixSlot (d rest : T) (written : List Nat) (first second : Variables T) (slot : Nat) (held : T) :
    Evaluation R S T :=
  if slot ∈ written then do
    let x ← Evaluation.record (Quantity.mul d (← first.fetch slot))
    let y ← Evaluation.record (Quantity.mul rest (← second.fetch slot))
    Evaluation.record (Quantity.add x y)
  else pure held

/-- The slots from `k` on, after mixing. -/
def mixFrom (d rest : T) (written : List Nat) (first second : Variables T) :
    Nat → List T → Evaluation R S (List T)
  | _, [] => pure []
  | k, x :: xs => do
    let mixed ← mixSlot d rest written first second k x
    return mixed :: (← mixFrom d rest written first second (k + 1) xs)

/-- The table with means in the slots that are written; in all others it holds what it held. -/
def mix (d : T) (written : List Nat) (values first second : Variables T) : Evaluation R S (Variables T) := do
  let rest ← Evaluation.record (Quantity.sub Quantity.one d)
  return (← mixFrom d rest written first second 0 values.toList).toArray

mutual

/-- The table that a statement leaves; comparisons are smoothed over windows of the given width. -/
def run (width : R) (sample : Sample T) : Statement R → Variables T → Evaluation R S (Variables T)
  | .assign v e, values => do
    let x ← e.eval values sample
    values.store v.slot x
  | .pays v e, values => do
    let paid ← e.eval values sample
    values.pay v.slot paid sample.numeraire
  | .branch c body otherwise _, values => do
    let d ← Fuzzy.degree width values sample c
    let v : R := Valued.value d
    if v > 1 - Fuzzy.cutoff then runBlock width sample body values
    else if v < Fuzzy.cutoff then runBlock width sample otherwise values
    else do
      let first ← runBlock width sample body values
      let second ← runBlock width sample otherwise values
      mix d (blockWrites body ++ blockWrites otherwise) values first second
  | .sequence body, values => runBlock width sample body values

def runBlock (width : R) (sample : Sample T) : List (Statement R) → Variables T → Evaluation R S (Variables T)
  | [], values => pure values
  | s :: rest, values => do runBlock width sample rest (← run width sample s values)

end

/-- The table that all events leave, each run on the sample of its time. -/
def runEvents (width : R) (events : List (Event R)) (scenario : Scenario T) (values : Variables T) :
    Evaluation R S (Variables T) :=
  (events.zip scenario.toList).foldlM (fun values (event, sample) => runBlock width sample event values) values

end Branching

variable [Scalar R] [Quantity R S T] {width : R} {sample : Sample T} {values first second : Variables T} {r : S}

/-- Mixes the slots of the entries with the values that come with them. -/
def Fuzzy.blendSlots (d rest : T) (entries : List (Nat × T)) (values : Variables T) :
    Evaluation R S (Variables T) :=
  entries.foldlM (fun values (slot, x) => do
    let first ← Evaluation.record (Quantity.mul d x)
    let second ← Evaluation.record (Quantity.mul rest (← values.fetch slot))
    values.store slot (← Evaluation.record (Quantity.add first second))) values

theorem Fuzzy.blend_eq (d : T) (affected : List Nat) (after : List T) (values : Variables T) :
    (Fuzzy.blend d affected after values : Evaluation R S (Variables T)) =
      (do Fuzzy.blendSlots d (← Evaluation.record (Quantity.sub Quantity.one d)) (affected.zip after) values) := rfl

namespace Branching

section Mixing

variable {d rest : T} {written slots : List Nat} {xs : List T}

omit [Scalar R] in
theorem exec_mixFrom_eq_ok {k : Nat} {held mixed : List T} {r' : S}
    (h : (mixFrom d rest written first second k held : Evaluation R S (List T)).exec r = (.ok mixed, r')) :
    mixed.length = held.length ∧ ∀ j, k + j ∉ written → mixed[j]? = held[j]? := by
  induction held generalizing k mixed r with
  | nil =>
    cases h
    exact ⟨rfl, fun _ _ => rfl⟩
  | cons v held ih =>
    simp only [mixFrom, Evaluation.exec_bind] at h
    generalize hx : (mixSlot d rest written first second k v).exec r = one at h
    obtain ⟨_ | x, r₁⟩ := one
    · cases h
    simp only at h
    generalize hm : (mixFrom d rest written first second (k + 1) held).exec r₁ = others at h
    obtain ⟨_ | others, r₂⟩ := others
    · cases h
    cases h
    obtain ⟨hlen, hget⟩ := ih hm
    refine ⟨congrArg (· + 1) hlen, fun j hj => ?_⟩
    cases j with
    | zero =>
      rw [mixSlot, if_neg (by simpa using hj)] at hx
      cases hx
      rfl
    | succ j => exact hget j (by rwa [Nat.add_right_comm, Nat.add_assoc])

theorem sameOff_mix {after : Variables T} {r' : S}
    (h : (mix d written values first second : Evaluation R S (Variables T)).exec r = (.ok after, r')) :
    Variables.SameOff written after values := by
  simp only [mix, Evaluation.exec_bind, Evaluation.exec_record] at h
  generalize hm : (mixFrom (R := R) (S := S) d _ written first second 0 values.toList).exec _ = mixed at h
  obtain ⟨_ | mixed, r₁⟩ := mixed
  · cases h
  cases h
  obtain ⟨hlen, hget⟩ := exec_mixFrom_eq_ok hm
  refine ⟨by simpa using hlen, fun i hi => ?_⟩
  simpa using hget i (by simpa using hi)

omit [Scalar R] in
/-- Mixing in place, slot by slot, over what the second branch leaves. -/
theorem exec_blendSlots (done held left : List T) (hold : first.Holds slots xs)
    (horder : slots.Pairwise (· < ·)) (hslots : ∀ i ∈ slots, done.length ≤ i ∧ i < done.length + held.length)
    (hlen : held.length = left.length) (hleft : ∀ j, done.length + j ∉ slots → held[j]? = left[j]?)
    (hsecond : ∀ j, second[done.length + j]? = left[j]?)
    (hwritten : ∀ i, done.length ≤ i → (i ∈ slots ↔ i ∈ written)) :
    (Fuzzy.blendSlots d rest (slots.zip xs) (done ++ left).toArray : Evaluation R S (Variables T)).exec r =
      (do return (done ++ (← mixFrom d rest written first second done.length held)).toArray :
        Evaluation R S (Variables T)).exec r := by
  induction held generalizing done left slots xs r with
  | nil =>
    obtain rfl := List.length_eq_zero_iff.1 hlen.symm
    have hnil : slots = [] := by
      refine List.eq_nil_iff_forall_not_mem.2 fun i hi => ?_
      have := hslots i hi
      simp at this
      omega
    subst hnil
    rfl
  | cons v held ih =>
    obtain ⟨w, left, rfl⟩ : ∃ w ws, left = w :: ws := List.exists_cons_of_length_pos (by simp [← hlen])
    have hw : second[done.length]? = some w := by simpa using hsecond 0
    have htail : held.length = left.length := by simpa using hlen
    have hnext (z : T) : (done ++ [z]).length = done.length + 1 := by simp
    have hshift (j : Nat) : done.length + 1 + j = done.length + (j + 1) := by omega
    have hbehind (z : T) (j : Nat) : second[(done ++ [z]).length + j]? = left[j]? := by
      rw [hnext, hshift]
      simpa using hsecond (j + 1)
    by_cases hk : done.length ∈ slots
    · obtain ⟨slots, rfl⟩ : ∃ rest, slots = done.length :: rest := by
        cases slots with
        | nil => simp at hk
        | cons n slots =>
          refine ⟨slots, congrArg (· :: slots) ?_⟩
          rcases List.mem_cons.1 hk with h | h
          · exact h.symm
          · have hlt := (List.pairwise_cons.1 horder).1 _ h
            have hle := (hslots n List.mem_cons_self).1
            omega
      cases hold with
      | @cons _ x _ xs hx hold =>
        rw [List.pairwise_cons] at horder
        have hrest (z : T) (r : S) := ih (r := r) (done ++ [z]) left hold horder.2
          (fun i hi => by
            have hlt := horder.1 i hi
            have hlast := (hslots i (List.mem_cons_of_mem _ hi)).2
            simp only [hnext, List.length_cons] at hlast ⊢
            omega)
          htail
          (fun j hj => by
            have h := hleft (j + 1) fun h => hj (by
              rw [hnext, hshift]
              refine (List.mem_cons.1 h).resolve_left (by omega))
            simpa using h)
          (hbehind z)
          (fun i hi => by
            rw [hnext] at hi
            rw [← hwritten i (by omega), List.mem_cons]
            refine ⟨.inr, fun h => h.resolve_left (by omega)⟩)
        have hmem : done.length ∈ written := (hwritten _ (Nat.le_refl _)).1 List.mem_cons_self
        simp only [hnext, Fuzzy.blendSlots, List.append_assoc, List.singleton_append, Evaluation.exec_bind,
          Evaluation.exec_pure] at hrest
        simp [Fuzzy.blendSlots, mixFrom, mixSlot, hmem, hx, hw, hrest]
    · have hv : v = w := by simpa using hleft 0 hk
      subst hv
      have hnot : done.length ∉ written := fun h => hk ((hwritten _ (Nat.le_refl _)).2 h)
      have hrest := ih (r := r) (done ++ [v]) left hold horder
        (fun i hi => by
          have hle := hslots i hi
          have hne : i ≠ done.length := fun h => hk (h ▸ hi)
          simp only [hnext, List.length_cons] at hle ⊢
          omega)
        htail (fun j hj => by simpa using hleft (j + 1) (by rwa [hnext, hshift] at hj)) (hbehind v)
        (fun i hi => hwritten i (by rw [hnext] at hi; omega))
      rw [hnext] at hrest
      simpa [mixFrom, mixSlot, hnot] using hrest

theorem exec_blend (hold : first.Holds slots xs) (horder : slots.Pairwise (· < ·))
    (hwritten : ∀ i, i ∈ slots ↔ i ∈ written) (hslots : ∀ i ∈ slots, i < values.size)
    (h : Variables.SameOff slots second values) :
    (Fuzzy.blend d slots xs second : Evaluation R S (Variables T)).exec r =
      (mix d written values first second).exec r := by
  have hblend (rest : T) (r : S) : (Fuzzy.blendSlots d rest (slots.zip xs) second : Evaluation R S (Variables T)).exec r =
      (do return (← mixFrom d rest written first second 0 values.toList).toArray :
        Evaluation R S (Variables T)).exec r := by
    have hplaces : ∀ i ∈ slots, 0 ≤ i ∧ i < 0 + values.toList.length := by simpa using hslots
    have hkept (j : Nat) (hj : 0 + j ∉ slots) : values.toList[j]? = second.toList[j]? := by
      simpa using (h.get j (by simpa using hj)).symm
    simpa using exec_blendSlots [] values.toList second.toList hold horder hplaces (by simpa using h.size.symm) hkept
      (fun j => by simp) fun i _ => hwritten i
  simp only [Evaluation.exec_bind] at hblend
  simp [Fuzzy.blend_eq, mix, hblend]

end Mixing

mutual

/-- Evaluation on copies changes no more than the slots that a statement writes. -/
theorem sameOff_run : (s : Statement R) → ∀ {values : Variables T} {r : S} {after r'},
    (run width sample s values).exec r = (.ok after, r') → Variables.SameOff s.writes after values
  | .assign v e, values, r, after, r', h => by
    rw [run, Evaluation.exec_bind] at h
    split at h
    · exact Variables.exec_store_eq_ok h
    · cases h
  | .pays v e, values, r, after, r', h => by
    rw [run, Evaluation.exec_bind] at h
    split at h
    · simp only [Variables.pay, Evaluation.exec_bind, Evaluation.exec_record, Variables.exec_fetch] at h
      cases hold : values[v.slot]? with
      | none => simp [hold] at h
      | some old =>
        rw [hold] at h
        exact Variables.exec_store_eq_ok h
    · cases h
  | .branch c body otherwise affected, values, r, after, r', h => by
    rw [run, Evaluation.exec_bind] at h
    split at h
    · simp only at h
      split at h
      · exact (sameOff_runBlock body h).mono fun i hi => List.mem_append_left _ hi
      split at h
      · exact (sameOff_runBlock otherwise h).mono fun i hi => List.mem_append_right _ hi
      · simp only [Evaluation.exec_bind] at h
        split at h
        · split at h
          · exact sameOff_mix h
          · cases h
        · cases h
    · cases h
  | .sequence body, values, r, after, r', h => sameOff_runBlock body h

theorem sameOff_runBlock : (body : List (Statement R)) → ∀ {values : Variables T} {r : S} {after r'},
    (runBlock width sample body values).exec r = (.ok after, r') →
      Variables.SameOff (blockWrites body) after values
  | [], values, r, after, r', h => by
    cases h
    exact .refl _ _
  | s :: rest, values, r, after, r', h => by
    rw [runBlock, Evaluation.exec_bind] at h
    split at h
    · rename_i hs
      exact ((sameOff_runBlock rest h).mono fun i hi => List.mem_append_right _ hi).trans
        ((sameOff_run s hs).mono fun i hi => List.mem_append_left _ hi)
    · cases h

end

/-- What evaluation in place leaves, against evaluation on copies: the same table and the same record, at the
nesting where it began; the same fault; or a misuse, when the table lacks a slot that is written. -/
inductive Copies (written : List Nat) (s : Fuzzy.State T) :
    (Except (Fault (ScriptError R)) Unit × Fuzzy.State T) × S →
      Except (Fault (ScriptError R)) (Variables T) × S → Prop
  | finished {after r} (h : after.depth = s.depth) : Copies written s ((.ok (), after), r) (.ok after.values, r)
  | failed {e after r} : Copies written s ((.error e, after), r) (.error e, r)
  | missing {after r reference} (h : ∃ slot ∈ written, s.values.size ≤ slot) :
      Copies written s ((.error (.misuse .outOfRange), after), r) reference

section Copies

variable {written more : List Nat} {s : Fuzzy.State T}
  {x : (Except (Fault (ScriptError R)) Unit × Fuzzy.State T) × S}
  {y : Except (Fault (ScriptError R)) (Variables T) × S}

omit [Scalar R] [Quantity R S T] in
theorem Copies.mono (h : Copies written s x y) (hm : ∀ i ∈ written, i ∈ more) : Copies more s x y := by
  cases h with
  | finished h => exact .finished h
  | failed => exact .failed
  | missing h =>
    obtain ⟨slot, hslot, hsize⟩ := h
    exact .missing ⟨slot, hm slot hslot, hsize⟩

omit [Scalar R] [Quantity R S T] in
theorem Copies.from {after : Fuzzy.State T} (h : Copies written after x y) (hd : after.depth = s.depth)
    (hsize : after.values.size = s.values.size) : Copies written s x y := by
  cases h with
  | finished h => exact .finished (h.trans hd)
  | failed => exact .failed
  | missing h => exact .missing (hsize ▸ h)

omit [Scalar R] [Quantity R S T] in
theorem copies_onVariables (step : Variables T → Evaluation R S (Variables T)) :
    Copies written s ((Fuzzy.onVariables step).exec s r) ((step s.values).exec r) := by
  simp only [Fuzzy.onVariables, Process.exec_bind, Process.exec_get, Process.exec_ofEvaluation, Process.exec_set]
  generalize (step s.values).exec r = result
  obtain ⟨_ | values, r'⟩ := result
  · exact .failed
  · exact .finished rfl

omit [Scalar R] [Quantity R S T] in
/-- Steps in place one after the other, against steps on tables one after the other. -/
theorem Copies.bind {p : Process R S (Fuzzy.State T) Unit} {f : Unit → Process R S (Fuzzy.State T) Unit}
    {q : Evaluation R S (Variables T)} {g : Variables T → Evaluation R S (Variables T)}
    (h : Copies written s (p.exec s r) (q.exec r))
    (hnext : ∀ after r', q.exec r = (.ok after.values, r') → after.depth = s.depth →
      Copies written s ((f ()).exec after r') ((g after.values).exec r')) :
    Copies written s ((p >>= f).exec s r) ((q >>= g).exec r) := by
  rw [Process.exec_bind, Evaluation.exec_bind]
  generalize hp : p.exec s r = left at h ⊢
  generalize hq : q.exec r = right at h ⊢
  cases h with
  | finished h => exact hnext _ _ hq h
  | failed => exact .failed
  | missing h => exact .missing h

end Copies

section InPlace

variable {body otherwise : List (Statement R)}

/-- A conditional statement that holds to the degree `d`, in place. -/
def inPlace (width : R) (sample : Sample T) (d : T) (body otherwise : List (Statement R)) (affected : List Nat) :
    Process R S (Fuzzy.State T) Unit := do
  let level ← Fuzzy.enter
  let before ← Process.ofEvaluation ((← get).values.fetchAll (R := R) (S := S) affected)
  Fuzzy.runBlock width sample body
  let after ← Process.ofEvaluation ((← get).values.fetchAll (R := R) (S := S) affected)
  Fuzzy.onVariables fun values => values.storeAll (affected.zip before)
  Fuzzy.runBlock width sample otherwise
  Fuzzy.onVariables (Fuzzy.blend d affected after)
  Fuzzy.leave level before after

/-- A conditional statement that holds to the degree `d`, on copies. -/
def onCopies (width : R) (sample : Sample T) (d : T) (body otherwise : List (Statement R)) (values : Variables T) :
    Evaluation R S (Variables T) := do
  let first ← runBlock width sample body values
  let second ← runBlock width sample otherwise values
  mix d (blockWrites body ++ blockWrites otherwise) values first second

omit [Scalar R] [Quantity R S T] in
theorem exec_enter (s : Fuzzy.State T) (r : S) : ∃ inside, (Fuzzy.enter : Process R S (Fuzzy.State T) Nat).exec s r =
    ((.ok s.depth, inside), r) ∧ inside.values = s.values ∧ inside.depth = s.depth + 1 :=
  ⟨_, rfl, rfl, rfl⟩

theorem copies_inPlace {d : T} {s : Fuzzy.State T}
    (hbody : ∀ (s : Fuzzy.State T) (r : S), Copies (blockWrites body) s
      ((Fuzzy.runBlock width sample body).exec s r) ((runBlock width sample body s.values).exec r))
    (hother : ∀ (s : Fuzzy.State T) (r : S), Copies (blockWrites otherwise) s
      ((Fuzzy.runBlock width sample otherwise).exec s r) ((runBlock width sample otherwise s.values).exec r)) :
    Copies (blockWrites body ++ blockWrites otherwise) s
      ((inPlace width sample d body otherwise (slotSet (blockWrites body ++ blockWrites otherwise))).exec s r)
      ((onCopies width sample d body otherwise s.values).exec r) := by
  obtain ⟨inside, henter, hvalues, hdepth⟩ := exec_enter (R := R) s r
  generalize hwritten : blockWrites body ++ blockWrites otherwise = written
  have hfirst : ∀ i ∈ blockWrites body, i ∈ written := fun i hi => hwritten ▸ List.mem_append_left _ hi
  have hsecond : ∀ i ∈ blockWrites otherwise, i ∈ written := fun i hi => hwritten ▸ List.mem_append_right _ hi
  have hmem (i : Nat) : i ∈ slotSet written ↔ i ∈ written := mem_slotSet
  by_cases hslots : ∀ slot ∈ slotSet written, slot < s.values.size
  · obtain ⟨before, hbefore, hold⟩ := Variables.exec_fetchAll (R := R) (r := r) hslots
    simp only [inPlace, onCopies, Process.exec_bind, Evaluation.exec_bind, henter, Process.exec_get,
      Process.exec_ofEvaluation, hvalues, hbefore, hwritten]
    have hb := hbody inside r
    rw [hvalues] at hb
    generalize (Fuzzy.runBlock width sample body).exec inside r = left at hb ⊢
    generalize hq : (runBlock width sample body s.values).exec r = right at hb ⊢
    cases hb with
    | failed => exact .failed
    | missing h =>
      obtain ⟨slot, hslot, hsize⟩ := h
      exact .missing ⟨slot, hfirst slot hslot, hvalues ▸ hsize⟩
    | @finished after₁ r₁ h₁ =>
      have hoff := (sameOff_runBlock body hq).mono fun i hi => (hmem i).2 (hfirst i hi)
      obtain ⟨after, hafter, hold₁⟩ := Variables.exec_fetchAll (R := R) (r := r₁) (hoff.size ▸ hslots)
      have hback := Variables.exec_storeAll_of_holds (R := R) (r := r₁) hold hoff
      simp only [hafter, Fuzzy.onVariables, Process.exec_bind, Process.exec_get, Process.exec_ofEvaluation, hback,
        Process.exec_set]
      have ho := hother { after₁ with values := s.values } r₁
      simp only at ho
      generalize (Fuzzy.runBlock width sample otherwise).exec { after₁ with values := s.values } r₁ = left at ho ⊢
      generalize hq' : (runBlock width sample otherwise s.values).exec r₁ = right at ho ⊢
      cases ho with
      | failed => exact .failed
      | missing h =>
        obtain ⟨slot, hslot, hsize⟩ := h
        exact .missing ⟨slot, hsecond slot hslot, hsize⟩
      | @finished after₂ r₂ h₂ =>
        have hoff₂ := (sameOff_runBlock otherwise hq').mono fun i hi => (hmem i).2 (hsecond i hi)
        have hblend := exec_blend (R := R) (d := d) (r := r₂) hold₁ (pairwise_slotSet written) hmem hslots hoff₂
        simp only [hblend]
        generalize (mix d written s.values after₁.values after₂.values).exec r₂ = mixed
        obtain ⟨_ | values, r₃⟩ := mixed
        · exact .failed
        · refine .finished ?_
          simp only at h₂
          simp [h₂, h₁, hdepth]
  · have hmissing : ∃ slot ∈ slotSet written, s.values.size ≤ slot := by simpa using hslots
    have hstop := Variables.exec_fetchAll_of_missing (R := R) (r := r) hmissing
    simp only [inPlace, Process.exec_bind, henter, Process.exec_get, Process.exec_ofEvaluation, hvalues, hstop]
    obtain ⟨slot, hslot, hsize⟩ := hmissing
    exact .missing ⟨slot, (hmem slot).1 hslot, hsize⟩

end InPlace

mutual

/-- A statement that is noted with what it writes runs in place as it does on copies. -/
theorem copies_run : (st : Statement R) → ∀ (s : Fuzzy.State T) (r : S), Copies st.writes s
    ((Fuzzy.run width sample st.markAffected).exec s r) ((run width sample st.markAffected s.values).exec r)
  | .assign v e, s, r => by
    rw [Statement.markAffected, Fuzzy.run, run]
    exact copies_onVariables fun values => do values.store v.slot (← e.eval values sample)
  | .pays v e, s, r => by
    rw [Statement.markAffected, Fuzzy.run, run]
    exact copies_onVariables fun values => do values.pay v.slot (← e.eval values sample) sample.numeraire
  | .branch c body otherwise _, s, r => by
    simp only [Statement.markAffected, Fuzzy.run, run, writes, Process.exec_bind, Evaluation.exec_bind, Process.exec_get,
      Process.exec_ofEvaluation]
    generalize (Fuzzy.degree width s.values sample c).exec r = degree
    obtain ⟨_ | d, r₁⟩ := degree
    · exact .failed
    simp only
    split
    · exact (copies_runBlock body s r₁).mono fun i hi => List.mem_append_left _ hi
    split
    · exact (copies_runBlock otherwise s r₁).mono fun i hi => List.mem_append_right _ hi
    -- The slots that are set aside are those that the branches write, whatever is noted inside them.
    · have h := copies_inPlace (d := d) (s := s) (r := r₁)
        (fun s r => (copies_runBlock body s r).mono fun i hi => by rwa [blockWrites_markAffected])
        (fun s r => (copies_runBlock otherwise s r).mono fun i hi => by rwa [blockWrites_markAffected])
      rw [blockWrites_markAffected, blockWrites_markAffected] at h
      exact h
  | .sequence body, s, r => copies_runBlock body s r

theorem copies_runBlock : (body : List (Statement R)) → ∀ (s : Fuzzy.State T) (r : S), Copies (blockWrites body) s
    ((Fuzzy.runBlock width sample (markAffectedBlock body)).exec s r)
    ((runBlock width sample (markAffectedBlock body) s.values).exec r)
  | [], s, r => .finished rfl
  | st :: rest, s, r => by
    simp only [markAffectedBlock, Fuzzy.runBlock, runBlock, blockWrites]
    refine Copies.bind ((copies_run st s r).mono fun i hi => List.mem_append_left _ hi) fun after r' hq hd => ?_
    exact ((copies_runBlock rest after r').mono fun i hi => List.mem_append_right _ hi).from hd
      (sameOff_run _ hq).size

end

/-- The slots that some event writes. -/
def eventWrites (events : List (Event R)) : List Nat := events.flatMap blockWrites

theorem copies_runEvents (events : List (Event R)) (samples : List (Sample T)) (s : Fuzzy.State T) (r : S) :
    Copies (eventWrites events) s
      ((((events.map markAffectedBlock).zip samples).forM fun ((event, sample) : Event R × Sample T) =>
        Fuzzy.runBlock width sample event).exec s r)
      ((((events.map markAffectedBlock).zip samples).foldlM (fun values ((event, sample) : Event R × Sample T) =>
        runBlock width sample event values) s.values).exec r) := by
  induction events generalizing samples s r with
  | nil => exact .finished rfl
  | cons event events ih =>
    cases samples with
    | nil => exact .finished rfl
    | cons sample samples =>
      refine Copies.bind ((copies_runBlock event s r).mono fun i hi => List.mem_append_left _ hi)
        fun after r' hq hd => ?_
      exact ((ih samples after r').mono fun i hi => List.mem_append_right _ hi).from hd (sameOff_runBlock _ hq).size

/-- Evaluation in place of events that are noted with what they write leaves what evaluation on copies leaves, from
any state and on any scenario. -/
theorem evaluates_in_place_as_on_copies (width : R) (events : List (Event R)) (scenario : Scenario T)
    (s : Fuzzy.State T) (r : S) :
    Copies (eventWrites events) s
      ((Evaluator.runEvents (fun event sample => Fuzzy.runBlock width sample event) (markAffected events).1
        scenario).exec s r)
      ((runEvents width (markAffected events).1 scenario s.values).exec r) :=
  copies_runEvents events scenario.toList s r

end Branching

end PayoffPricing.Script
