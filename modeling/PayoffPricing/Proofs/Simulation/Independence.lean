import Mathlib
import PayoffPricing.Proofs.Simulation.Recording
import PayoffPricing.Proofs.Simulation.Schedule
/-!
Payoffs do not depend on schedules: whoever simulates which paths in which order, each path is simulated
once, and its payoff is the one that it has alone.
-/

namespace PayoffPricing.Simulation

open PayoffPricing.Random Worlds

/-- Streams on which a path is a matter of its number, and drawing a path moves to the next one. -/
class LawfulStream (R : outParam Type) (G : Type) [DrawStream R G] : Prop where
  skipTo_skipTo (i j : Nat) (g : G) : DrawStream.skipTo i (DrawStream.skipTo j g) = DrawStream.skipTo i g
  normals_skipTo (n i : Nat) (g : G) :
    ((DrawStream.normals n).run (DrawStream.skipTo i g)).2 = DrawStream.skipTo (i + 1) g

section Streams

theorem draw_eq (action : StateM Generator Float) (n : Nat) (s : SeededStream) :
    ∃ g, ((SeededStream.draw action n).run s).2 = { s with generator := g } := by
  induction n generalizing s with
  | zero => exact ⟨s.generator, rfl⟩
  | succ n ih => exact ih _

instance : LawfulStream Float SeededStream where
  skipTo_skipTo _ _ _ := rfl
  normals_skipTo n i g := by
    obtain ⟨generator, h⟩ := draw_eq Generator.normal n (SeededStream.skipTo i g)
    change SeededStream.skipTo (((SeededStream.draw Generator.normal n).run (SeededStream.skipTo i g)).2.path + 1)
      ((SeededStream.draw Generator.normal n).run (SeededStream.skipTo i g)).2 = _
    rw [h]
    rfl

instance {R : Type} [Scalar R] : LawfulStream R (FixedStream R) where
  skipTo_skipTo _ _ _ := rfl
  normals_skipTo _ _ _ := rfl

end Streams

variable {R G S T : Type} [Scalar R] [DrawStream R G]

/-- What the paths of a worker give does not depend on the schedule of `k` such workers. -/
structure Independent (w : Worker R G S T) (n size k : Nat) : Prop where
  alone {trace c} (h : Run w.path (Crew.assembled k (.ofPaths n size) w) trace c) {i b payoffs}
    (htask : (c.desks i).task = .busy b payoffs) :
    (w.path.exec (c.desks i).workspace (c.desks i).record).1.1 = w.alone (b.first + payoffs.size)
  once {trace c} (h : Run w.path (Crew.assembled k (.ofPaths n size) w) trace c) (hc : c.Finished) :
    trace.Perm (List.range n)
  payoffs {trace c} (h : Run w.path (Crew.assembled k (.ofPaths n size) w) trace c) (hc : c.Finished) :
    ((Working.runBatch w.path ⟨0, 0, n⟩).exec w.workspace w.record).1.1 =
      .ok (0, c.payoffs size (Array.replicate n 0))

section Positional

variable {w : Worker R G S T} {Ready : Workspace R G T → S → Prop}
  {price : Nat → Except (Fault (SimulationError R)) R} {n size k : Nat}

omit [Scalar R] in
theorem Positional.price_eq (hpath : Positional w.path w.workspace.stream Ready price)
    (hw : Ready w.workspace w.record) (i : Nat) : price i = w.alone i := by
  obtain ⟨hready, hstream⟩ := hpath.place i hw
  exact (hpath.result hready hstream).symm

omit [Scalar R] in
/-- All paths in one batch of one worker. -/
theorem Positional.exec_runBatch (hpath : Positional w.path w.workspace.stream Ready price)
    (hw : Ready w.workspace w.record) {P : Array R} (hP : ∀ i < P.size, Placed price P i) :
    ((Working.runBatch w.path ⟨0, 0, P.size⟩).exec w.workspace w.record).1.1 = .ok (0, P) := by
  obtain ⟨hready, hstream⟩ := hpath.place 0 hw
  have hpriced : Priced price 0 P := by
    intro i x hx
    obtain ⟨hi, -⟩ := Array.getElem?_eq_some_iff.1 hx
    obtain ⟨y, hy, hprice⟩ := hP i hi
    obtain rfl : x = y := Option.some.inj (hx.symm.trans hy)
    rwa [Nat.zero_add]
  have hpaths := hpath.exec_runPaths hready hstream P.toList hpriced #[]
  simp only [Array.empty_append, Array.length_toList] at hpaths
  rw [Working.runBatch, Working.exec_bind, Working.exec_modify]
  dsimp only
  rw [Working.exec_bind, Nat.sub_zero]
  generalize (Working.runPaths w.path #[] P.size).exec _ w.record = r at hpaths ⊢
  rcases r with ⟨⟨_ | xs, _⟩, _⟩
  · contradiction
  · obtain rfl : xs = P := Except.ok.inj hpaths
    rfl

theorem Positional.independent (hpath : Positional w.path w.workspace.stream Ready price)
    (hw : Ready w.workspace w.record) (hsize : 0 < size) (hk : 0 < k) : Independent w n size k where
  alone h i b payoffs htask := by
    have hfits := (h.consistent hpath hw).fits i
    obtain ⟨-, -, hstream⟩ := hfits.busy b payoffs htask
    rw [← hpath.price_eq hw]
    exact hpath.result hfits.ready hstream
  once h hc := (h.consistent hpath hw).trace_perm hsize hk hc
  payoffs {trace c} h hc := by
    have hlength : (c.payoffs size (Array.replicate n 0)).size = n := by
      rw [Crew.size_payoffs, Array.size_replicate]
    have hplaced := hpath.exec_runBatch hw (P := c.payoffs size (Array.replicate n 0)) fun i hi =>
      (h.consistent hpath hw).placed hsize hk hc Array.size_replicate (hlength ▸ hi)
    rwa [hlength] at hplaced

end Positional

namespace Job

section Workers

variable {job : Job R G} {base : Tape R} {f : List Nat × Method R × Nat} {w : Worker R G Unit R}
  {w' : Worker R G (Tape R) (Number R)}

omit [DrawStream R G] in
theorem stream_path [Quantity R S T] (p : Product R) (m : Model R T) (draws : Array R) (u : Workspace R G T) (s : S) :
    ((do Working.fill m draws; Working.evaluate p : Working R G S T T).exec u s).1.2.stream = u.stream := by
  have hrun := congrFun (Working.run_path p m draws u) s
  rcases h : (m.generate draws u.scenario).run s with ⟨_ | scenario, s⟩
  · simp only [bind, StateT.bind, h] at hrun
    exact congrArg (·.1.2.stream) hrun
  · simp only [bind, StateT.bind, h] at hrun
    exact congrArg (·.1.2.stream) hrun

/-- A path leaves the stream behind its draws. -/
theorem stream_nextPayoff [Quantity R S T] (p : Product R) (m : Model R T) (dimension : Nat) (u : Workspace R G T)
    (s : S) : ((Working.nextPayoff p m dimension : Working R G S T T).exec u s).1.2.stream =
      ((DrawStream.normals dimension).run u.stream).2 := by
  have hrun := congrFun (Working.run_nextPayoff (S := S) p m dimension u) s
  exact (congrArg (·.1.2.stream) hrun).trans (stream_path p m _ _ s)

theorem Parallel.eq (h : job.Parallel base f w w') {u : Workspace R G R} {u' : Workspace R G (Number R)} {t : Tape R}
    (hu : Beside base f u () u' t) : (w.path.exec u ()).1.1 = (w'.path.exec u' t).1.1 :=
  (h.path u () u' t hu).eq fun hx => hx.1

theorem exists_reverse (h : job.startPlain = .ok w) :
    ∃ w' base f, job.startReverse = .ok w' ∧ job.Parallel base f w w' := by
  have hstart := job.outcome_start
  rw [h] at hstart
  cases hreverse : job.startReverse with
  | error e =>
    rw [hreverse] at hstart
    exact hstart.elim
  | ok w' =>
    rw [hreverse] at hstart
    obtain ⟨base, f, hparallel⟩ := hstart
    exact ⟨w', base, f, rfl, hparallel⟩

theorem exists_plain (h : job.startReverse = .ok w') :
    ∃ w base f, job.startPlain = .ok w ∧ job.Parallel base f w w' := by
  have hstart := job.outcome_start
  rw [h] at hstart
  cases hplain : job.startPlain with
  | error e =>
    rw [hplain] at hstart
    exact hstart.elim
  | ok w =>
    rw [hplain] at hstart
    obtain ⟨base, f, hparallel⟩ := hstart
    exact ⟨w, base, f, rfl, hparallel⟩

theorem exists_parallel {queue : BatchQueue} (h : ∃ r, job.runWorker queue = .ok r) :
    ∃ w w' base f, job.startPlain = .ok w ∧ job.startReverse = .ok w' ∧ job.Parallel base f w w' := by
  obtain ⟨r, hr⟩ := h
  cases hmode : job.config.mode with
  | off =>
    rw [runWorker, hmode, runPlain_eq] at hr
    obtain ⟨w, hw, -⟩ := bind_eq_ok_iff.1 hr
    obtain ⟨w', base, f, hw', hparallel⟩ := exists_reverse hw
    exact ⟨w, w', base, f, hw, hw', hparallel⟩
  | reverse =>
    rw [runWorker, hmode, runReverse_eq] at hr
    obtain ⟨w', hw', -⟩ := bind_eq_ok_iff.1 hr
    obtain ⟨w, base, f, hw, hparallel⟩ := exists_plain hw'
    exact ⟨w, w', base, f, hw, hw', hparallel⟩

/-- A state of a worker on a path of the stream `g`. -/
def OnStream (g : G) (u : Workspace R G T) : Prop := ∀ i, DrawStream.skipTo i u.stream = DrawStream.skipTo i g

variable [LawfulStream R G]

omit [Scalar R] in
theorem onStream_skipTo (g : G) {u : Workspace R G T} {i : Nat} (hu : u.stream = DrawStream.skipTo i g) :
    OnStream g u := by
  intro j
  rw [hu, LawfulStream.skipTo_skipTo]

/-- The stream behind a path of two workers side by side, which stay side by side. -/
theorem Parallel.next (h : job.Parallel base f w w') {g : G} {i : Nat} {u : Workspace R G R}
    {u' : Workspace R G (Number R)} {t : Tape R} (hu : Beside base f u () u' t) (hi : u.stream = DrawStream.skipTo i g)
    {x x' : R} {v : Workspace R G R} {v' : Workspace R G (Number R)} {t' : Tape R}
    (hplain : w.path.exec u () = ((.ok x, v), ())) (hrecorded : w'.path.exec u' t = ((.ok x', v'), t')) :
    Beside base f v () v' t' ∧ v.stream = DrawStream.skipTo (i + 1) g := by
  have hboth := h.path u () u' t hu
  rw [hplain, hrecorded] at hboth
  obtain ⟨m, hm⟩ := h.draws
  have hstream := stream_nextPayoff job.product m job.dimension u ()
  rw [← hm, hplain, hi, LawfulStream.normals_skipTo] at hstream
  exact ⟨hboth.2, hstream⟩

omit [LawfulStream R G] in
theorem Parallel.ready_plain (h : job.Parallel base f w w') :
    w.workspace.frame = f ∧ OnStream w.workspace.stream w.workspace := ⟨h.beside.frame_left, fun _ => rfl⟩

omit [LawfulStream R G] in
theorem Parallel.ready_reverse (h : job.Parallel base f w w') :
    (w'.workspace.frame = f ∧ base.Returns w'.record) ∧ OnStream w'.workspace.stream w'.workspace :=
  ⟨⟨h.beside.frame_right, h.beside.returns⟩, fun _ => rfl⟩

theorem Parallel.positional_plain (h : job.Parallel base f w w') :
    Positional w.path w.workspace.stream (fun u _ => u.frame = f ∧ OnStream w.workspace.stream u) w.alone where
  place i hu := ⟨⟨hu.1, fun j => by rw [LawfulStream.skipTo_skipTo, hu.2]⟩, hu.2 i⟩
  result {i u _} hu hi := by
    have hbeside : Beside base f u () { w'.workspace with stream := u.stream } w'.record :=
      ⟨rfl, hu.1, h.beside.frame_right, h.beside.returns⟩
    have halone : Beside base f { w.workspace with stream := DrawStream.skipTo i w.workspace.stream } ()
        { w'.workspace with stream := u.stream } w'.record :=
      ⟨hi.symm, h.beside.frame_left, h.beside.frame_right, h.beside.returns⟩
    exact (h.eq hbeside).trans (h.eq halone).symm
  next {i u _ x v _} hu hi hpath := by
    have hbeside : Beside base f u () { w'.workspace with stream := u.stream } w'.record :=
      ⟨rfl, hu.1, h.beside.frame_right, h.beside.returns⟩
    have hpayoff := h.eq hbeside
    rw [hpath] at hpayoff
    rcases hrecorded : w'.path.exec { w'.workspace with stream := u.stream } w'.record with ⟨⟨r, v'⟩, t'⟩
    rw [hrecorded] at hpayoff
    obtain rfl : .ok x = r := hpayoff
    obtain ⟨hafter, hstream⟩ := h.next hbeside hi hpath hrecorded
    exact ⟨⟨hafter.frame_left, onStream_skipTo _ hstream⟩, hstream⟩

theorem Parallel.positional_reverse (h : job.Parallel base f w w') :
    Positional w'.path w'.workspace.stream
      (fun u t => (u.frame = f ∧ base.Returns t) ∧ OnStream w'.workspace.stream u) w.alone where
  place i hu := ⟨⟨hu.1, fun j => by rw [LawfulStream.skipTo_skipTo, hu.2]⟩, hu.2 i⟩
  result {i u t} hu hi := by
    have hbeside : Beside base f { w.workspace with stream := DrawStream.skipTo i w.workspace.stream } () u t :=
      ⟨by rw [hi, h.beside.stream_eq], h.beside.frame_left, hu.1.1, hu.1.2⟩
    exact (h.eq hbeside).symm
  next {i u t x v t'} hu hi hpath := by
    have hbeside : Beside base f { w.workspace with stream := u.stream } () u t :=
      ⟨rfl, h.beside.frame_left, hu.1.1, hu.1.2⟩
    have hpayoff := h.eq hbeside
    rw [hpath] at hpayoff
    rcases hplain : w.path.exec { w.workspace with stream := u.stream } () with ⟨⟨r, v'⟩, _⟩
    rw [hplain] at hpayoff
    obtain rfl : r = .ok x := hpayoff
    obtain ⟨hafter, hstream⟩ := h.next hbeside hi hplain hpath
    have hnext := hafter.stream_eq.symm.trans hstream
    exact ⟨⟨⟨hafter.frame_right, hafter.returns⟩, onStream_skipTo _ hnext⟩, hnext⟩

end Workers

end Job

section Sequential

open Relation

variable {path : Working R G S T R} {q q' : BatchQueue} {d : Desk R G S T} {u : Workspace R G T} {s : S}

/-- A step of a worker at the queue. -/
def Moves (path : Working R G S T R) (a b : BatchQueue × Desk R G S T) : Prop :=
  ∃ label, DeskStep path a.1 a.2 label b.1 b.2

omit [Scalar R] in
theorem moves_runPaths {b : Batch} {payoffs xs : Array R} {m : Nat} (htask : d.task = .busy b payoffs)
    (hm : payoffs.size + m = b.stop - b.first)
    (hexec : (Working.runPaths path payoffs m).exec d.workspace d.record = ((.ok xs, u), s)) :
    xs.size = b.stop - b.first ∧
      ReflTransGen (Moves path) (q, d) (q, { d with workspace := u, record := s, task := .busy b xs }) := by
  induction m generalizing d payoffs with
  | zero =>
    cases hexec
    refine ⟨hm, ?_⟩
    rw [← htask]
  | succ m ih =>
    rw [Working.runPaths, Working.exec_bind] at hexec
    rcases hpath : path.exec d.workspace d.record with ⟨⟨e | x, v⟩, t⟩
    · rw [hpath] at hexec
      cases hexec
    · rw [hpath] at hexec
      have hleft : b.first + payoffs.size < b.stop := by omega
      have hstep : Moves path (q, d) (q, { d with workspace := v, record := t, task := .busy b (payoffs.push x) }) :=
        ⟨_, .path htask hleft hpath⟩
      have hsize : (payoffs.push x).size + m = b.stop - b.first := by
        rw [Array.size_push]
        omega
      obtain ⟨hxs, hrest⟩ :=
        ih (d := { d with workspace := v, record := t, task := .busy b (payoffs.push x) }) rfl hsize hexec
      exact ⟨hxs, .head hstep hrest⟩

omit [Scalar R] in
theorem moves_runBatch {b : Batch} {e : Nat × Array R} (hidle : d.task = .idle) (hpop : q.pop.1 = some b)
    (hexec : (Working.runBatch path b).exec d.workspace d.record = ((.ok e, u), s)) :
    ReflTransGen (Moves path) (q, d)
      (q.pop.2, { d with workspace := u, record := s, task := .idle, output := d.output.push e }) := by
  rw [Working.runBatch, Working.exec_bind, Working.exec_modify] at hexec
  dsimp only at hexec
  rw [Working.exec_bind] at hexec
  rcases hpaths : (Working.runPaths path #[] (b.stop - b.first)).exec
    { d.workspace with stream := DrawStream.skipTo b.first d.workspace.stream } d.record with ⟨⟨_ | xs, v⟩, t⟩
  · rw [hpaths] at hexec
    cases hexec
  · rw [hpaths] at hexec
    cases hexec
    have hfirst : Moves path (q, d) (q.pop.2, { d with
        workspace := { d.workspace with stream := DrawStream.skipTo b.first d.workspace.stream }
        task := .busy b #[] }) := ⟨none, .take hidle hpop⟩
    obtain ⟨hxs, hrest⟩ := moves_runPaths (q := q.pop.2) (d := { d with
      workspace := { d.workspace with stream := DrawStream.skipTo b.first d.workspace.stream }
      task := .busy b #[] }) rfl (Nat.zero_add _) hpaths
    apply (hrest.head hfirst).tail
    exact ⟨_, .handIn rfl (by omega)⟩

omit [Scalar R] in
/-- A worker left alone with the queue goes through all of its steps. -/
theorem moves_drain {output : Output R} (hidle : d.task = .idle)
    (hexec : (Working.drain path d.output q).exec d.workspace d.record = ((.ok (output, q'), u), s)) :
    ReflTransGen (Moves path) (q, d) (q', ⟨u, s, .done, output⟩) := by
  induction hn : q.remaining using Nat.strongRecOn generalizing q d with
  | ind n ih =>
    rw [Working.drain] at hexec
    split at hexec
    · next hpop =>
      cases hexec
      exact .single ⟨_, .leave hidle hpop⟩
    · next b hpop =>
      rw [Working.exec_bind] at hexec
      rcases hbatch : (Working.runBatch path b).exec d.workspace d.record with ⟨⟨_ | e, v⟩, t⟩
      · rw [hbatch] at hexec
        cases hexec
      · rw [hbatch] at hexec
        apply (moves_runBatch hidle hpop hbatch).trans
        exact ih _ (hn ▸ BatchQueue.remaining_pop hpop) (d := ⟨v, t, .idle, d.output.push e⟩) rfl hexec rfl

omit [Scalar R] in
theorem Run.moves {k : Nat} {start c : Crew R G S T k} {trace : List Nat} (h : Run path start trace c) {i : Fin k}
    {a : BatchQueue × Desk R G S T} (ha : ReflTransGen (Moves path) (c.queue, c.desks i) a) :
    ∃ trace, Run path start trace ⟨a.1, Function.update c.desks i a.2⟩ := by
  induction ha with
  | refl =>
    rw [Function.update_eq_self]
    exact ⟨_, h⟩
  | @tail a b _ hstep ih =>
    obtain ⟨trace, hrun⟩ := ih
    obtain ⟨label, hstep⟩ := hstep
    have hdesk : DeskStep path a.1 (Function.update c.desks i a.2 i) label b.1 b.2 := by
      rw [Function.update_self]
      exact hstep
    have hnext := hrun.step hdesk
    rw [Function.update_idem] at hnext
    exact ⟨_, hnext⟩

variable {k : Nat}

/-- What the workers have handed in, by their places. -/
def Crew.outputs (c : Crew R G S T k) : List (Output R) := List.ofFn fun i => (c.desks i).output

omit [Scalar R] [DrawStream R G] in
theorem payoffs_eq_outputs (c : Crew R G S T k) (size : Nat) (initial : Array R) :
    c.payoffs size initial = c.outputs.foldl (writeBatches size) initial := by
  have houtputs : c.outputs = (List.ofFn c.desks).map (·.output) := (List.map_ofFn ..).symm
  rw [houtputs, List.foldl_map]
  rfl

omit [Scalar R] [DrawStream R G] in
theorem outputs_update (c : Crew R G S T k) (i : Fin k) (d : Desk R G S T) :
    (Crew.mk q (Function.update c.desks i d)).outputs.take (i + 1) = c.outputs.take i ++ [d.output] := by
  have hlength : i.val < (Crew.mk q (Function.update c.desks i d)).outputs.length := by simp [Crew.outputs]
  rw [List.take_succ_eq_append_getElem hlength]
  have hlast : (Crew.mk q (Function.update c.desks i d)).outputs[i.val] = d.output := by simp [Crew.outputs]
  have hbefore : (Crew.mk q (Function.update c.desks i d)).outputs.take i = c.outputs.take i := by
    apply List.ext_getElem
    · simp [Crew.outputs]
    · intro j hj _
      have hne : (⟨j, by simp [Crew.outputs] at hj; omega⟩ : Fin k) ≠ i := by
        intro heq
        simp [← heq] at hj
      simp [Crew.outputs, Function.update_of_ne hne]
  rw [hlast, hbefore]

/-- Workers one after the other are one of the schedules. -/
theorem exists_run_runWorkers {job : Job R G} {w : Worker R G S T}
    (hworker : ∀ q r q', job.runWorker q = .ok (r, q') → ∃ u s,
      (Working.drain w.path #[] q).exec w.workspace w.record = ((.ok (r.output, q'), u), s))
    {start c : Crew R G S T k} {trace : List Nat} {n j : Nat} {results : List (WorkerResult R)}
    (hrun : Run w.path start trace c) (hj : j + n = k) (hdone : ∀ i : Fin k, i < j → (c.desks i).task = .done)
    (hfresh : ∀ i : Fin k, j ≤ i → c.desks i = ⟨w.workspace, w.record, .idle, #[]⟩)
    (hresults : runWorkers job n c.queue = .ok results) :
    ∃ trace c', Run w.path start trace c' ∧ c'.Finished ∧
      c'.outputs = c.outputs.take j ++ results.map (·.output) := by
  induction n generalizing c trace j results with
  | zero =>
    cases hresults
    refine ⟨trace, c, hrun, fun i => hdone i (by omega), ?_⟩
    rw [List.map_nil, List.append_nil, List.take_of_length_le]
    simp [Crew.outputs]
    omega
  | succ n ih =>
    simp only [runWorkers, bind_eq_ok_iff] at hresults
    obtain ⟨⟨r, q⟩, hr, rest, hrest, hall⟩ := hresults
    cases hall
    obtain ⟨u, s, hexec⟩ := hworker _ _ _ hr
    let i : Fin k := ⟨j, by omega⟩
    have hmine : c.desks i = ⟨w.workspace, w.record, .idle, #[]⟩ := hfresh i (Nat.le_refl j)
    have hmoves : ReflTransGen (Moves w.path) (c.queue, c.desks i) (q, ⟨u, s, .done, r.output⟩) := by
      apply moves_drain
      · rw [hmine]
      · rw [hmine]
        exact hexec
    obtain ⟨trace', hrun'⟩ := hrun.moves hmoves
    have hdone' (i' : Fin k) (hi' : i' < j + 1) :
        (Function.update c.desks i ⟨u, s, .done, r.output⟩ i').task = .done := by
      by_cases hsame : i' = i
      · rw [hsame, Function.update_self]
      · have hbefore : i'.val ≠ j := fun heq => hsame (Fin.ext heq)
        rw [Function.update_of_ne hsame]
        exact hdone i' (by omega)
    have hfresh' (i' : Fin k) (hi' : j + 1 ≤ i') : Function.update c.desks i ⟨u, s, .done, r.output⟩ i' =
        ⟨w.workspace, w.record, .idle, #[]⟩ := by
      have hother : i' ≠ i := by
        intro heq
        have hval : i'.val = j := congrArg Fin.val heq
        omega
      rw [Function.update_of_ne hother]
      exact hfresh i' (by omega)
    obtain ⟨trace'', c', hlater, hfinished, houtputs⟩ := ih hrun' (by omega) hdone' hfresh' hrest
    refine ⟨trace'', c', hlater, hfinished, ?_⟩
    rw [houtputs, outputs_update c i, List.append_assoc, List.map_cons, List.singleton_append]

end Sequential

section Simulation

variable {job : Job R G} {queue queue' : BatchQueue} {r : WorkerResult R}

theorem Job.exec_drain_plain {w : Worker R G Unit R} (hw : job.startPlain = .ok w)
    (h : job.runPlain queue = .ok (r, queue')) :
    ∃ u s, (Working.drain w.path #[] queue).exec w.workspace w.record = ((.ok (r.output, queue'), u), s) := by
  rw [Job.runPlain_eq, hw] at h
  simp only [bind, Except.bind] at h
  rcases hdrain : (Working.drain w.path #[] queue).exec w.workspace w.record with ⟨⟨_ | ⟨output, rest⟩, u⟩, s⟩
  · rw [hdrain] at h
    contradiction
  · rw [hdrain] at h
    cases h
    exact ⟨u, s, rfl⟩

theorem Job.exec_drain_reverse {w : Worker R G (Tape R) (Number R)} (hw : job.startReverse = .ok w)
    (h : job.runReverse queue = .ok (r, queue')) :
    ∃ u s, (Working.drain w.path #[] queue).exec w.workspace w.record = ((.ok (r.output, queue'), u), s) := by
  rw [Job.runReverse_eq, hw] at h
  rcases hdrain : (Working.drain w.path #[] queue).exec w.workspace w.record with ⟨⟨_ | ⟨output, rest⟩, u⟩, tape⟩
  · simp only [bind, Except.bind, hdrain] at h
    contradiction
  · simp only [bind, Except.bind, hdrain] at h
    split at h
    · contradiction
    · cases h
      exact ⟨u, tape, rfl⟩

omit [DrawStream R G] in
/-- A worker takes part in every simulation. -/
theorem Config.workers_pos (c : Config R) : 0 < c.workers := by
  have hsplit : 0 < c.splitSize := Nat.lt_of_lt_of_le Nat.one_pos (Nat.le_max_left ..)
  have hthreads : 0 < c.effectiveThreads := Nat.lt_of_lt_of_le Nat.one_pos (Nat.le_max_left ..)
  have hcover := le_ceilDiv_mul (n := c.paths) hsplit
  have hcount : c.queue.count ≠ 0 := by
    intro hzero
    have hnone : Config.ceilDiv c.paths c.splitSize = 0 := hzero
    rw [hnone, Nat.zero_mul] at hcover
    have := c.paths_pos
    omega
  exact Nat.lt_min.2 ⟨hthreads, Nat.pos_of_ne_zero hcount⟩

variable {w : Worker R G S T} {Ready : Workspace R G T → S → Prop} {price : Nat → Except (Fault (SimulationError R)) R}

/-- The payoffs of a simulation are those of its paths. -/
theorem placed_runWorkers (hpath : Positional w.path w.workspace.stream Ready price)
    (hw : Ready w.workspace w.record)
    (hworker : ∀ q r q', job.runWorker q = .ok (r, q') → ∃ u s,
      (Working.drain w.path #[] q).exec w.workspace w.record = ((.ok (r.output, q'), u), s))
    {results : List (WorkerResult R)} (h : runWorkers job job.config.workers job.config.queue = .ok results) {i : Nat}
    (hi : i < job.config.paths) : Placed price (job.config.assemble results) i := by
  have hstart : Run w.path (Crew.assembled job.config.workers job.config.queue w) []
      (Crew.assembled job.config.workers job.config.queue w) := .start
  obtain ⟨trace, c, hrun, hfinished, houtputs⟩ := exists_run_runWorkers (j := 0) hworker hstart (Nat.zero_add _)
    (fun i hi => absurd hi (Nat.not_lt_zero _)) (fun i _ => rfl) h
  have hsplit : 0 < job.config.splitSize := Nat.lt_of_lt_of_le Nat.one_pos (Nat.le_max_left ..)
  have hzeros : (Array.replicate job.config.paths (0 : R)).size = job.config.paths := Array.size_replicate
  have hplaced := (hrun.consistent hpath hw).placed hsplit job.config.workers_pos hfinished hzeros hi
  rw [payoffs_eq_outputs, houtputs, List.take_zero, List.nil_append, List.foldl_map] at hplaced
  exact hplaced

theorem size_assemble (c : Config R) (results : List (WorkerResult R)) : (c.assemble results).size = c.paths := by
  have hsize (payoffs : Array R) : (results.foldl (fun payoffs r => writeBatches c.splitSize payoffs r.output)
      payoffs).size = payoffs.size := by
    induction results generalizing payoffs with
    | nil => rfl
    | cons r results ih =>
      rw [List.foldl_cons, ih, writeBatches, ← Array.foldl_toList, size_foldl_writeAt]
  rw [Config.assemble, hsize, Array.size_replicate]

variable [LawfulStream R G]

theorem simulate_payoffs {prepared : Model R R} {r : Result R}
    (hprepared : ((prepareModel job.product job.model : Simulated R Unit (Model R R)).run ()).1 = .ok prepared)
    (hdimension : job.dimension = prepared.dimension)
    (h : simulate job.product job.model job.stream job.config = .ok r) :
    ∃ w, job.startPlain = .ok w ∧
      ((Working.runBatch w.path ⟨0, 0, job.config.paths⟩).exec w.workspace w.record).1.1 = .ok (0, r.payoffs) ∧
      (r.price, r.stdError) = meanAndError r.payoffs := by
  obtain ⟨results, hworkers, rfl⟩ := job.exists_results hprepared hdimension h
  obtain ⟨n, hn⟩ := Nat.exists_eq_succ_of_ne_zero job.config.workers_pos.ne'
  have hfirst : ∃ r, job.runWorker job.config.queue = .ok r := by
    rw [hn, runWorkers] at hworkers
    obtain ⟨r, hr, -⟩ := bind_eq_ok_iff.1 hworkers
    exact ⟨r, hr⟩
  obtain ⟨w, w', base, f, hplain, hreverse, hparallel⟩ := Job.exists_parallel hfirst
  have hplaced (i : Nat) (hi : i < job.config.paths) : Placed w.alone (job.config.assemble results) i := by
    cases hmode : job.config.mode with
    | off =>
      refine placed_runWorkers hparallel.positional_plain hparallel.ready_plain (fun q r q' hrun => ?_) hworkers hi
      rw [Job.runWorker, hmode] at hrun
      exact Job.exec_drain_plain hplain hrun
    | reverse =>
      refine placed_runWorkers hparallel.positional_reverse hparallel.ready_reverse (fun q r q' hrun => ?_) hworkers hi
      rw [Job.runWorker, hmode] at hrun
      exact Job.exec_drain_reverse hreverse hrun
  have hbatch := hparallel.positional_plain.exec_runBatch hparallel.ready_plain (P := job.config.assemble results) fun i hi =>
    hplaced i (size_assemble job.config results ▸ hi)
  rw [size_assemble] at hbatch
  exact ⟨w, hplain, hbatch, rfl⟩

/-- Payoffs do not depend on the schedule. However `k` workers, without sensitivities or with them, take `n`
paths in batches of any size, all paths are simulated once, every path gives what it gives alone, and the
payoffs are those of one worker with one batch. So are the payoffs of a simulation, which come with their
mean and its error. -/
theorem payoffs_independent_of_schedule (job : Job R G) (n size k : Nat) (hsize : 0 < size) (hk : 0 < k) :
    (∀ w, job.startPlain = .ok w → Independent w n size k) ∧
      (∀ w, job.startReverse = .ok w → Independent w n size k) ∧
      ∀ prepared r, ((prepareModel job.product job.model : Simulated R Unit (Model R R)).run ()).1 = .ok prepared →
        job.dimension = prepared.dimension → simulate job.product job.model job.stream job.config = .ok r →
        ∃ w, job.startPlain = .ok w ∧
          ((Working.runBatch w.path ⟨0, 0, job.config.paths⟩).exec w.workspace w.record).1.1 = .ok (0, r.payoffs) ∧
          (r.price, r.stdError) = meanAndError r.payoffs := by
  refine ⟨fun w hw => ?_, fun w' hw' => ?_, fun _ _ hprepared hdimension h => simulate_payoffs hprepared hdimension h⟩
  · obtain ⟨w', base, f, -, hparallel⟩ := Job.exists_reverse hw
    exact hparallel.positional_plain.independent hparallel.ready_plain hsize hk
  · obtain ⟨w, base, f, -, hparallel⟩ := Job.exists_plain hw'
    exact hparallel.positional_reverse.independent hparallel.ready_reverse hsize hk

end Simulation

section Whole

/-- Whole numbers as scalars, with the first order of the exponential. -/
local instance wholeNumbers : Scalar Int where
  ofDecimal m e := m / 10 ^ (-e).toNat
  ofNat n := n
  exp x := 1 + x
  log x := x - 1
  sqrt x := x
  pow x y := x ^ y.toNat
  abs x := x.natAbs
  isFinite _ := true
  ceilNat x := x.toNat
  beq x y := decide (x = y)
  identical x y := decide (x = y)
  precedes x y := decide (x ≤ y)
  decLt := inferInstance
  decLe := inferInstance

/-- Three paths of a product that is worth the spot. -/
def spotJob : Job Int (FixedStream Int) where
  product := ⟨[1], [[.assign ⟨"X", 0⟩ .spot]], [], #["X"], 0, 0, false⟩
  model := .blackScholes ⟨100, 1, 0, 0, [], false⟩
  stream := ⟨#[#[1], #[-1]], 0, 0⟩
  config := ⟨3, 0, 2, .exact, 1, .off, some 2, by decide, by decide, by decide, by decide, by decide, rfl, by decide⟩
  dimension := 1

def spotWorker : Worker Int (FixedStream Int) Unit Int := spotJob.startPlain.toOption.get rfl

omit [Scalar R] [DrawStream R G] in
theorem exec_eq_of_payoff {T : Type} {path : Working R G Unit T R} {u : Workspace R G T} {x : R}
    (h : (path.exec u ()).1.1 = .ok x) : path.exec u () = ((.ok x, (path.exec u ()).1.2), ()) := by
  rw [← h]

/-- Two workers with the paths in the order 2, 0, 1. -/
theorem payoffs_independent_of_schedule_spot :
    let crew := Crew.assembled 2 (.ofPaths 3 2) spotWorker
    let batch := ((Working.runBatch spotWorker.path ⟨0, 0, 3⟩).exec spotWorker.workspace spotWorker.record).1.1
    spotJob.startPlain = .ok spotWorker ∧
      (∃ c, Run spotWorker.path crew [2, 0, 1] c ∧ c.Finished ∧ [2, 0, 1].Perm (List.range 3) ∧
        c.payoffs 2 (Array.replicate 3 0) = #[200, 0, 200] ∧ batch = .ok (0, #[200, 0, 200])) ∧
      (∃ w, spotJob.startReverse = .ok w ∧ Independent w 3 2 2) ∧
      ∃ r, simulate spotJob.product spotJob.model spotJob.stream spotJob.config = .ok r ∧ batch = .ok (0, r.payoffs) := by
  intro crew batch
  have hstart : spotJob.startPlain = .ok spotWorker := rfl
  obtain ⟨hplain, hreverse, hsimulate⟩ := payoffs_independent_of_schedule spotJob 3 2 2 (by decide) (by decide)
  have hindependent := hplain spotWorker hstart
  refine ⟨hstart, ?_, ?_, ?_⟩
  · have h₀ : Run spotWorker.path crew [] crew := .start
    have h₁ := h₀.step (i := 1) (.take rfl rfl)
    have h₂ := h₁.step (i := 0) (.take rfl rfl)
    have h₃ := h₂.step (i := 0) (.path rfl (by decide) (exec_eq_of_payoff (x := 200) (by cbv)))
    have h₄ := h₃.step (i := 1) (.path rfl (by decide) (exec_eq_of_payoff (x := 200) (by cbv)))
    have h₅ := h₄.step (i := 0) (.handIn rfl (by decide))
    have h₆ := h₅.step (i := 1) (.path rfl (by decide) (exec_eq_of_payoff (x := 0) (by cbv)))
    have h₇ := h₆.step (i := 0) (.leave rfl rfl)
    have h₈ := h₇.step (i := 1) (.handIn rfl (by decide))
    have h₉ := h₈.step (i := 1) (.leave rfl rfl)
    refine ⟨_, h₉, Fin.forall_fin_two.2 ⟨rfl, rfl⟩, ?_, ?_, ?_⟩
    · exact hindependent.once h₉ (Fin.forall_fin_two.2 ⟨rfl, rfl⟩)
    · cbv
    · refine (hindependent.payoffs h₉ (Fin.forall_fin_two.2 ⟨rfl, rfl⟩)).trans ?_
      cbv
  · obtain ⟨w, _, _, hw, -⟩ := Job.exists_reverse hstart
    exact ⟨w, hw, hreverse w hw⟩
  · have hprices : (simulate spotJob.product spotJob.model spotJob.stream spotJob.config).map (·.payoffs) =
        .ok #[200, 0, 200] := by cbv
    rcases hr : simulate spotJob.product spotJob.model spotJob.stream spotJob.config with e | r
    · rw [hr] at hprices
      contradiction
    · obtain ⟨w, hw, hbatch, -⟩ := hsimulate _ r rfl rfl hr
      obtain rfl : spotWorker = w := Except.ok.inj (hstart.symm.trans hw)
      exact ⟨r, rfl, hbatch⟩

end Whole

end PayoffPricing.Simulation
