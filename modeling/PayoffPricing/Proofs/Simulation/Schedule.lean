import Mathlib.Algebra.BigOperators.Group.Finset.Basic
import Mathlib.Algebra.Order.BigOperators.Group.Finset
import Mathlib.Data.Fintype.BigOperators
import PayoffPricing.Proofs.Simulation.Runs
import PayoffPricing.Simulation.Run
/-!
Schedules of workers. Any number of workers take batches from one queue and simulate their paths, each
step of each worker at a time of its own. What the workers hold between them is one batch for every number
that the queue has handed out, and all that was simulated are the paths of these batches.
-/

namespace PayoffPricing.Simulation

open PayoffPricing.Random

/-- What a worker is at: between batches, in a batch with the payoffs so far, or gone. -/
inductive Task (R : Type) where
  | idle
  | busy (b : Batch) (payoffs : Array R)
  | done

structure Desk (R G S T : Type) where
  workspace : Workspace R G T
  record : S
  task : Task R
  output : Output R

/-- Workers around one queue. -/
structure Crew (R G S T : Type) (k : Nat) where
  queue : BatchQueue
  desks : Fin k → Desk R G S T

variable {R G S T : Type}

/-- One step of one worker, and the path that it simulated. A step is a look at the queue, a path, or the end
of a batch. -/
inductive DeskStep [DrawStream R G] (path : Working R G S T R) :
    BatchQueue → Desk R G S T → Option Nat → BatchQueue → Desk R G S T → Prop
  | take {q d b} (hidle : d.task = .idle) (hpop : q.pop.1 = some b) :
    DeskStep path q d none q.pop.2 { d with
      workspace := { d.workspace with stream := DrawStream.skipTo b.first d.workspace.stream }
      task := .busy b #[] }
  | leave {q d} (hidle : d.task = .idle) (hpop : q.pop.1 = none) :
    DeskStep path q d none q.pop.2 { d with task := .done }
  | path {q d b payoffs x u s} (htask : d.task = .busy b payoffs) (hleft : b.first + payoffs.size < b.stop)
    (hpath : path.exec d.workspace d.record = ((.ok x, u), s)) :
    DeskStep path q d (some (b.first + payoffs.size)) q
      { d with workspace := u, record := s, task := .busy b (payoffs.push x) }
  | handIn {q d b payoffs} (htask : d.task = .busy b payoffs) (hfull : b.stop ≤ b.first + payoffs.size) :
    DeskStep path q d none q { d with task := .idle, output := d.output.push (b.index, payoffs) }

/-- Steps of any workers in any order, with the paths in the order in which they were simulated. -/
inductive Run [DrawStream R G] (path : Working R G S T R) {k : Nat} (start : Crew R G S T k) :
    List Nat → Crew R G S T k → Prop
  | start : Run path start [] start
  | step {trace c i label q d} (h : Run path start trace c) (hstep : DeskStep path c.queue (c.desks i) label q d) :
    Run path start (trace ++ label.toList) ⟨q, Function.update c.desks i d⟩

namespace Crew

variable {k : Nat}

/-- Equal workers before a queue. -/
def assembled (k : Nat) (q : BatchQueue) (w : Worker R G S T) : Crew R G S T k :=
  ⟨q, fun _ => ⟨w.workspace, w.record, .idle, #[]⟩⟩

def Finished (c : Crew R G S T k) : Prop := ∀ i, (c.desks i).task = .done

/-- The payoffs of all workers, each one at the place of its path. -/
def payoffs (c : Crew R G S T k) (size : Nat) (initial : Array R) : Array R :=
  (List.ofFn c.desks).foldl (fun payoffs d => writeBatches size payoffs d.output) initial

end Crew

section Batches

variable {n size : Nat}

theorem flatMap_batches (m : Nat) :
    (List.range m).flatMap (fun i => List.range' (i * size) (min (i * size + size) n - i * size)) =
      List.range (min (m * size) n) := by
  induction m with
  | zero => simp
  | succ m ih =>
    rw [List.range_succ, List.flatMap_append, ih, List.flatMap_singleton, List.range_eq_range', List.range_eq_range',
      Nat.succ_mul]
    by_cases h : m * size ≤ n
    · have hsum : min (m * size + size) n = m * size + (min (m * size + size) n - m * size) := by omega
      have happend := List.range'_append_1 (s := 0) (m := m * size) (n := min (m * size + size) n - m * size)
      rw [Nat.zero_add] at happend
      rw [Nat.min_eq_left h, happend, ← hsum]
    · have hempty : min (m * size + size) n - m * size = 0 := by omega
      have hsame : min (m * size + size) n = min (m * size) n := by omega
      rw [hempty, hsame, List.range'_zero, List.append_nil]

theorem le_ceilDiv_mul (h : 0 < size) : n ≤ Config.ceilDiv n size * size := by
  have := Nat.lt_div_mul_add (a := n + size - 1) h
  unfold Config.ceilDiv
  omega

theorem flatMap_ofPaths (h : 0 < size) :
    (List.range (BatchQueue.ofPaths n size).count).flatMap
      (fun i => List.range' (i * size) (min (i * size + size) n - i * size)) = List.range n := by
  rw [flatMap_batches]
  change List.range (min (Config.ceilDiv n size * size) n) = _
  rw [Nat.min_eq_right (le_ceilDiv_mul h)]

end Batches

section Sums

variable {α M : Type} [AddCommMonoid M] {k : Nat}

theorem sum_update (f : α → M) (xs : Fin k → α) (i : Fin k) {x : α} {δ : M} (h : f x = f (xs i) + δ) :
    ∑ j, f (Function.update xs i x j) = ∑ j, f (xs j) + δ := by
  rw [← Finset.add_sum_erase _ _ (Finset.mem_univ i), ← Finset.add_sum_erase Finset.univ (fun j => f (xs j))
    (Finset.mem_univ i), Function.update_self, h]
  have hrest : ∑ j ∈ Finset.univ.erase i, f (Function.update xs i x j) = ∑ j ∈ Finset.univ.erase i, f (xs j) := by
    refine Finset.sum_congr rfl fun j hj => ?_
    rw [Function.update_of_ne (Finset.ne_of_mem_erase hj)]
  rw [hrest, add_right_comm]

end Sums

namespace Desk

/-- The batches that a worker has, with their payoffs. -/
def held (d : Desk R G S T) : List (Nat × Array R) :=
  d.output.toList ++ match d.task with
    | .busy b payoffs => [(b.index, payoffs)]
    | _ => []

/-- The numbers of these batches. -/
def claimed (d : Desk R G S T) : Multiset Nat := ↑(d.held.map Prod.fst)

/-- The paths that a worker has simulated. -/
def simulated (size : Nat) (d : Desk R G S T) : Multiset Nat :=
  ↑(d.held.flatMap fun e => List.range' (e.1 * size) e.2.size)

end Desk

variable [DrawStream R G]

/-- Paths whose payoff `price` is a matter of their place in the stream alone, for workers in `Ready` states. -/
structure Positional (path : Working R G S T R) (g : G) (Ready : Workspace R G T → S → Prop)
    (price : Nat → Except (Fault (SimulationError R)) R) : Prop where
  place {u s} (i : Nat) (h : Ready u s) :
    Ready { u with stream := DrawStream.skipTo i u.stream } s ∧ DrawStream.skipTo i u.stream = DrawStream.skipTo i g
  result {i u s} (h : Ready u s) (hu : u.stream = DrawStream.skipTo i g) : (path.exec u s).1.1 = price i
  next {i u s x u' s'} (h : Ready u s) (hu : u.stream = DrawStream.skipTo i g)
    (hpath : path.exec u s = ((.ok x, u'), s')) : Ready u' s' ∧ u'.stream = DrawStream.skipTo (i + 1) g

/-- The payoffs are those of the paths from `first` on. -/
def Priced (price : Nat → Except (Fault (SimulationError R)) R) (first : Nat) (payoffs : Array R) : Prop :=
  ∀ j x, payoffs[j]? = some x → price (first + j) = .ok x

omit [DrawStream R G] in
theorem priced_push {price : Nat → Except (Fault (SimulationError R)) R} {first : Nat} {payoffs : Array R} {x : R}
    (h : Priced price first payoffs) (hx : price (first + payoffs.size) = .ok x) :
    Priced price first (payoffs.push x) := by
  intro j y hy
  rw [Array.getElem?_push] at hy
  split at hy
  · next hj =>
    cases hy
    rw [hj, hx]
  · exact h j y hy

section Places

variable {price : Nat → Except (Fault (SimulationError R)) R} {payoffs values : Array R} {first i : Nat}

/-- The payoff at a place is the one of the path there. -/
def Placed (price : Nat → Except (Fault (SimulationError R)) R) (payoffs : Array R) (i : Nat) : Prop :=
  ∃ x, payoffs[i]? = some x ∧ price i = .ok x

omit [DrawStream R G]

theorem writeAt_cons (x : R) (xs : List R) :
    writeAt payoffs first (x :: xs).toArray = writeAt (payoffs.setIfInBounds first x) (first + 1) xs.toArray := by
  simp [writeAt]

theorem size_writeAt : (writeAt payoffs first values).size = payoffs.size := by
  obtain ⟨xs⟩ := values
  induction xs generalizing payoffs first with
  | nil => rfl
  | cons x xs ih => rw [writeAt_cons, ih, Array.size_setIfInBounds]

theorem getElem?_writeAt (hi : i < payoffs.size) :
    (writeAt payoffs first values)[i]? =
      if first ≤ i ∧ i < first + values.size then values[i - first]? else payoffs[i]? := by
  obtain ⟨xs⟩ := values
  induction xs generalizing payoffs first with
  | nil =>
    rw [if_neg (by simp)]
    rfl
  | cons x xs ih =>
    have hsize : i < (payoffs.setIfInBounds first x).size := by rwa [Array.size_setIfInBounds]
    rw [writeAt_cons, ih hsize]
    simp only [List.size_toArray, List.length_cons, List.getElem?_toArray]
    by_cases hbefore : i < first
    · rw [if_neg (by omega), if_neg (by omega), Array.getElem?_setIfInBounds_ne (by omega)]
    · by_cases hhere : i = first
      · subst hhere
        rw [if_neg (by omega), if_pos (by omega), Nat.sub_self, List.getElem?_cons_zero,
          Array.getElem?_setIfInBounds_self_of_lt hi]
      · have hplace : i - first = (i - (first + 1)) + 1 := by omega
        by_cases hafter : i < first + 1 + xs.length
        · rw [if_pos (by omega), if_pos (by omega), hplace, List.getElem?_cons_succ]
        · rw [if_neg (by omega), if_neg (by omega), Array.getElem?_setIfInBounds_ne (by omega)]

theorem placed_writeAt (h : Priced price first values)
    (hi : Placed price payoffs i ∨ i < payoffs.size ∧ first ≤ i ∧ i < first + values.size) :
    Placed price (writeAt payoffs first values) i := by
  have hlt : i < payoffs.size := by
    rcases hi with ⟨x, hx, -⟩ | hi
    · exact (Array.getElem?_eq_some_iff.1 hx).1
    · exact hi.1
  rw [Placed, getElem?_writeAt hlt]
  by_cases hinside : first ≤ i ∧ i < first + values.size
  · have hplace : i - first < values.size := by omega
    have hprice := h (i - first) _ (Array.getElem?_eq_getElem hplace)
    rw [Nat.add_sub_cancel' hinside.1] at hprice
    rw [if_pos hinside]
    exact ⟨_, Array.getElem?_eq_getElem hplace, hprice⟩
  · rw [if_neg hinside]
    exact hi.resolve_right fun hcovered => hinside hcovered.2

theorem placed_foldl {size : Nat} {entries : List (Nat × Array R)}
    (hentries : ∀ e ∈ entries, Priced price (e.1 * size) e.2)
    (hi : Placed price payoffs i ∨ i < payoffs.size ∧ ∃ e ∈ entries, e.1 * size ≤ i ∧ i < e.1 * size + e.2.size) :
    Placed price (entries.foldl (fun payoffs e => writeAt payoffs (e.1 * size) e.2) payoffs) i := by
  induction entries generalizing payoffs with
  | nil =>
    rcases hi with hi | ⟨-, e, he, -⟩
    · exact hi
    · contradiction
  | cons e entries ih =>
    have hfirst : Priced price (e.1 * size) e.2 := hentries e List.mem_cons_self
    apply ih fun e' he' => hentries e' (List.mem_cons_of_mem _ he')
    rcases hi with hi | ⟨hlt, e', he', hcovered⟩
    · exact .inl (placed_writeAt hfirst (.inl hi))
    · rcases List.mem_cons.1 he' with rfl | he'
      · exact .inl (placed_writeAt hfirst (.inr ⟨hlt, hcovered⟩))
      · exact .inr ⟨size_writeAt.symm ▸ hlt, e', he', hcovered⟩

theorem size_foldl_writeAt {size : Nat} (entries : List (Nat × Array R)) :
    (entries.foldl (fun payoffs e => writeAt payoffs (e.1 * size) e.2) payoffs).size = payoffs.size := by
  induction entries generalizing payoffs with
  | nil => rfl
  | cons e entries ih => rw [List.foldl_cons, ih, size_writeAt]

theorem Crew.payoffs_eq {k : Nat} (c : Crew R G S T k) (size : Nat) (initial : Array R) :
    c.payoffs size initial = ((List.ofFn c.desks).flatMap fun d => d.output.toList).foldl
      (fun payoffs e => writeAt payoffs (e.1 * size) e.2) initial := by
  rw [List.foldl_flatMap]
  simp only [Crew.payoffs, writeBatches, Array.foldl_toList]

theorem Crew.size_payoffs {k : Nat} (c : Crew R G S T k) (size : Nat) (initial : Array R) :
    (c.payoffs size initial).size = initial.size := by
  rw [Crew.payoffs_eq, size_foldl_writeAt]

end Places

section Invariant

variable {path : Working R G S T R} {g : G} {Ready : Workspace R G T → S → Prop}
  {price : Nat → Except (Fault (SimulationError R)) R} {n size k : Nat} {q q' : BatchQueue} {d d' : Desk R G S T}
  {label : Option Nat}

/-- A worker that has simulated its batches as far as it has come. -/
structure Desk.Fits (g : G) (Ready : Workspace R G T → S → Prop)
    (price : Nat → Except (Fault (SimulationError R)) R) (q : BatchQueue) (d : Desk R G S T) : Prop where
  ready : Ready d.workspace d.record
  priced : ∀ e ∈ d.held, Priced price (e.1 * q.size) e.2
  full : ∀ e ∈ d.output.toList, e.2.size = min (e.1 * q.size + q.size) q.paths - e.1 * q.size
  busy : ∀ b payoffs, d.task = .busy b payoffs → b = q.batchAt b.index ∧ payoffs.size ≤ b.stop - b.first ∧
    d.workspace.stream = DrawStream.skipTo (b.first + payoffs.size) g
  done : d.task = .done → q.count ≤ q.next

theorem Desk.Fits.popped (h : d.Fits g Ready price q) : d.Fits g Ready price q.pop.2 :=
  ⟨h.ready, h.priced, h.full, h.busy, fun hd => Nat.le_succ_of_le (h.done hd)⟩

theorem DeskStep.queue (h : DeskStep path q d label q' d') : q' = q ∨ q' = q.pop.2 := by
  cases h with
  | take | leave => exact .inr rfl
  | path | handIn => exact .inl rfl

theorem DeskStep.fits (hpath : Positional path g Ready price) (h : d.Fits g Ready price q)
    (hstep : DeskStep path q d label q' d') : d'.Fits g Ready price q' := by
  cases hstep with
  | @take b hidle hpop =>
    obtain ⟨hready, hstream⟩ := hpath.place b.first h.ready
    have hb : b = q.batchAt b.index := by
      simp only [BatchQueue.pop] at hpop
      split at hpop
      · cases hpop
        rfl
      · contradiction
    refine ⟨hready, ?_, h.full, ?_, fun hd => ?_⟩
    · intro e he
      rcases List.mem_append.1 he with he | he
      · exact h.priced e (List.mem_append_left _ he)
      · rw [List.mem_singleton.1 he]
        intro j x hx
        contradiction
    · intro b' payoffs hbusy
      cases hbusy
      exact ⟨hb, Nat.zero_le _, hstream⟩
    · contradiction
  | leave hidle hpop =>
    have hcount : q.count ≤ q.next := by
      simp only [BatchQueue.pop] at hpop
      split at hpop
      · contradiction
      · omega
    refine ⟨h.ready, fun e he => h.priced e ?_, h.full, fun _ _ hbusy => ?_, fun _ => Nat.le_succ_of_le hcount⟩
    · rw [Desk.held, List.append_nil] at he
      exact List.mem_append_left _ he
    · contradiction
  | @path b payoffs x u s htask hleft hexec =>
    obtain ⟨hb, hsize, hstream⟩ := h.busy b payoffs htask
    obtain ⟨hready, hnext⟩ := hpath.next h.ready hstream hexec
    have hx : price (b.first + payoffs.size) = .ok x := by
      rw [← hpath.result h.ready hstream, hexec]
    have hfirst : b.first = b.index * q.size := by
      rw [hb]
      rfl
    refine ⟨hready, ?_, h.full, ?_, fun hd => ?_⟩
    · intro e he
      rcases List.mem_append.1 he with he | he
      · exact h.priced e (List.mem_append_left _ he)
      · rw [List.mem_singleton.1 he]
        have hbefore : (b.index, payoffs) ∈ d.held := by
          rw [Desk.held, htask]
          exact List.mem_append_right _ (List.mem_singleton_self _)
        exact priced_push (h.priced _ hbefore) (hfirst ▸ hx)
    · intro b' payoffs' hbusy
      cases hbusy
      refine ⟨hb, ?_, ?_⟩
      · rw [Array.size_push]
        omega
      · rw [Array.size_push]
        exact hnext
    · contradiction
  | @handIn b payoffs htask hfull =>
    obtain ⟨hb, hsize, -⟩ := h.busy b payoffs htask
    refine ⟨h.ready, fun e he => h.priced e ?_, ?_, fun _ _ hbusy => ?_, fun hd => ?_⟩
    · rw [Desk.held, htask]
      rwa [Desk.held, List.append_nil, Array.toList_push] at he
    · intro e he
      rw [Array.toList_push] at he
      rcases List.mem_append.1 he with he | he
      · exact h.full e he
      · rw [List.mem_singleton.1 he]
        have hwhole : payoffs.size = b.stop - b.first := by omega
        rw [hwhole, hb]
        rfl
    · contradiction
    · contradiction

/-- The numbers of the batches that the queue has handed out. -/
def Crew.handedOut (q : BatchQueue) : Multiset Nat := Multiset.range (min q.next q.count)

theorem DeskStep.claimed (hstep : DeskStep path q d label q' d') :
    ∃ taken, d'.claimed = d.claimed + taken ∧ Crew.handedOut q' = Crew.handedOut q + taken := by
  cases hstep with
  | @take b hidle hpop =>
    refine ⟨{b.index}, ?_, ?_⟩
    · simp only [Desk.claimed, Desk.held, hidle, List.append_nil, List.map_append, List.map_cons, List.map_nil,
        ← Multiset.coe_add, Multiset.coe_singleton]
    · simp only [BatchQueue.pop] at hpop
      split at hpop
      · next hmore =>
        cases hpop
        have hbefore : min q.next q.count = q.next := by omega
        have hafter : min (q.next + 1) q.count = q.next + 1 := by omega
        simp only [Crew.handedOut, BatchQueue.pop, hbefore, hafter, Multiset.range_succ]
        rw [add_comm, Multiset.singleton_add]
        rfl
      · contradiction
  | leave hidle hpop =>
    refine ⟨0, ?_, ?_⟩
    · simp [Desk.claimed, Desk.held, hidle]
    · simp only [BatchQueue.pop] at hpop
      split at hpop
      · contradiction
      · have hsame : min (q.next + 1) q.count = min q.next q.count := by omega
        simp only [Crew.handedOut, BatchQueue.pop, hsame, add_zero]
  | path htask _ _ => exact ⟨0, by simp [Desk.claimed, Desk.held, htask], (add_zero _).symm⟩
  | handIn htask _ => exact ⟨0, by simp [Desk.claimed, Desk.held, htask], (add_zero _).symm⟩

theorem DeskStep.simulated (h : d.Fits g Ready price q) (hstep : DeskStep path q d label q' d') :
    d'.simulated q.size = d.simulated q.size + ↑label.toList := by
  cases hstep with
  | take hidle _ => simp [Desk.simulated, Desk.held, hidle]
  | leave hidle _ => simp [Desk.simulated, Desk.held, hidle]
  | @path b payoffs x u s htask hleft hexec =>
    have hfirst : b.first = b.index * q.size := by
      rw [(h.busy b payoffs htask).1]
      rfl
    simp only [Desk.simulated, Desk.held, htask, List.flatMap_append, List.flatMap_singleton, Array.size_push,
      List.range'_1_concat, Option.toList_some, hfirst]
    rw [Multiset.coe_add, List.append_assoc]
  | handIn htask _ => simp [Desk.simulated, Desk.held, htask]

/-- What holds between the workers after the paths of `trace`. -/
structure Crew.Consistent (g : G) (Ready : Workspace R G T → S → Prop)
    (price : Nat → Except (Fault (SimulationError R)) R) (n size : Nat) (trace : List Nat) (c : Crew R G S T k) :
    Prop where
  queue : c.queue = { BatchQueue.ofPaths n size with next := c.queue.next }
  fits : ∀ i, (c.desks i).Fits g Ready price c.queue
  claimed : ∑ i, (c.desks i).claimed = Crew.handedOut c.queue
  simulated : ∑ i, (c.desks i).simulated size = ↑trace

theorem Crew.Consistent.size_eq {c : Crew R G S T k} {trace : List Nat} (h : c.Consistent g Ready price n size trace) :
    c.queue.size = size := congrArg BatchQueue.size h.queue

theorem Crew.Consistent.paths_eq {c : Crew R G S T k} {trace : List Nat} (h : c.Consistent g Ready price n size trace) :
    c.queue.paths = n := congrArg BatchQueue.paths h.queue

theorem Crew.Consistent.count_eq {c : Crew R G S T k} {trace : List Nat} (h : c.Consistent g Ready price n size trace) :
    c.queue.count = (BatchQueue.ofPaths n size).count := by rw [h.queue]

theorem consistent_assembled {w : Worker R G S T} (hw : Ready w.workspace w.record) :
    (Crew.assembled k (BatchQueue.ofPaths n size) w).Consistent g Ready price n size [] where
  queue := rfl
  fits i := ⟨hw, fun e he => by contradiction, fun e he => by contradiction, fun _ _ hbusy => by contradiction,
    fun hd => by contradiction⟩
  claimed := by simp [Crew.assembled, Desk.claimed, Desk.held, Crew.handedOut, BatchQueue.ofPaths]
  simulated := by simp [Crew.assembled, Desk.simulated, Desk.held]

theorem Crew.Consistent.step {c : Crew R G S T k} {trace : List Nat} {i : Fin k}
    (hpath : Positional path g Ready price) (h : c.Consistent g Ready price n size trace)
    (hstep : DeskStep path c.queue (c.desks i) label q d) :
    (Crew.mk q (Function.update c.desks i d)).Consistent g Ready price n size (trace ++ label.toList) := by
  refine ⟨?_, fun j => ?_, ?_, ?_⟩
  · rcases hstep.queue with hq | hq
    · rw [hq]
      exact h.queue
    · rw [hq, BatchQueue.pop, h.queue]
  · change Desk.Fits g Ready price q (Function.update c.desks i d j)
    by_cases hj : j = i
    · subst hj
      rw [Function.update_self]
      exact hstep.fits hpath (h.fits j)
    · rw [Function.update_of_ne hj]
      rcases hstep.queue with hq | hq
      · rw [hq]
        exact h.fits j
      · rw [hq]
        exact (h.fits j).popped
  · obtain ⟨taken, hclaimed, hqueue⟩ := hstep.claimed
    rw [sum_update _ _ _ hclaimed, h.claimed, hqueue]
  · have hsimulated := hstep.simulated (h.fits i)
    rw [h.size_eq] at hsimulated
    rw [sum_update _ _ _ hsimulated, h.simulated, Multiset.coe_add]

/-- Whatever the workers do in whatever order, they stay consistent. -/
theorem Run.consistent {w : Worker R G S T} {c : Crew R G S T k} {trace : List Nat}
    (hpath : Positional path g Ready price) (hw : Ready w.workspace w.record)
    (h : Run path (Crew.assembled k (BatchQueue.ofPaths n size) w) trace c) :
    c.Consistent g Ready price n size trace := by
  induction h with
  | start => exact consistent_assembled hw
  | step _ hstep ih => exact ih.step hpath hstep

section Finished

variable {c : Crew R G S T k} {trace : List Nat}

theorem Crew.Consistent.handedOut_finished (h : c.Consistent g Ready price n size trace) (hk : 0 < k)
    (hc : c.Finished) : Crew.handedOut c.queue = Multiset.range (BatchQueue.ofPaths n size).count := by
  have hall : c.queue.count ≤ c.queue.next := (h.fits ⟨0, hk⟩).done (hc ⟨0, hk⟩)
  rw [Crew.handedOut, Nat.min_eq_right hall, h.count_eq]

theorem Crew.Consistent.simulated_finished (h : c.Consistent g Ready price n size trace) (hc : c.Finished)
    (i : Fin k) : (c.desks i).simulated size =
      (c.desks i).claimed.bind fun b => ↑(List.range' (b * size) (min (b * size + size) n - b * size)) := by
  have hfull := (h.fits i).full
  rw [h.size_eq, h.paths_eq] at hfull
  simp only [Desk.simulated, Desk.claimed, Desk.held, hc i, List.append_nil, Multiset.coe_bind, List.flatMap_map]
  refine congrArg _ (List.flatMap_congr fun e he => ?_)
  rw [hfull e he]

/-- When all workers are done, each path was simulated once. -/
theorem Crew.Consistent.trace_perm (h : c.Consistent g Ready price n size trace) (hsize : 0 < size) (hk : 0 < k)
    (hc : c.Finished) : trace.Perm (List.range n) := by
  let paths (b : Nat) : Multiset Nat := ↑(List.range' (b * size) (min (b * size + size) n - b * size))
  let gather : Multiset Nat →+ Multiset Nat :=
    { toFun := fun bs => bs.bind paths, map_zero' := Multiset.zero_bind paths, map_add' := fun bs cs => Multiset.add_bind bs cs paths }
  have hsum : ∑ i, (c.desks i).simulated size = gather (∑ i, (c.desks i).claimed) := by
    rw [map_sum]
    exact Finset.sum_congr rfl fun i _ => h.simulated_finished hc i
  rw [h.claimed, h.handedOut_finished hk hc, h.simulated] at hsum
  apply Multiset.coe_eq_coe.1
  rw [hsum]
  change (Multiset.range _).bind paths = _
  rw [← flatMap_ofPaths hsize, ← Multiset.coe_range, Multiset.coe_bind]

/-- When all workers are done, each path has its payoff at its place. -/
theorem Crew.Consistent.placed (h : c.Consistent g Ready price n size trace) (hsize : 0 < size) (hk : 0 < k)
    (hc : c.Finished) {initial : Array R} (hinitial : initial.size = n) {i : Nat} (hi : i < n) :
    Placed price (c.payoffs size initial) i := by
  rw [Crew.payoffs_eq]
  apply placed_foldl
  · intro e he
    obtain ⟨d, hd, hed⟩ := List.mem_flatMap.1 he
    obtain ⟨j, rfl⟩ := (List.mem_ofFn' _ _).1 hd
    have hpriced := (h.fits j).priced e (List.mem_append_left _ hed)
    rwa [h.size_eq] at hpriced
  · right
    have hcovered : i < (BatchQueue.ofPaths n size).count * size := hi.trans_le (le_ceilDiv_mul hsize)
    have hbatch : i / size ∈ ∑ j, (c.desks j).claimed := by
      rw [h.claimed, h.handedOut_finished hk hc, Multiset.mem_range]
      exact Nat.div_lt_of_lt_mul (Nat.mul_comm _ size ▸ hcovered)
    obtain ⟨j, -, hj⟩ := Multiset.mem_sum.1 hbatch
    obtain ⟨e, he, hindex⟩ := List.mem_map.1 (Multiset.mem_coe.1 hj)
    rw [Desk.held, hc j, List.append_nil] at he
    have hfull := (h.fits j).full e he
    rw [h.size_eq, h.paths_eq, hindex] at hfull
    have hbelow : i / size * size ≤ i := Nat.div_mul_le_self i size
    have habove : i < i / size * size + size := Nat.lt_div_mul_add hsize
    refine ⟨hinitial ▸ hi, e, List.mem_flatMap.2 ⟨c.desks j, (List.mem_ofFn' _ _).2 ⟨j, rfl⟩, he⟩, ?_⟩
    rw [hfull, hindex]
    omega

end Finished

/-- Consecutive paths of one worker. -/
theorem Positional.exec_runPaths (hpath : Positional path g Ready price) {u : Workspace R G T} {s : S} {i : Nat}
    (hready : Ready u s) (hu : u.stream = DrawStream.skipTo i g) (xs : List R) (hxs : Priced price i xs.toArray)
    (payoffs : Array R) :
    ((Working.runPaths path payoffs xs.length).exec u s).1.1 = .ok (payoffs ++ xs.toArray) := by
  induction xs generalizing u s i payoffs with
  | nil => simp [Working.runPaths]
  | cons x xs ih =>
    have hx : (path.exec u s).1.1 = .ok x := (hpath.result hready hu).trans (hxs 0 x rfl)
    rcases hexec : path.exec u s with ⟨⟨r, u'⟩, s'⟩
    rw [hexec] at hx
    obtain rfl : r = .ok x := hx
    obtain ⟨hready', hu'⟩ := hpath.next hready hu hexec
    have hrest : Priced price (i + 1) xs.toArray := by
      intro j y hy
      have hplace : i + 1 + j = i + (j + 1) := by omega
      rw [hplace]
      apply hxs
      simpa using hy
    rw [List.length_cons, Working.runPaths, Working.exec_bind, hexec]
    dsimp only
    rw [ih hready' hu' hrest]
    simp

end Invariant

end PayoffPricing.Simulation
