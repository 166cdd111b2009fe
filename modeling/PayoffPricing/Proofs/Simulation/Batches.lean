import PayoffPricing.Proofs.Simulation.Independence
/-!
Batches for workers. Batches are no larger than an even share of the paths, but shares are rounded up,
so that there may be fewer batches than workers asked for: ten paths among six workers are five
batches of two. There are batches for `t` workers just where `t - 1` batches do not hold all paths.
-/

namespace PayoffPricing.Simulation

open PayoffPricing.Random

section Cuts

variable {n t k size : Nat}

theorem lt_ceilDiv_iff (h : 0 < size) : k < Config.ceilDiv n size ↔ k * size < n := by
  rw [Config.ceilDiv, Nat.lt_iff_add_one_le, Nat.le_div_iff_mul_le h, Nat.add_mul]
  omega

theorem le_count_iff (h : 0 < size) (ht : 1 ≤ t) :
    t ≤ (BatchQueue.ofPaths n size).count ↔ (t - 1) * size < n := by
  rw [← lt_ceilDiv_iff h]
  change t ≤ Config.ceilDiv n size ↔ _
  omega

theorem batchAt_nonempty (h : 0 < size) (hk : k < (BatchQueue.ofPaths n size).count) :
    ((BatchQueue.ofPaths n size).batchAt k).first < ((BatchQueue.ofPaths n size).batchAt k).stop := by
  have hfirst : k * size < n := (lt_ceilDiv_iff h).1 hk
  change k * size < min (k * size + size) n
  omega

theorem pred_mul_lt (hn : 0 < n) (hsize : size ≤ max 1 (Config.ceilDiv n t)) (ht : 1 ≤ t) :
    (size - 1) * t < n := by
  by_cases hone : size ≤ 1
  · have hzero : size - 1 = 0 := by omega
    rwa [hzero, Nat.zero_mul]
  · apply (lt_ceilDiv_iff ht).1
    omega

theorem lt_two_mul_count (ht : 1 ≤ t) (hn : t ≤ n) (h : 0 < size)
    (hshare : (size - 1) * t < n) : t < 2 * (BatchQueue.ofPaths n size).count := by
  have hcover : n ≤ (BatchQueue.ofPaths n size).count * size := le_ceilDiv_mul h
  by_cases hone : size = 1
  · subst hone
    calc t
      _ < 2 * t := by omega
      _ ≤ _ := Nat.mul_le_mul_left 2 (hn.trans (by omega))
  · obtain ⟨s, rfl⟩ : ∃ s, size = s + 2 := ⟨size - 2, by omega⟩
    change (s + 1) * t < n at hshare
    -- otherwise the batches would cover no more than half of `t * size` paths
    by_contra hfew
    have hhalf : 2 * ((BatchQueue.ofPaths n (s + 2)).count * (s + 2)) ≤ t * (s + 2) := by
      rw [← Nat.mul_assoc]
      exact Nat.mul_le_mul_right _ (not_lt.1 hfew)
    nlinarith

end Cuts

namespace Config

variable {R : Type} [Scalar R] (c : Config R) {t : Nat}

/-- The batches for a number of workers. -/
def batches (t : Nat) : BatchQueue := .ofPaths c.paths (c.effectiveBatchSize t)

theorem effectiveBatchSize_pos : 0 < c.effectiveBatchSize t := Nat.lt_of_lt_of_le Nat.one_pos (Nat.le_max_left ..)

theorem effectiveBatchSize_le : c.effectiveBatchSize t ≤ c.batchSize := by
  have := c.batchSize_pos
  unfold effectiveBatchSize
  omega

theorem effectiveBatchSize_le_share (ht : 1 ≤ t) :
    c.effectiveBatchSize t ≤ max 1 (ceilDiv c.paths t) := by
  unfold effectiveBatchSize
  rw [Nat.max_eq_right ht]
  omega

theorem pred_effectiveBatchSize_mul_lt (ht : 1 ≤ t) : (c.effectiveBatchSize t - 1) * t < c.paths :=
  pred_mul_lt c.paths_pos (c.effectiveBatchSize_le_share ht) ht

theorem le_count_batches (ht : 1 ≤ t)
    (h : t ∣ c.paths ∨ (t - 1) * (t - 1) < c.paths ∨ (t - 1) * c.batchSize < c.paths) :
    t ≤ (c.batches t).count := by
  have hshare := c.pred_effectiveBatchSize_mul_lt ht
  have hpos := c.effectiveBatchSize_pos (t := t)
  apply (le_count_iff hpos ht).2
  generalize hsize : c.effectiveBatchSize t = size at *
  obtain ⟨s, rfl⟩ : ∃ s, size = s + 1 := ⟨size - 1, by omega⟩
  obtain ⟨u, rfl⟩ : ∃ u, t = u + 1 := ⟨t - 1, by omega⟩
  simp only [Nat.add_sub_cancel] at *
  obtain ⟨d, hd⟩ | hsquare | hbatch := h
  · rw [hd] at hshare ⊢
    have hsd : s < d := by
      rw [Nat.mul_comm] at hshare
      exact Nat.lt_of_mul_lt_mul_left hshare
    nlinarith
  · by_cases hsu : s < u
    · nlinarith
    · nlinarith
  · have hle := c.effectiveBatchSize_le (t := u + 1)
    rw [hsize] at hle
    exact Nat.lt_of_le_of_lt (Nat.mul_le_mul_left u hle) hbatch

end Config

variable {R G : Type} [Scalar R] [DrawStream R G]

theorem counts_of_simulate {p : Product R} {m : Model R R} {stream : G} {c : Config R} {r : Result R}
    (h : simulate p m stream c = .ok r) :
    r.batches = (c.batches c.effectiveThreads).count ∧
      r.workers = min c.effectiveThreads (c.batches c.effectiveThreads).count := by
  rw [simulate_eq] at h
  obtain ⟨prepared, -, h⟩ := bind_eq_ok_iff.1 h
  obtain ⟨results, -, h⟩ := bind_eq_ok_iff.1 h
  obtain rfl := Except.ok.inj h
  exact ⟨rfl, rfl⟩

/-- All workers asked for get a batch just where `t - 1` batches do not hold all paths: so it is where
the paths divide evenly, where there are more than `(t - 1)²` of them, or where the batches asked for are
small. More than half of the workers always get one. -/
theorem workers_have_batches (c : Config R) {t : Nat} (ht : 1 ≤ t) (hle : t ≤ c.paths) :
    (t ≤ (c.batches t).count ↔ (t - 1) * c.effectiveBatchSize t < c.paths) ∧
      (t ∣ c.paths ∨ (t - 1) * (t - 1) < c.paths ∨ (t - 1) * c.batchSize < c.paths →
        t ≤ (c.batches t).count) ∧
      t < 2 * (c.batches t).count ∧
      (∀ k < (c.batches t).count, ((c.batches t).batchAt k).first < ((c.batches t).batchAt k).stop) ∧
      ∀ (p : Product R) (m : Model R R) (stream : G) (r : Result R), c.effectiveThreads = t →
        simulate p m stream c = .ok r →
        r.batches = (c.batches t).count ∧ r.workers = min t r.batches ∧
          (r.workers = t ↔ (t - 1) * c.effectiveBatchSize t < c.paths) := by
  have hpos := c.effectiveBatchSize_pos (t := t)
  have hcount := le_count_iff (n := c.paths) hpos ht
  refine ⟨hcount, c.le_count_batches ht, ?_, fun k hk => batchAt_nonempty hpos hk, ?_⟩
  · exact lt_two_mul_count ht hle hpos (c.pred_effectiveBatchSize_mul_lt ht)
  · rintro p m stream r rfl h
    obtain ⟨hbatches, hworkers⟩ := counts_of_simulate h
    rw [← hbatches] at hworkers
    refine ⟨hbatches, hworkers, ?_⟩
    rw [hworkers, min_eq_left_iff, hbatches]
    exact hcount

section Whole

attribute [local instance] wholeNumbers

theorem workers_have_batches_spot :
    1 * 2 < spotJob.config.paths ∧
      ∃ r, simulate spotJob.product spotJob.model spotJob.stream spotJob.config = .ok r ∧ r.workers = 2 := by
  have hcondition : 1 * 2 < spotJob.config.paths := by decide
  have hpaths : (simulate spotJob.product spotJob.model spotJob.stream spotJob.config).toOption.map
      (·.paths) = some 3 := by decide +kernel
  obtain ⟨r, hr, -⟩ := exists_of_toOption_map hpaths
  have h := workers_have_batches (G := FixedStream Int) spotJob.config (t := 2) (by decide) (by decide)
  obtain ⟨-, -, hiff⟩ := h.2.2.2.2 spotJob.product spotJob.model spotJob.stream r (by decide) hr
  exact ⟨hcondition, r, hr, hiff.2 hcondition⟩

/-- Ten paths among six workers. -/
def sharedConfig : Config Int :=
  { spotJob.config with
    paths := 10
    threads := some 6
    paths_pos := by decide
    paths_le := by decide
    threads_ne := by decide }

theorem worker_without_batch :
    sharedConfig.effectiveThreads ≤ sharedConfig.paths ∧
      (sharedConfig.batches sharedConfig.effectiveThreads).count < sharedConfig.effectiveThreads ∧
      ∃ r, simulate spotJob.product spotJob.model spotJob.stream sharedConfig = .ok r ∧ r.workers = 5 := by
  have hworkers : (simulate spotJob.product spotJob.model spotJob.stream sharedConfig).toOption.map
      (·.workers) = some 5 := by decide +kernel
  obtain ⟨r, hr, h⟩ := exists_of_toOption_map hworkers
  exact ⟨by decide, by decide, r, hr, h⟩

end Whole

end PayoffPricing.Simulation
