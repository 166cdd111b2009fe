import Mathlib.Algebra.Ring.Nat
import Mathlib.Data.List.Nodup
import PayoffPricing.Random.Stream
import PayoffPricing.Simulation.Config
/-!
Seeds of paths. `splitmix64` takes different words to different words, so the paths of one seed have
generators that are seeded differently. Seeds and path numbers are joined by exclusive or before they
are scattered, so two seeds share the generators of those paths that differ as the seeds do.
-/

namespace PayoffPricing.Random

section Scattering

theorem eq_zero_of_shiftRight {d k : UInt64} (hk : 0 < k.toNat % 64) (h : d >>> k = d) : d = 0 := by
  have hd : d.toNat >>> (k.toNat % 64) = d.toNat := by
    rw [← UInt64.toNat_shiftRight, h]
  rw [Nat.shiftRight_eq_div_pow] at hd
  apply UInt64.toNat_inj.1
  change d.toNat = 0
  by_contra hne
  have hlt : d.toNat / 2 ^ (k.toNat % 64) < d.toNat :=
    Nat.div_lt_self (by omega) (Nat.one_lt_two_pow (by omega))
  omega

theorem eq_of_xor_shiftRight {x y k : UInt64} (hk : 0 < k.toNat % 64)
    (h : x ^^^ (x >>> k) = y ^^^ (y >>> k)) : x = y := by
  apply UInt64.xor_eq_zero_iff.1
  -- the difference of `x` and `y` is its own shift
  apply eq_zero_of_shiftRight hk
  rw [UInt64.shiftRight_xor]
  apply UInt64.xor_eq_zero_iff.1
  calc (x >>> k ^^^ y >>> k) ^^^ (x ^^^ y)
    _ = (x ^^^ x >>> k) ^^^ (y ^^^ y >>> k) := by ac_rfl
    _ = 0 := UInt64.xor_eq_zero_iff.2 h

theorem eq_of_mul_eq {x y a b : UInt64} (hab : a * b = 1) (h : x * a = y * a) : x = y := by
  calc x
    _ = x * a * b := by rw [UInt64.mul_assoc, hab, UInt64.mul_one]
    _ = y * a * b := by rw [h]
    _ = y := by rw [UInt64.mul_assoc, hab, UInt64.mul_one]

-- the steps of `splitmix64` are undone from the last to the first; both factors are odd
theorem eq_of_splitmix64_eq {x y : UInt64} (h : splitmix64 x = splitmix64 y) : x = y := by
  have h₁ := eq_of_xor_shiftRight (by decide) h
  have h₂ := eq_of_mul_eq (b := 0x319642B2D24D8EC3) (by decide) h₁
  have h₃ := eq_of_xor_shiftRight (by decide) h₂
  have h₄ := eq_of_mul_eq (b := 0x96DE1B173F119089) (by decide) h₃
  have h₅ := eq_of_xor_shiftRight (by decide) h₄
  exact (UInt64.add_left_inj _).1 h₅

end Scattering

/-- The seed of the generator of a path. -/
def pathSeed (seed : UInt64) (path : Nat) : UInt64 := splitmix64 (seed ^^^ path.toUInt64)

section Paths

variable {seed seed' : UInt64} {i j : Nat}

theorem pathSeed_eq_iff :
    pathSeed seed i = pathSeed seed' j ↔ seed ^^^ seed' = i.toUInt64 ^^^ j.toUInt64 := by
  have hswap : (seed ^^^ seed') ^^^ (i.toUInt64 ^^^ j.toUInt64) =
      (seed ^^^ i.toUInt64) ^^^ (seed' ^^^ j.toUInt64) := by ac_rfl
  constructor
  · intro h
    apply UInt64.xor_eq_zero_iff.1
    rw [hswap]
    exact UInt64.xor_eq_zero_iff.2 (eq_of_splitmix64_eq h)
  · intro h
    apply congrArg splitmix64
    apply UInt64.xor_eq_zero_iff.1
    rw [← hswap]
    exact UInt64.xor_eq_zero_iff.2 h

theorem eq_of_toUInt64_eq (hi : i < Word.limit) (hj : j < Word.limit)
    (h : i.toUInt64 = j.toUInt64) : i = j := by
  have h' := congrArg UInt64.toNat h
  change i % 2 ^ 64 = j % 2 ^ 64 at h'
  change i < 2 ^ 64 at hi
  change j < 2 ^ 64 at hj
  omega

theorem pathSeed_ne (hi : i < Word.limit) (hj : j < Word.limit) (h : i ≠ j) :
    pathSeed seed i ≠ pathSeed seed j := by
  intro heq
  have hxor := pathSeed_eq_iff.1 heq
  rw [UInt64.xor_self] at hxor
  exact h (eq_of_toUInt64_eq hi hj (UInt64.xor_eq_zero_iff.1 hxor.symm))

theorem toUInt64_shiftRight_eq_zero (hi : i < Simulation.maxPaths) : i.toUInt64 >>> 24 = 0 := by
  apply UInt64.toNat_inj.1
  rw [UInt64.toNat_shiftRight, Nat.shiftRight_eq_div_pow]
  change i < 10000000 at hi
  change i % 2 ^ 64 / 2 ^ 24 = 0
  omega

theorem pathSeed_xor (d : UInt64) : pathSeed (seed ^^^ d) i = pathSeed seed (i ^^^ d.toNat) := by
  apply congrArg splitmix64
  have hi : (i ^^^ d.toNat).toUInt64 = i.toUInt64 ^^^ d := by
    change UInt64.ofNat (i ^^^ d.toNat) = UInt64.ofNat i ^^^ d
    rw [UInt64.ofNat_xor, UInt64.ofNat_toNat]
  rw [hi]
  ac_rfl

theorem pathSeed_ne_of_upper (hi : i < Simulation.maxPaths) (hj : j < Simulation.maxPaths)
    (h : seed >>> 24 ≠ seed' >>> 24) : pathSeed seed i ≠ pathSeed seed' j := by
  intro heq
  have hshift := congrArg (· >>> (24 : UInt64)) (pathSeed_eq_iff.1 heq)
  simp only [UInt64.shiftRight_xor, toUInt64_shiftRight_eq_zero hi, toUInt64_shiftRight_eq_zero hj,
    UInt64.xor_self] at hshift
  exact h (UInt64.xor_eq_zero_iff.1 hshift)

theorem xor_lt_iff {d k m : Nat} (hd : d < 2 ^ k) (i : Nat) : i ^^^ d < m * 2 ^ k ↔ i < m * 2 ^ k := by
  rw [← Nat.div_lt_iff_lt_mul (Nat.two_pow_pos k), ← Nat.div_lt_iff_lt_mul (Nat.two_pow_pos k),
    Nat.xor_div_two_pow, Nat.div_eq_of_lt hd, Nat.xor_zero]

theorem perm_range_xor {d k : Nat} (hd : d < 2 ^ k) (m : Nat) :
    ((List.range (m * 2 ^ k)).map fun i => i ^^^ d).Perm (List.range (m * 2 ^ k)) := by
  have htwice (i : Nat) : i ^^^ d ^^^ d = i := by
    rw [Nat.xor_assoc, Nat.xor_self, Nat.xor_zero]
  have hinj : Function.Injective fun i => i ^^^ d := by
    intro i j h
    change i ^^^ d = j ^^^ d at h
    rw [← htwice i, h, htwice j]
  apply (List.perm_ext_iff_of_nodup (List.nodup_range.map hinj) List.nodup_range).2
  intro i
  simp only [List.mem_map, List.mem_range]
  constructor
  · rintro ⟨j, hj, rfl⟩
    exact (xor_lt_iff hd j).2 hj
  · intro hi
    exact ⟨i ^^^ d, (xor_lt_iff hd i).2 hi, htwice i⟩

/-- A seed that differs in the lower bits only replays the paths in another order. -/
theorem perm_pathSeeds {d : UInt64} {k : Nat} (hd : d.toNat < 2 ^ k) (m : Nat) :
    ((List.range (m * 2 ^ k)).map (pathSeed (seed ^^^ d))).Perm ((List.range (m * 2 ^ k)).map (pathSeed seed)) := by
  have hmap : (List.range (m * 2 ^ k)).map (pathSeed (seed ^^^ d)) =
      ((List.range (m * 2 ^ k)).map fun i => i ^^^ d.toNat).map (pathSeed seed) := by
    rw [List.map_map]
    exact List.map_congr_left fun i _ => pathSeed_xor d
  rw [hmap]
  exact (perm_range_xor hd m).map _

end Paths

section Streams

open SeededStream

/-- Streams of a seed, after any calls. -/
inductive Reached (seed : UInt64) : SeededStream → Prop
  | ofSeed : Reached seed (ofSeed seed)
  | prepare {s} (n : Nat) : Reached seed s → Reached seed (DrawStream.prepare n s)
  | skipTo {s} (path : Nat) : Reached seed s → Reached seed (s.skipTo path)
  | draw {s} (action : StateM Generator Float) (n : Nat) :
    Reached seed s → Reached seed ((draw action n).run s).2
  | fill {s} (action : StateM Generator Float) (n : Nat) :
    Reached seed s → Reached seed ((fill action n).run s).2

/-- Streams of a seed where a path begins: nothing of it has been drawn yet. -/
inductive Opened (seed : UInt64) : SeededStream → Prop
  | ofSeed : Opened seed (ofSeed seed)
  | prepare {s} (n : Nat) : Reached seed s → Opened seed (DrawStream.prepare n s)
  | skipTo {s} (path : Nat) : Reached seed s → Opened seed (s.skipTo path)
  | fill {s} (action : StateM Generator Float) (n : Nat) :
    Reached seed s → Opened seed ((fill action n).run s).2

variable {seed seed' : UInt64} {s t : SeededStream}

theorem seed_draw (action : StateM Generator Float) (n : Nat) (s : SeededStream) :
    ((draw action n).run s).2.seed = s.seed := by
  induction n generalizing s with
  | zero => rfl
  | succ n ih => exact ih _

theorem Reached.seed_eq (h : Reached seed s) : s.seed = seed := by
  induction h with
  | ofSeed => rfl
  | prepare n h ih => exact ih
  | skipTo path h ih => exact ih
  | draw action n h ih => exact (seed_draw action n _).trans ih
  | fill action n h ih => exact (seed_draw action n _).trans ih

theorem Opened.generator_eq (h : Opened seed s) : s.generator = .ofSeed (pathSeed seed s.path) := by
  cases h with
  | ofSeed => rfl
  | prepare n h => exact congrArg (pathGenerator · 0) h.seed_eq
  | skipTo path h => exact congrArg (pathGenerator · path) h.seed_eq
  | fill action n h => exact congrArg (pathGenerator · _) ((seed_draw action n _).trans h.seed_eq)

theorem path_seeds_are_distinct :
    Function.Injective splitmix64 ∧
      ∀ {seed : UInt64} {s t : SeededStream}, Opened seed s → Opened seed t →
        s.path < Word.limit → t.path < Word.limit → s.path ≠ t.path →
        s.generator = .ofSeed (pathSeed seed s.path) ∧ t.generator = .ofSeed (pathSeed seed t.path) ∧
          pathSeed seed s.path ≠ pathSeed seed t.path := by
  constructor
  · intro x y h
    exact eq_of_splitmix64_eq h
  · intro seed s t hs ht hi hj hne
    exact ⟨hs.generator_eq, ht.generator_eq, pathSeed_ne hi hj hne⟩

theorem path_seeds_are_distinct_first :
    pathSeed 7 0 ≠ pathSeed 7 1 ∧ (ofSeed 7).generator = .ofSeed (pathSeed 7 0) := by
  have hfirst : Opened 7 (ofSeed 7) := .ofSeed
  have h := path_seeds_are_distinct.2 hfirst (.skipTo 1 .ofSeed) (by decide) (by decide) (by decide)
  exact ⟨h.2.2, h.1⟩

/-- Two seeds share the generators of two paths just where the numbers of the paths differ as the seeds do.
So they share none for one number, and none at all if they differ above their lower 24 bits. -/
theorem shared_path_seeds (hs : Opened seed s) (ht : Opened seed' t) (hne : seed ≠ seed')
    (hi : s.path < Simulation.maxPaths) (hj : t.path < Simulation.maxPaths) :
    s.generator = .ofSeed (pathSeed seed s.path) ∧ t.generator = .ofSeed (pathSeed seed' t.path) ∧
      (pathSeed seed s.path = pathSeed seed' t.path ↔
        seed ^^^ seed' = s.path.toUInt64 ^^^ t.path.toUInt64) ∧
      (s.path = t.path → pathSeed seed s.path ≠ pathSeed seed' t.path) ∧
      (seed >>> 24 ≠ seed' >>> 24 → pathSeed seed s.path ≠ pathSeed seed' t.path) := by
  refine ⟨hs.generator_eq, ht.generator_eq, pathSeed_eq_iff, ?_, ?_⟩
  · intro hpath heq
    rw [pathSeed_eq_iff, hpath, UInt64.xor_self] at heq
    exact hne (UInt64.xor_eq_zero_iff.1 heq)
  · exact pathSeed_ne_of_upper hi hj

theorem shared_path_seeds_first :
    ((ofSeed 0).skipTo 1).generator = .ofSeed (pathSeed 0 1) ∧ pathSeed 0 1 = pathSeed 1 0 := by
  have hsecond : Opened 0 ((ofSeed 0).skipTo 1) := .skipTo 1 .ofSeed
  have hother : Opened 1 (ofSeed 1) := .ofSeed
  have h := shared_path_seeds hsecond hother (by decide) (by decide) (by decide)
  exact ⟨h.1, h.2.2.1.2 (by decide)⟩

theorem other_seed_replays_path :
    ∃ (s t : SeededStream), Opened 0 s ∧ Opened 1 t ∧ s.path < Simulation.maxPaths ∧
      t.path < Simulation.maxPaths ∧ pathSeed 0 s.path = pathSeed 1 t.path ∧
      s.generator = t.generator := by
  refine ⟨(ofSeed 0).skipTo 1, ofSeed 1, .skipTo 1 .ofSeed, .ofSeed, by decide, by decide, by decide, rfl⟩

end Streams

end PayoffPricing.Random
