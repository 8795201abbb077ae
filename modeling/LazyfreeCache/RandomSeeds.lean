import LazyfreeCache.Allocation
import LazyfreeCache.Mixing
import Mathlib.Dynamics.PeriodicPts.Lemmas

/-!
The random numbers of `random.h`. Mixing is a permutation of the seeds, so the
numbers that a process draws are all different until the first one comes again,
and `drop_next_chunk` chooses every chunk from equally many seeds.
-/
namespace LazyfreeCache.RandomSeeds

open Function State Allocation Mixing

/-- `random_mix`: the state as it is left, and the result. -/
def randomMix (state : UInt64) : UInt64 × UInt64 :=
  let state := state + 0x9E3779B97F4A7C15
  let z := state
  let z := (z ^^^ (z >>> 30)) * 0xBF58476D1CE4E5B9
  let z := (z ^^^ (z >>> 27)) * 0x94D049BB133111EB
  (state, z ^^^ (z >>> 31))

/-- `random_next`: the new `__global_seed`, and the result. -/
def randomNext (globalSeed : UInt64) : UInt64 × UInt64 :=
  let globalSeed := (randomMix globalSeed).2
  (globalSeed, globalSeed ^^^ 0xdeadbeef)

/-- `__global_seed` after `n` draws. -/
def seedAfter (globalSeed : UInt64) (n : ℕ) : UInt64 :=
  (fun seed => (randomNext seed).1)^[n] globalSeed

/-- The numbers that a process draws one after the other. -/
def drawn (globalSeed : UInt64) (n : ℕ) : UInt64 := (randomNext (seedAfter globalSeed n)).2

/-- The world of a process whose `__global_seed` was set to the seed. -/
def seeded (env : Env) (globalSeed : UInt64) : Env := { env with random := drawn globalSeed }

theorem randomMix_injective : Injective fun state => (randomMix state).2 := by
  have hgamma : Injective fun z : UInt64 => z + 0x9E3779B97F4A7C15 := fun _ _ h =>
    (UInt64.add_left_inj _).mp h
  have hmul₁ := uint64_mul_odd_injective (c := 0xBF58476D1CE4E5B9) (by decide)
  have hmul₂ := uint64_mul_odd_injective (c := 0x94D049BB133111EB) (by decide)
  have hshift₁ := uint64_xorShiftRight_injective (k := 30) (by decide) (by decide)
  have hshift₂ := uint64_xorShiftRight_injective (k := 27) (by decide) (by decide)
  have hshift₃ := uint64_xorShiftRight_injective (k := 31) (by decide) (by decide)
  exact hshift₃.comp (hmul₂.comp (hshift₂.comp (hmul₁.comp (hshift₁.comp hgamma))))

theorem seedAfter_injective (n : ℕ) : Injective fun seed => seedAfter seed n :=
  randomMix_injective.iterate n

theorem drawn_injective (n : ℕ) : Injective fun seed => drawn seed n := by
  intro x y h
  exact seedAfter_injective n (randomMix_injective ((UInt64.xor_left_inj _).mp h))

/-- The numbers that a process draws are pairwise different up to the point where all of them
come again in the same order. -/
theorem drawn_periodic (globalSeed : UInt64) : ∃ period > 0,
    (∀ n, drawn globalSeed (n + period) = drawn globalSeed n) ∧
      ∀ i < period, ∀ j < period, drawn globalSeed i = drawn globalSeed j → i = j := by
  have hpoint := randomMix_injective.mem_periodicPts globalSeed
  refine ⟨minimalPeriod (fun seed => (randomNext seed).1) globalSeed,
    minimalPeriod_pos_of_mem_periodicPts hpoint, fun n => ?_, fun i hi j hj hij => ?_⟩
  · unfold drawn seedAfter
    rw [iterate_add_minimalPeriod_eq]
  · have hseeds : seedAfter globalSeed i = seedAfter globalSeed j :=
      randomMix_injective ((UInt64.xor_left_inj _).mp hij)
    exact iterate_injOn_Iio_minimalPeriod hi hj hseeds

/-- In every state `drop_next_chunk` would choose each chunk for exactly one in 32 of the seeds
that the process can have started from. -/
theorem pick_balanced (env : Env) (s : Sys) :
    Balanced (fun globalSeed => pick (seeded env globalSeed) s) (2 ^ 59) := by
  have hlow : Balanced (fun r : UInt64 => (Fin.ofNat numberOfChunks r.toNat : ChunkIdx))
      (2 ^ 59) := by
    intro c
    rw [← ncard_uint64_mod_eq (n := numberOfChunks) (m := 2 ^ 59) (by decide) c]
    congr 1
    ext r
    exact Fin.ext_iff
  exact hlow.comp (drawn_injective s.draws)

end LazyfreeCache.RandomSeeds
