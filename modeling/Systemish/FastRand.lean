import Systemish.Foundation.LinearCongruential

/-!
# The fast random number generator

`FastRand` of `bench/common.h` and `raw_eth/rxtx/rand.h`. Its seed is a word of 64 bits, drawn by
the constructor from a slower generator. A call replaces the seed by the next of a linear
congruential sequence and returns the upper half. The sequence goes through all seeds, so that
one period returns every number equally often.
-/

namespace Systemish

open Foundation

structure FastRand where
  seed : BitVec 64
deriving DecidableEq, Repr

namespace FastRand

/-- `next_u32`: what it returns, and the generator it leaves. -/
def nextU32 (rand : FastRand) : BitVec 32 × FastRand :=
  let seed := rand.seed * 1103515245 + 12345
  ((seed >>> 32).setWidth 32, ⟨seed⟩)

/-- The generator after `n` calls. -/
def afterCalls (rand : FastRand) : (n : ℕ) → FastRand
  | 0 => rand
  | n + 1 => (rand.afterCalls n).nextU32.2

/-! ## The seeds -/

/-- The sequence of the seeds. -/
abbrev nextSeed : BitVec 64 → BitVec 64 := congruential 1103515245 12345

theorem fullPeriod_nextSeed : FullPeriod nextSeed :=
  fullPeriod_congruential (by decide) (by decide)

theorem seed_afterCalls (rand : FastRand) (n : ℕ) :
    (rand.afterCalls n).seed = nextSeed^[n] rand.seed := by
  induction n with
  | zero => rfl
  | succ n ih =>
    rw [Function.iterate_succ_apply', ← ih]
    rfl

/-- The seed comes back after the multiples of `2 ^ 64` calls. -/
theorem seed_afterCalls_eq_iff (rand : FastRand) (n : ℕ) :
    (rand.afterCalls n).seed = rand.seed ↔ 2 ^ 64 ∣ n := by
  rw [seed_afterCalls, fullPeriod_nextSeed.iterate_eq_self_iff, card_bitVec]

theorem exists_seed_afterCalls_eq (rand : FastRand) (seed : BitVec 64) :
    ∃ n < 2 ^ 64, (rand.afterCalls n).seed = seed := by
  obtain ⟨n, hn, heq⟩ := fullPeriod_nextSeed.exists_iterate_eq rand.seed seed
  rw [card_bitVec] at hn
  exact ⟨n, hn, (rand.seed_afterCalls n).trans heq⟩

/-! ## The numbers -/

theorem upper_half_eq_iff (seed : BitVec 64) (value : BitVec 32) :
    (seed >>> 32).setWidth 32 = value ↔ seed.toNat / 2 ^ 32 = value.toNat := by
  have hlt : seed.toNat / 2 ^ 32 < 2 ^ 32 := by
    have hseed := seed.isLt
    omega
  rw [← BitVec.toNat_inj, BitVec.toNat_setWidth, BitVec.toNat_ushiftRight,
    Nat.shiftRight_eq_div_pow, Nat.mod_eq_of_lt hlt]

/-- The lower half of a seed is free when the upper half is given. -/
theorem card_upper_half (value : BitVec 32) :
    Finset.card {seed : BitVec 64 | (seed >>> 32).setWidth 32 = value} = 2 ^ 32 := by
  have hvalue := value.isLt
  have hword (low : BitVec 32) : (BitVec.ofNat 64 (value.toNat * 2 ^ 32 + low.toNat)).toNat =
      value.toNat * 2 ^ 32 + low.toNat := by
    have hlow := low.isLt
    rw [BitVec.toNat_ofNat, Nat.mod_eq_of_lt (by omega)]
  rw [← card_bitVec 32, ← Finset.card_univ]
  refine Finset.card_bij' (fun seed _ ↦ seed.setWidth 32)
    (fun low _ ↦ BitVec.ofNat 64 (value.toNat * 2 ^ 32 + low.toNat)) ?_ ?_ ?_ ?_
  · intro seed _
    exact Finset.mem_univ _
  · intro low _
    have hlow := low.isLt
    rw [Finset.mem_filter_univ, upper_half_eq_iff, hword]
    omega
  · intro seed hseed
    rw [Finset.mem_filter_univ, upper_half_eq_iff] at hseed
    apply BitVec.eq_of_toNat_eq
    rw [hword, BitVec.toNat_setWidth, ← hseed, Nat.mul_comm]
    exact Nat.div_add_mod _ _
  · intro low _
    apply BitVec.eq_of_toNat_eq
    rw [BitVec.toNat_setWidth, hword, Nat.mul_add_mod_self_right]
    exact Nat.mod_eq_of_lt low.isLt

/-- A call returns the upper half of the seed after it. -/
theorem nextU32_afterCalls (rand : FastRand) (n : ℕ) :
    (rand.afterCalls n).nextU32.1 =
      (nextSeed^[n] (nextSeed rand.seed) >>> 32).setWidth 32 := by
  rw [← Function.iterate_succ_apply, Function.iterate_succ_apply', ← seed_afterCalls]
  rfl

theorem count_nextU32 (rand : FastRand) (value : BitVec 32) :
    Nat.count (fun n ↦ (rand.afterCalls n).nextU32.1 = value) (2 ^ 64) = 2 ^ 32 := by
  simp only [nextU32_afterCalls]
  rw [← card_bitVec 64, ← card_upper_half value]
  exact fullPeriod_nextSeed.count_iterate (nextSeed rand.seed)
    fun seed ↦ (seed >>> 32).setWidth 32 = value

/-- From every seed, the seeds go through all words before the first comes back, and the calls of
one period return each number equally often. -/
theorem runs_through_all_seeds (rand : FastRand) :
    (∀ n, 0 < n → n < 2 ^ 64 → (rand.afterCalls n).seed ≠ rand.seed) ∧
      (rand.afterCalls (2 ^ 64)).seed = rand.seed ∧
      (∀ seed, ∃ n < 2 ^ 64, (rand.afterCalls n).seed = seed) ∧
      ∀ value, Nat.count (fun n ↦ (rand.afterCalls n).nextU32.1 = value) (2 ^ 64) = 2 ^ 32 := by
  refine ⟨?_, ?_, rand.exists_seed_afterCalls_eq, rand.count_nextU32⟩
  · intro n hpos hlt heq
    have hdvd := (rand.seed_afterCalls_eq_iff n).mp heq
    exact Nat.not_dvd_of_pos_of_lt hpos hlt hdvd
  · exact (rand.seed_afterCalls_eq_iff (2 ^ 64)).mpr (Nat.dvd_refl _)

end FastRand

end Systemish
