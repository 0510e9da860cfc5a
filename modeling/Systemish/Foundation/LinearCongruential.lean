import Mathlib

/-!
# Linear congruential generators

A generator that goes from `x` to `x * multiplier + increment`. In any commutative ring, `n` steps
add the first difference times a geometric sum. On words of `w` bits the generator goes through
all words if the multiplier is 1 modulo 4 and the increment is odd: then the geometric sum has as
many factors 2 as `n`.
-/

namespace Systemish.Foundation

open Finset Function

/-! ## Full periods -/

section FullPeriod

variable {α : Type*} [Fintype α] {f : α → α}

/-- From every point, `f` comes back only after as many steps as there are points. -/
def FullPeriod (f : α → α) : Prop := ∀ x, minimalPeriod f x = Fintype.card α

namespace FullPeriod

theorem iterate_eq_self_iff (h : FullPeriod f) (x : α) (n : ℕ) :
    f^[n] x = x ↔ Fintype.card α ∣ n := by
  rw [← h x]
  exact isPeriodicPt_iff_minimalPeriod_dvd

theorem injOn_iterate (h : FullPeriod f) (x : α) :
    Set.InjOn (fun n ↦ f^[n] x) (range (Fintype.card α)) := by
  rw [coe_range, ← h x]
  exact iterate_injOn_Iio_minimalPeriod

theorem image_iterate [DecidableEq α] (h : FullPeriod f) (x : α) :
    (range (Fintype.card α)).image (fun n ↦ f^[n] x) = univ := by
  apply eq_univ_of_card
  rw [card_image_of_injOn (h.injOn_iterate x), card_range]

/-- One period reaches every point. -/
theorem exists_iterate_eq (h : FullPeriod f) (x y : α) : ∃ n < Fintype.card α, f^[n] x = y := by
  classical
  have hy : y ∈ (range (Fintype.card α)).image (fun n ↦ f^[n] x) := by
    rw [h.image_iterate x]
    exact mem_univ y
  obtain ⟨n, hn, heq⟩ := mem_image.mp hy
  exact ⟨n, mem_range.mp hn, heq⟩

/-- One period meets a predicate as often as there are points with it. -/
theorem count_iterate (h : FullPeriod f) (x : α) (p : α → Prop) [DecidablePred p] :
    Nat.count (fun n ↦ p (f^[n] x)) (Fintype.card α) = #{y | p y} := by
  classical
  rw [Nat.count_eq_card_filter_range, ← h.image_iterate x, filter_image]
  exact (card_image_of_injOn ((h.injOn_iterate x).mono (filter_subset _ _))).symm

end FullPeriod

end FullPeriod

/-! ## The steps of a generator -/

section Congruential

variable {R : Type*} [CommRing R]

def congruential (multiplier increment x : R) : R := x * multiplier + increment

/-- All differences of the sequence are multiples of the first. -/
theorem iterate_congruential (multiplier increment x : R) (n : ℕ) :
    (congruential multiplier increment)^[n] x =
      x + (∑ i ∈ range n, multiplier ^ i) * (congruential multiplier increment x - x) := by
  induction n with
  | zero => simp
  | succ n ih =>
    rw [iterate_succ_apply', ih, geom_sum_succ, congruential]
    unfold congruential
    ring

end Congruential

/-! ## Factors 2 -/

/-- The sum of the first `n` powers has as many factors 2 as `n`. -/
theorem emultiplicity_two_geom_sum {a : ℤ} (ha : 4 ∣ a - 1) (n : ℕ) :
    emultiplicity 2 (∑ i ∈ range n, a ^ i) = emultiplicity 2 (n : ℤ) := by
  by_cases hone : a = 1
  · simp [hone]
  have hodd : ¬ 2 ∣ a := by omega
  have hfinite : FiniteMultiplicity 2 (a - 1) :=
    Int.finiteMultiplicity_iff.mpr ⟨by decide, sub_ne_zero.mpr hone⟩
  have hlift := Int.two_pow_sub_pow' n ha hodd
  rw [one_pow, ← mul_geom_sum, emultiplicity_mul Int.prime_two] at hlift
  exact ENat.add_right_injective_of_ne_top
    (finiteMultiplicity_iff_emultiplicity_ne_top.mp hfinite) hlift

theorem two_pow_dvd_geom_sum_iff {a : ℤ} (ha : 4 ∣ a - 1) (w n : ℕ) :
    2 ^ w ∣ ∑ i ∈ range n, a ^ i ↔ (2 : ℤ) ^ w ∣ n := by
  rw [pow_dvd_iff_le_emultiplicity, pow_dvd_iff_le_emultiplicity, emultiplicity_two_geom_sum ha]

theorem two_pow_dvd_mul_iff {b : ℤ} (hb : Odd b) (w : ℕ) (a : ℤ) :
    2 ^ w ∣ a * b ↔ 2 ^ w ∣ a := by
  have hcoprime : IsCoprime (2 ^ w) b := (Int.isCoprime_two_left.mpr hb).pow_left
  exact ⟨hcoprime.dvd_of_dvd_mul_right, fun h ↦ h.mul_right b⟩

/-! ## Words -/

theorem card_bitVec (w : ℕ) : Fintype.card (BitVec w) = 2 ^ w := by
  rw [← FinEnum.card_eq_fintypeCard, FinEnum.card_bitVec]

instance charP_bitVec (w : ℕ) : CharP (BitVec w) (2 ^ w) where
  cast_eq_zero_iff n := by
    rw [← BitVec.toNat_inj, BitVec.natCast_eq_ofNat, BitVec.toNat_ofNat]
    exact Nat.dvd_iff_mod_eq_zero.symm

variable {w : ℕ} {multiplier increment : BitVec w}

theorem natCast_toNat (x : BitVec w) : (x.toNat : BitVec w) = x := by
  rw [BitVec.natCast_eq_ofNat, BitVec.ofNat_toNat, BitVec.setWidth_eq]

/-- The sequence is back at its start after the multiples of `2 ^ w` steps. -/
theorem iterate_congruential_eq_self_iff (hmultiplier : multiplier.toNat % 4 = 1)
    (hincrement : increment.toNat % 2 = 1) (x : BitVec w) (n : ℕ) :
    (congruential multiplier increment)^[n] x = x ↔ 2 ^ w ∣ n := by
  let a : ℤ := multiplier.toNat
  let difference : ℤ := x.toNat * (a - 1) + increment.toNat
  have hcast : (∑ i ∈ range n, multiplier ^ i) * (congruential multiplier increment x - x) =
      (((∑ i ∈ range n, a ^ i) * difference : ℤ) : BitVec w) := by
    push_cast [a, difference]
    rw [natCast_toNat, natCast_toNat, natCast_toNat, congruential]
    ring
  have hfour : 4 ∣ a - 1 := by omega
  have hodd : Odd difference := by
    have heven : Even (a - 1) := even_iff_two_dvd.mpr (by omega)
    have hlast : Odd (increment.toNat : ℤ) := Int.odd_iff.mpr (by omega)
    exact (heven.mul_left _).add_odd hlast
  calc
    (congruential multiplier increment)^[n] x = x ↔
        (((∑ i ∈ range n, a ^ i) * difference : ℤ) : BitVec w) = 0 := by
      rw [iterate_congruential, add_eq_left, hcast]
    _ ↔ 2 ^ w ∣ (∑ i ∈ range n, a ^ i) * difference := by
      rw [CharP.intCast_eq_zero_iff (BitVec w) (2 ^ w), Nat.cast_pow, Nat.cast_ofNat]
    _ ↔ (2 : ℤ) ^ w ∣ n := by
      rw [two_pow_dvd_mul_iff hodd, two_pow_dvd_geom_sum_iff hfour]
    _ ↔ 2 ^ w ∣ n := by
      exact_mod_cast Int.natCast_dvd_natCast

/-- With such constants the sequence goes through all words. -/
theorem fullPeriod_congruential (hmultiplier : multiplier.toNat % 4 = 1)
    (hincrement : increment.toNat % 2 = 1) : FullPeriod (congruential multiplier increment) := by
  intro x
  rw [card_bitVec]
  apply Nat.dvd_right_iff_eq.mp
  intro n
  rw [← isPeriodicPt_iff_minimalPeriod_dvd]
  exact iterate_congruential_eq_self_iff hmultiplier hincrement x n

end Systemish.Foundation
