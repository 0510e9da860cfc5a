import Mathlib

/-!
# Remainders of polynomials over two elements

A bit vector stands for the polynomial over `ZMod 2` whose coefficients are its bits. Exclusive or
is the sum of such polynomials. A shift register that takes the bits of a dividend from the top
and subtracts the divisor where a bit falls out leaves the remainder; read from the other end, it
is a register that shifts to the right.
-/

namespace Systemish.Foundation

open Polynomial

variable {w n : ℕ}

/-! ## Bits as coefficients -/

def bitValue (bit : Bool) : ZMod 2 := if bit then 1 else 0

/-- The polynomial with the first bits of `f` as its coefficients. -/
noncomputable def bitsPoly (n : ℕ) (f : ℕ → Bool) : (ZMod 2)[X] :=
  ∑ i ∈ Finset.range n, monomial i (bitValue (f i))

noncomputable def toPoly (x : BitVec w) : (ZMod 2)[X] := bitsPoly w x.getLsbD

theorem bitValue_xor (a b : Bool) : bitValue (a ^^ b) = bitValue a + bitValue b := by
  cases a <;> cases b <;> decide

theorem bitValue_injective : Function.Injective bitValue := by
  decide

theorem coeff_bitsPoly (n : ℕ) (f : ℕ → Bool) (i : ℕ) :
    (bitsPoly n f).coeff i = if i < n then bitValue (f i) else 0 := by
  rw [bitsPoly, finsetSum_coeff]
  simp only [coeff_monomial, Finset.sum_ite_eq', Finset.mem_range]

theorem coeff_toPoly (x : BitVec w) (i : ℕ) : (toPoly x).coeff i = bitValue (x.getLsbD i) := by
  rw [toPoly, coeff_bitsPoly]
  split
  · rfl
  · next hi =>
    rw [BitVec.getLsbD_of_ge x i (Nat.not_lt.mp hi)]
    rfl

/-- One more bit at the bottom. -/
theorem bitsPoly_succ (n : ℕ) (f : ℕ → Bool) :
    bitsPoly (n + 1) f = X * bitsPoly n (fun i ↦ f (i + 1)) + C (bitValue (f 0)) := by
  rw [bitsPoly, Finset.sum_range_succ', bitsPoly, Finset.mul_sum]
  simp only [X_mul_monomial, monomial_zero_left]

theorem toPoly_xor (x y : BitVec w) : toPoly (x ^^^ y) = toPoly x + toPoly y := by
  ext i
  rw [coeff_add, coeff_toPoly, coeff_toPoly, coeff_toPoly, BitVec.getLsbD_xor, bitValue_xor]

theorem toPoly_injective : Function.Injective (toPoly : BitVec w → (ZMod 2)[X]) := by
  intro x y h
  apply BitVec.eq_of_getLsbD_eq
  intro i _
  apply bitValue_injective
  rw [← coeff_toPoly, ← coeff_toPoly, h]

theorem degree_toPoly_lt (x : BitVec w) : (toPoly x).degree < w := by
  rw [degree_lt_iff_coeff_zero]
  intro i hi
  rw [coeff_toPoly, BitVec.getLsbD_of_ge x i hi]
  rfl

/-- A shift that loses no bit multiplies by a power of `X`. -/
theorem toPoly_setWidth_shiftLeft (x : BitVec w) (k : ℕ) :
    toPoly (x.setWidth (w + k) <<< k) = X ^ k * toPoly x := by
  ext i
  rw [coeff_toPoly, coeff_X_pow_mul', BitVec.getLsbD_shiftLeft, BitVec.getLsbD_setWidth]
  split
  · next hi =>
    rw [coeff_toPoly]
    by_cases hlt : i < w + k
    · have hbound : i - k < w + k := by omega
      simp [hlt, hbound, Nat.not_lt.mpr hi]
    · have hout : x.getLsbD (i - k) = false := BitVec.getLsbD_of_ge x _ (by omega)
      simp [hlt, hout]
  · next hi =>
    have hlt : i < k := Nat.not_le.mp hi
    simp [hlt, bitValue]

/-! ## The shift register -/

/-- The divisor with the leading term `X ^ w` and the other coefficients from `g`. -/
noncomputable def divisor (g : BitVec w) : (ZMod 2)[X] := X ^ w + toPoly g

/-- Shift a bit in at the bottom, and subtract the divisor if a bit falls out at the top. -/
def shiftIn (g r : BitVec w) (bit : Bool) : BitVec w :=
  let shifted := (r <<< 1) ^^^ (BitVec.ofBool bit).setWidth w
  if r.msb then shifted ^^^ g else shifted

/-- The remainder of the division by the divisor of `g`: the bits of `x` are shifted in from the
top. -/
def mod2 (g : BitVec w) (x : BitVec n) : BitVec w :=
  (List.range n).foldr (fun i r ↦ shiftIn g r (x.getLsbD i)) 0

variable (g : BitVec w)

theorem divisor_monic : (divisor g).Monic := monic_X_pow_add (degree_toPoly_lt g)

theorem degree_divisor : (divisor g).degree = w := by
  have hdegree : (toPoly g).degree < (X ^ w : (ZMod 2)[X]).degree := by
    rw [degree_X_pow]
    exact degree_toPoly_lt g
  rw [divisor, degree_add_eq_left_of_degree_lt hdegree, degree_X_pow]

theorem toPoly_modByMonic (x : BitVec w) : toPoly x %ₘ divisor g = toPoly x := by
  rw [modByMonic_eq_self_iff (divisor_monic g), degree_divisor]
  exact degree_toPoly_lt x

/-- What falls out at the top is a multiple of `X ^ w`. -/
theorem toPoly_shifted (hw : 0 < w) (r : BitVec w) (bit : Bool) :
    X * toPoly r + C (bitValue bit) =
      toPoly ((r <<< 1) ^^^ (BitVec.ofBool bit).setWidth w) + X ^ w * C (bitValue r.msb) := by
  ext i
  simp only [coeff_add, coeff_toPoly, coeff_C, coeff_X_pow_mul', BitVec.getLsbD_xor,
    BitVec.getLsbD_shiftLeft, BitVec.getLsbD_setWidth, BitVec.getLsbD_ofBool,
    BitVec.msb_eq_getLsbD_last]
  cases i with
  | zero => simp [hw, Nat.not_le.mpr hw, bitValue]
  | succ i =>
    rw [coeff_X_mul, coeff_toPoly]
    rcases Nat.lt_trichotomy (i + 1) w with hlt | heq | hgt
    · simp [hlt, Nat.not_le.mpr hlt]
    · subst heq
      simp [bitValue]
    · have hout : r.getLsbD i = false := BitVec.getLsbD_of_ge r i (by omega)
      have hne : i + 1 - w ≠ 0 := by omega
      simp [hout, hne, Nat.not_lt.mpr hgt.le, hgt.le, bitValue]

/-- One round of the division. -/
theorem toPoly_shiftIn (hw : 0 < w) (r : BitVec w) (bit : Bool) :
    toPoly (shiftIn g r bit) = (X * toPoly r + C (bitValue bit)) %ₘ divisor g := by
  have hdegree : (toPoly (shiftIn g r bit)).degree < (divisor g).degree := by
    rw [degree_divisor]
    exact degree_toPoly_lt _
  refine ((div_modByMonic_unique (C (bitValue r.msb)) _ (divisor_monic g) ⟨?_, hdegree⟩).2).symm
  rw [toPoly_shifted hw, shiftIn]
  cases hmsb : r.msb with
  | false => simp [bitValue]
  | true =>
    -- the lower terms of the divisor cancel, since the characteristic is two
    have hcancel : toPoly g + toPoly g = 0 := CharTwo.add_self_eq_zero _
    simp only [if_true, toPoly_xor, divisor, bitValue, C_1, mul_one]
    linear_combination hcancel

/-- Remainders may be taken before a shift. -/
theorem X_mul_add_modByMonic (p : (ZMod 2)[X]) (c : ZMod 2) :
    (X * (p %ₘ divisor g) + C c) %ₘ divisor g = (X * p + C c) %ₘ divisor g := by
  apply modByMonic_eq_of_dvd_sub (divisor_monic g)
  have hdiv := modByMonic_add_div p (divisor g)
  exact ⟨-(X * (p /ₘ divisor g)), by linear_combination X * hdiv⟩

theorem toPoly_foldr_shiftIn (hw : 0 < w) (n : ℕ) (f : ℕ → Bool) :
    toPoly ((List.range n).foldr (fun i r ↦ shiftIn g r (f i)) 0) = bitsPoly n f %ₘ divisor g := by
  induction n generalizing f with
  | zero =>
    have hzero : bitsPoly 0 f = toPoly (0 : BitVec w) := by
      ext i
      rw [coeff_bitsPoly, coeff_toPoly]
      simp [bitValue]
    rw [hzero, toPoly_modByMonic]
    rfl
  | succ n ih =>
    rw [List.range_succ_eq_map, List.foldr_cons, List.foldr_map, toPoly_shiftIn g hw,
      ih fun i ↦ f (i + 1), X_mul_add_modByMonic, bitsPoly_succ]

/-- `mod2` is the remainder of the polynomial division. -/
theorem toPoly_mod2 (hw : 0 < w) (x : BitVec n) :
    toPoly (mod2 g x) = toPoly x %ₘ divisor g :=
  toPoly_foldr_shiftIn g hw n x.getLsbD

theorem toPoly_iterate_shiftIn (hw : 0 < w) (r : BitVec w) (k : ℕ) :
    toPoly ((shiftIn g · false)^[k] r) = (X ^ k * toPoly r) %ₘ divisor g := by
  induction k with
  | zero => rw [pow_zero, one_mul, toPoly_modByMonic, Function.iterate_zero, id]
  | succ k ih =>
    have hround := X_mul_add_modByMonic g (X ^ k * toPoly r) (bitValue false)
    have hfalse : C (bitValue false) = 0 := C_0
    rw [Function.iterate_succ_apply', toPoly_shiftIn g hw, ih, hround, hfalse, add_zero, pow_succ',
      mul_assoc]

/-- The remainder of a shifted vector: as many rounds without a bit. -/
theorem mod2_shiftLeft (hw : 0 < w) (r : BitVec w) (k : ℕ) :
    mod2 g (r.setWidth (w + k) <<< k) = (shiftIn g · false)^[k] r := by
  apply toPoly_injective
  rw [toPoly_mod2 g hw, toPoly_setWidth_shiftLeft, toPoly_iterate_shiftIn g hw]

/-! ## The reflected register -/

/-- Shift to the right, and subtract the reflected divisor if a bit falls out. -/
def bitStep (g r : BitVec w) : BitVec w :=
  if r.getLsbD 0 then (r >>> 1) ^^^ g else r >>> 1

theorem reverse_xor (x y : BitVec w) : (x ^^^ y).reverse = x.reverse ^^^ y.reverse := by
  apply BitVec.eq_of_getLsbD_eq
  intro i _
  rw [BitVec.getLsbD_reverse, BitVec.getMsbD_xor, BitVec.getLsbD_xor, BitVec.getLsbD_reverse,
    BitVec.getLsbD_reverse]

theorem reverse_shiftLeft_one (x : BitVec w) : (x <<< 1).reverse = x.reverse >>> 1 := by
  apply BitVec.eq_of_getLsbD_eq
  intro i hi
  rw [BitVec.getLsbD_reverse, BitVec.getLsbD_ushiftRight, BitVec.getLsbD_reverse,
    BitVec.getMsbD_shiftLeft, Nat.add_comm]

/-- The register read from the other end. -/
theorem reverse_shiftIn (r : BitVec w) :
    (shiftIn g r false).reverse = bitStep g.reverse r.reverse := by
  have htop : r.reverse.getLsbD 0 = r.msb := BitVec.getLsbD_reverse
  have hnothing : (r <<< 1) ^^^ (BitVec.ofBool false).setWidth w = r <<< 1 := by
    simp
  rw [shiftIn, hnothing, bitStep, htop, ← reverse_shiftLeft_one]
  cases r.msb with
  | false => rfl
  | true => exact reverse_xor _ _

theorem reverse_iterate_shiftIn (r : BitVec w) (k : ℕ) :
    ((shiftIn g · false)^[k] r).reverse = (bitStep g.reverse)^[k] r.reverse := by
  have hsemiconj : Function.Semiconj BitVec.reverse (shiftIn g · false) (bitStep g.reverse) :=
    reverse_shiftIn g
  exact hsemiconj.iterate_right k r

theorem bitStep_xor (x y : BitVec w) : bitStep g (x ^^^ y) = bitStep g x ^^^ bitStep g y := by
  simp only [bitStep, BitVec.getLsbD_xor, BitVec.ushiftRight_xor_distrib]
  cases x.getLsbD 0 <;> cases y.getLsbD 0
  · rfl
  · exact BitVec.xor_assoc _ _ _
  · change x >>> 1 ^^^ y >>> 1 ^^^ g = (x >>> 1 ^^^ g) ^^^ y >>> 1
    ac_rfl
  · calc
      x >>> 1 ^^^ y >>> 1 = (x >>> 1 ^^^ y >>> 1) ^^^ (g ^^^ g) := by
        rw [BitVec.xor_self, BitVec.xor_zero]
      _ = (x >>> 1 ^^^ g) ^^^ (y >>> 1 ^^^ g) := by ac_rfl

theorem iterate_bitStep_xor (x y : BitVec w) (k : ℕ) :
    (bitStep g)^[k] (x ^^^ y) = (bitStep g)^[k] x ^^^ (bitStep g)^[k] y := by
  induction k with
  | zero => rfl
  | succ k ih =>
    simp only [Function.iterate_succ_apply', ih, bitStep_xor]

/-- Zeros at the bottom are shifted out without a subtraction. -/
theorem iterate_bitStep_shiftLeft (x : BitVec w) {k j : ℕ} (hj : j ≤ k) :
    (bitStep g)^[j] (x <<< k) = (x <<< k) >>> j := by
  induction j with
  | zero => rw [BitVec.ushiftRight_zero, Function.iterate_zero, id]
  | succ j ih =>
    have hbit : ((x <<< k) >>> j).getLsbD 0 = false := by
      rw [BitVec.getLsbD_ushiftRight, BitVec.getLsbD_shiftLeft]
      simp [Nat.lt_of_succ_le hj]
    rw [Function.iterate_succ_apply', ih (Nat.le_of_succ_le hj), bitStep, hbit,
      BitVec.shiftRight_add]
    rfl

/-- The rounds for the lower bits leave the upper bits for later. -/
theorem iterate_bitStep_append {m k : ℕ} (c : BitVec w) (upper : BitVec m) (lower : BitVec k)
    (hfits : m + k ≤ w) :
    (bitStep g)^[k] (c ^^^ (upper ++ lower).setWidth w) =
      (bitStep g)^[k] (c ^^^ lower.setWidth w) ^^^ upper.setWidth w := by
  have hsplit : (upper ++ lower).setWidth w =
      lower.setWidth w ^^^ (upper.setWidth w <<< k) := by
    apply BitVec.eq_of_getLsbD_eq
    intro i hi
    simp only [BitVec.getLsbD_xor, BitVec.getLsbD_setWidth, BitVec.getLsbD_shiftLeft,
      BitVec.getLsbD_append, hi, decide_true, Bool.true_and]
    by_cases hlow : i < k
    · simp [hlow]
    · have hupper : i - k < w := by omega
      simp [hlow, hupper, BitVec.getLsbD_of_ge lower i (Nat.not_lt.mp hlow)]
  have hback : (upper.setWidth w <<< k) >>> k = upper.setWidth w := by
    apply BitVec.eq_of_getLsbD_eq
    intro i hi
    simp only [BitVec.getLsbD_ushiftRight, BitVec.getLsbD_shiftLeft, BitVec.getLsbD_setWidth]
    by_cases hkept : k + i < w
    · simp [hkept]
    · have hout : upper.getLsbD i = false := BitVec.getLsbD_of_ge upper i (by omega)
      simp [hkept, hout]
  rw [hsplit, ← BitVec.xor_assoc, iterate_bitStep_xor, iterate_bitStep_shiftLeft g _ le_rfl, hback]

end Systemish.Foundation
