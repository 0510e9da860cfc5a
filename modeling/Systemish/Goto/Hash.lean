import Systemish.Foundation.ForLoop
import Systemish.Goto.Fpp

/-!
# The compute function of the lookup programs

`simple/nogoto.c` and `simple/goto.c` reduce the product with `% 8`, the other
programs with `& 7`. The two differ on negative products, and from `i = 4` on the
product can overflow into one. By then `ret` is a multiple of 8: before round `i`
it is `i! * a` modulo 8. So only the rounds 1 to 3 add anything, and how much they
add depends on `a` modulo 8. The counter of the loop is an `int`, and `COMPUTE` is
any number: the loop ends if and only if it is below `2 ^ 31`.
-/

namespace Systemish.Goto

open Foundation

/-- `LOG_CAP`. -/
def logCap : ℕ := 128 * 1024 * 1024

/-- `hash`, with its loop cut off after `fuel` tests of the condition. -/
def hashWith (reduce : CInt → CInt) (compute fuel : ℕ) (a : CInt) : Option CInt :=
  forLoop 1 compute (fun i ret ↦ some (ret + reduce (i * ret))) fuel 0 a

/-- `hash` of `simple/nogoto.c` and `simple/goto.c`. -/
def Simple.hash : (compute fuel : ℕ) → (a : CInt) → Option CInt :=
  hashWith fun product ↦ product.srem 8

/-- `hash` of `simple/manual.c`. -/
def Manual.hash : (compute fuel : ℕ) → (a : CInt) → Option CInt :=
  hashWith fun product ↦ product &&& 7

/-- `hash` of `locals/nogoto.c` and `locals/goto.c`. -/
def Locals.hash : (compute fuel : ℕ) → (a : CInt) → Option CInt :=
  hashWith fun product ↦ product &&& 7

/-! ## The loop -/

/-- `ret` after some rounds. -/
def roundsWith (reduce : CInt → CInt) : (rounds : ℕ) → (a : CInt) → CInt
  | 0, a => a
  | i + 1, a => roundsWith reduce i a + reduce (BitVec.ofNat 32 i * roundsWith reduce i a)

def Simple.rounds : (rounds : ℕ) → (a : CInt) → CInt := roundsWith fun product ↦ product.srem 8

def Manual.rounds : (rounds : ℕ) → (a : CInt) → CInt := roundsWith fun product ↦ product &&& 7

section Loop

variable {compute fuel : ℕ} (reduce : CInt → CInt)

/-- With enough fuel, `hash` returns what its rounds lead to. -/
theorem hashWith_eq (hcompute : compute < 2 ^ 31) (hfuel : compute < fuel) (a : CInt) :
    hashWith reduce compute fuel a = some (roundsWith reduce compute a) := by
  have hfold (rounds : ℕ) : (List.range rounds).foldlM
      (fun ret i ↦ some (ret + reduce (BitVec.ofNat 32 i * ret))) a =
      some (roundsWith reduce rounds a) := by
    induction rounds with
    | zero => rfl
    | succ i ih =>
      rw [List.range_succ, List.foldlM_append, ih]
      rfl
  exact (forLoop_one _ hcompute hfuel a).trans (hfold compute)

/-- `i` is below `COMPUTE` for ever. -/
theorem hashWith_eq_none (hcompute : 2 ^ 31 ≤ compute) (fuel : ℕ) (a : CInt) :
    hashWith reduce compute fuel a = none :=
  forLoop_eq_none _ _ (by exact_mod_cast hcompute) fuel 0 a

variable {reduce} in
theorem eq_rounds_of_hashWith {a ret : CInt} (h : hashWith reduce compute fuel a = some ret) :
    ret = roundsWith reduce compute a := by
  by_cases hcompute : compute < 2 ^ 31
  · have hmore := forLoop_mono h (le_max_left fuel (compute + 1))
    rw [← Option.some_inj, ← hmore]
    exact hashWith_eq reduce hcompute (le_max_right fuel (compute + 1)) a
  · rw [hashWith_eq_none reduce (not_lt.mp hcompute)] at h
    exact absurd h (Option.some_ne_none ret).symm

end Loop

/-! ## The two reductions -/

theorem toNat_and_seven (x : CInt) : (x &&& 7).toNat = x.toNat % 8 := by
  rw [BitVec.toNat_and]
  exact Nat.and_two_pow_sub_one_eq_mod x.toNat 3

theorem srem_eq_and_of_msb {x : CInt} (h : x.msb = false) : x.srem 8 = x &&& 7 := by
  apply BitVec.eq_of_toNat_eq
  rw [toNat_and_seven, BitVec.srem_eq, h]
  exact BitVec.toNat_umod

theorem srem_eq_and_of_dvd {x : CInt} (h : 8 ∣ x.toNat) : x.srem 8 = x &&& 7 := by
  cases hmsb : x.msb with
  | false => exact srem_eq_and_of_msb hmsb
  | true =>
    have hand : x &&& 7 = 0 := by
      apply BitVec.eq_of_toNat_eq
      rw [toNat_and_seven]
      exact Nat.mod_eq_zero_of_dvd h
    have hneg : -x % 8 = 0 := by
      apply BitVec.eq_of_toNat_eq
      rw [BitVec.toNat_umod, BitVec.toNat_neg]
      change (2 ^ 32 - x.toNat) % 2 ^ 32 % 8 = 0
      omega
    rw [BitVec.srem_eq, hmsb, hand]
    change -(-x % 8) = 0
    rw [hneg]
    exact BitVec.neg_zero 32

theorem toNat_lt_of_inRange {pkt : CInt} (h : InRange logCap pkt) : pkt.toNat < logCap := by
  obtain ⟨hnonneg, hlt⟩ := h
  have hisLt := pkt.isLt
  rw [BitVec.toInt_eq_toNat_cond] at hnonneg hlt
  split at hlt <;> omega

/-! ## The rounds -/

theorem toNat_product_and_seven (i : ℕ) (ret : CInt) :
    (BitVec.ofNat 32 i * ret &&& 7).toNat = i * ret.toNat % 8 := by
  rw [toNat_and_seven, BitVec.toNat_mul, BitVec.toNat_ofNat, Nat.mod_mod_of_dvd _ (by decide),
    Nat.mul_mod, Nat.mod_mod_of_dvd _ (by decide), ← Nat.mul_mod]

theorem eight_dvd_factorial {i : ℕ} (hi : 4 ≤ i) : 8 ∣ i.factorial :=
  Nat.dvd_trans (by decide : 8 ∣ Nat.factorial 4) (Nat.factorial_dvd_factorial hi)

/-- Before round `i`, `ret` is `i! * a` modulo 8. -/
theorem rounds_mod_eight (compute : ℕ) (a : CInt) :
    (Manual.rounds compute a).toNat % 8 = compute.factorial * a.toNat % 8 := by
  induction compute with
  | zero => simp [Manual.rounds, roundsWith]
  | succ i ih =>
    set ret := Manual.rounds i a with hret
    have hround : (Manual.rounds (i + 1) a).toNat % 8 = (ret.toNat + i * ret.toNat) % 8 := by
      change (ret + (BitVec.ofNat 32 i * ret &&& 7)).toNat % 8 = _
      rw [BitVec.toNat_add, toNat_product_and_seven, Nat.mod_mod_of_dvd _ (by decide),
        Nat.add_mod_mod]
    calc (Manual.rounds (i + 1) a).toNat % 8
        = (i + 1) * ret.toNat % 8 := by rw [hround, Nat.succ_mul, Nat.add_comm]
      _ = (i + 1) * (i.factorial * a.toNat) % 8 := by rw [Nat.mul_mod, ih, ← Nat.mul_mod]
      _ = (i + 1).factorial * a.toNat % 8 := by rw [Nat.factorial_succ, Nat.mul_assoc]

/-! ## The increment -/

/-- What `compute` rounds add to `a`. Round `i` finds `i! * a` modulo 8 and multiplies it by `i`. -/
def increment (compute a : ℕ) : ℕ :=
  ∑ i ∈ Finset.range compute, i * (i.factorial * a) % 8

theorem increment_succ (i a : ℕ) :
    increment (i + 1) a = increment i a + i * (i.factorial * a) % 8 :=
  Finset.sum_range_succ _ i

/-- From round 4 on nothing is added. -/
theorem increment_of_four_le {compute : ℕ} (h : 4 ≤ compute) (a : ℕ) :
    increment compute a = increment 4 a := by
  induction compute, h using Nat.le_induction with
  | base => rfl
  | succ i hi ih =>
    have hround : i * (i.factorial * a) % 8 = 0 := by
      apply Nat.mod_eq_zero_of_dvd
      exact Nat.dvd_mul_left_of_dvd (Nat.dvd_mul_right_of_dvd (eight_dvd_factorial hi) a) i
    rw [increment_succ, hround, ih]
    rfl

theorem increment_two (a : ℕ) : increment 2 a = a % 8 := by
  simp [increment, Finset.sum_range_succ]

theorem increment_three (a : ℕ) : increment 3 a = a % 8 + 4 * a % 8 := by
  rw [increment_succ, increment_two, ← Nat.mul_assoc]
  rfl

theorem increment_four (a : ℕ) : increment 4 a = a % 8 + 4 * a % 8 + 18 * a % 8 := by
  rw [increment_succ, increment_three, ← Nat.mul_assoc]
  rfl

theorem increment_le (compute a : ℕ) : increment compute a ≤ 17 := by
  have hfour : increment 4 a ≤ 17 := by
    rw [increment_four]
    omega
  rcases Nat.le_total compute 4 with h | h
  · have hmono : Monotone (increment · a) := monotone_nat_of_le_succ fun i ↦ by
      rw [increment_succ]
      exact Nat.le_add_right _ _
    exact (hmono h).trans hfour
  · rw [increment_of_four_le h]
    exact hfour

/-- Rounds 1 to 3 can add 7, 4 and 6. Only after four rounds that is more than 4 for each. -/
theorem increment_le_iff (compute a : ℕ) :
    increment compute a ≤ 4 * compute ↔ ¬(compute = 4 ∧ a % 8 = 7) := by
  match compute with
  | 0 | 1 => simp [increment]
  | 2 =>
    rw [increment_two]
    omega
  | 3 =>
    rw [increment_three]
    omega
  | 4 =>
    rw [increment_four]
    omega
  | compute + 5 =>
    have hle := increment_le (compute + 5) a
    omega

theorem toNat_rounds (compute : ℕ) {a : CInt} (ha : a.toNat < logCap) :
    (Manual.rounds compute a).toNat = a.toNat + increment compute a.toNat := by
  induction compute with
  | zero => rfl
  | succ i ih =>
    have hle := increment_le (i + 1) a.toNat
    rw [increment_succ] at hle
    have hround : (BitVec.ofNat 32 i * Manual.rounds i a &&& 7).toNat =
        i * (i.factorial * a.toNat) % 8 := by
      rw [toNat_product_and_seven, Nat.mul_mod, rounds_mod_eight, ← Nat.mul_mod]
    have hfits : (Manual.rounds i a).toNat +
        (BitVec.ofNat 32 i * Manual.rounds i a &&& 7).toNat < 2 ^ 32 := by
      rw [hround, ih]
      rw [logCap] at ha
      omega
    change (Manual.rounds i a + (BitVec.ofNat 32 i * Manual.rounds i a &&& 7)).toNat = _
    rw [BitVec.toNat_add_of_lt hfits, hround, ih, increment_succ, Nat.add_assoc]

/-! ## The two forms -/

/-- On the products that occur the two reductions agree: the first ones do not overflow, and the
others are multiples of 8. -/
theorem srem_product {a : CInt} (ha : a.toNat < logCap) (i : ℕ) :
    (BitVec.ofNat 32 i * Manual.rounds i a).srem 8 =
      BitVec.ofNat 32 i * Manual.rounds i a &&& 7 := by
  by_cases hi : i ≤ 3
  · apply srem_eq_and_of_msb
    rw [BitVec.msb_eq_false_iff_two_mul_lt, BitVec.toNat_mul, BitVec.toNat_ofNat,
      Nat.mod_eq_of_lt (show i < 2 ^ 32 by omega)]
    have hret : (Manual.rounds i a).toNat ≤ logCap + 17 := by
      have hle := increment_le i a.toNat
      rw [toNat_rounds i ha]
      omega
    have hproduct : i * (Manual.rounds i a).toNat ≤ 3 * (logCap + 17) := Nat.mul_le_mul hi hret
    have hmod := Nat.mod_le (i * (Manual.rounds i a).toNat) (2 ^ 32)
    rw [logCap] at hproduct
    omega
  · apply srem_eq_and_of_dvd
    have hfactorial : 8 ∣ i.factorial := eight_dvd_factorial (by omega)
    have hret : 8 ∣ (Manual.rounds i a).toNat := by
      apply Nat.dvd_of_mod_eq_zero
      rw [rounds_mod_eight]
      exact Nat.mod_eq_zero_of_dvd (Nat.dvd_mul_right_of_dvd hfactorial _)
    rw [BitVec.toNat_mul]
    exact (Nat.dvd_mod_iff (by decide)).mpr (Nat.dvd_mul_left_of_dvd hret _)

/-- All programs compute the same hash of a packet. -/
theorem rounds_eq_rounds (compute : ℕ) {a : CInt} (ha : a.toNat < logCap) :
    Simple.rounds compute a = Manual.rounds compute a := by
  induction compute with
  | zero => rfl
  | succ i ih =>
    change Simple.rounds i a + (BitVec.ofNat 32 i * Simple.rounds i a).srem 8 =
      Manual.rounds i a + (BitVec.ofNat 32 i * Manual.rounds i a &&& 7)
    rw [ih, srem_product ha i]

/-! ## The comment -/

/-- The comment of `hash`: it adds something to `a`, and at most 4 for each round. -/
def AddsAtMostFour (hash : (compute fuel : ℕ) → (a : CInt) → Option CInt) (compute : ℕ)
    (a : CInt) : Prop :=
  ∀ fuel ret, hash compute fuel a = some ret →
    a.toInt ≤ ret.toInt ∧ ret.toInt ≤ a.toInt + 4 * compute

theorem Manual.rounds_bounds_iff (compute : ℕ) {a : CInt} (ha : InRange logCap a) :
    (a.toInt ≤ (Manual.rounds compute a).toInt ∧
        (Manual.rounds compute a).toInt ≤ a.toInt + 4 * compute) ↔
      ¬(compute = 4 ∧ a.toInt % 8 = 7) := by
  have hlt := toNat_lt_of_inRange ha
  have hrounds := toNat_rounds compute hlt
  have hle := increment_le compute a.toNat
  have hiff := increment_le_iff compute a.toNat
  rw [logCap] at hlt
  have haInt : a.toInt = a.toNat := BitVec.toInt_eq_toNat_of_lt (by omega)
  have hroundsInt : (Manual.rounds compute a).toInt = (Manual.rounds compute a).toNat :=
    BitVec.toInt_eq_toNat_of_lt (by omega)
  rw [haInt, hroundsInt, hrounds]
  omega

/-- What is known of the rounds of a packet is known of what `hash` returns. Four rounds are few
enough for it to return. -/
theorem addsAtMostFour_iff {reduce : CInt → CInt} {compute : ℕ} {a : CInt} (ha : InRange logCap a)
    (hrounds : roundsWith reduce compute a = Manual.rounds compute a) :
    AddsAtMostFour (hashWith reduce) compute a ↔ ¬(compute = 4 ∧ a.toInt % 8 = 7) := by
  have hbounds := Manual.rounds_bounds_iff compute ha
  constructor
  · rintro h ⟨rfl, hseven⟩
    have hreturns := hashWith_eq reduce (by decide : 4 < 2 ^ 31) (by decide : 4 < 5) a
    rw [hrounds] at hreturns
    exact hbounds.mp (h 5 _ hreturns) ⟨rfl, hseven⟩
  · intro hnot fuel ret hret
    rw [eq_rounds_of_hashWith hret, hrounds]
    exact hbounds.mpr hnot

/-- The comment is right but for `COMPUTE = 4` and the packets that are 7 modulo 8. Both forms
return, and return the same, if `COMPUTE` fits into an `int`. -/
theorem hash_addsAtMostFour_iff (compute : ℕ) (a : IndexInt logCap) :
    (AddsAtMostFour Simple.hash compute a.val ↔ ¬(compute = 4 ∧ a.val.toInt % 8 = 7)) ∧
      (AddsAtMostFour Manual.hash compute a.val ↔ ¬(compute = 4 ∧ a.val.toInt % 8 = 7)) ∧
      (compute < 2 ^ 31 → ∀ fuel, compute < fuel → ∃ ret,
        Simple.hash compute fuel a.val = some ret ∧
          Manual.hash compute fuel a.val = some ret) := by
  have hsame := rounds_eq_rounds compute (toNat_lt_of_inRange a.2)
  refine ⟨addsAtMostFour_iff a.2 hsame, addsAtMostFour_iff a.2 rfl, ?_⟩
  intro hcompute fuel hfuel
  refine ⟨Manual.rounds compute a.val, ?_, hashWith_eq _ hcompute hfuel a.val⟩
  rw [← hsame]
  exact hashWith_eq _ hcompute hfuel a.val

/-- Four rounds take 7 to 24. -/
theorem four_rounds_add_seventeen :
    InRange logCap 7 ∧ Simple.hash 4 5 7 = some 24 ∧ Manual.hash 4 5 7 = some 24 ∧
      ¬AddsAtMostFour Simple.hash 4 7 ∧ ¬AddsAtMostFour Manual.hash 4 7 := by
  have hsimple : Simple.hash 4 5 7 = some 24 := by decide
  have hmanual : Manual.hash 4 5 7 = some 24 := by decide
  refine ⟨by decide, hsimple, hmanual, fun h ↦ ?_, fun h ↦ ?_⟩
  · exact absurd (h 5 24 hsimple).2 (by decide)
  · exact absurd (h 5 24 hmanual).2 (by decide)

end Systemish.Goto
