import Mathlib

/-!
# Loops with a machine counter

`for (i = 0; i < bound; i += step) body` with a signed counter that wraps. The bound is any
integer, since a constant of a program need not fit into the counter. If it does, the loop is a
fold over the values of the counter. If it is larger than every value of the counter, the loop has
no end. Programs with such loops are functions of some fuel, and what they return is what they
return with enough of it.
-/

namespace Systemish.Foundation

variable {w : ℕ} {σ : Type*}

theorem toInt_ofNat_of_lt {count : ℕ} (h : count < 2 ^ w) :
    (BitVec.ofNat (w + 1) count).toInt = count := by
  have hpow : 2 ^ (w + 1) = 2 * 2 ^ w := by rw [pow_succ, Nat.mul_comm]
  have hnat : (BitVec.ofNat (w + 1) count).toNat = count := by
    rw [BitVec.toNat_ofNat, Nat.mod_eq_of_lt (by omega)]
  rw [BitVec.toInt_eq_toNat_of_lt (by omega), hnat]

theorem toInt_add_one_of_lt {i : BitVec (w + 1)} (h : i.toInt + 1 < 2 ^ w) :
    (i + 1).toInt = i.toInt + 1 := by
  have hpow : 2 ^ (w + 1) = 2 * 2 ^ w := by rw [pow_succ, Nat.mul_comm]
  have hnext : (i + 1).toNat = (i.toNat + 1) % 2 ^ (w + 1) := by
    rw [BitVec.toNat_add]
    exact Nat.add_mod_mod _ _ _
  have hcast : ((2 ^ w : ℕ) : ℤ) = 2 ^ w := by push_cast; rfl
  have hi := i.isLt
  rw [BitVec.toInt_eq_toNat_cond] at h
  rw [BitVec.toInt_eq_toNat_cond, BitVec.toInt_eq_toNat_cond, hnext, hpow]
  rw [hpow] at h hi
  rcases (Nat.succ_le_of_lt hi).lt_or_eq with hlt | heq
  · rw [Nat.mod_eq_of_lt hlt]
    split at h <;> split <;> omega
  · rw [← Nat.succ_eq_add_one, heq, Nat.mod_self]
    split at h <;> split <;> omega

/-- A program that is cut off when its fuel is used up returns `value`, given enough fuel. -/
def Returns (run : (fuel : ℕ) → Option σ) (value : σ) : Prop :=
  ∃ bound, ∀ fuel ≥ bound, run fuel = some value

theorem Returns.of_lt {run : (fuel : ℕ) → Option σ} {value : σ} (count : ℕ)
    (h : ∀ fuel, count < fuel → run fuel = some value) : Returns run value := ⟨count + 1, h⟩

theorem Returns.unique {run : (fuel : ℕ) → Option σ} {value value' : σ} (h : Returns run value)
    (h' : Returns run value') : value = value' := by
  obtain ⟨bound, hbound⟩ := h
  obtain ⟨bound', hbound'⟩ := h'
  have hrun := hbound (max bound bound') (le_max_left _ _)
  rw [hbound' (max bound bound') (le_max_right _ _)] at hrun
  exact (Option.some.inj hrun).symm

theorem not_returns_of_eq_none {run : (fuel : ℕ) → Option σ} (h : ∀ fuel, run fuel = none)
    (value : σ) : ¬ Returns run value := by
  rintro ⟨bound, hbound⟩
  exact absurd ((h bound).symm.trans (hbound bound le_rfl)) (Option.some_ne_none value).symm

/-- The loop with the counter at `i`, cut off after `fuel` tests of its condition. There is no
result if it is cut off, or if the body has none. -/
def forLoop (step : BitVec w) (bound : ℤ) (body : BitVec w → σ → Option σ) :
    (fuel : ℕ) → (i : BitVec w) → σ → Option σ
  | 0, _, _ => none
  | fuel + 1, i, state =>
    if i.toInt < bound then (body i state).bind (forLoop step bound body fuel (i + step))
    else some state

variable {bound : ℤ} {fuel : ℕ}

/-- A loop that has come to its end is not changed by more fuel. -/
theorem forLoop_mono {step i : BitVec w} {body : BitVec w → σ → Option σ} {state final : σ}
    (h : forLoop step bound body fuel i state = some final) {more : ℕ} (hmore : fuel ≤ more) :
    forLoop step bound body more i state = some final := by
  induction fuel generalizing i state more with
  | zero => exact absurd h (Option.some_ne_none final).symm
  | succ fuel ih =>
    obtain ⟨more, rfl⟩ := Nat.exists_eq_succ_of_ne_zero (Nat.ne_zero_of_lt hmore)
    rw [forLoop] at h ⊢
    split at h
    · next hlt =>
      obtain ⟨next, hnext, hrest⟩ := Option.bind_eq_some_iff.mp h
      rw [if_pos hlt, hnext, Option.bind_some]
      exact ih hrest (Nat.le_of_succ_le_succ hmore)
    · next hle => rw [if_neg hle, h]

/-- There is no result if the first round has none. -/
theorem forLoop_eq_none_of_body {step i : BitVec w} {body : BitVec w → σ → Option σ} {state : σ}
    (hlt : i.toInt < bound) (hbody : body i state = none) (fuel : ℕ) :
    forLoop step bound body fuel i state = none := by
  cases fuel with
  | zero => rfl
  | succ fuel =>
    rw [forLoop, if_pos hlt, hbody]
    rfl

/-- No value of the counter ends the loop. -/
theorem forLoop_eq_none (step : BitVec (w + 1)) (body : BitVec (w + 1) → σ → Option σ)
    (hbound : 2 ^ w ≤ bound) (fuel : ℕ) (i : BitVec (w + 1)) (state : σ) :
    forLoop step bound body fuel i state = none := by
  induction fuel generalizing i state with
  | zero => rfl
  | succ fuel ih =>
    have hlt : i.toInt < bound := BitVec.toInt_lt.trans_le hbound
    rw [forLoop, if_pos hlt]
    cases body i state with
    | none => rfl
    | some next => exact ih (i + step) next

/-- The loop from round `done` on. -/
theorem forLoop_ofNat {stride : ℕ} (body : BitVec (w + 1) → σ → Option σ) {done left : ℕ}
    (hbelow : ∀ k < done + left, (k * stride : ℕ) < bound)
    (hend : bound ≤ ((done + left) * stride : ℕ)) (hfits : (done + left) * stride < 2 ^ w)
    (hfuel : left < fuel) (state : σ) :
    forLoop (BitVec.ofNat (w + 1) stride) bound body fuel (BitVec.ofNat (w + 1) (done * stride))
        state =
      (List.range' done left).foldlM
        (fun state k ↦ body (BitVec.ofNat (w + 1) (k * stride)) state) state := by
  have hdone : done * stride < 2 ^ w :=
    (Nat.mul_le_mul_right stride (Nat.le_add_right done left)).trans_lt hfits
  induction left generalizing done fuel state with
  | zero =>
    obtain ⟨fuel, rfl⟩ := Nat.exists_eq_succ_of_ne_zero (Nat.ne_of_gt hfuel)
    rw [Nat.add_zero] at hend
    rw [forLoop, toInt_ofNat_of_lt hdone, if_neg (not_lt.mpr hend)]
    rfl
  | succ left ih =>
    obtain ⟨fuel, rfl⟩ := Nat.exists_eq_succ_of_ne_zero (Nat.ne_zero_of_lt hfuel)
    have hnext : done + 1 + left = done + (left + 1) := by omega
    have hadd : BitVec.ofNat (w + 1) (done * stride) + BitVec.ofNat (w + 1) stride =
        BitVec.ofNat (w + 1) ((done + 1) * stride) := by
      rw [Nat.succ_mul, BitVec.ofNat_add]
    rw [forLoop, toInt_ofNat_of_lt hdone, if_pos (hbelow done (by omega)), hadd,
      List.range'_succ, List.foldlM_cons]
    congr 1
    funext next
    refine ih ?_ ?_ ?_ (Nat.lt_of_succ_lt_succ hfuel) next ?_
    · rwa [hnext]
    · rwa [hnext]
    · rwa [hnext]
    · exact (Nat.mul_le_mul_right stride (by omega)).trans_lt hfits

/-- A loop of `rounds` rounds. -/
theorem forLoop_eq_foldlM {stride rounds : ℕ} (body : BitVec (w + 1) → σ → Option σ)
    (hbelow : ∀ k < rounds, (k * stride : ℕ) < bound) (hend : bound ≤ (rounds * stride : ℕ))
    (hfits : rounds * stride < 2 ^ w) (hfuel : rounds < fuel) (state : σ) :
    forLoop (BitVec.ofNat (w + 1) stride) bound body fuel 0 state =
      (List.range rounds).foldlM
        (fun state k ↦ body (BitVec.ofNat (w + 1) (k * stride)) state) state := by
  have hloop := @forLoop_ofNat w σ bound fuel stride body 0 rounds (by rwa [Nat.zero_add])
    (by rwa [Nat.zero_add]) (by rwa [Nat.zero_add]) hfuel state
  rwa [Nat.zero_mul, ← List.range_eq_range'] at hloop

/-- A loop that counts up to a number that the counter can hold. -/
theorem forLoop_one {count : ℕ} (body : BitVec (w + 1) → σ → Option σ) (hfits : count < 2 ^ w)
    (hfuel : count < fuel) (state : σ) :
    forLoop 1 count body fuel 0 state =
      (List.range count).foldlM (fun state k ↦ body (BitVec.ofNat (w + 1) k) state) state := by
  have hloop := @forLoop_eq_foldlM w σ count fuel 1 count body
    (fun k hk ↦ by rw [Nat.mul_one]; exact_mod_cast hk) (by rw [Nat.mul_one])
    (by rwa [Nat.mul_one]) hfuel state
  simp only [Nat.mul_one] at hloop
  exact hloop

end Systemish.Foundation
