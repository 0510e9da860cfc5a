import Mathlib

/-!
# Ones-complement sums

The sum of words of `w` bits in which a carry out of the top is added back at the bottom. Adding
it back at once, later, or in several rounds makes no difference: a number keeps its residue
modulo `2 ^ w - 1`, and stays zero or not zero. Of the numbers below `2 ^ w` that is enough to
know.
-/

namespace Systemish.Foundation

/-- The carries of `s` out of the low `w` bits, added back at the bottom. -/
def endAround (w s : ℕ) : ℕ := s % 2 ^ w + s / 2 ^ w

/-- The sum with end-around carry. -/
def onesSum (w : ℕ) (words : List ℕ) : ℕ :=
  words.foldl (fun sum word ↦ endAround w (sum + word)) 0

/-- Two numbers are the same up to the place of their carries. -/
structure SameCarried (w s t : ℕ) : Prop where
  modEq : s ≡ t [MOD 2 ^ w - 1]
  zero_iff : s = 0 ↔ t = 0

variable {w s t u : ℕ}

namespace SameCarried

theorem refl (w s : ℕ) : SameCarried w s s := ⟨rfl, Iff.rfl⟩

theorem symm (h : SameCarried w s t) : SameCarried w t s := ⟨h.modEq.symm, h.zero_iff.symm⟩

theorem trans (hst : SameCarried w s t) (htu : SameCarried w t u) : SameCarried w s u :=
  ⟨hst.modEq.trans htu.modEq, hst.zero_iff.trans htu.zero_iff⟩

theorem add_right (h : SameCarried w s t) (word : ℕ) : SameCarried w (s + word) (t + word) where
  modEq := h.modEq.add_right word
  zero_iff := by rw [Nat.add_eq_zero_iff, Nat.add_eq_zero_iff, h.zero_iff]

/-- Numbers of `w` bits that are the same up to their carries are equal. -/
theorem eq_of_lt (h : SameCarried w s t) (hs : s < 2 ^ w) (ht : t < 2 ^ w) : s = t := by
  rcases Nat.eq_zero_or_pos s with hzero | hpos
  · rw [hzero, h.zero_iff.mp hzero]
  · have htpos : 0 < t := Nat.pos_of_ne_zero fun ht0 ↦ hpos.ne' (h.zero_iff.mpr ht0)
    -- both lie in `[1, 2 ^ w - 1]`, which has each residue once
    have hpred : s - 1 ≡ t - 1 [MOD 2 ^ w - 1] := by
      apply Nat.ModEq.add_right_cancel' 1
      rw [Nat.sub_add_cancel hpos, Nat.sub_add_cancel htpos]
      exact h.modEq
    have heq := hpred.eq_of_lt_of_lt (by omega) (by omega)
    omega

end SameCarried

theorem sameCarried_endAround (w s : ℕ) : SameCarried w (endAround w s) s where
  modEq := by
    have hone : 2 ^ w ≡ 1 [MOD 2 ^ w - 1] := by
      have hsplit : 2 ^ w = 1 + (2 ^ w - 1) := by
        have hpos := Nat.two_pow_pos w
        omega
      conv_lhs => rw [hsplit]
      exact Nat.add_mod_right 1 _
    calc
      endAround w s = s % 2 ^ w + 1 * (s / 2 ^ w) := by rw [endAround, one_mul]
      _ ≡ s % 2 ^ w + 2 ^ w * (s / 2 ^ w) [MOD 2 ^ w - 1] :=
        (hone.symm.mul_right _).add_left _
      _ = s := Nat.mod_add_div s _
  zero_iff := by
    rw [endAround, Nat.add_eq_zero_iff]
    constructor
    · rintro ⟨hmod, hdiv⟩
      rw [← Nat.mod_add_div s (2 ^ w), hmod, hdiv, Nat.mul_zero]
    · rintro rfl
      exact ⟨Nat.zero_mod _, Nat.zero_div _⟩

theorem endAround_le (w s : ℕ) : endAround w s ≤ s := by
  conv_rhs => rw [← Nat.mod_add_div s (2 ^ w)]
  exact Nat.add_le_add_left (Nat.le_mul_of_pos_left _ (Nat.two_pow_pos w)) _

/-- Each round makes the number smaller while there is a carry. -/
theorem endAround_lt (hw : 0 < w) (hs : s / 2 ^ w ≠ 0) : endAround w s < s := by
  conv_rhs => rw [← Nat.mod_add_div s (2 ^ w)]
  apply Nat.add_lt_add_left
  exact lt_mul_of_one_lt_left (Nat.pos_of_ne_zero hs) (Nat.one_lt_two_pow hw.ne')

/-- One round is enough after an addition of two words. -/
theorem endAround_add_lt (hs : s < 2 ^ w) (ht : t < 2 ^ w) : endAround w (s + t) < 2 ^ w := by
  rw [endAround]
  rcases Nat.lt_or_ge (s + t) (2 ^ w) with hsmall | hlarge
  · rw [Nat.mod_eq_of_lt hsmall, Nat.div_eq_of_lt hsmall]
    exact hsmall
  · have hdiv : (s + t) / 2 ^ w = 1 := by
      apply Nat.div_eq_of_lt_le <;> omega
    have hmod := Nat.mod_add_div (s + t) (2 ^ w)
    rw [hdiv, Nat.mul_one] at hmod
    omega

theorem sameCarried_foldl (w : ℕ) (words : List ℕ) (s : ℕ) :
    SameCarried w (words.foldl (fun sum word ↦ endAround w (sum + word)) s) (s + words.sum) := by
  induction words generalizing s with
  | nil => exact .refl w s
  | cons word words ih =>
    rw [List.sum_cons, ← Nat.add_assoc]
    exact (ih _).trans ((sameCarried_endAround w (s + word)).add_right _)

theorem sameCarried_onesSum (w : ℕ) (words : List ℕ) :
    SameCarried w (onesSum w words) words.sum := by
  have h := sameCarried_foldl w words 0
  rwa [Nat.zero_add] at h

theorem foldl_endAround_lt {words : List ℕ} (hwords : ∀ word ∈ words, word < 2 ^ w)
    (hs : s < 2 ^ w) : words.foldl (fun sum word ↦ endAround w (sum + word)) s < 2 ^ w := by
  induction words generalizing s with
  | nil => exact hs
  | cons word words ih =>
    obtain ⟨hword, hrest⟩ := List.forall_mem_cons.mp hwords
    exact ih hrest (endAround_add_lt hs hword)

theorem onesSum_lt {words : List ℕ} (hwords : ∀ word ∈ words, word < 2 ^ w) :
    onesSum w words < 2 ^ w := foldl_endAround_lt hwords (Nat.two_pow_pos w)

end Systemish.Foundation
