import Mathlib

/-!
# Fixed-width numbers as digits

A number of a fixed width is a list of digits, the least significant one first. Read
from the other end, lists of the same width are ordered as the numbers are.
-/

namespace Systemish.Foundation

variable {base : ℕ}

/-- The digits of a number, the least significant one first. -/
def littleEndian (base : ℕ) [NeZero base] : (width : ℕ) → ℕ → List (Fin base)
  | 0, _ => []
  | width + 1, n => Fin.ofNat base n :: littleEndian base width (n / base)

/-- The number with these digits. -/
def littleEndianValue : List (Fin base) → ℕ
  | [] => 0
  | digit :: digits => digit + base * littleEndianValue digits

@[simp]
theorem littleEndian_length [NeZero base] (width n : ℕ) :
    (littleEndian base width n).length = width := by
  induction width generalizing n with
  | zero => rfl
  | succ width ih => rw [littleEndian, List.length_cons, ih]

theorem littleEndianValue_littleEndian [NeZero base] {width n : ℕ} (h : n < base ^ width) :
    littleEndianValue (littleEndian base width n) = n := by
  induction width generalizing n with
  | zero =>
    rw [pow_zero, Nat.lt_one_iff] at h
    rw [h]
    rfl
  | succ width ih =>
    have hdiv : n / base < base ^ width := by
      apply Nat.div_lt_of_lt_mul
      rwa [← pow_succ']
    rw [littleEndian, littleEndianValue, ih hdiv]
    exact Nat.mod_add_div n base

theorem littleEndianValue_lt (digits : List (Fin base)) :
    littleEndianValue digits < base ^ digits.length := by
  induction digits with
  | nil => exact Nat.one_pos
  | cons digit digits ih =>
    calc
      digit + base * littleEndianValue digits
          < base + base * littleEndianValue digits := Nat.add_lt_add_right digit.isLt _
      _ = base * (littleEndianValue digits + 1) := by ring
      _ ≤ base * base ^ digits.length := Nat.mul_le_mul_left base ih
      _ = base ^ (digits.length + 1) := (pow_succ' _ _).symm

theorem littleEndian_littleEndianValue [NeZero base] (digits : List (Fin base)) :
    littleEndian base digits.length (littleEndianValue digits) = digits := by
  induction digits with
  | nil => rfl
  | cons digit digits ih =>
    have hdigit : Fin.ofNat base (digit + base * littleEndianValue digits) = digit := by
      apply Fin.ext
      rw [Fin.val_ofNat, Nat.add_mul_mod_self_left, Nat.mod_eq_of_lt digit.isLt]
    have hrest : (digit + base * littleEndianValue digits) / base = littleEndianValue digits := by
      rw [Nat.add_mul_div_left _ _ (NeZero.pos base), Nat.div_eq_of_lt digit.isLt, Nat.zero_add]
    rw [List.length_cons, littleEndian, littleEndianValue, hdigit, hrest, ih]

theorem littleEndianValue_concat (digits : List (Fin base)) (digit : Fin base) :
    littleEndianValue (digits ++ [digit]) =
      littleEndianValue digits + base ^ digits.length * digit := by
  induction digits with
  | nil => simp [littleEndianValue]
  | cons first digits ih =>
    rw [List.cons_append, littleEndianValue, ih, littleEndianValue, List.length_cons]
    ring

/-- The leading digit decides. -/
theorem add_mul_lt_of_lt {bound low low' high high' : ℕ} (hlow : low < bound)
    (h : high < high') : low + bound * high < low' + bound * high' := by
  calc
    low + bound * high < bound + bound * high := Nat.add_lt_add_right hlow _
    _ = bound * (high + 1) := by ring
    _ ≤ bound * high' := Nat.mul_le_mul_left bound h
    _ ≤ low' + bound * high' := Nat.le_add_left _ _

/-- Digits of the same width with the most significant one first are in lexicographic order as the
numbers are. -/
theorem lt_iff_littleEndianValue_reverse_lt {digits digits' : List (Fin base)}
    (h : digits.length = digits'.length) :
    digits < digits' ↔
      littleEndianValue digits.reverse < littleEndianValue digits'.reverse := by
  induction digits generalizing digits' with
  | nil =>
    obtain rfl := List.length_eq_zero_iff.mp h.symm
    exact iff_of_false (List.not_lt_nil []) (Nat.lt_irrefl _)
  | cons digit rest ih =>
    rcases digits' with _ | ⟨digit', rest'⟩
    · exact absurd h (Nat.succ_ne_zero _)
    have hlength : rest.length = rest'.length := Nat.succ.inj h
    have hlow := littleEndianValue_lt rest.reverse
    have hlow' := littleEndianValue_lt rest'.reverse
    rw [List.length_reverse] at hlow hlow'
    rw [List.cons_lt_cons_iff, ih hlength, List.reverse_cons, List.reverse_cons,
      littleEndianValue_concat, littleEndianValue_concat, List.length_reverse,
      List.length_reverse, ← hlength]
    rw [← hlength] at hlow'
    rcases lt_trichotomy digit digit' with hlt | rfl | hgt
    · exact iff_of_true (.inl hlt) (add_mul_lt_of_lt hlow hlt)
    · rw [Nat.add_lt_add_iff_right]
      exact ⟨fun hcases ↦ hcases.elim (fun hlt ↦ absurd hlt (lt_irrefl _)) And.right,
        fun hlt ↦ .inr ⟨rfl, hlt⟩⟩
    · apply iff_of_false
      · rintro (hlt | ⟨heq, -⟩)
        · exact lt_asymm hlt hgt
        · exact ne_of_gt hgt heq
      · exact Nat.lt_asymm (add_mul_lt_of_lt hlow' hgt)

end Systemish.Foundation
