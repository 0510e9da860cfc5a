import Mathlib

/-!
# Sets of numbers as bits

A set of numbers in an array of bytes, eight numbers to a byte. Inserting a number sets its bit,
and a test reads it.
-/

namespace Systemish.Foundation

/-- An array of bytes in which each bit stands for a number. -/
abbrev BitFilter := ℕ → BitVec 8

namespace BitFilter

def byteIndex (x : ℕ) : ℕ := x >>> 3

def bitMask (x : ℕ) : BitVec 8 := 1#8 <<< (x &&& 7)

def empty : BitFilter := fun _ ↦ 0

def insert (filter : BitFilter) (x : ℕ) : BitFilter :=
  Function.update filter (byteIndex x) (filter (byteIndex x) ||| bitMask x)

def test (filter : BitFilter) (x : ℕ) : Bool := filter (byteIndex x) &&& bitMask x ≠ 0

theorem getLsbD_bitMask (x i : ℕ) : (bitMask x).getLsbD i = decide (i = x % 8) := by
  have hlow : x &&& 7 = x % 8 := Nat.and_two_pow_sub_one_eq_mod x 3
  rw [bitMask, hlow, BitVec.getLsbD_shiftLeft, BitVec.getLsbD_one]
  by_cases h : i = x % 8
  · have hlt : i < 8 := h ▸ Nat.mod_lt _ (by decide)
    simp [h.symm, hlt]
  · by_cases hlt : i < x % 8
    · simp [h, hlt]
    · have hsub : i - x % 8 ≠ 0 := by omega
      simp [h, hsub]

theorem test_eq_getLsbD (filter : BitFilter) (x : ℕ) :
    filter.test x = (filter (byteIndex x)).getLsbD (x % 8) := by
  have hbit (i : ℕ) : (filter (byteIndex x) &&& bitMask x).getLsbD i =
      ((filter (byteIndex x)).getLsbD i && decide (i = x % 8)) := by
    rw [BitVec.getLsbD_and, getLsbD_bitMask]
  by_cases h : (filter (byteIndex x)).getLsbD (x % 8)
  · have hset : filter (byteIndex x) &&& bitMask x ≠ 0 := by
      intro hzero
      have := hbit (x % 8)
      rw [hzero, h] at this
      simp at this
    rw [h]
    exact decide_eq_true hset
  · have hclear : filter (byteIndex x) &&& bitMask x = 0 := by
      apply BitVec.eq_of_getLsbD_eq
      intro i _
      rw [hbit i]
      by_cases hi : i = x % 8
      · simp [hi, h]
      · simp [hi]
    rw [Bool.eq_false_iff.mpr h]
    exact decide_eq_false (not_not.mpr hclear)

@[simp]
theorem test_empty (x : ℕ) : empty.test x = false := by
  rw [test_eq_getLsbD, empty]
  exact BitVec.getLsbD_zero

/-- A number has its own bit. -/
theorem test_insert (filter : BitFilter) (x y : ℕ) :
    (filter.insert x).test y = (decide (y = x) || filter.test y) := by
  rw [test_eq_getLsbD, test_eq_getLsbD, insert]
  by_cases hindex : byteIndex y = byteIndex x
  · have hy : y = x ↔ y % 8 = x % 8 := by
      rw [byteIndex, byteIndex, Nat.shiftRight_eq_div_pow, Nat.shiftRight_eq_div_pow] at hindex
      omega
    rw [hindex, Function.update_self, BitVec.getLsbD_or, getLsbD_bitMask, Bool.or_comm,
      decide_eq_decide.mpr hy]
  · have hne : y ≠ x := fun h ↦ hindex (h ▸ rfl)
    rw [Function.update_of_ne hindex, decide_eq_false hne, Bool.false_or]

/-- Insert the numbers of a list. -/
def insertAll (filter : BitFilter) (xs : List ℕ) : BitFilter := xs.foldl insert filter

theorem test_insertAll (filter : BitFilter) (xs : List ℕ) (y : ℕ) :
    (filter.insertAll xs).test y ↔ y ∈ xs ∨ filter.test y := by
  induction xs generalizing filter with
  | nil => simp [insertAll]
  | cons x xs ih =>
    have hrest := ih (filter.insert x)
    rw [insertAll, List.foldl_cons]
    rw [insertAll] at hrest
    rw [hrest, test_insert, Bool.or_eq_true, decide_eq_true_eq, List.mem_cons]
    tauto

end BitFilter

end Systemish.Foundation
