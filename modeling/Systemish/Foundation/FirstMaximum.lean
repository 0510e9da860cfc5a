import Mathlib

/-!
# The first maximum of a finite sequence

The position at which a scan from left to right with a strict comparison ends: its value is
nowhere exceeded, and before it nowhere reached.
-/

namespace Systemish.Foundation

variable {n : ℕ} {α : Type*} [LinearOrder α] {f g : Fin n → α} {k : ℕ} {best other : Fin n}

/-- `best` is the first maximum of `f` on the positions below `k`. -/
structure FirstMaxBelow (f : Fin n → α) (k : ℕ) (best : Fin n) : Prop where
  below : (best : ℕ) < k
  le : ∀ i : Fin n, (i : ℕ) < k → f i ≤ f best
  lt : ∀ i < best, f i < f best

/-- `best` is the first maximum of `f`. -/
abbrev FirstMax (f : Fin n → α) (best : Fin n) : Prop := FirstMaxBelow f n best

/-- `best` is the first minimum of `f`. -/
abbrev FirstMin (f : Fin n → α) (best : Fin n) : Prop := FirstMax (OrderDual.toDual ∘ f) best

namespace FirstMaxBelow

/-- The scan starts at the first position. -/
theorem one (h : (best : ℕ) = 0) : FirstMaxBelow f 1 best where
  below := by omega
  le i hi := by
    have heq : i = best := Fin.ext (by omega)
    rw [heq]
  lt i hi := by
    have hlt : (i : ℕ) < best := hi
    omega

/-- A value that exceeds the maximum takes its place. -/
theorem succ_of_lt (h : FirstMaxBelow f k best) (hother : (other : ℕ) = k)
    (hlt : f best < f other) : FirstMaxBelow f (k + 1) other where
  below := by omega
  le i hi := by
    rcases Nat.lt_succ_iff_lt_or_eq.mp hi with hbefore | hlast
    · exact (h.le i hbefore).trans hlt.le
    · have heq : i = other := Fin.ext (by omega)
      rw [heq]
  lt i hi := by
    have hbefore : (i : ℕ) < other := hi
    exact (h.le i (by omega)).trans_lt hlt

/-- A value that does not exceed the maximum is passed over. -/
theorem succ_of_le (h : FirstMaxBelow f k best) (hother : (other : ℕ) = k)
    (hle : f other ≤ f best) : FirstMaxBelow f (k + 1) best where
  below := h.below.trans (Nat.lt_succ_self k)
  le i hi := by
    rcases Nat.lt_succ_iff_lt_or_eq.mp hi with hbefore | hlast
    · exact h.le i hbefore
    · have heq : i = other := Fin.ext (by omega)
      rw [heq]
      exact hle
  lt := h.lt

theorem unique (h : FirstMaxBelow f k best) (hother : FirstMaxBelow f k other) :
    best = other := by
  by_contra hne
  rcases lt_or_gt_of_ne hne with hlt | hgt
  · exact absurd (hother.lt best hlt) (not_lt.mpr (h.le other hother.below))
  · exact absurd (h.lt other hgt) (not_lt.mpr (hother.le best h.below))

end FirstMaxBelow

end Systemish.Foundation
