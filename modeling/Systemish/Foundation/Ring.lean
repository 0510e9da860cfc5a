import Mathlib

/-!
# Rings of slots

Consecutive slots of a ring. A queue that takes its slots in this order and gets them
back in this order stays in step with a counter that goes round the ring.
-/

namespace Systemish.Foundation

variable {n : ℕ} [NeZero n]

/-- `count` slots of a ring, from `head` on. -/
def ringSlots (head : Fin n) (count : ℕ) : List (Fin n) :=
  (List.range count).map fun i ↦ head + Fin.ofNat n i

@[simp]
theorem ringSlots_length (head : Fin n) (count : ℕ) : (ringSlots head count).length = count := by
  rw [ringSlots, List.length_map, List.length_range]

theorem ringSlots_succ (head : Fin n) (count : ℕ) :
    ringSlots head (count + 1) = ringSlots head count ++ [head + Fin.ofNat n count] := by
  rw [ringSlots, List.range_succ, List.map_append, List.map_singleton, ringSlots]

theorem ringSlots_succ_eq_cons (head : Fin n) (count : ℕ) :
    ringSlots head (count + 1) = head :: ringSlots (head + 1) count := by
  have hzero : head + Fin.ofNat n 0 = head := add_zero head
  have hnext : ∀ i, head + Fin.ofNat n (i + 1) = head + 1 + Fin.ofNat n i := by
    intro i
    have hsucc : Fin.ofNat n (i + 1) = 1 + Fin.ofNat n i := by
      apply Fin.ext
      simp [Fin.val_add, Nat.add_comm]
    rw [hsucc, add_assoc]
  rw [ringSlots, List.range_succ_eq_map, List.map_cons, List.map_map, hzero, ringSlots]
  congr 1
  exact List.map_congr_left fun i _ ↦ hnext i

/-- No slot comes twice, up to once round the ring. -/
theorem ringSlots_nodup (head : Fin n) {count : ℕ} (h : count ≤ n) :
    (ringSlots head count).Nodup := by
  apply List.nodup_range.map_on
  intro i hi j hj heq
  have hval := congrArg Fin.val (add_left_cancel heq)
  rw [Fin.val_ofNat, Fin.val_ofNat] at hval
  rwa [Nat.mod_eq_of_lt (Nat.lt_of_lt_of_le (List.mem_range.mp hi) h),
    Nat.mod_eq_of_lt (Nat.lt_of_lt_of_le (List.mem_range.mp hj) h)] at hval

/-- The first slot of a full round goes to the end, and the round starts one slot later. -/
theorem ringSlots_rotate {head slot : Fin n} {rest : List (Fin n)}
    (h : slot :: rest = ringSlots head n) :
    slot = head ∧ rest ++ [slot] = ringSlots (head + 1) n := by
  have hfirst := ringSlots_succ_eq_cons head (n - 1)
  have hlast := ringSlots_succ (head + 1) (n - 1)
  rw [Nat.sub_add_cancel (NeZero.pos n)] at hfirst hlast
  rw [hfirst] at h
  obtain ⟨rfl, rfl⟩ := List.cons.inj h
  refine ⟨rfl, ?_⟩
  have hround : (1 : Fin n) + Fin.ofNat n (n - 1) = 0 := by
    have hsucc : Fin.ofNat n (1 + (n - 1)) = 1 + Fin.ofNat n (n - 1) := by
      apply Fin.ext
      simp [Fin.val_add]
    rw [← hsucc, Nat.add_sub_cancel' (NeZero.pos n)]
    apply Fin.ext
    rw [Fin.val_ofNat, Nat.mod_self]
    rfl
  rw [hlast, add_assoc, hround, add_zero]

end Systemish.Foundation
