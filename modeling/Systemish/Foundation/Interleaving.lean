import Mathlib

/-!
# Interleaved processes

Several processes take turns, one step of one process at a time. If each of them
alone can take only finitely many steps, then so can all of them together, in
whatever order the steps come.
-/

namespace Systemish.Foundation

variable {ι : Type*} {σ : ι → Type*}

/-- One of the active processes takes a step, from `before` to `after`, and the others stay. -/
def StepAt (step : ∀ i, σ i → σ i → Prop) (active : Finset ι) (after before : ∀ i, σ i) : Prop :=
  ∃ i ∈ active, step i (after i) (before i) ∧ ∀ j, j ≠ i → after j = before j

variable {step : ∀ i, σ i → σ i → Prop}

theorem StepAt.acc {active : Finset ι} {after before : ∀ i, σ i}
    (h : StepAt step active after before) (hacc : ∀ i, Acc (step i) (before i)) (i : ι) :
    Acc (step i) (after i) := by
  obtain ⟨moved, _, hstep, hrest⟩ := h
  by_cases hi : i = moved
  · subst hi
    exact (hacc i).inv hstep
  · rw [hrest i hi]
    exact hacc i

/-- Processes that stop alone stop together. -/
theorem acc_stepAt [DecidableEq ι] (active : Finset ι) {state : ∀ i, σ i}
    (hacc : ∀ i, Acc (step i) (state i)) : Acc (StepAt step active) state := by
  induction active using Finset.induction_on generalizing state with
  | empty =>
    apply Acc.intro
    rintro after ⟨i, hi, _⟩
    exact absurd hi (Finset.notMem_empty i)
  | insert i active hi ih =>
    -- the outer induction is on the new process, the inner one on all the others
    obtain ⟨mine, hmine⟩ : ∃ mine, state i = mine := ⟨_, rfl⟩
    have houter : Acc (step i) mine := hmine ▸ hacc i
    induction houter generalizing state with
    | intro mine _ ihouter =>
      have hinner := ih hacc
      induction hinner with
      | intro state _ ihinner =>
        apply Acc.intro
        intro after hstep
        have hafter := hstep.acc hacc
        obtain ⟨moved, hmoved, hmove, hrest⟩ := hstep
        rcases Finset.mem_insert.mp hmoved with rfl | hactive
        · exact ihouter (after moved) (hmine ▸ hmove) hafter rfl
        · have hne : i ≠ moved := fun h ↦ hi (h ▸ hactive)
          exact ihinner after ⟨moved, hactive, hmove, hrest⟩ hafter ((hrest i hne).trans hmine)

end Systemish.Foundation
