import Mathlib

/-!
# Runs of a system in an environment

A system takes partial steps on inputs that its environment chooses. What the
environment may do at a state is a parameter, so the same system can be studied
under weak and under strong assumptions. A run carries its history, the inputs
with the states at which they arrived, latest first.
-/

namespace Systemish.Foundation

variable {σ ι : Type*} {step : σ → ι → Option σ} {allowed : σ → ι → Prop} {start final : σ}
  {history : List (σ × ι)}

/-- Runs from `start` in which every input is allowed at its state. -/
inductive Run (step : σ → ι → Option σ) (allowed : σ → ι → Prop) (start : σ) :
    List (σ × ι) → σ → Prop
  | start : Run step allowed start [] start
  | next {history : List (σ × ι)} {state after : σ} {input : ι}
      (hrun : Run step allowed start history state) (hallowed : allowed state input)
      (hstep : step state input = some after) :
      Run step allowed start ((state, input) :: history) after

/-- Take the inputs of a list, if each can be taken, and add them to a history. -/
def follow (step : σ → ι → Option σ) (history : List (σ × ι)) (state : σ) :
    (inputs : List ι) → Option (List (σ × ι) × σ)
  | [] => some (history, state)
  | input :: inputs =>
    match step state input with
    | none => none
    | some after => follow step ((state, input) :: history) after inputs

namespace Run

/-- Inputs that can be taken one after the other lengthen a run. -/
theorem of_follow {before : List (σ × ι)} {state : σ}
    (hrun : Run step (fun _ _ ↦ True) start before state) (inputs : List ι)
    (h : follow step before state inputs = some (history, final)) :
    Run step (fun _ _ ↦ True) start history final := by
  induction inputs generalizing before state with
  | nil =>
    obtain ⟨rfl, rfl⟩ := Prod.mk.inj (Option.some.inj h)
    exact hrun
  | cons input inputs ih =>
    rw [follow] at h
    split at h
    · exact absurd h (Option.some_ne_none _).symm
    · next after hstep => exact ih (hrun.next trivial hstep) h

theorem subset_of_follow {before : List (σ × ι)} {state : σ} (inputs : List ι)
    (h : follow step before state inputs = some (history, final)) : before ⊆ history := by
  induction inputs generalizing before state with
  | nil =>
    obtain ⟨rfl, rfl⟩ := Prod.mk.inj (Option.some.inj h)
    exact List.Subset.refl _
  | cons input inputs ih =>
    rw [follow] at h
    split at h
    · exact absurd h (Option.some_ne_none _).symm
    · exact List.subset_of_cons_subset (ih h)

/-- Inputs that are allowed at the states where they are taken lengthen a run. -/
theorem of_follow_allowed {before : List (σ × ι)} {state : σ}
    (hrun : Run step allowed start before state) (inputs : List ι)
    (h : follow step before state inputs = some (history, final))
    (hallowed : ∀ entry ∈ history, allowed entry.1 entry.2) :
    Run step allowed start history final := by
  induction inputs generalizing before state with
  | nil =>
    obtain ⟨rfl, rfl⟩ := Prod.mk.inj (Option.some.inj h)
    exact hrun
  | cons input inputs ih =>
    rw [follow] at h
    split at h
    · exact absurd h (Option.some_ne_none _).symm
    · next after hstep =>
      have hinput := hallowed _ (subset_of_follow inputs h List.mem_cons_self)
      exact ih (hrun.next hinput hstep) h

/-- A run that can be computed. -/
theorem exists_of_follow (inputs : List ι) (goal : List (σ × ι) → σ → Prop)
    (h : ∃ result ∈ follow step [] start inputs,
      (∀ entry ∈ result.1, allowed entry.1 entry.2) ∧ goal result.1 result.2) :
    ∃ history final, Run step allowed start history final ∧ goal history final := by
  obtain ⟨⟨history, final⟩, hfollow, hallowed, hgoal⟩ := h
  exact ⟨history, final, of_follow_allowed .start inputs hfollow hallowed, hgoal⟩

/-- Inputs can be taken one after the other if every run that is short enough can take each. -/
theorem exists_follow {before : List (σ × ι)} {state : σ}
    (hrun : Run step allowed start before state) (inputs : List ι)
    (hallowed : ∀ state, ∀ input ∈ inputs, allowed state input)
    (hstep : ∀ history state input, Run step allowed start history state →
      history.length < before.length + inputs.length → ∃ after, step state input = some after) :
    ∃ history final, follow step before state inputs = some (history, final) ∧
      Run step allowed start history final ∧
      history.map Prod.snd = inputs.reverse ++ before.map Prod.snd := by
  induction inputs generalizing before state with
  | nil => exact ⟨before, state, rfl, hrun, rfl⟩
  | cons input inputs ih =>
    obtain ⟨after, hafter⟩ := hstep before state input hrun (by simp)
    obtain ⟨history, final, hfollow, hrun', hinputs⟩ :=
      ih (hrun.next (hallowed state input List.mem_cons_self) hafter)
        (fun state other hother ↦ hallowed state other (List.mem_cons_of_mem _ hother))
        fun history state other hrun hlt ↦ hstep history state other hrun (by
          simp only [List.length_cons] at hlt ⊢
          omega)
    refine ⟨history, final, ?_, hrun', ?_⟩
    · rw [follow, hafter]
      exact hfollow
    · rw [hinputs, List.reverse_cons, List.append_assoc]
      rfl

/-- What holds of the empty history at the start and survives every allowed step holds of every
run. -/
theorem invariant_history (property : List (σ × ι) → σ → Prop) (hstart : property [] start)
    (hkeep : ∀ history state input after, property history state → allowed state input →
      step state input = some after → property ((state, input) :: history) after)
    (hrun : Run step allowed start history final) : property history final := by
  induction hrun with
  | start => exact hstart
  | next _ hallowed hstep ih => exact hkeep _ _ _ _ ih hallowed hstep

/-- What holds at the start and survives every allowed step holds after every run. -/
theorem invariant (property : σ → Prop) (hstart : property start)
    (hkeep : ∀ state input after, property state → allowed state input →
      step state input = some after → property after)
    (hrun : Run step allowed start history final) : property final :=
  hrun.invariant_history (fun _ state ↦ property state) hstart
    fun _ state input after ↦ hkeep state input after

/-- A run up to one of its steps. -/
theorem before {later earlier : List (σ × ι)} {state : σ} {input : ι}
    (hrun : Run step allowed start (later ++ (state, input) :: earlier) final) :
    Run step allowed start earlier state := by
  induction later generalizing final with
  | nil =>
    cases hrun with
    | next hrun hallowed hstep => exact hrun
  | cons entry later ih =>
    cases hrun with
    | next hrun hallowed hstep => exact ih hrun

/-- A property that each step keeps exactly if the step is clean, and that no step restores, holds
after exactly the runs whose steps are all clean. The steps may rely on an invariant. -/
theorem iff_forall_clean {property : σ → Prop} {clean : σ → ι → Prop} (invariant : σ → Prop)
    (hinvariant : invariant start)
    (hkeep : ∀ state input after, invariant state → allowed state input →
      step state input = some after → invariant after)
    (hstart : property start)
    (hstep : ∀ state input after, invariant state → allowed state input →
      step state input = some after → (property after ↔ property state ∧ clean state input))
    (hrun : Run step allowed start history final) :
    invariant final ∧ (property final ↔ ∀ entry ∈ history, clean entry.1 entry.2) := by
  induction hrun with
  | start => exact ⟨hinvariant, by simpa using hstart⟩
  | next _ hallowed hnext ih =>
    refine ⟨hkeep _ _ _ ih.1 hallowed hnext, ?_⟩
    rw [hstep _ _ _ ih.1 hallowed hnext, ih.2, List.forall_mem_cons, and_comm]

/-- Two systems that take the same steps where an invariant holds have the same runs. -/
theorem transfer {step' : σ → ι → Option σ} (invariant : σ → Prop) (hinvariant : invariant start)
    (hkeep : ∀ state input after, invariant state → allowed state input →
      step state input = some after → invariant after)
    (hsame : ∀ state input, invariant state → allowed state input →
      step state input = step' state input)
    (hrun : Run step allowed start history final) : Run step' allowed start history final :=
  (hrun.invariant_history
    (fun history state ↦ invariant state ∧ Run step' allowed start history state)
    ⟨hinvariant, .start⟩ fun _ state input after h hallowed hstep ↦
      ⟨hkeep state input after h.1 hallowed hstep,
        h.2.next hallowed ((hsame state input h.1 hallowed).symm.trans hstep)⟩).2

end Run

end Systemish.Foundation
