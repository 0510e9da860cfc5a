import Systemish.Foundation.Run

/-!
# Threads that share a memory

Finitely many threads run a program on a memory that they share, one step of one thread at a time,
in any order. To know what they leave behind, give each thread an assertion about the point that
it has reached and the memory, and show that the steps of the thread keep it and that the steps of
the others do not disturb it.
-/

namespace Systemish.Foundation

variable {T L M : Type*}

/-- Where a thread is. -/
inductive ThreadPoint (L : Type*) where
  | running (locals : L)
  | returned
  | faulted

/-- The point of a thread that goes on with some locals, or returns. -/
def ThreadPoint.ofOption : Option L → ThreadPoint L
  | some locals => .running locals
  | none => .returned

/-- The code of the threads. A step from some locals in some memory is a fault, or leads to new
locals or the end of the thread, and to a new memory. -/
structure ThreadCode (T L M : Type*) where
  entry : T → L
  step : T → L → M → Option (Option L × M)

structure ThreadsState (T L M : Type*) where
  point : T → ThreadPoint L
  memory : M

namespace ThreadCode

def start (code : ThreadCode T L M) (memory : M) : ThreadsState T L M :=
  ⟨fun thread ↦ .running (code.entry thread), memory⟩

variable (code : ThreadCode T L M)

section Runs

variable [DecidableEq T]

/-- One step of one thread. -/
def next (state : ThreadsState T L M) (thread : T) : Option (ThreadsState T L M) :=
  match state.point thread with
  | .running locals =>
    match code.step thread locals state.memory with
    | some (locals', memory) =>
      some ⟨Function.update state.point thread (.ofOption locals'), memory⟩
    | none => some { state with point := Function.update state.point thread .faulted }
  | .returned => none
  | .faulted => none

/-- All interleavings of the threads. -/
abbrev IsRun (memory : M) : List (ThreadsState T L M × T) → ThreadsState T L M → Prop :=
  Run code.next (fun _ _ ↦ True) (code.start memory)

/-- In whatever order the threads run, none of them faults, they come to an end, and what they
leave behind satisfies `post`. -/
structure Ensures (memory : M) (post : M → Prop) : Prop where
  not_faulted : ∀ history state, code.IsRun memory history state →
    ∀ thread, state.point thread ≠ .faulted
  bounded : ∃ bound, ∀ history state, code.IsRun memory history state → history.length ≤ bound
  ends : ∀ history state, code.IsRun memory history state →
    (∀ thread, code.next state thread = none) →
    (∀ thread, state.point thread = .returned) ∧ post state.memory

variable {code} in
theorem Ensures.mono {memory : M} {post post' : M → Prop} (h : code.Ensures memory post)
    (himp : ∀ final, post final → post' final) : code.Ensures memory post' where
  not_faulted := h.not_faulted
  bounded := h.bounded
  ends history state hrun hstuck :=
    ⟨(h.ends history state hrun hstuck).1, himp _ (h.ends history state hrun hstuck).2⟩

variable {code} in
theorem Ensures.and {memory : M} {post post' : M → Prop} (h : code.Ensures memory post)
    (h' : code.Ensures memory post') :
    code.Ensures memory fun final ↦ post final ∧ post' final where
  not_faulted := h.not_faulted
  bounded := h.bounded
  ends history state hrun hstuck :=
    ⟨(h.ends history state hrun hstuck).1, (h.ends history state hrun hstuck).2,
      (h'.ends history state hrun hstuck).2⟩

variable {code} in
/-- The threads do come to an end: a run that could always go on would exceed the bound. -/
theorem Ensures.exists_end {memory : M} {post : M → Prop} (h : code.Ensures memory post) :
    ∃ history state, code.IsRun memory history state ∧
      (∀ thread, state.point thread = .returned) ∧ post state.memory := by
  by_contra hnone
  have hlonger (k : ℕ) : ∃ history state, code.IsRun memory history state ∧
      history.length = k := by
    induction k with
    | zero => exact ⟨[], _, .start, rfl⟩
    | succ k ih =>
      obtain ⟨history, state, hrun, hlength⟩ := ih
      have hmoves : ¬ ∀ thread, code.next state thread = none :=
        fun hstuck ↦ hnone ⟨history, state, hrun, h.ends history state hrun hstuck⟩
      obtain ⟨thread, hthread⟩ := not_forall.mp hmoves
      obtain ⟨after, hnext⟩ := Option.ne_none_iff_exists'.mp hthread
      exact ⟨_, after, hrun.next trivial hnext, congrArg Nat.succ hlength⟩
  obtain ⟨bound, hbound⟩ := h.bounded
  obtain ⟨history, state, hrun, hlength⟩ := hlonger (bound + 1)
  have hle := hbound history state hrun
  omega

variable {code} in
/-- What holds of the single threads and of the memory, and is kept by every step that is no fault,
holds in every run, whether the threads come to an end or not. -/
theorem invariant_of_run (holds : T → ThreadPoint L → Prop) (shared : M → Prop) {memory : M}
    (hentry : ∀ thread, holds thread (.running (code.entry thread))) (hshared : shared memory)
    (hstep : ∀ thread locals memory locals' memory', holds thread (.running locals) →
      shared memory → code.step thread locals memory = some (locals', memory') →
        holds thread (.ofOption locals') ∧ shared memory')
    (hfault : ∀ thread, holds thread .faulted) {history : List (ThreadsState T L M × T)}
    {state : ThreadsState T L M} (hrun : code.IsRun memory history state) :
    (∀ thread, holds thread (state.point thread)) ∧ shared state.memory := by
  have hupdate {point : T → ThreadPoint L} (h : ∀ thread, holds thread (point thread)) {thread : T}
      {value : ThreadPoint L} (hvalue : holds thread value) (other : T) :
      holds other (Function.update point thread value other) := by
    by_cases hother : other = thread
    · subst hother
      rwa [Function.update_self]
    · rw [Function.update_of_ne hother]
      exact h other
  apply hrun.invariant fun state ↦
    (∀ thread, holds thread (state.point thread)) ∧ shared state.memory
  · exact ⟨hentry, hshared⟩
  · rintro state thread after ⟨hholds, hshared⟩ - hnext
    have hthread := hholds thread
    rw [next] at hnext
    split at hnext
    · next locals hpoint =>
      rw [hpoint] at hthread
      split at hnext
      · next locals' memory' hcode =>
        obtain rfl := Option.some.inj hnext
        obtain ⟨hnew, hmemory⟩ := hstep thread locals _ locals' memory' hthread hshared hcode
        exact ⟨hupdate hholds hnew, hmemory⟩
      · obtain rfl := Option.some.inj hnext
        exact ⟨hupdate hholds (hfault thread), hshared⟩
    · exact absurd hnext (Option.some_ne_none after).symm
    · exact absurd hnext (Option.some_ne_none after).symm

end Runs

/-- Assertions for the threads, and one for the memory that belongs to none of them. -/
structure Outline (memory : M) where
  holds : T → ThreadPoint L → M → Prop
  shared : M → Prop
  /-- How many steps a thread has left. -/
  remaining : T → ThreadPoint L → ℕ
  holds_entry : ∀ thread, holds thread (.running (code.entry thread)) memory
  shared_entry : shared memory
  holds_step : ∀ thread locals memory, holds thread (.running locals) memory → shared memory →
    ∃ locals' memory', code.step thread locals memory = some (locals', memory') ∧
      holds thread (.ofOption locals') memory' ∧ shared memory' ∧
      remaining thread (.ofOption locals') < remaining thread (.running locals) ∧
      ∀ other, other ≠ thread → ∀ point, holds other point memory → holds other point memory'

namespace Outline

variable {code} {memory : M} (outline : code.Outline memory)

/-- What holds in every run. -/
structure Valid [Fintype T] (history : List (ThreadsState T L M × T))
    (state : ThreadsState T L M) : Prop where
  holds : ∀ thread, outline.holds thread (state.point thread) state.memory
  shared : outline.shared state.memory
  not_faulted : ∀ thread, state.point thread ≠ .faulted
  length_le : history.length + ∑ thread, outline.remaining thread (state.point thread) ≤
    ∑ thread, outline.remaining thread (.running (code.entry thread))

variable [Fintype T]

theorem valid_start : outline.Valid [] (code.start memory) where
  holds := outline.holds_entry
  shared := outline.shared_entry
  not_faulted _ := nofun
  length_le := (Nat.zero_add _).le

theorem ofOption_ne_faulted (locals : Option L) : ThreadPoint.ofOption locals ≠ .faulted := by
  cases locals with
  | none => nofun
  | some locals => nofun

variable [DecidableEq T] {outline} {history : List (ThreadsState T L M × T)}
  {state after : ThreadsState T L M}

theorem Valid.next (h : outline.Valid history state) {thread : T}
    (hnext : code.next state thread = some after) :
    outline.Valid ((state, thread) :: history) after := by
  have hholds := h.holds thread
  cases hpoint : state.point thread with
  | returned => simp [ThreadCode.next, hpoint] at hnext
  | faulted => simp [ThreadCode.next, hpoint] at hnext
  | running locals =>
    rw [hpoint] at hholds
    obtain ⟨locals', memory', hstep, howner, hshared, hless, hothers⟩ :=
      outline.holds_step thread locals state.memory hholds h.shared
    have hafter : after = ⟨Function.update state.point thread (.ofOption locals'), memory'⟩ := by
      simpa [ThreadCode.next, hpoint, hstep] using hnext.symm
    subst hafter
    refine ⟨fun other ↦ ?_, hshared, fun other ↦ ?_, ?_⟩
    · by_cases heq : other = thread
      · subst heq
        simpa using howner
      · simpa [heq] using hothers other heq _ (h.holds other)
    · by_cases heq : other = thread
      · subst heq
        simpa using ofOption_ne_faulted locals'
      · simpa [heq] using h.not_faulted other
    · have hsum : ∑ other, outline.remaining other
            (Function.update state.point thread (.ofOption locals') other) <
          ∑ other, outline.remaining other (state.point other) := by
        apply Finset.sum_lt_sum
        · intro other _
          by_cases heq : other = thread
          · subst heq
            simpa [hpoint] using hless.le
          · simp [heq]
        · exact ⟨thread, Finset.mem_univ thread, by simpa [hpoint] using hless⟩
      have hlength := h.length_le
      rw [List.length_cons]
      dsimp only
      omega

theorem valid_of_run (hrun : code.IsRun memory history state) : outline.Valid history state :=
  hrun.invariant_history outline.Valid outline.valid_start fun _ _ _ _ h _ hnext ↦ h.next hnext

/-- Threads that cannot go on have returned. -/
theorem Valid.returned (h : outline.Valid history state)
    (hstuck : ∀ thread, code.next state thread = none) (thread : T) :
    state.point thread = .returned := by
  cases hpoint : state.point thread with
  | returned => rfl
  | faulted => exact absurd hpoint (h.not_faulted thread)
  | running locals =>
    have hholds := h.holds thread
    rw [hpoint] at hholds
    obtain ⟨locals', memory', hstep, -⟩ :=
      outline.holds_step thread locals state.memory hholds h.shared
    have hnone := hstuck thread
    simp [ThreadCode.next, hpoint, hstep] at hnone

/-- The rule: what the assertions say when all threads have returned holds of every run. -/
theorem ensures (outline : code.Outline memory) {post : M → Prop}
    (hpost : ∀ final, outline.shared final → (∀ thread, outline.holds thread .returned final) →
      post final) : code.Ensures memory post where
  not_faulted history state hrun := by
    have hvalid : outline.Valid history state := valid_of_run hrun
    exact hvalid.not_faulted
  bounded := by
    refine ⟨∑ thread, outline.remaining thread (.running (code.entry thread)), ?_⟩
    intro history state hrun
    have hvalid : outline.Valid history state := valid_of_run hrun
    exact (Nat.le_add_right _ _).trans hvalid.length_le
  ends history state hrun hstuck := by
    have hvalid : outline.Valid history state := valid_of_run hrun
    have hreturned := hvalid.returned hstuck
    refine ⟨hreturned, hpost state.memory hvalid.shared fun thread ↦ ?_⟩
    rw [← hreturned thread]
    exact hvalid.holds thread

end Outline

end ThreadCode

end Systemish.Foundation
