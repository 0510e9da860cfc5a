import Systemish.Gpu.FirstIteration

/-!
# Several CPU threads on mapped memory

`main`, `gpu_run` and `vectorAdd` of `gpu/mtMappedMemory`. The arrays have room for the packets
of every CPU thread and the flags are one per CPU thread, but `gpu_run` indexes `h_A` and `h_B` by
the packet alone: all CPU threads work on the elements of the first one.
-/

namespace Systemish.Gpu.MtMappedMemory

open Foundation

def numPkts : ℕ := 32

def cachelineCap : ℕ := 16

def program (numThreads iters : ℕ) : Program where
  numThreads := numThreads
  numPkts := numPkts
  iters := iters
  cpuFlag tid := tid * cachelineCap
  gpuFlag i := i / 32 * cachelineCap
  operand i := .a i
  output operand _ := operand * 2
  breaksAtZero := true

/-- What `main` makes of the memory it allocates. -/
def initialised (numThreads : ℕ) (memory : Memory) : Memory
  | .a i => if i < numPkts then 0 else memory (.a i)
  | .b i => if i < numPkts then 0 else memory (.b i)
  | .flag i =>
    if i % cachelineCap = 0 ∧ i / cachelineCap < numThreads then -1 else memory (.flag i)
  | .log i => memory (.log i)

/-- All interleavings, on any allocated memory. -/
abbrev IsRun (numThreads iters : ℕ) (memory : Memory) : List (State × Event) → State → Prop :=
  (program numThreads iters).IsRun (initialised numThreads memory)

/-- No CPU thread reports a mismatch, and the outputs that a CPU thread checks are twice the inputs
that it wrote in the iteration. -/
def Correct (numThreads iters : ℕ) : Prop :=
  ∀ memory history state, IsRun numThreads iters memory history state →
    state.exit ≠ some .mismatch ∧
    ∀ tid < numThreads, ∀ j < numPkts, (state.cpus tid).place = .loading j →
      state.memory (.b j) = input (state.cpus tid).iter j * 2

variable {numThreads iters : ℕ} {memory : Memory} {history : List (State × Event)} {state : State}

theorem numPkts_le : numPkts ≤ 256 := by
  decide

theorem initialised_flag (memory : Memory) : initialised 1 memory (.flag 0) = -1 := by
  rw [initialised, if_pos ⟨Nat.zero_mod _, Nat.one_pos⟩]

theorem single_program (iters : ℕ) : (program 1 iters).Single where
  numThreads := rfl
  numPkts := numPkts_le
  flag i hi := by
    change i < numPkts at hi
    change i / numPkts * cachelineCap = 0 * cachelineCap
    rw [Nat.div_eq_of_lt hi]
  operand _ _ := Location.noConfusion

theorem served_program (hthreads : 0 < numThreads) (hiters : 0 < iters) :
    (program numThreads iters).Served where
  iters := hiters
  numThreads := hthreads
  numPkts := numPkts_le
  flag := (single_program iters).flag
  operand _ _ := Location.noConfusion

theorem outputs_nonzero (numThreads iters : ℕ) (memory : Memory) :
    (program numThreads iters).OutputsNonzero (initialised numThreads memory) := by
  intro history state _ hfilled i hi hzero
  change state.memory (.a i) * 2 = 0 at hzero
  rw [hfilled i hi] at hzero
  have hinput := toNat_input 0 (hi.trans_le numPkts_le)
  have hnat := congrArg BitVec.toNat hzero
  rw [BitVec.toNat_mul] at hnat
  change (input 0 i).toNat * 2 % 2 ^ 32 = 0 at hnat
  omega

/-- A single CPU thread is served. -/
theorem correct_one (iters : ℕ) : Correct 1 iters := by
  intro memory history state hrun
  obtain ⟨h, hexit⟩ := synchronised_of_run (single_program iters) (initialised_flag memory) hrun
  constructor
  · rw [hexit]
    exact (Option.some_ne_none _).symm
  · intro tid htid j hj hloading
    obtain rfl := Nat.lt_one_iff.mp htid
    have hfilled := h.filled j
    rw [hloading] at hfilled
    rw [h.output_eq hloading hj]
    exact congrArg (· * 2) (hfilled hj)

/-- Without iterations the CPU threads do nothing. -/
theorem correct_zero (numThreads : ℕ) : Correct numThreads 0 := by
  intro memory history state hrun
  have hidle : (∀ tid, (state.cpus tid).place = .finished) ∧ state.exit = none := by
    refine hrun.invariant
      (fun state ↦ (∀ tid, (state.cpus tid).place = .finished) ∧ state.exit = none)
      ⟨fun _ ↦ rfl, rfl⟩ ?_
    intro before event after hbefore _ hstep
    cases event with
    | cpu tid =>
      obtain ⟨_, move, hmove, _⟩ := step_cpu hstep
      rw [Program.gpuRun, hbefore.1 tid] at hmove
      exact absurd hmove (Option.some_ne_none _).symm
    | gpu i =>
      obtain ⟨move, _, rfl⟩ := step_gpu hstep
      exact hbefore
  constructor
  · rw [hidle.2]
    exact (Option.some_ne_none _).symm
  · intro tid _ j _ hloading
    rw [hidle.1 tid] at hloading
    exact CpuPlace.noConfusion hloading

/-- The first CPU thread reports an output that is not twice its input. -/
theorem exists_mismatch_of_ne (hrun : IsRun numThreads iters memory history state)
    (hexit : state.exit = none) (hthreads : 0 < numThreads) {iter j : ℕ} (hj : j < numPkts)
    (hcpu : state.cpus 0 = ⟨iter, .loading j⟩)
    (hne : state.memory (.b j) ≠ state.memory (.a j) * 2) :
    ∃ history state, IsRun numThreads iters memory history state ∧
      state.exit = some .mismatch := by
  have hloaded := isRun_cpu hrun hexit hthreads hcpu (if_pos hj)
  have hcompared := isRun_cpu hloaded hexit hthreads (afterCpu_cpus state 0 _ _) (if_neg hne)
  exact ⟨_, _, hcompared, rfl⟩

/-- Between the return of `waitForNonZero` and the check, another CPU thread clears the first
output. -/
theorem exists_mismatch (hthreads : 2 ≤ numThreads) (hiters : 0 < iters) (memory : Memory) :
    ∃ history state, IsRun numThreads iters memory history state ∧
      state.exit = some .mismatch := by
  have hfirst : 0 < numThreads := Nat.zero_lt_of_lt hthreads
  obtain ⟨history, state, hrun, hstate⟩ := Reaches.loading (served_program hfirst hiters)
    (outputs_nonzero numThreads iters memory)
  have hsecond : state.cpus 1 = ⟨0, .clearing 0⟩ := by
    rw [hstate.others 1 one_ne_zero, CpuThread.loopHead]
    exact congrArg _ (if_pos hiters)
  -- the first store of the `memset` of the second thread
  have hcleared := isRun_cpu hrun hstate.exit hthreads hsecond rfl
  have hloading := (afterCpu_cpus_of_ne state zero_ne_one
    (Function.update state.memory (.b 0) 0) ⟨0, .clearing 1⟩).trans hstate.first
  apply exists_mismatch_of_ne hcleared hstate.exit hfirst (Nat.zero_lt_succ 31) hloading
  change Function.update state.memory (.b 0) 0 (.b 0) ≠
    Function.update state.memory (.b 0) 0 (.a 0) * 2
  rw [Function.update_self, Function.update_of_ne Location.noConfusion,
    hstate.filled 0 (Nat.zero_lt_succ 31)]
  decide

/-- The CPU threads get in each other's way as soon as there are two. -/
theorem correct_iff (hthreads : 1 ≤ numThreads) :
    Correct numThreads iters ↔ numThreads = 1 ∨ iters = 0 := by
  constructor
  · intro hcorrect
    by_contra hmany
    obtain ⟨hone, hzero⟩ := not_or.mp hmany
    obtain ⟨history, state, hrun, hexit⟩ := exists_mismatch
      (Nat.lt_of_le_of_ne hthreads (Ne.symm hone)) (Nat.pos_of_ne_zero hzero) fun _ ↦ 0
    exact (hcorrect _ history state hrun).1 hexit
  · intro h
    cases h with
    | inl hone =>
      subst hone
      exact correct_one iters
    | inr hzero =>
      subst hzero
      exact correct_zero numThreads

/-- The shipped numbers of threads and iterations. -/
theorem correct_shipped : Correct 1 1000 :=
  (correct_iff (le_refl 1)).mpr (.inl rfl)

/-- With a second CPU thread, the first one reports a mismatch in its first iteration. -/
theorem two_threads_mismatch :
    ∃ history state, IsRun 2 1000 (fun _ ↦ 0) history state ∧ state.exit = some .mismatch :=
  exists_mismatch (le_refl 2) (by decide) fun _ ↦ 0

end Systemish.Gpu.MtMappedMemory
