import Systemish.Gpu.Synchronised

/-!
# The first iteration of a CPU thread that is left alone

The first CPU thread and its GPU threads can go through the first iteration up to the check while
all other CPU threads stand still.
-/

namespace Systemish.Gpu

open Foundation

/-- The first CPU thread has work, and its GPU threads wait for its flag. -/
structure Program.Served (program : Program) : Prop where
  iters : 0 < program.iters
  numThreads : 0 < program.numThreads
  numPkts : program.numPkts ≤ 256
  flag : ∀ i < program.numPkts, program.gpuFlag i = program.cpuFlag 0
  operand : ∀ i j, program.operand i ≠ .b j

variable (program : Program)

/-- The outputs of filled packets are not taken for missing ones. -/
def Program.OutputsNonzero (memory : Memory) : Prop :=
  ∀ history state, program.IsRun memory history state →
    (∀ j < program.numPkts, state.memory (.a j) = input 0 j) →
    ∀ i < program.numPkts, program.output (state.memory (program.operand i)) 0 ≠ 0

/-- The first CPU thread is at a place of its first iteration, and its first GPU threads are done
with it. -/
structure Undisturbed (state : State) (place : CpuPlace) (done : ℕ) : Prop where
  exit : state.exit = none
  first : state.cpus 0 = ⟨0, place⟩
  others : ∀ tid, tid ≠ 0 → state.cpus tid = .loopHead program.iters 0
  filled : ∀ j < place.filled program.numPkts, state.memory (.a j) = input 0 j
  flag : place.raised = true → state.memory (.flag (program.cpuFlag 0)) = 0
  stored : ∀ i < done, state.memory (.b i) =
    program.output (state.memory (program.operand i)) 0
  polling : ∀ i, done ≤ i → i < program.numPkts → state.gpus i = ⟨0, .polling⟩

/-- Some run leads there. -/
def Reaches (memory : Memory) (place : CpuPlace) (done : ℕ) : Prop :=
  ∃ history state, program.IsRun memory history state ∧ Undisturbed program state place done

variable {program} {memory after : Memory} {history : List (State × Event)} {state : State}
  {place next : CpuPlace} {done j : ℕ}

theorem afterCpu_cpus (state : State) (tid : ℕ) (after : Memory) (cpu : CpuThread) :
    (state.afterCpu tid (after, .ok cpu)).cpus tid = cpu := by
  change Function.update state.cpus tid cpu tid = cpu
  rw [Function.update_self]

theorem afterCpu_cpus_of_ne (state : State) {tid other : ℕ} (hne : other ≠ tid) (after : Memory)
    (cpu : CpuThread) : (state.afterCpu tid (after, .ok cpu)).cpus other = state.cpus other := by
  change Function.update state.cpus tid cpu other = state.cpus other
  rw [Function.update_of_ne hne]

theorem isRun_cpu {tid : ℕ} {cpu : CpuThread} {move : Memory × Except Exit CpuThread}
    (hrun : program.IsRun memory history state) (hexit : state.exit = none)
    (htid : tid < program.numThreads) (hcpu : state.cpus tid = cpu)
    (hstep : program.gpuRun tid state.memory cpu = some move) :
    program.IsRun memory ((state, .cpu tid) :: history) (state.afterCpu tid move) := by
  apply hrun.next trivial
  rw [Program.step, if_pos ⟨hexit, htid⟩, hcpu, hstep]
  rfl

theorem isRun_gpu {i : ℕ} {gpu : GpuThread} {move : Memory × GpuThread}
    (hrun : program.IsRun memory history state) (hexit : state.exit = none)
    (hi : i < program.blocksPerGrid * program.numPkts) (hgpu : state.gpus i = gpu)
    (hstep : program.vectorAdd i state.memory gpu = some move) :
    program.IsRun memory ((state, .gpu i) :: history) (state.afterGpu i move) := by
  apply hrun.next trivial
  rw [Program.step, if_pos ⟨hexit, hi⟩, hgpu, hstep]
  rfl

/-- The packets of the first CPU thread have their GPU threads. -/
theorem launched (hserved : program.Served) {i : ℕ} (hi : i < program.numPkts) :
    i < program.blocksPerGrid * program.numPkts := by
  have hblocks : 1 ≤ program.blocksPerGrid := by
    rw [Program.blocksPerGrid, Nat.le_div_iff_mul_le (Nat.zero_lt_of_lt hi)]
    have htotal : program.numPkts ≤ program.totalThreads :=
      Nat.le_mul_of_pos_right _ hserved.numThreads
    omega
  exact hi.trans_le (Nat.le_mul_of_pos_left _ hblocks)

namespace Undisturbed

/-- A step of the first CPU thread. -/
theorem afterCpu (h : Undisturbed program state place done)
    (hfilled : ∀ j < next.filled program.numPkts, after (.a j) = input 0 j)
    (hflag : next.raised = true → after (.flag (program.cpuFlag 0)) = 0)
    (hstored : ∀ i < done, after (.b i) = program.output (after (program.operand i)) 0) :
    Undisturbed program (state.afterCpu 0 (after, .ok ⟨0, next⟩)) next done where
  exit := h.exit
  first := afterCpu_cpus state 0 after ⟨0, next⟩
  others tid htid := (afterCpu_cpus_of_ne state htid after ⟨0, next⟩).trans (h.others tid htid)
  filled := hfilled
  flag := hflag
  stored := hstored
  polling := h.polling

/-- One more GPU thread is done with the iteration. -/
theorem afterGpu (h : Undisturbed program state place done) (hserved : program.Served)
    {final : State} (hexit : final.exit = state.exit) (hcpus : final.cpus = state.cpus)
    (hgpus : ∀ i, i ≠ done → final.gpus i = state.gpus i)
    (hmemory : final.memory = Function.update state.memory (.b done)
      (program.output (state.memory (program.operand done)) 0)) :
    Undisturbed program final place (done + 1) where
  exit := hexit.trans h.exit
  first := (congrFun hcpus 0).trans h.first
  others tid htid := (congrFun hcpus tid).trans (h.others tid htid)
  filled j hj := by
    rw [hmemory, Function.update_of_ne Location.noConfusion]
    exact h.filled j hj
  flag hraised := by
    rw [hmemory, Function.update_of_ne Location.noConfusion]
    exact h.flag hraised
  stored i hi := by
    rw [hmemory, Function.update_of_ne (hserved.operand i done)]
    exact update_succ location_b_injective h.stored i hi
  polling i hdone hi := by
    rw [hgpus i (Nat.ne_of_gt hdone)]
    exact h.polling i (Nat.le_of_succ_le hdone) hi

end Undisturbed

theorem undisturbed_start (hserved : program.Served) :
    Undisturbed program (program.start memory) (.clearing 0) 0 where
  exit := rfl
  first := by
    change CpuThread.loopHead _ _ = _
    rw [CpuThread.loopHead, if_pos hserved.iters]
  others _ _ := rfl
  filled j hj := absurd hj (Nat.not_lt_zero j)
  flag := Bool.noConfusion
  stored i hi := absurd hi (Nat.not_lt_zero i)
  polling i _ hi := by
    have htotal : i < program.totalThreads :=
      hi.trans_le (Nat.le_mul_of_pos_right _ hserved.numThreads)
    change (ite _ _ _ : GpuThread) = _
    rw [if_pos htotal, GpuThread.loopHead, if_pos hserved.iters]

namespace Reaches

theorem cpu (h : Reaches program memory place done) (hserved : program.Served)
    (hstep : ∀ history state, program.IsRun memory history state →
      Undisturbed program state place done → ∃ after,
        program.gpuRun 0 state.memory ⟨0, place⟩ = some (after, .ok ⟨0, next⟩) ∧
        Undisturbed program (state.afterCpu 0 (after, .ok ⟨0, next⟩)) next done) :
    Reaches program memory next done := by
  obtain ⟨history, state, hrun, hstate⟩ := h
  obtain ⟨after, hmove, hafter⟩ := hstep history state hrun hstate
  exact ⟨_, _, isRun_cpu hrun hstate.exit hserved.numThreads hstate.first hmove, hafter⟩

theorem clearing (hserved : program.Served) (hj : j ≤ program.numPkts) :
    Reaches program memory (.clearing j) 0 := by
  induction j with
  | zero => exact ⟨_, _, .start, undisturbed_start hserved⟩
  | succ j ih =>
    apply (ih (Nat.le_of_succ_le hj)).cpu hserved
    intro history state _ hstate
    refine ⟨Function.update state.memory (.b j) 0, if_pos hj, hstate.afterCpu ?_ ?_ ?_⟩
    · exact fun k hk ↦ absurd hk (Nat.not_lt_zero k)
    · exact Bool.noConfusion
    · exact fun k hk ↦ absurd hk (Nat.not_lt_zero k)

theorem filling (hserved : program.Served) (hj : j ≤ program.numPkts) :
    Reaches program memory (.filling j) 0 := by
  induction j with
  | zero =>
    apply (clearing hserved (le_refl _)).cpu hserved
    intro history state _ hstate
    refine ⟨state.memory, if_neg (Nat.lt_irrefl _), hstate.afterCpu ?_ ?_ ?_⟩
    · exact fun k hk ↦ absurd hk (Nat.not_lt_zero k)
    · exact Bool.noConfusion
    · exact fun k hk ↦ absurd hk (Nat.not_lt_zero k)
  | succ j ih =>
    have hasserting : Reaches program memory (.asserting j) 0 := by
      apply (ih (Nat.le_of_succ_le hj)).cpu hserved
      intro history state _ hstate
      refine ⟨Function.update state.memory (.a j) (input 0 j), if_pos hj,
        hstate.afterCpu ?_ ?_ ?_⟩
      · exact update_succ location_a_injective hstate.filled
      · exact Bool.noConfusion
      · exact fun k hk ↦ absurd hk (Nat.not_lt_zero k)
    apply hasserting.cpu hserved
    intro history state _ hstate
    have hnonzero : state.memory (.a j) ≠ 0 := by
      rw [hstate.filled j (Nat.lt_succ_self j)]
      exact input_ne_zero 0 (hj.trans hserved.numPkts)
    refine ⟨state.memory, if_neg hnonzero, hstate.afterCpu ?_ ?_ ?_⟩
    · exact hstate.filled
    · exact Bool.noConfusion
    · exact fun k hk ↦ absurd hk (Nat.not_lt_zero k)

/-- The flag is raised. -/
theorem raised (hserved : program.Served) : Reaches program memory (.scanning 0 true) 0 := by
  have hraising : Reaches program memory .raising 0 := by
    apply (filling hserved (le_refl _)).cpu hserved
    intro history state _ hstate
    refine ⟨state.memory, if_neg (Nat.lt_irrefl _), hstate.afterCpu ?_ ?_ ?_⟩
    · exact hstate.filled
    · exact Bool.noConfusion
    · exact fun k hk ↦ absurd hk (Nat.not_lt_zero k)
  apply hraising.cpu hserved
  intro history state _ hstate
  refine ⟨Function.update state.memory (.flag (program.cpuFlag 0)) 0, rfl,
    hstate.afterCpu ?_ ?_ ?_⟩
  · exact fun k hk ↦
      (Function.update_of_ne Location.noConfusion _ _).trans (hstate.filled k hk)
  · exact fun _ ↦ Function.update_self _ _ _
  · exact fun k hk ↦ absurd hk (Nat.not_lt_zero k)

/-- The GPU threads store their outputs one after the other. -/
theorem stored (hserved : program.Served) (hdone : done ≤ program.numPkts) :
    Reaches program memory (.scanning 0 true) done := by
  induction done with
  | zero => exact raised hserved
  | succ done ih =>
    obtain ⟨history, state, hrun, hstate⟩ := ih (Nat.le_of_succ_le hdone)
    have hlaunched := launched hserved hdone
    have hflag : state.memory (.flag (program.gpuFlag done)) ≠ BitVec.ofNat 32 0 - 1 := by
      rw [hserved.flag done hdone, hstate.flag rfl]
      exact sub_one_ne 0
    -- the thread polls, loads and stores without a step of another one in between
    have hpolled := isRun_gpu hrun hstate.exit hlaunched
      (hstate.polling done (le_refl done) hdone) (if_neg hflag)
    have hloaded := isRun_gpu hpolled hstate.exit hlaunched (Function.update_self done _ _) rfl
    have hstored := isRun_gpu hloaded hstate.exit hlaunched (Function.update_self done _ _) rfl
    refine ⟨_, _, hstored, hstate.afterGpu hserved rfl rfl ?_ rfl⟩
    intro i hi
    change Function.update (Function.update (Function.update state.gpus done _) done _) done _ i = _
    rw [Function.update_of_ne hi, Function.update_of_ne hi, Function.update_of_ne hi]

/-- The scan finds no zero. -/
theorem scanning (hserved : program.Served) (houtput : program.OutputsNonzero memory)
    (hj : j ≤ program.numPkts) :
    Reaches program memory (.scanning j true) program.numPkts := by
  induction j with
  | zero => exact stored hserved (le_refl _)
  | succ j ih =>
    apply (ih (Nat.le_of_succ_le hj)).cpu hserved
    intro history state hrun hstate
    have hnonzero : state.memory (.b j) ≠ 0 := by
      rw [hstate.stored j hj]
      exact houtput history state hrun hstate.filled j hj
    refine ⟨state.memory, ?_, hstate.afterCpu hstate.filled hstate.flag hstate.stored⟩
    have hscan : program.waitForNonZero state.memory j true = .scanning (j + 1) true := by
      rw [Program.waitForNonZero, if_pos (Nat.lt_of_succ_le hj), if_neg hnonzero]
    rw [← hscan]
    rfl

/-- The first CPU thread gets to its check. -/
theorem loading (hserved : program.Served) (houtput : program.OutputsNonzero memory) :
    Reaches program memory (.loading 0) program.numPkts := by
  apply (scanning hserved houtput (le_refl _)).cpu hserved
  intro history state hrun hstate
  refine ⟨state.memory, ?_, hstate.afterCpu hstate.filled hstate.flag hstate.stored⟩
  have hscan : program.waitForNonZero state.memory program.numPkts true = .loading 0 := by
    rw [Program.waitForNonZero, if_neg (Nat.lt_irrefl _)]
    rfl
  rw [← hscan]
  rfl

end Reaches

end Systemish.Gpu
