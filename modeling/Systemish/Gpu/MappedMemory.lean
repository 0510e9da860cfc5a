import Systemish.Gpu.FirstIteration

/-!
# One CPU thread and a log in mapped memory

`main`, `gpu_run` and `vectorAdd` of `gpu/mappedMemory`: every GPU thread adds the
iteration to its entry of a log that is never written after `main` has filled it.
-/

namespace Systemish.Gpu.MappedMemory

open Foundation

def logCap : ℕ := 8192

def logStep : ℕ := 16

/-- What `main` asserts about `NUM_PKTS`, and any `ITERS`. -/
structure Config where
  numPkts : ℕ
  iters : ℕ
  numPkts_pos : 0 < numPkts
  numPkts_le : numPkts ≤ 256
  numPkts_lt : numPkts * logStep < logCap

def program (config : Config) : Program where
  numThreads := 1
  numPkts := config.numPkts
  iters := config.iters
  cpuFlag _ := 0
  gpuFlag _ := 0
  operand i := .log (i * logStep)
  output operand iter := operand + iter
  breaksAtZero := false

/-- What `main` makes of the memory it allocates. -/
def initialised (config : Config) (memory : Memory) : Memory
  | .a i => if i < config.numPkts then 0 else memory (.a i)
  | .b i => if i < config.numPkts then 0 else memory (.b i)
  | .flag i => if i = 0 then -1 else memory (.flag i)
  | .log i => if i < logCap then BitVec.ofNat 32 (i + 1) else memory (.log i)

/-- All interleavings, on any allocated memory. -/
abbrev IsRun (config : Config) (memory : Memory) : List (State × Event) → State → Prop :=
  (program config).IsRun (initialised config memory)

variable {config : Config} {memory : Memory} {history : List (State × Event)} {state : State}

theorem single_program (config : Config) : (program config).Single where
  numThreads := rfl
  numPkts := config.numPkts_le
  flag _ _ := rfl
  operand _ _ := Location.noConfusion

theorem log_eq (hrun : IsRun config memory history state) {j : ℕ} (hj : j < config.numPkts) :
    state.memory (.log (j * logStep)) = BitVec.ofNat 32 (j * logStep + 1) := by
  have hlt : j * logStep < logCap :=
    (Nat.mul_le_mul_right logStep hj.le).trans_lt config.numPkts_lt
  rw [log_of_run hrun]
  exact if_pos hlt

/-- The GPU threads are in the iteration of the host or one ahead, none of them writes before the
host has raised the flag, and the host only finds the outputs of its iteration, so that it never
exits. -/
theorem no_output_mismatch (hrun : IsRun config memory history state) :
    (∀ i < config.numPkts, (state.gpus i).iter = (state.cpus 0).iter ∨
      (state.gpus i).iter = (state.cpus 0).iter + 1) ∧
    ((state.cpus 0).place.raised = false → ∀ i after,
      (program config).step state (.gpu i) = some after → after.memory = state.memory) ∧
    (∀ k, (state.cpus 0).place = .loading k → ∀ j < config.numPkts,
      state.memory (.b j) =
        state.memory (.log (j * logStep)) + BitVec.ofNat 32 (state.cpus 0).iter ∧
      state.memory (.log (j * logStep)) = BitVec.ofNat 32 (j * logStep + 1)) ∧
    state.exit = none := by
  obtain ⟨h, hexit⟩ := synchronised_of_run (single_program config) rfl hrun
  refine ⟨fun i hi ↦ h.gpu_iter hi, ?_, ?_, hexit⟩
  · intro hraised i after hstep
    obtain ⟨move, hmove, rfl⟩ := step_gpu hstep
    exact h.vectorAdd_of_not_raised (single_program config) hraised hmove
  · exact fun k hloading j hj ↦ ⟨h.output_eq hloading hj, log_eq hrun hj⟩

theorem served_program (config : Config) (hiters : 0 < config.iters) :
    (program config).Served where
  iters := hiters
  numThreads := Nat.one_pos
  numPkts := config.numPkts_le
  flag _ _ := rfl
  operand _ _ := Location.noConfusion

theorem outputs_nonzero (config : Config) (memory : Memory) :
    (program config).OutputsNonzero (initialised config memory) := by
  intro history state hrun _ i hi hzero
  have hlt : i * logStep < logCap :=
    (Nat.mul_le_mul_right logStep (Nat.le_of_lt hi)).trans_lt config.numPkts_lt
  change state.memory (.log (i * logStep)) + 0 = 0 at hzero
  rw [log_eq hrun hi, add_zero] at hzero
  have hnat := congrArg BitVec.toNat hzero
  rw [BitVec.toNat_ofNat] at hnat
  change (i * logStep + 1) % 2 ^ 32 = 0 at hnat
  rw [logCap] at hlt
  omega

/-- The host gets to its check. -/
theorem exists_check (config : Config) (hiters : 0 < config.iters) (memory : Memory) :
    ∃ history state, IsRun config memory history state ∧ (state.cpus 0) = ⟨0, .loading 0⟩ := by
  obtain ⟨history, state, hrun, hstate⟩ :=
    Reaches.loading (served_program config hiters) (outputs_nonzero config memory)
  exact ⟨history, state, hrun, hstate.first⟩

/-- The most packets that `main` lets through, in the shipped number of iterations. -/
def largest : Config := ⟨256, 1000, by decide, by decide, by decide⟩

/-- In its first iteration the host finds the entry of the log in the last output. -/
theorem no_output_mismatch_largest :
    ∃ history state, IsRun largest (fun _ ↦ 0) history state ∧
      state.cpus 0 = ⟨0, .loading 0⟩ ∧ state.memory (.b 255) = 4081 := by
  obtain ⟨history, state, hrun, hcheck⟩ :=
    exists_check largest (by decide) fun _ ↦ 0
  have houtput := (no_output_mismatch hrun).2.2.1 0 (by rw [hcheck]) 255 (by decide)
  refine ⟨history, state, hrun, hcheck, ?_⟩
  rw [houtput.1, houtput.2, hcheck]
  rfl

end Systemish.Gpu.MappedMemory
