import Systemish.Foundation.Run

/-!
# The flag handshake between CPU and GPU threads

`gpu/mappedMemory` and `gpu/mtMappedMemory` share one protocol. A CPU thread clears `B`,
fills `A`, raises its flag and waits until `B` has no zero. A GPU thread waits until the flag
is not the one of the iteration before, and writes its element of `B`. There is no
acknowledgement besides the outputs. Every access to a mapped array is one step, and the
memory is sequentially consistent.

The loop counters are naturals, which an `int` holds below $2^{31}$; what is computed
from them and stored is an `int`.
-/

namespace Systemish.Gpu

open Foundation

/-- A C `int`. -/
abbrev Word := BitVec 32

/-- An element of one of the mapped arrays. -/
inductive Location where
  | a (i : ℕ)
  | b (i : ℕ)
  | flag (i : ℕ)
  | log (i : ℕ)
  deriving DecidableEq

abbrev Memory := Location → Word

/-- What the two programs differ in. -/
structure Program where
  numThreads : ℕ
  /-- The packets of one CPU thread. -/
  numPkts : ℕ
  iters : ℕ
  /-- The index of the flag that a CPU thread raises. -/
  cpuFlag : ℕ → ℕ
  /-- The index of the flag that a GPU thread polls. -/
  gpuFlag : ℕ → ℕ
  /-- What a GPU thread computes its output from. -/
  operand : ℕ → Location
  /-- The output for an operand and an iteration. -/
  output : Word → Word → Word
  /-- The scan for zeroes ends at the first one. -/
  breaksAtZero : Bool

inductive Exit where
  | assertion
  /-- After `Kernel output mismatch error`. -/
  | mismatch
  deriving DecidableEq

/-- Where a CPU thread is in its iteration. -/
inductive CpuPlace where
  /-- In `memset`. -/
  | clearing (j : ℕ)
  | filling (j : ℕ)
  /-- In front of the assertion about `h_A[j]`. -/
  | asserting (j : ℕ)
  | raising
  /-- In `waitForNonZero`. -/
  | scanning (j : ℕ) (allNonZero : Bool)
  /-- In front of the check of `h_B[j]`. -/
  | loading (j : ℕ)
  /-- In front of the operand that `h_B[j]` is checked with. -/
  | comparing (j : ℕ) (output : Word)
  | finished

structure CpuThread where
  iter : ℕ
  place : CpuPlace

/-- Where a GPU thread is in its iteration. -/
inductive GpuPlace where
  | polling
  | loading
  | storing (output : Word)
  | finished

structure GpuThread where
  iter : ℕ
  place : GpuPlace

structure State where
  memory : Memory
  cpus : ℕ → CpuThread
  gpus : ℕ → GpuThread
  exit : Option Exit

/-- One access of a thread. -/
inductive Event where
  | cpu (tid : ℕ)
  | gpu (i : ℕ)

def CpuThread.loopHead (iters iter : ℕ) : CpuThread :=
  ⟨iter, if iter < iters then .clearing 0 else .finished⟩

def GpuThread.loopHead (iters iter : ℕ) : GpuThread :=
  ⟨iter, if iter < iters then .polling else .finished⟩

/-- What a CPU thread writes to `h_A[j]`. -/
def input (iter j : ℕ) : Word := (BitVec.ofNat 32 iter &&& 255) + BitVec.ofNat 32 j + 1

namespace Program

variable (program : Program)

/-- One step of the scan for zeroes. -/
def waitForNonZero (memory : Memory) (j : ℕ) (allNonZero : Bool) : CpuPlace :=
  if j < program.numPkts then
    if memory (.b j) = 0 then
      .scanning (if program.breaksAtZero then program.numPkts else j + 1) false
    else .scanning (j + 1) allNonZero
  else if allNonZero then .loading 0
  else .scanning 0 true

/-- One step of CPU thread `tid`. The ends of the loops are steps of their own. -/
def gpuRun (tid : ℕ) (memory : Memory) (cpu : CpuThread) :
    Option (Memory × Except Exit CpuThread) :=
  match cpu.place with
  | .clearing j =>
    if j < program.numPkts then
      some (Function.update memory (.b j) 0, .ok { cpu with place := .clearing (j + 1) })
    else some (memory, .ok { cpu with place := .filling 0 })
  | .filling j =>
    if j < program.numPkts then
      some (Function.update memory (.a j) (input cpu.iter j),
        .ok { cpu with place := .asserting j })
    else some (memory, .ok { cpu with place := .raising })
  | .asserting j =>
    if memory (.a j) = 0 then some (memory, .error .assertion)
    else some (memory, .ok { cpu with place := .filling (j + 1) })
  | .raising =>
    some (Function.update memory (.flag (program.cpuFlag tid)) (BitVec.ofNat 32 cpu.iter),
      .ok { cpu with place := .scanning 0 true })
  | .scanning j allNonZero =>
    some (memory, .ok { cpu with place := program.waitForNonZero memory j allNonZero })
  | .loading j =>
    if j < program.numPkts then
      some (memory, .ok { cpu with place := .comparing j (memory (.b j)) })
    else some (memory, .ok (.loopHead program.iters (cpu.iter + 1)))
  | .comparing j output =>
    if output = program.output (memory (program.operand j)) (BitVec.ofNat 32 cpu.iter) then
      some (memory, .ok { cpu with place := .loading (j + 1) })
    else some (memory, .error .mismatch)
  | .finished => none

/-- One step of GPU thread `i`. -/
def vectorAdd (i : ℕ) (memory : Memory) (gpu : GpuThread) : Option (Memory × GpuThread) :=
  match gpu.place with
  | .polling =>
    if memory (.flag (program.gpuFlag i)) = BitVec.ofNat 32 gpu.iter - 1 then some (memory, gpu)
    else some (memory, { gpu with place := .loading })
  | .loading =>
    some (memory, { gpu with
      place := .storing
        (program.output (memory (program.operand i)) (BitVec.ofNat 32 gpu.iter)) })
  | .storing output =>
    some (Function.update memory (.b i) output, .loopHead program.iters (gpu.iter + 1))
  | .finished => none

def totalThreads : ℕ := program.numPkts * program.numThreads

def blocksPerGrid : ℕ := (program.totalThreads + program.numPkts - 1) / program.numPkts

/-- All threads are launched on an initialised memory. -/
def start (memory : Memory) : State where
  memory := memory
  cpus _ := .loopHead program.iters 0
  gpus i := if i < program.totalThreads then .loopHead program.iters 0 else ⟨0, .finished⟩
  exit := none

end Program

def State.afterCpu (state : State) (tid : ℕ) (move : Memory × Except Exit CpuThread) : State :=
  match move.2 with
  | .ok cpu => { state with memory := move.1, cpus := Function.update state.cpus tid cpu }
  | .error exit => { state with memory := move.1, exit := some exit }

def State.afterGpu (state : State) (i : ℕ) (move : Memory × GpuThread) : State :=
  { state with memory := move.1, gpus := Function.update state.gpus i move.2 }

/-- A thread that exits takes all others with it. -/
def Program.step (program : Program) (state : State) : Event → Option State
  | .cpu tid =>
    if state.exit = none ∧ tid < program.numThreads then
      (program.gpuRun tid state.memory (state.cpus tid)).map (state.afterCpu tid)
    else none
  | .gpu i =>
    if state.exit = none ∧ i < program.blocksPerGrid * program.numPkts then
      (program.vectorAdd i state.memory (state.gpus i)).map (state.afterGpu i)
    else none

/-- All interleavings. -/
abbrev Program.IsRun (program : Program) (memory : Memory) : List (State × Event) → State → Prop :=
  Run program.step (fun _ _ ↦ True) (program.start memory)

theorem toNat_input (iter : ℕ) {j : ℕ} (h : j < 256) :
    0 < (input iter j).toNat ∧ (input iter j).toNat < 512 := by
  have hmask : (BitVec.ofNat 32 iter &&& 255).toNat ≤ 255 := by
    rw [BitVec.toNat_and]
    exact Nat.and_le_right
  have hinput : (input iter j).toNat =
      (((BitVec.ofNat 32 iter &&& 255).toNat + j % 2 ^ 32) % 2 ^ 32 + 1) % 2 ^ 32 := by
    rw [input, BitVec.toNat_add, BitVec.toNat_add, BitVec.toNat_ofNat]
    rfl
  omega

theorem input_ne_zero (iter : ℕ) {j : ℕ} (h : j < 256) : input iter j ≠ 0 := by
  intro hzero
  have hpositive := (toNat_input iter h).1
  rw [hzero] at hpositive
  exact absurd hpositive (Nat.lt_irrefl 0)

/-- The flag of an iteration is the flag that the next iteration waits on. -/
theorem ofNat_succ_sub_one (iter : ℕ) :
    BitVec.ofNat 32 (iter + 1) - 1 = BitVec.ofNat 32 iter := by
  rw [BitVec.ofNat_add]
  exact add_sub_cancel_right _ _

theorem sub_one_ne (word : Word) : word ≠ word - 1 := by
  intro h
  have hone := sub_eq_self.mp h.symm
  exact absurd hone (by decide)

variable {program : Program} {memory : Memory} {cpu : CpuThread} {i : ℕ} {gpu : GpuThread}

/-- One more element of an array is written. -/
theorem update_succ {location : ℕ → Location} (hinj : Function.Injective location)
    {value : ℕ → Word} {j : ℕ} (h : ∀ k < j, memory (location k) = value k) :
    ∀ k < j + 1, Function.update memory (location j) (value j) (location k) = value k := by
  intro k hk
  by_cases heq : k = j
  · rw [heq, Function.update_self]
  · have hlt : k < j := Nat.lt_of_le_of_ne (Nat.le_of_lt_succ hk) heq
    rw [Function.update_of_ne (hinj.ne heq)]
    exact h k hlt

theorem location_a_injective : Function.Injective Location.a := fun _ _ ↦ Location.a.inj

theorem location_b_injective : Function.Injective Location.b := fun _ _ ↦ Location.b.inj

/-- A step of a CPU thread. -/
theorem step_cpu {state after : State} {tid : ℕ}
    (hstep : program.step state (.cpu tid) = some after) :
    tid < program.numThreads ∧ ∃ move,
      program.gpuRun tid state.memory (state.cpus tid) = some move ∧
      state.afterCpu tid move = after := by
  obtain ⟨⟨_, htid⟩, hmap⟩ := Option.ite_none_right_eq_some.mp hstep
  exact ⟨htid, Option.map_eq_some_iff.mp hmap⟩

/-- A step of a GPU thread. -/
theorem step_gpu {state after : State} (hstep : program.step state (.gpu i) = some after) :
    ∃ move, program.vectorAdd i state.memory (state.gpus i) = some move ∧
      state.afterGpu i move = after := by
  obtain ⟨_, hmap⟩ := Option.ite_none_right_eq_some.mp hstep
  exact Option.map_eq_some_iff.mp hmap

theorem State.afterCpu_memory (state : State) (tid : ℕ) (move : Memory × Except Exit CpuThread) :
    (state.afterCpu tid move).memory = move.1 := by
  rw [State.afterCpu]
  split
  · rfl
  · rfl

theorem gpuRun_log {tid : ℕ} {move : Memory × Except Exit CpuThread}
    (hstep : program.gpuRun tid memory cpu = some move) (i : ℕ) :
    move.1 (.log i) = memory (.log i) := by
  obtain ⟨iter, place⟩ := cpu
  unfold Program.gpuRun at hstep
  cases place with
  | clearing j =>
    dsimp only at hstep
    split at hstep
    · obtain rfl := Option.some.inj hstep
      dsimp only
      exact Function.update_of_ne Location.noConfusion _ _
    · obtain rfl := Option.some.inj hstep
      rfl
  | filling j =>
    dsimp only at hstep
    split at hstep
    · obtain rfl := Option.some.inj hstep
      dsimp only
      exact Function.update_of_ne Location.noConfusion _ _
    · obtain rfl := Option.some.inj hstep
      rfl
  | raising =>
    obtain rfl := Option.some.inj hstep
    dsimp only
    exact Function.update_of_ne Location.noConfusion _ _
  | scanning j allNonZero =>
    obtain rfl := Option.some.inj hstep
    rfl
  | finished => exact absurd hstep (Option.some_ne_none _).symm
  | _ =>
    dsimp only at hstep
    split at hstep <;> (obtain rfl := Option.some.inj hstep; rfl)

theorem vectorAdd_log {move : Memory × GpuThread}
    (hstep : program.vectorAdd i memory gpu = some move) (k : ℕ) :
    move.1 (.log k) = memory (.log k) := by
  obtain ⟨iter, place⟩ := gpu
  unfold Program.vectorAdd at hstep
  cases place with
  | polling =>
    dsimp only at hstep
    split at hstep <;> (obtain rfl := Option.some.inj hstep; rfl)
  | loading =>
    obtain rfl := Option.some.inj hstep
    rfl
  | storing output =>
    obtain rfl := Option.some.inj hstep
    dsimp only
    exact Function.update_of_ne Location.noConfusion _ _
  | finished => exact absurd hstep (Option.some_ne_none _).symm

/-- The log is never written. -/
theorem log_of_run {history : List (State × Event)} {state : State}
    (hrun : program.IsRun memory history state) (i : ℕ) :
    state.memory (.log i) = memory (.log i) := by
  refine hrun.invariant (fun state ↦ state.memory (.log i) = memory (.log i)) rfl ?_
  intro before event after hbefore _ hstep
  cases event with
  | cpu tid =>
    obtain ⟨_, move, hmove, rfl⟩ := step_cpu hstep
    rw [State.afterCpu_memory, gpuRun_log hmove]
    exact hbefore
  | gpu k =>
    obtain ⟨move, hmove, rfl⟩ := step_gpu hstep
    exact (vectorAdd_log hmove i).trans hbefore

end Systemish.Gpu
