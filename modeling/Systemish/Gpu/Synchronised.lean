import Systemish.Gpu.Handshake

/-!
# A single CPU thread in step with its GPU threads

The CPU thread infers from the outputs alone that all GPU threads are done with the
iteration, and a GPU thread only waits for the flag to change. Both are enough when no other
thread writes to the same arrays: a GPU thread is at most one iteration ahead, and it is
ahead exactly when its element of `B` is the output of the iteration.
-/

namespace Systemish.Gpu

open Foundation

/-- The flag is raised for the iteration. -/
def CpuPlace.raised : CpuPlace → Bool
  | .clearing _ => false
  | .filling _ => false
  | .asserting _ => false
  | .raising => false
  | .scanning _ _ => true
  | .loading _ => true
  | .comparing _ _ => true
  | .finished => false

/-- The elements of `B` that are cleared and that no GPU thread may write yet. -/
def CpuPlace.cleared (numPkts : ℕ) : CpuPlace → ℕ
  | .clearing j => j
  | .filling _ => numPkts
  | .asserting _ => numPkts
  | .raising => numPkts
  | .scanning _ _ => 0
  | .loading _ => 0
  | .comparing _ _ => 0
  | .finished => 0

/-- The elements of `A` that are filled for the iteration. -/
def CpuPlace.filled (numPkts : ℕ) : CpuPlace → ℕ
  | .clearing _ => 0
  | .filling j => j
  | .asserting j => j + 1
  | .raising => numPkts
  | .scanning _ _ => numPkts
  | .loading _ => numPkts
  | .comparing _ _ => numPkts
  | .finished => 0

/-- The elements of `B` that are known to be different from zero. -/
def CpuPlace.seen (numPkts : ℕ) : CpuPlace → ℕ
  | .clearing _ => 0
  | .filling _ => 0
  | .asserting _ => 0
  | .raising => 0
  | .scanning j allNonZero => if allNonZero then j else 0
  | .loading _ => numPkts
  | .comparing _ _ => numPkts
  | .finished => 0

/-- Neither past the flag nor in front of the write to `B`. -/
def GpuPlace.Idle (place : GpuPlace) : Prop := place = .polling ∨ place = .finished

/-- A single CPU thread, on whose flag all GPU threads wait. -/
structure Program.Single (program : Program) : Prop where
  numThreads : program.numThreads = 1
  numPkts : program.numPkts ≤ 256
  flag : ∀ i < program.numPkts, program.gpuFlag i = program.cpuFlag 0
  operand : ∀ i j, program.operand i ≠ .b j

variable (program : Program)

/-- Where GPU thread `i` can be in iteration `iter` of the CPU thread. -/
inductive Follows (memory : Memory) (iter : ℕ) (raised : Bool) (i : ℕ) (gpu : GpuThread) : Prop
  | waiting (hraised : raised = false) (hiter : gpu.iter = iter) (hidle : gpu.place.Idle)
  | behind (hraised : raised = true) (hiter : gpu.iter = iter) (hzero : memory (.b i) = 0)
      (hstoring : ∀ output, gpu.place = .storing output →
        output = program.output (memory (program.operand i)) (BitVec.ofNat 32 iter))
  | ahead (hraised : raised = true) (hiter : gpu.iter = iter + 1) (hidle : gpu.place.Idle)
      (hb : memory (.b i) =
        program.output (memory (program.operand i)) (BitVec.ofNat 32 iter))

/-- What holds of a single CPU thread and its GPU threads at all times. -/
structure Synchronised (memory : Memory) (cpu : CpuThread) (gpus : ℕ → GpuThread) : Prop where
  flag : memory (.flag (program.cpuFlag 0)) =
    if cpu.place.raised then BitVec.ofNat 32 cpu.iter else BitVec.ofNat 32 cpu.iter - 1
  cleared : ∀ j < cpu.place.cleared program.numPkts, memory (.b j) = 0
  filled : ∀ j < cpu.place.filled program.numPkts, memory (.a j) = input cpu.iter j
  asserting : ∀ j, cpu.place = .asserting j → j < program.numPkts
  follows : ∀ i < program.numPkts, Follows program memory cpu.iter cpu.place.raised i (gpus i)
  seen : ∀ i < program.numPkts, i < cpu.place.seen program.numPkts → (gpus i).iter = cpu.iter + 1
  compared : ∀ j output, cpu.place = .comparing j output →
    output = program.output (memory (program.operand j)) (BitVec.ofNat 32 cpu.iter)
  outside : ∀ i, program.numPkts ≤ i → (gpus i).place = .finished

variable {program} {memory after : Memory} {cpu : CpuThread} {gpus : ℕ → GpuThread}
  {iter i j : ℕ} {gpu : GpuThread}

theorem idle_loopHead (iters iter : ℕ) : (GpuThread.loopHead iters iter).place.Idle := by
  rw [GpuThread.loopHead]
  by_cases h : iter < iters
  · exact .inl (if_pos h)
  · exact .inr (if_neg h)

/-- A thread that waits for a flag that is not raised goes on waiting. -/
theorem vectorAdd_of_idle (hidle : gpu.place.Idle)
    (hflag : memory (.flag (program.gpuFlag i)) = BitVec.ofNat 32 gpu.iter - 1)
    {move : Memory × GpuThread} (hstep : program.vectorAdd i memory gpu = some move) :
    move = (memory, gpu) := by
  cases hidle with
  | inl hpolling =>
    rw [Program.vectorAdd, hpolling] at hstep
    dsimp only at hstep
    rw [if_pos hflag] at hstep
    exact (Option.some.inj hstep).symm
  | inr hfinished =>
    rw [Program.vectorAdd, hfinished] at hstep
    exact absurd hstep (Option.some_ne_none _).symm

namespace Follows

/-- Before the flag is raised the memory plays no role. -/
theorem of_not_raised (h : Follows program memory iter false i gpu) :
    Follows program after iter false i gpu := by
  cases h with
  | waiting hraised hiter hidle => exact .waiting hraised hiter hidle
  | behind hraised => exact Bool.noConfusion hraised
  | ahead hraised => exact Bool.noConfusion hraised

/-- A thread whose element of `B` is not zero is done with the iteration. -/
theorem iter_of_ne_zero (h : Follows program memory iter true i gpu) (hb : memory (.b i) ≠ 0) :
    gpu.iter = iter + 1 := by
  cases h with
  | waiting hraised => exact Bool.noConfusion hraised
  | behind _ _ hzero => exact absurd hzero hb
  | ahead _ hiter => exact hiter

/-- A thread that is done with the iteration has written its output, and waits. -/
theorem done (h : Follows program memory iter true i gpu) (hiter : gpu.iter = iter + 1) :
    gpu.place.Idle ∧ memory (.b i) =
      program.output (memory (program.operand i)) (BitVec.ofNat 32 iter) := by
  cases h with
  | waiting hraised => exact Bool.noConfusion hraised
  | behind _ hiter' => exact absurd (hiter.symm.trans hiter') (Nat.succ_ne_self iter)
  | ahead _ _ hidle hb => exact ⟨hidle, hb⟩

/-- The outputs of other threads play no role. -/
theorem update_of_ne {raised : Bool} {word : Word} (h : Follows program memory iter raised i gpu)
    (hoperand : program.operand i ≠ .b j) (hne : i ≠ j) :
    Follows program (Function.update memory (.b j) word) iter raised i gpu := by
  have hb : Function.update memory (.b j) word (.b i) = memory (.b i) :=
    Function.update_of_ne (fun h ↦ hne (Location.b.inj h)) word memory
  have hsame : Function.update memory (.b j) word (program.operand i) =
      memory (program.operand i) := Function.update_of_ne hoperand word memory
  cases h with
  | waiting hraised hiter hidle => exact .waiting hraised hiter hidle
  | behind hraised hiter hzero hstoring =>
    apply Follows.behind hraised hiter (hb.trans hzero)
    rw [hsame]
    exact hstoring
  | ahead hraised hiter hidle houtput =>
    apply Follows.ahead hraised hiter hidle
    rw [hb, hsame]
    exact houtput

end Follows

theorem filled_of_raised {place : CpuPlace} (numPkts : ℕ) (h : place.raised = true) :
    place.filled numPkts = numPkts := by
  cases place with
  | scanning _ _ => rfl
  | loading _ => rfl
  | comparing _ _ => rfl
  | _ => exact Bool.noConfusion h

theorem cleared_of_raised {place : CpuPlace} (numPkts : ℕ) (h : place.raised = true) :
    place.cleared numPkts = 0 := by
  cases place with
  | scanning _ _ => rfl
  | loading _ => rfl
  | comparing _ _ => rfl
  | _ => exact Bool.noConfusion h

theorem seen_of_not_raised {place : CpuPlace} (numPkts : ℕ) (h : place.raised = false) :
    place.seen numPkts = 0 := by
  cases place with
  | scanning _ _ => exact Bool.noConfusion h
  | loading _ => exact Bool.noConfusion h
  | comparing _ _ => exact Bool.noConfusion h
  | _ => rfl

namespace Synchronised

variable {place next : CpuPlace}

/-- Steps of the CPU thread before it raises the flag. -/
theorem prepare (h : Synchronised program memory ⟨iter, place⟩ gpus)
    (hplace : place.raised = false) (hnext : next.raised = false)
    (hflag : after (.flag (program.cpuFlag 0)) = memory (.flag (program.cpuFlag 0)))
    (hcleared : ∀ j < next.cleared program.numPkts, after (.b j) = 0)
    (hfilled : ∀ j < next.filled program.numPkts, after (.a j) = input iter j)
    (hasserting : ∀ j, next = .asserting j → j < program.numPkts) :
    Synchronised program after ⟨iter, next⟩ gpus where
  flag := by
    have hbefore := h.flag
    rw [hplace] at hbefore
    rw [hnext]
    exact hflag.trans hbefore
  cleared := hcleared
  filled := hfilled
  asserting := hasserting
  follows i hi := by
    have hfollows := h.follows i hi
    rw [hplace] at hfollows
    rw [hnext]
    exact hfollows.of_not_raised
  seen i _ hseen := by
    rw [seen_of_not_raised _ hnext] at hseen
    exact absurd hseen (Nat.not_lt_zero i)
  compared j output hcomparing := by
    change next = _ at hcomparing
    rw [hcomparing] at hnext
    exact Bool.noConfusion hnext
  outside := h.outside

/-- Steps of the CPU thread after it has raised the flag. -/
theorem observe (h : Synchronised program memory ⟨iter, place⟩ gpus)
    (hplace : place.raised = true) (hnext : next.raised = true)
    (hseen : ∀ i < program.numPkts, i < next.seen program.numPkts → (gpus i).iter = iter + 1)
    (hcompared : ∀ j output, next = .comparing j output →
      output = program.output (memory (program.operand j)) (BitVec.ofNat 32 iter)) :
    Synchronised program memory ⟨iter, next⟩ gpus where
  flag := by
    have hflag := h.flag
    rw [hplace] at hflag
    rw [hnext]
    exact hflag
  cleared j hj := by
    rw [cleared_of_raised _ hnext] at hj
    exact absurd hj (Nat.not_lt_zero j)
  filled := by
    have hfilled := h.filled
    rw [filled_of_raised _ hplace] at hfilled
    rw [filled_of_raised _ hnext]
    exact hfilled
  asserting j hasserting := by
    change next = _ at hasserting
    rw [hasserting] at hnext
    exact Bool.noConfusion hnext
  follows := by
    have hfollows := h.follows
    rw [hplace] at hfollows
    rw [hnext]
    exact hfollows
  seen := hseen
  compared := hcompared
  outside := h.outside

theorem clear (h : Synchronised program memory ⟨iter, .clearing j⟩ gpus) :
    Synchronised program (Function.update memory (.b j) 0) ⟨iter, .clearing (j + 1)⟩ gpus := by
  apply h.prepare rfl rfl
  · exact Function.update_of_ne Location.noConfusion _ _
  · exact update_succ location_b_injective h.cleared
  · intro i hi
    exact absurd hi (Nat.not_lt_zero i)
  · exact fun _ ↦ CpuPlace.noConfusion

theorem endClear (h : Synchronised program memory ⟨iter, .clearing j⟩ gpus)
    (hj : program.numPkts ≤ j) : Synchronised program memory ⟨iter, .filling 0⟩ gpus := by
  apply h.prepare rfl rfl rfl
  · exact fun i hi ↦ h.cleared i (hi.trans_le hj)
  · exact fun i hi ↦ absurd hi (Nat.not_lt_zero i)
  · exact fun _ ↦ CpuPlace.noConfusion

theorem fill (h : Synchronised program memory ⟨iter, .filling j⟩ gpus) (hj : j < program.numPkts) :
    Synchronised program (Function.update memory (.a j) (input iter j)) ⟨iter, .asserting j⟩
      gpus := by
  apply h.prepare rfl rfl
  · exact Function.update_of_ne Location.noConfusion _ _
  · intro i hi
    exact (Function.update_of_ne Location.noConfusion _ _).trans (h.cleared i hi)
  · exact update_succ location_a_injective h.filled
  · intro i hasserting
    rw [← CpuPlace.asserting.inj hasserting]
    exact hj

theorem endFill (h : Synchronised program memory ⟨iter, .filling j⟩ gpus)
    (hj : program.numPkts ≤ j) : Synchronised program memory ⟨iter, .raising⟩ gpus := by
  refine h.prepare rfl rfl rfl h.cleared ?_ ?_
  · exact fun i hi ↦ h.filled i (hi.trans_le hj)
  · exact fun _ ↦ CpuPlace.noConfusion

theorem asserted (h : Synchronised program memory ⟨iter, .asserting j⟩ gpus) :
    Synchronised program memory ⟨iter, .filling (j + 1)⟩ gpus :=
  h.prepare rfl rfl rfl h.cleared h.filled fun _ ↦ CpuPlace.noConfusion

/-- When the flag is raised, all of `B` is cleared and every GPU thread waits. -/
theorem raise (h : Synchronised program memory ⟨iter, .raising⟩ gpus) :
    Synchronised program
      (Function.update memory (.flag (program.cpuFlag 0)) (BitVec.ofNat 32 iter))
      ⟨iter, .scanning 0 true⟩ gpus where
  flag := Function.update_self _ _ _
  cleared j hj := absurd hj (Nat.not_lt_zero j)
  filled j hj := (Function.update_of_ne Location.noConfusion _ _).trans (h.filled j hj)
  asserting _ := CpuPlace.noConfusion
  follows i hi := by
    cases h.follows i hi with
    | waiting _ hiter hidle =>
      apply Follows.behind rfl hiter
      · exact (Function.update_of_ne Location.noConfusion _ _).trans (h.cleared i hi)
      · intro output hstoring
        rw [hstoring] at hidle
        exact hidle.elim GpuPlace.noConfusion GpuPlace.noConfusion
    | behind hraised => exact Bool.noConfusion hraised
    | ahead hraised => exact Bool.noConfusion hraised
  seen i _ hi := absurd hi (Nat.not_lt_zero i)
  compared _ _ := CpuPlace.noConfusion
  outside := h.outside

/-- `waitForNonZero` returns when every GPU thread is done with the iteration. -/
theorem scan {allNonZero : Bool}
    (h : Synchronised program memory ⟨iter, .scanning j allNonZero⟩ gpus) :
    Synchronised program memory ⟨iter, program.waitForNonZero memory j allNonZero⟩ gpus := by
  rw [Program.waitForNonZero]
  by_cases hj : j < program.numPkts
  · rw [if_pos hj]
    by_cases hzero : memory (.b j) = 0
    · rw [if_pos hzero]
      refine h.observe rfl rfl ?_ fun _ _ ↦ CpuPlace.noConfusion
      exact fun i _ hi ↦ absurd hi (Nat.not_lt_zero i)
    · rw [if_neg hzero]
      refine h.observe rfl rfl ?_ fun _ _ ↦ CpuPlace.noConfusion
      -- an output that is not zero was stored in this iteration, since `B` was cleared
      intro i hi hseen
      by_cases heq : i = j
      · subst heq
        exact (h.follows i hi).iter_of_ne_zero hzero
      · apply h.seen i hi
        cases allNonZero with
        | false => exact hseen
        | true => exact Nat.lt_of_le_of_ne (Nat.le_of_lt_succ hseen) heq
  · rw [if_neg hj]
    cases allNonZero with
    | false =>
      refine h.observe rfl rfl ?_ fun _ _ ↦ CpuPlace.noConfusion
      exact fun i _ hi ↦ absurd hi (Nat.not_lt_zero i)
    | true =>
      refine h.observe rfl rfl ?_ fun _ _ ↦ CpuPlace.noConfusion
      exact fun i hi _ ↦ h.seen i hi (hi.trans_le (Nat.not_lt.mp hj))

theorem load (h : Synchronised program memory ⟨iter, .loading j⟩ gpus) (hj : j < program.numPkts) :
    Synchronised program memory ⟨iter, .comparing j (memory (.b j))⟩ gpus := by
  refine h.observe rfl rfl h.seen ?_
  intro i output hcomparing
  obtain ⟨rfl, rfl⟩ := CpuPlace.comparing.inj hcomparing
  exact ((h.follows j hj).done (h.seen j hj hj)).2

theorem compare {output : Word} (h : Synchronised program memory ⟨iter, .comparing j output⟩ gpus) :
    Synchronised program memory ⟨iter, .loading (j + 1)⟩ gpus :=
  h.observe rfl rfl h.seen fun _ _ ↦ CpuPlace.noConfusion

theorem fresh (hraised : place.raised = false) (hcleared : place.cleared program.numPkts = 0)
    (hfilled : place.filled program.numPkts = 0) (hasserting : ∀ j, place ≠ .asserting j)
    (hflag : memory (.flag (program.cpuFlag 0)) = BitVec.ofNat 32 iter - 1)
    (hgpus : ∀ i < program.numPkts, (gpus i).iter = iter ∧ (gpus i).place.Idle)
    (houtside : ∀ i, program.numPkts ≤ i → (gpus i).place = .finished) :
    Synchronised program memory ⟨iter, place⟩ gpus where
  flag := by
    rw [hraised]
    exact hflag
  cleared j hj := by
    rw [hcleared] at hj
    exact absurd hj (Nat.not_lt_zero j)
  filled j hj := by
    rw [hfilled] at hj
    exact absurd hj (Nat.not_lt_zero j)
  asserting j hplace := absurd hplace (hasserting j)
  follows i hi := .waiting hraised (hgpus i hi).1 (hgpus i hi).2
  seen i _ hseen := by
    rw [seen_of_not_raised _ hraised] at hseen
    exact absurd hseen (Nat.not_lt_zero i)
  compared j output hcomparing := by
    change place = _ at hcomparing
    rw [hcomparing] at hraised
    exact Bool.noConfusion hraised
  outside := houtside

theorem loopHead (hflag : memory (.flag (program.cpuFlag 0)) = BitVec.ofNat 32 iter - 1)
    (hgpus : ∀ i < program.numPkts, (gpus i).iter = iter ∧ (gpus i).place.Idle)
    (houtside : ∀ i, program.numPkts ≤ i → (gpus i).place = .finished) :
    Synchronised program memory (.loopHead program.iters iter) gpus := by
  rw [CpuThread.loopHead]
  split
  · exact fresh rfl rfl rfl (fun _ ↦ CpuPlace.noConfusion) hflag hgpus houtside
  · exact fresh rfl rfl rfl (fun _ ↦ CpuPlace.noConfusion) hflag hgpus houtside

theorem start (hsingle : program.Single) (hflag : memory (.flag (program.cpuFlag 0)) = -1) :
    Synchronised program memory ((program.start memory).cpus 0) (program.start memory).gpus := by
  have htotal : program.totalThreads = program.numPkts := by
    rw [Program.totalThreads, hsingle.numThreads, Nat.mul_one]
  apply loopHead hflag
  · intro i hi
    change (ite _ _ _ : GpuThread).iter = 0 ∧ (ite _ _ _ : GpuThread).place.Idle
    rw [htotal, if_pos hi]
    exact ⟨rfl, idle_loopHead _ _⟩
  · intro i hi
    change (ite _ _ _ : GpuThread).place = .finished
    rw [htotal, if_neg (Nat.not_lt.mpr hi)]

/-- After the check, the GPU threads are in the iteration that the CPU thread starts. -/
theorem endIteration (h : Synchronised program memory ⟨iter, .loading j⟩ gpus) :
    Synchronised program memory (.loopHead program.iters (iter + 1)) gpus := by
  apply loopHead
  · rw [ofNat_succ_sub_one]
    exact h.flag
  · intro i hi
    have hiter := h.seen i hi hi
    exact ⟨hiter, ((h.follows i hi).done hiter).1⟩
  · exact h.outside

/-- The CPU thread never exits. -/
theorem gpuRun (h : Synchronised program memory cpu gpus) (hsingle : program.Single)
    {move : Memory × Except Exit CpuThread} (hstep : program.gpuRun 0 memory cpu = some move) :
    ∃ after, move.2 = .ok after ∧ Synchronised program move.1 after gpus := by
  obtain ⟨iter, place⟩ := cpu
  unfold Program.gpuRun at hstep
  cases place with
  | clearing j =>
    dsimp only at hstep
    split at hstep
    · obtain rfl := Option.some.inj hstep
      exact ⟨_, rfl, h.clear⟩
    · next hj =>
      obtain rfl := Option.some.inj hstep
      exact ⟨_, rfl, h.endClear (Nat.not_lt.mp hj)⟩
  | filling j =>
    dsimp only at hstep
    split at hstep
    · next hj =>
      obtain rfl := Option.some.inj hstep
      exact ⟨_, rfl, h.fill hj⟩
    · next hj =>
      obtain rfl := Option.some.inj hstep
      exact ⟨_, rfl, h.endFill (Nat.not_lt.mp hj)⟩
  | asserting j =>
    have hj := h.asserting j rfl
    have hnonzero : memory (.a j) ≠ 0 := by
      rw [h.filled j (Nat.lt_succ_self j)]
      exact input_ne_zero iter (hj.trans_le hsingle.numPkts)
    dsimp only at hstep
    rw [if_neg hnonzero] at hstep
    obtain rfl := Option.some.inj hstep
    exact ⟨_, rfl, h.asserted⟩
  | raising =>
    obtain rfl := Option.some.inj hstep
    exact ⟨_, rfl, h.raise⟩
  | scanning j allNonZero =>
    obtain rfl := Option.some.inj hstep
    exact ⟨_, rfl, h.scan⟩
  | loading j =>
    dsimp only at hstep
    split at hstep
    · next hj =>
      obtain rfl := Option.some.inj hstep
      exact ⟨_, rfl, h.load hj⟩
    · obtain rfl := Option.some.inj hstep
      exact ⟨_, rfl, h.endIteration⟩
  | comparing j output =>
    dsimp only at hstep
    rw [if_pos (h.compared j output rfl)] at hstep
    obtain rfl := Option.some.inj hstep
    exact ⟨_, rfl, h.compare⟩
  | finished => exact absurd hstep (Option.some_ne_none _).symm

/-- A GPU thread writes its own element of `B` at most, and only after the flag is raised. -/
theorem updateGpu (h : Synchronised program memory cpu gpus) (hsingle : program.Single)
    (hraised : cpu.place.raised = true) (hi : i < program.numPkts)
    (hiter : (gpus i).iter = cpu.iter) (word : Word)
    (hfollows : Follows program (Function.update memory (.b i) word) cpu.iter true i gpu) :
    Synchronised program (Function.update memory (.b i) word) cpu
      (Function.update gpus i gpu) := by
  have hother : ∀ location, (∀ k, location ≠ .b k) →
      Function.update memory (.b i) word location = memory location := fun location hne ↦
    Function.update_of_ne (hne i) word memory
  have hsame : ∀ k, k ≠ i → Function.update gpus i gpu k = gpus k := fun k hk ↦
    Function.update_of_ne hk gpu gpus
  constructor
  case flag => exact (hother _ fun _ ↦ Location.noConfusion).trans h.flag
  case cleared =>
    intro k hk
    rw [cleared_of_raised _ hraised] at hk
    exact absurd hk (Nat.not_lt_zero k)
  case filled => exact fun k hk ↦ (hother _ fun _ ↦ Location.noConfusion).trans (h.filled k hk)
  case asserting => exact h.asserting
  case follows =>
    intro k hk
    by_cases heq : k = i
    · rw [heq, Function.update_self, hraised]
      exact hfollows
    · rw [hsame k heq]
      exact (h.follows k hk).update_of_ne (hsingle.operand k i) heq
  case seen =>
    intro k hk hseen
    have hdone := h.seen k hk hseen
    -- the thread that moves is not done with the iteration
    have heq : k ≠ i := by
      rintro rfl
      omega
    rw [hsame k heq]
    exact hdone
  case compared =>
    intro k output hcomparing
    rw [hother _ (hsingle.operand k)]
    exact h.compared k output hcomparing
  case outside =>
    intro k hk
    rw [hsame k (Nat.ne_of_gt (hi.trans_le hk))]
    exact h.outside k hk

theorem advanceGpu (h : Synchronised program memory cpu gpus) (hsingle : program.Single)
    (hraised : cpu.place.raised = true) (hi : i < program.numPkts)
    (hiter : (gpus i).iter = cpu.iter) (hfollows : Follows program memory cpu.iter true i gpu) :
    Synchronised program memory cpu (Function.update gpus i gpu) := by
  rw [← Function.update_eq_self (.b i) memory] at hfollows ⊢
  exact h.updateGpu hsingle hraised hi hiter (memory (.b i)) hfollows

/-- A thread that is not done with the iteration passes the flag, loads its operand and stores its
output. -/
theorem vectorAdd_behind (h : Synchronised program memory cpu gpus) (hsingle : program.Single)
    (hi : i < program.numPkts) (hraised : cpu.place.raised = true)
    (hiter : (gpus i).iter = cpu.iter) (hzero : memory (.b i) = 0)
    (hstoring : ∀ output, (gpus i).place = .storing output →
      output = program.output (memory (program.operand i)) (BitVec.ofNat 32 cpu.iter))
    {move : Memory × GpuThread} (hstep : program.vectorAdd i memory (gpus i) = some move) :
    Synchronised program move.1 cpu (Function.update gpus i move.2) := by
  unfold Program.vectorAdd at hstep
  cases hplace : (gpus i).place with
  | polling =>
    have hne : memory (.flag (program.gpuFlag i)) ≠ BitVec.ofNat 32 (gpus i).iter - 1 := by
      rw [hsingle.flag i hi, h.flag, hraised, hiter]
      exact sub_one_ne _
    rw [hplace] at hstep
    dsimp only at hstep
    rw [if_neg hne] at hstep
    obtain rfl := Option.some.inj hstep
    apply h.advanceGpu hsingle hraised hi hiter
    exact .behind rfl hiter hzero fun _ ↦ GpuPlace.noConfusion
  | loading =>
    rw [hplace] at hstep
    obtain rfl := Option.some.inj hstep
    apply h.advanceGpu hsingle hraised hi hiter
    refine .behind rfl hiter hzero ?_
    intro output houtput
    rw [← hiter]
    exact (GpuPlace.storing.inj houtput).symm
  | storing output =>
    rw [hplace] at hstep
    obtain rfl := Option.some.inj hstep
    apply h.updateGpu hsingle hraised hi hiter
    refine .ahead rfl (congrArg Nat.succ hiter) (idle_loopHead _ _) ?_
    rw [Function.update_self, Function.update_of_ne (hsingle.operand i i)]
    exact hstoring output hplace
  | finished =>
    rw [hplace] at hstep
    exact absurd hstep (Option.some_ne_none _).symm

theorem vectorAdd (h : Synchronised program memory cpu gpus) (hsingle : program.Single)
    {move : Memory × GpuThread} (hstep : program.vectorAdd i memory (gpus i) = some move) :
    Synchronised program move.1 cpu (Function.update gpus i move.2) := by
  by_cases hi : i < program.numPkts
  · have hflag := h.flag
    rw [← hsingle.flag i hi] at hflag
    cases h.follows i hi with
    | waiting hraised hiter hidle =>
      -- the flag is still the one of the iteration before
      rw [hraised, ← hiter] at hflag
      rw [vectorAdd_of_idle hidle hflag hstep, Function.update_eq_self]
      exact h
    | behind hraised hiter hzero hstoring =>
      exact h.vectorAdd_behind hsingle hi hraised hiter hzero hstoring hstep
    | ahead hraised hiter hidle =>
      -- the thread waits for the flag of the next iteration
      rw [hraised] at hflag
      have hsame : memory (.flag (program.gpuFlag i)) = BitVec.ofNat 32 (gpus i).iter - 1 := by
        rw [hiter, ofNat_succ_sub_one]
        exact hflag
      rw [vectorAdd_of_idle hidle hsame hstep, Function.update_eq_self]
      exact h
  · rw [Program.vectorAdd, h.outside i (Nat.not_lt.mp hi)] at hstep
    exact absurd hstep (Option.some_ne_none _).symm

/-- A GPU thread is in the iteration of the CPU thread or in the next one. -/
theorem gpu_iter (h : Synchronised program memory cpu gpus) (hi : i < program.numPkts) :
    (gpus i).iter = cpu.iter ∨ (gpus i).iter = cpu.iter + 1 := by
  cases h.follows i hi with
  | waiting _ hiter => exact .inl hiter
  | behind _ hiter => exact .inl hiter
  | ahead _ hiter => exact .inr hiter

/-- Before the flag is raised no GPU thread writes. -/
theorem vectorAdd_of_not_raised (h : Synchronised program memory cpu gpus)
    (hsingle : program.Single) (hraised : cpu.place.raised = false)
    {move : Memory × GpuThread} (hstep : program.vectorAdd i memory (gpus i) = some move) :
    move.1 = memory := by
  by_cases hi : i < program.numPkts
  · have hfollows := h.follows i hi
    rw [hraised] at hfollows
    cases hfollows with
    | waiting _ hiter hidle =>
      have hflag := h.flag
      rw [← hsingle.flag i hi, hraised, ← hiter] at hflag
      rw [vectorAdd_of_idle hidle hflag hstep]
    | behind htrue => exact Bool.noConfusion htrue
    | ahead htrue => exact Bool.noConfusion htrue
  · rw [Program.vectorAdd, h.outside i (Nat.not_lt.mp hi)] at hstep
    exact absurd hstep (Option.some_ne_none _).symm

/-- What the CPU thread finds when `waitForNonZero` has returned. -/
theorem output_eq (h : Synchronised program memory cpu gpus) {k : ℕ}
    (hloading : cpu.place = .loading k) (hj : j < program.numPkts) :
    memory (.b j) = program.output (memory (program.operand j)) (BitVec.ofNat 32 cpu.iter) := by
  have hfollows := h.follows j hj
  have hseen := h.seen j hj
  rw [hloading] at hfollows hseen
  exact (hfollows.done (hseen hj)).2

end Synchronised

/-- A single CPU thread stays in step with its GPU threads and never exits. -/
theorem synchronised_of_run (hsingle : program.Single)
    (hflag : memory (.flag (program.cpuFlag 0)) = -1) {history : List (State × Event)}
    {state : State} (hrun : program.IsRun memory history state) :
    Synchronised program state.memory (state.cpus 0) state.gpus ∧ state.exit = none := by
  refine hrun.invariant
    (fun state ↦ Synchronised program state.memory (state.cpus 0) state.gpus ∧ state.exit = none)
    ⟨.start hsingle hflag, rfl⟩ ?_
  intro before event after hbefore _ hstep
  cases event with
  | cpu tid =>
    obtain ⟨htid, move, hmove, rfl⟩ := step_cpu hstep
    rw [hsingle.numThreads, Nat.lt_one_iff] at htid
    subst htid
    obtain ⟨cpu, hcpu, hafter⟩ := hbefore.1.gpuRun hsingle hmove
    rw [State.afterCpu, hcpu]
    dsimp only
    rw [Function.update_self]
    exact ⟨hafter, hbefore.2⟩
  | gpu i =>
    obtain ⟨move, hmove, rfl⟩ := step_gpu hstep
    exact ⟨hbefore.1.vectorAdd hsingle hmove, hbefore.2⟩

end Systemish.Gpu
