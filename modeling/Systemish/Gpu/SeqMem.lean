import Systemish.Goto.Fpp
import Systemish.Gpu.Grid

/-!
# Adding up a log on the device

The kernel and `gpu_run` of `gpu/seqMem/seqMem.cu` with `WR_ONLY 0`. Thread `i` adds up the
elements `i`, `i + CUDA_THREADS` and so on in `sum[i]`, and the host adds up `CUDA_THREADS` such
sums. The launch has `CUDA_THREADS / 256` blocks. A `long long` has 64 bits and an `int` has 32
bits, and both wrap; `LOG_CAP` and `CUDA_THREADS` are any numbers that pass the assertion of
`main`.
-/

namespace Systemish.Gpu.SeqMem

open Foundation Goto

/-- Sizes that pass the assertion of `main`. -/
structure Sizes where
  logCap : ℕ
  cudaThreads : ℕ
  logCap_pos : 0 < logCap
  cudaThreads_pos : 0 < cudaThreads
  mod_eq_zero : logCap % cudaThreads = 0

/-- An element of `d_sum`, with what the kernel has done for it: whether it was written, and the
indices of the log that were read, the latest first. -/
structure Cell where
  value : BitVec 64
  written : Bool
  reads : List ℕ

variable {sizes : Sizes}

/-- After `cudaMalloc`. -/
def allocated (prior : Fin sizes.cudaThreads → BitVec 64) : Fin sizes.cudaThreads → Cell :=
  fun i ↦ ⟨prior i, false, []⟩

/-- `log[iter_base + i]` is at this index. In round `j`, `iter_base` is `CUDA_THREADS * j`. -/
def logIndex (i : Fin sizes.cudaThreads) (j : CInt) : CInt :=
  BitVec.ofNat 32 sizes.cudaThreads * j + BitVec.ofNat 32 i

/-- `sum[i] += log[iter_base + i]`. -/
def addElement (log : Fin sizes.logCap → BitVec 64) (i : Fin sizes.cudaThreads) (j : CInt)
    (cell : Cell) : Option Cell := do
  let element ← readAt log (logIndex i j)
  return { cell with
    value := cell.value + element
    reads := (logIndex i j).toInt.toNat :: cell.reads }

/-- `int num_iters = LOG_CAP / CUDA_THREADS`. -/
def Sizes.numIters (sizes : Sizes) : CInt := BitVec.ofNat 32 (sizes.logCap / sizes.cudaThreads)

def seqMem (log : Fin sizes.logCap → BitVec 64) : ElementKernel sizes.cudaThreads Cell where
  guarded := false
  first _ cell := { cell with value := 0, written := true }
  rounds := sizes.numIters.toInt
  round := addElement log

/-- The grid that `gpu_run` launches. The number of its blocks is an `int`, too. -/
def Sizes.blocksPerGrid (sizes : Sizes) : ℕ :=
  (BitVec.ofNat 32 (sizes.cudaThreads / threadsPerBlock)).toNat

/-- The loop of the host over `h_sum`, cut off after `fuel` tests of its condition. -/
def totSum (fuel : ℕ) (hSum : Fin sizes.cudaThreads → Cell) : Option (BitVec 64) :=
  forLoop (1 : CInt) sizes.cudaThreads
    (fun i totSum ↦ do
      let cell ← readAt hSum i
      return totSum + cell.value) fuel 0 0

/-- Every element of the log was read once, every sum that the host adds was written, and their
total is the sum of the log. -/
structure Reported (log : Fin sizes.logCap → BitVec 64) (hSum : Fin sizes.cudaThreads → Cell) :
    Prop where
  reads : ∀ index : Fin sizes.logCap, ∑ i, (hSum i).reads.count (index : ℕ) = 1
  written : ∀ i, (hSum i).written = true
  total : Returns (fun fuel ↦ totSum fuel hSum) (∑ index, log index)

/-! ## One thread -/

/-- `log[index]`, or zero outside. -/
def element (log : Fin sizes.logCap → BitVec 64) (index : ℕ) : BitVec 64 :=
  if h : index < sizes.logCap then log ⟨index, h⟩ else 0

/-- `sum[i]` after `j` rounds. -/
def cellAfter (log : Fin sizes.logCap → BitVec 64) (i : Fin sizes.cudaThreads) (j : ℕ) : Cell where
  value := ∑ k ∈ Finset.range j, element log (sizes.cudaThreads * k + i)
  written := true
  reads := ((List.range j).map (sizes.cudaThreads * · + i)).reverse

theorem Sizes.mul_div (sizes : Sizes) :
    sizes.cudaThreads * (sizes.logCap / sizes.cudaThreads) = sizes.logCap :=
  Nat.mul_div_cancel' (Nat.dvd_of_mod_eq_zero sizes.mod_eq_zero)

/-- No thread leaves the log. -/
theorem index_lt {i : Fin sizes.cudaThreads} {j : ℕ}
    (hj : j < sizes.logCap / sizes.cudaThreads) : sizes.cudaThreads * j + i < sizes.logCap :=
  calc
    sizes.cudaThreads * j + i < sizes.cudaThreads * j + sizes.cudaThreads :=
      Nat.add_lt_add_left i.isLt _
    _ = sizes.cudaThreads * (j + 1) := (Nat.mul_succ _ _).symm
    _ ≤ sizes.cudaThreads * (sizes.logCap / sizes.cudaThreads) := Nat.mul_le_mul_left _ hj
    _ = sizes.logCap := sizes.mul_div

/-- In a log that an `int` can index, no index wraps. -/
theorem toInt_logIndex (hlog : sizes.logCap ≤ 2 ^ 31) {i : Fin sizes.cudaThreads} {j : ℕ}
    (hj : j < sizes.logCap / sizes.cudaThreads) :
    (logIndex i (BitVec.ofNat 32 j)).toInt = (sizes.cudaThreads * j + i : ℕ) := by
  rw [logIndex, ← BitVec.ofNat_mul, ← BitVec.ofNat_add]
  exact toInt_ofNat_of_lt ((index_lt hj).trans_le hlog)

theorem addElement_eq (log : Fin sizes.logCap → BitVec 64) (hlog : sizes.logCap ≤ 2 ^ 31)
    (i : Fin sizes.cudaThreads) {j : ℕ} (hj : j < sizes.logCap / sizes.cudaThreads)
    (cell : Cell) :
    addElement log i (BitVec.ofNat 32 j) cell =
      some
        { cell with
          value := cell.value + element log (sizes.cudaThreads * j + i)
          reads := (sizes.cudaThreads * j + i) :: cell.reads } := by
  have hindex := index_lt (i := i) hj
  have hint := toInt_logIndex hlog (i := i) hj
  rw [addElement, readAt_eq log hindex hint]
  simp only [hint, Int.toNat_natCast, element, dif_pos hindex]
  rfl

theorem seqMem_after (log : Fin sizes.logCap → BitVec 64) (hlog : sizes.logCap ≤ 2 ^ 31)
    (i : Fin sizes.cudaThreads) (prior : BitVec 64) {j : ℕ}
    (hj : j ≤ sizes.logCap / sizes.cudaThreads) :
    (seqMem log).after i ⟨prior, false, []⟩ j = some (cellAfter log i j) := by
  induction j with
  | zero => rfl
  | succ j ih =>
    rw [ElementKernel.after, ih (Nat.le_of_succ_le hj), Option.bind_some]
    change addElement log i (BitVec.ofNat 32 j) (cellAfter log i j) = _
    rw [addElement_eq log hlog i hj]
    simp only [cellAfter, Finset.sum_range_succ, List.range_succ, List.map_append,
      List.reverse_append]
    rfl

/-! ## All threads -/

/-- Each element of the log belongs to one thread. -/
theorem count_reads (log : Fin sizes.logCap → BitVec 64) (i : Fin sizes.cudaThreads)
    (index : Fin sizes.logCap) :
    (cellAfter log i (sizes.logCap / sizes.cudaThreads)).reads.count (index : ℕ) =
      if (index : ℕ) % sizes.cudaThreads = i then 1 else 0 := by
  rw [cellAfter, List.count_reverse]
  split
  · next howner =>
    apply List.count_eq_one_of_mem
    · apply List.nodup_range.map
      intro j k heq
      exact Nat.eq_of_mul_eq_mul_left sizes.cudaThreads_pos (Nat.add_right_cancel heq)
    · apply List.mem_map.mpr
      refine ⟨index / sizes.cudaThreads, List.mem_range.mpr ?_, ?_⟩
      · apply Nat.div_lt_of_lt_mul
        rw [sizes.mul_div]
        exact index.isLt
      · rw [← howner]
        exact Nat.div_add_mod _ _
  · next hother =>
    apply List.count_eq_zero.mpr
    intro hmem
    obtain ⟨j, -, hj⟩ := List.mem_map.mp hmem
    apply hother
    rw [← hj, Nat.mul_add_mod, Nat.mod_eq_of_lt i.isLt]

/-- A sum over strides of a fixed length. -/
theorem sum_strides {M : Type*} [AddCommMonoid M] (f : ℕ → M) (stride rounds : ℕ) :
    ∑ i : Fin stride, ∑ j ∈ Finset.range rounds, f (stride * j + i) =
      ∑ index ∈ Finset.range (stride * rounds), f index := by
  rw [Finset.sum_comm]
  induction rounds with
  | zero => rfl
  | succ rounds ih =>
    rw [Finset.sum_range_succ, ih, Nat.mul_succ, Finset.sum_range_add,
      Finset.sum_range fun i ↦ f (stride * rounds + i)]

theorem totSum_returns (hthreads : sizes.cudaThreads < 2 ^ 31)
    (hSum : Fin sizes.cudaThreads → Cell) :
    Returns (fun fuel ↦ totSum fuel hSum) (∑ i, (hSum i).value) := by
  refine .of_lt sizes.cudaThreads fun fuel hfuel ↦ ?_
  have hread (i : Fin sizes.cudaThreads) : readAt hSum (BitVec.ofNat 32 i) = some (hSum i) :=
    readAt_eq hSum i.isLt (toInt_ofNat_of_lt (i.isLt.trans hthreads))
  rw [totSum, forLoop_one _ hthreads hfuel, ← List.map_coe_finRange_eq_range, List.foldlM_map]
  simp only [hread, Option.bind_eq_bind, Option.bind_some]
  rw [Fin.sum_univ_def, List.sum_eq_foldl, List.foldl_map]
  exact List.foldlM_pure

theorem sum_cellAfter (log : Fin sizes.logCap → BitVec 64) :
    ∑ i, (cellAfter log i (sizes.logCap / sizes.cudaThreads)).value = ∑ index, log index := by
  calc
    _ = ∑ i : Fin sizes.cudaThreads, ∑ j ∈ Finset.range (sizes.logCap / sizes.cudaThreads),
        element log (sizes.cudaThreads * j + i) := rfl
    _ = ∑ index ∈ Finset.range sizes.logCap, element log index := by
      rw [sum_strides (element log), sizes.mul_div]
    _ = ∑ index : Fin sizes.logCap, element log index := Finset.sum_range _
    _ = ∑ index, log index := Finset.sum_congr rfl fun index _ ↦ dif_pos index.isLt

theorem reported_cellAfter (hthreads : sizes.cudaThreads < 2 ^ 31)
    (log : Fin sizes.logCap → BitVec 64) :
    Reported log fun i ↦ cellAfter log i (sizes.logCap / sizes.cudaThreads) where
  reads index := by
    have howner : (index : ℕ) % sizes.cudaThreads < sizes.cudaThreads :=
      Nat.mod_lt _ sizes.cudaThreads_pos
    simp only [count_reads]
    rw [Finset.sum_eq_single ⟨(index : ℕ) % sizes.cudaThreads, howner⟩]
    · exact if_pos rfl
    · intro i _ hne
      exact if_neg fun heq ↦ hne (Fin.ext heq.symm)
    · exact fun hnot ↦ absurd (Finset.mem_univ _) hnot
  written _ := rfl
  total := sum_cellAfter log ▸ totSum_returns hthreads _

/-! ## The launch -/

theorem Sizes.cudaThreads_le (sizes : Sizes) : sizes.cudaThreads ≤ sizes.logCap :=
  Nat.le_of_dvd sizes.logCap_pos (Nat.dvd_of_mod_eq_zero sizes.mod_eq_zero)

section Fits

variable (hlog : sizes.logCap ≤ 2 ^ 31)

include hlog

theorem Sizes.blocksPerGrid_eq :
    sizes.blocksPerGrid = sizes.cudaThreads / threadsPerBlock := by
  have hle := sizes.cudaThreads_le
  have hdiv := Nat.div_le_self sizes.cudaThreads threadsPerBlock
  rw [blocksPerGrid, BitVec.toNat_ofNat, Nat.mod_eq_of_lt (by omega)]

theorem Sizes.threads_le : threadsPerBlock * sizes.blocksPerGrid ≤ sizes.cudaThreads := by
  rw [Sizes.blocksPerGrid_eq hlog]
  exact Nat.mul_div_le _ _

/-- What the launch leaves in the sums with a thread, and in those without. -/
theorem seqMem_ensures (hiters : sizes.logCap / sizes.cudaThreads < 2 ^ 31)
    (log : Fin sizes.logCap → BitVec 64) (prior : Fin sizes.cudaThreads → BitVec 64) :
    ((seqMem log).launch sizes.blocksPerGrid).Ensures (allocated prior) fun final ↦
      ∀ i : Fin sizes.cudaThreads,
        ((i : ℕ) < threadsPerBlock * sizes.blocksPerGrid →
          final i = cellAfter log i (sizes.logCap / sizes.cudaThreads)) ∧
        (threadsPerBlock * sizes.blocksPerGrid ≤ i → final i = ⟨prior i, false, []⟩) := by
  have hrounds : (seqMem log).rounds = (sizes.logCap / sizes.cudaThreads : ℕ) :=
    toInt_ofNat_of_lt hiters
  have hcount : (seqMem log).count = sizes.logCap / sizes.cudaThreads := by
    rw [ElementKernel.count, hrounds, Int.toNat_natCast]
  have hafter (i : Fin sizes.cudaThreads) :
      (seqMem log).after i (allocated prior i) (seqMem log).count =
        some (cellAfter log i (sizes.logCap / sizes.cudaThreads)) := by
    rw [hcount]
    exact seqMem_after log hlog i (prior i) le_rfl
  have hthreads := Sizes.threads_le hlog
  have hlaunch := (seqMem log).launch_ensures sizes.blocksPerGrid
    (hthreads.trans (sizes.cudaThreads_le.trans hlog)) (by rw [hrounds]; exact_mod_cast hiters)
    (Or.inr hthreads) fun i ↦ ⟨_, hafter i⟩
  apply hlaunch.mono
  intro final hfinal i
  refine ⟨fun hi ↦ ?_, (hfinal i).2⟩
  exact Option.some.inj (((hfinal i).1 hi).symm.trans (hafter i))

end Fits

/-! ## What the sizes must be -/

section Necessary

variable {log : Fin sizes.logCap → BitVec 64} {prior : Fin sizes.cudaThreads → BitVec 64}
  {history : List (ThreadsState (GridThread sizes.blocksPerGrid) (KernelLocals sizes.cudaThreads)
    (Fin sizes.cudaThreads → Cell) × GridThread sizes.blocksPerGrid)}
  {state : ThreadsState (GridThread sizes.blocksPerGrid) (KernelLocals sizes.cudaThreads)
    (Fin sizes.cudaThreads → Cell)}
  (hrun : ((seqMem log).launch sizes.blocksPerGrid).IsRun (allocated prior) history state)

include hrun

/-- No index that is read is larger than an `int`. -/
theorem reads_lt (i : Fin sizes.cudaThreads) :
    ∀ index ∈ (state.memory i).reads, index < 2 ^ 31 := by
  apply ElementKernel.element_invariant (fun _ cell ↦ ∀ index ∈ cell.reads, index < 2 ^ 31)
    (fun _ _ h ↦ absurd h List.not_mem_nil) _ _ hrun i
  · exact fun _ _ _ _ h ↦ h
  · rintro - i j cell cell' - hround h
    change addElement log i j cell = some cell' at hround
    obtain ⟨element, -, hcell⟩ := Option.bind_eq_some_iff.mp hround
    obtain rfl := Option.some.inj hcell
    apply List.forall_mem_cons.mpr ⟨_, h⟩
    have hlt : (logIndex i j).toInt < 2 ^ 31 := BitVec.toInt_lt
    omega

theorem Reported.logCap_le (h : Reported log state.memory) : sizes.logCap ≤ 2 ^ 31 := by
  by_contra hlarge
  have hlast : sizes.logCap - 1 < sizes.logCap := Nat.sub_lt sizes.logCap_pos Nat.one_pos
  have hread := h.reads ⟨sizes.logCap - 1, hlast⟩
  have hnone (i : Fin sizes.cudaThreads) :
      (state.memory i).reads.count (sizes.logCap - 1) = 0 := by
    apply List.count_eq_zero.mpr
    intro hmem
    have hlt := reads_lt hrun i _ hmem
    omega
  simp only [hnone, Finset.sum_const_zero] at hread
  exact absurd hread (by decide)

theorem Reported.dvd (h : Reported log state.memory) : 256 ∣ sizes.cudaThreads := by
  have hlog := h.logCap_le hrun
  by_contra hnot
  -- the first sum without a thread
  have hthreads := Sizes.threads_le hlog
  have hlt : threadsPerBlock * sizes.blocksPerGrid < sizes.cudaThreads := by
    apply lt_of_le_of_ne hthreads
    intro heq
    exact hnot ⟨sizes.blocksPerGrid, heq.symm⟩
  have hwritten := h.written ⟨_, hlt⟩
  have huntouched := ElementKernel.element_invariant
    (fun i cell ↦ (∀ thread : GridThread sizes.blocksPerGrid, thread.index.toInt ≠ (i : ℕ)) →
      cell.written = false)
    (fun _ _ ↦ rfl) (fun thread _ _ hi _ hnone ↦ absurd hi (hnone thread))
    (fun thread _ _ _ _ hi _ _ hnone ↦ absurd hi (hnone thread)) hrun ⟨_, hlt⟩
  rw [huntouched fun thread ↦ ?_] at hwritten
  · exact Bool.false_ne_true hwritten
  · have hnumber := thread.number_lt
    rw [thread.toInt_index (hthreads.trans (sizes.cudaThreads_le.trans hlog))]
    exact Int.ofNat_inj.not.mpr hnumber.ne

omit hrun in
theorem Reported.cudaThreads_lt {hSum : Fin sizes.cudaThreads → Cell} (h : Reported log hSum) :
    sizes.cudaThreads < 2 ^ 31 := by
  by_contra hlarge
  have hbound : (2 : ℤ) ^ 31 ≤ sizes.cudaThreads := by exact_mod_cast not_lt.mp hlarge
  exact not_returns_of_eq_none (fun fuel ↦ forLoop_eq_none _ _ hbound fuel 0 0) _ h.total

end Necessary

/-- In whatever order the threads run, the kernel makes no access out of range and comes to an end,
and one `gpu_run` reads each element of the log once and reports its sum from sums that the kernel
has written, if and only if `CUDA_THREADS` is a multiple of 256 and fits into an `int`, and `int`s
can index the log. -/
theorem gpuRun_reported_iff (log : Fin sizes.logCap → BitVec 64)
    (prior : Fin sizes.cudaThreads → BitVec 64) :
    ((seqMem log).launch sizes.blocksPerGrid).Ensures (allocated prior) (Reported log) ↔
      256 ∣ sizes.cudaThreads ∧ sizes.cudaThreads < 2 ^ 31 ∧ sizes.logCap ≤ 2 ^ 31 := by
  constructor
  · intro hensures
    obtain ⟨history, state, hrun, -, hreported⟩ := hensures.exists_end
    exact ⟨hreported.dvd hrun, hreported.cudaThreads_lt, hreported.logCap_le hrun⟩
  · rintro ⟨hdvd, hthreads, hlog⟩
    have hblock : 256 ≤ sizes.cudaThreads := Nat.le_of_dvd sizes.cudaThreads_pos hdvd
    have hiters : sizes.logCap / sizes.cudaThreads < 2 ^ 31 := by
      rw [Nat.div_lt_iff_lt_mul sizes.cudaThreads_pos]
      omega
    have hall : threadsPerBlock * sizes.blocksPerGrid = sizes.cudaThreads := by
      rw [Sizes.blocksPerGrid_eq hlog]
      exact Nat.mul_div_cancel' hdvd
    apply (seqMem_ensures hlog hiters log prior).mono
    intro final hfinal
    have heq : final = fun i ↦ cellAfter log i (sizes.logCap / sizes.cudaThreads) :=
      funext fun i ↦ (hfinal i).1 (i.isLt.trans_eq hall.symm)
    rw [heq]
    exact reported_cellAfter hthreads log

/-- With 257 threads asked for and as many elements, the last element is not read and the last sum
not written. -/
theorem last_sum_not_written :
    let sizes : Sizes := ⟨257, 257, by decide, by decide, by decide⟩
    let log : Fin sizes.logCap → BitVec 64 := fun _ ↦ 1
    ∃ history state,
      ((seqMem log).launch sizes.blocksPerGrid).IsRun (allocated fun _ ↦ 5) history state ∧
      (∀ thread, state.point thread = .returned) ∧
      state.memory ⟨256, by decide⟩ = ⟨5, false, []⟩ := by
  intro sizes log
  obtain ⟨history, state, hrun, hreturned, hfinal⟩ :=
    (seqMem_ensures (by decide) (by decide) log fun _ ↦ 5).exists_end
  exact ⟨history, state, hrun, hreturned, (hfinal ⟨256, by decide⟩).2 (by decide)⟩

end Systemish.Gpu.SeqMem
