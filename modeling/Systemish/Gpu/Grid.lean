import Systemish.Foundation.ForLoop
import Systemish.Foundation.Threads

/-!
# Kernels on a grid of threads

A kernel is launched on a number of blocks of 256 threads each, and its threads run in any order.
The kernels of `randMem.cu`, `vectorAdd.cu` and `seqMem.cu` have one form: a thread works on the
element whose index is its own, with an assignment first and a loop after it. The index and the
counter of the loop are 32-bit integers that wrap.
-/

namespace Systemish.Gpu

open Foundation

def threadsPerBlock : ℕ := 256

/-- `blockIdx.x` and `threadIdx.x` of a thread. -/
abbrev GridThread (blocks : ℕ) := Fin blocks × Fin threadsPerBlock

/-- The number of a thread in the grid. -/
def GridThread.number {blocks : ℕ} (thread : GridThread blocks) : ℕ :=
  threadsPerBlock * thread.1 + thread.2

/-- `int i = blockDim.x * blockIdx.x + threadIdx.x`. -/
def GridThread.index {blocks : ℕ} (thread : GridThread blocks) : BitVec 32 :=
  BitVec.ofNat 32 thread.number

/-- `(n + threadsPerBlock - 1) / threadsPerBlock`. -/
def blocksPerGrid (n : ℕ) : ℕ := (n + threadsPerBlock - 1) / threadsPerBlock

namespace GridThread

variable {blocks : ℕ}

theorem number_lt (thread : GridThread blocks) : thread.number < threadsPerBlock * blocks := by
  have hblock := thread.1.isLt
  have hthread := thread.2.isLt
  calc
    thread.number < threadsPerBlock * thread.1 + threadsPerBlock :=
      Nat.add_lt_add_left hthread _
    _ = threadsPerBlock * (thread.1 + 1) := (Nat.mul_succ _ _).symm
    _ ≤ threadsPerBlock * blocks := Nat.mul_le_mul_left _ hblock

theorem number_injective {first second : GridThread blocks} (h : first.number = second.number) :
    first = second := by
  have hfirst := first.2.isLt
  have hsecond := second.2.isLt
  simp only [number, threadsPerBlock] at *
  apply Prod.ext <;> apply Fin.ext <;> omega

theorem exists_number {i : ℕ} (h : i < threadsPerBlock * blocks) :
    ∃ thread : GridThread blocks, thread.number = i := by
  have hpos : 0 < threadsPerBlock := by decide
  refine ⟨(⟨i / threadsPerBlock, Nat.div_lt_of_lt_mul h⟩, ⟨i % threadsPerBlock,
    Nat.mod_lt i hpos⟩), Nat.div_add_mod i threadsPerBlock⟩

/-- In a grid of at most `2 ^ 31` threads the index is the number. -/
theorem toInt_index (hfits : threadsPerBlock * blocks ≤ 2 ^ 31) (thread : GridThread blocks) :
    thread.index.toInt = thread.number :=
  toInt_ofNat_of_lt (thread.number_lt.trans_le hfits)

end GridThread

/-- The grid that is launched for `n` elements has a thread for each of them. -/
theorem le_blocksPerGrid (n : ℕ) : n ≤ threadsPerBlock * blocksPerGrid n := by
  simp only [blocksPerGrid, threadsPerBlock]
  omega

/-- A grid for an array that an `int` can index has indices in `int`, too. -/
theorem blocksPerGrid_fits {n : ℕ} (h : n ≤ 2 ^ 31) :
    threadsPerBlock * blocksPerGrid n ≤ 2 ^ 31 := by
  simp only [blocksPerGrid, threadsPerBlock]
  omega

/-- Where a thread is: in front of the kernel, or in its loop. -/
inductive KernelLocals (n : ℕ) where
  | entry
  | loop (i : Fin n) (j : BitVec 32)

/-- What a kernel does with an element: a first assignment, then rounds with a counter `j` below
`rounds`. A `guarded` kernel leaves out the indices that are not below the length of the array. -/
structure ElementKernel (n : ℕ) (α : Type) where
  guarded : Bool
  first : Fin n → α → α
  rounds : ℤ
  round : Fin n → (j : BitVec 32) → α → Option α

namespace ElementKernel

variable {n blocks : ℕ} {α : Type} (kernel : ElementKernel n α)

def step (thread : GridThread blocks) (locals : KernelLocals n) (memory : Fin n → α) :
    Option (Option (KernelLocals n) × (Fin n → α)) :=
  match locals with
  | .entry =>
    if h : 0 ≤ thread.index.toInt ∧ thread.index.toInt < n then
      let i : Fin n := ⟨thread.index.toInt.toNat, (Int.toNat_lt h.1).mpr h.2⟩
      some (some (.loop i 0), Function.update memory i (kernel.first i (memory i)))
    else if kernel.guarded ∧ n ≤ thread.index.toInt then some (none, memory) else none
  | .loop i j =>
    if j.toInt < kernel.rounds then do
      let value ← kernel.round i j (memory i)
      return (some (.loop i (j + 1)), Function.update memory i value)
    else some (none, memory)

/-- The threads of a launch on `blocks` blocks. -/
def launch (blocks : ℕ) : ThreadCode (GridThread blocks) (KernelLocals n) (Fin n → α) where
  entry _ := .entry
  step := kernel.step

/-- An element that was `value`, after `j` rounds. -/
def after (i : Fin n) (value : α) : (j : ℕ) → Option α
  | 0 => some (kernel.first i value)
  | j + 1 => (after i value j).bind (kernel.round i (BitVec.ofNat 32 j))

/-- The number of rounds, if the counter can end the loop. -/
def count : ℕ := kernel.rounds.toNat

/-- The loop of the kernel comes to its end, so it passes each round. -/
theorem exists_after {i : Fin n} {value result : α}
    (h : kernel.after i value kernel.count = some result) {j : ℕ} (hj : j ≤ kernel.count) :
    ∃ between, kernel.after i value j = some between := by
  induction hj using Nat.decreasingInduction with
  | self => exact ⟨result, h⟩
  | of_succ j _ ih =>
    obtain ⟨between, hbetween⟩ := ih
    obtain ⟨before, hbefore, -⟩ := Option.bind_eq_some_iff.mp hbetween
    exact ⟨before, hbefore⟩

/-! ## What a launch can do -/

section Steps

variable {kernel} {thread : GridThread blocks} {locals : KernelLocals n}
  {memory memory' : Fin n → α} {locals' : Option (KernelLocals n)}

/-- A step that is no fault: the first assignment to the element of the thread, a round for the
element in its locals, or the end of the thread. -/
theorem step_cases (h : kernel.step thread locals memory = some (locals', memory')) :
    (locals = .entry ∧ ∃ i : Fin n, thread.index.toInt = (i : ℕ) ∧ locals' = some (.loop i 0) ∧
      memory' = Function.update memory i (kernel.first i (memory i))) ∨
    (∃ i j value, locals = .loop i j ∧ kernel.round i j (memory i) = some value ∧
      locals' = some (.loop i (j + 1)) ∧ memory' = Function.update memory i value) ∨
    (locals' = none ∧ memory' = memory) := by
  cases locals with
  | entry =>
    rw [step] at h
    split at h
    · next hindex =>
      obtain ⟨rfl, rfl⟩ := Prod.mk.inj (Option.some.inj h)
      exact .inl ⟨rfl, _, (Int.toNat_of_nonneg hindex.1).symm, rfl, rfl⟩
    · split at h
      · obtain ⟨rfl, rfl⟩ := Prod.mk.inj (Option.some.inj h)
        exact .inr (.inr ⟨rfl, rfl⟩)
      · exact absurd h (Option.some_ne_none _).symm
  | loop i j =>
    rw [step] at h
    split at h
    · obtain ⟨value, hvalue, hafter⟩ := Option.bind_eq_some_iff.mp h
      obtain ⟨rfl, rfl⟩ := Prod.mk.inj (Option.some.inj hafter)
      exact .inr (.inl ⟨i, j, value, rfl, hvalue, rfl, rfl⟩)
    · obtain ⟨rfl, rfl⟩ := Prod.mk.inj (Option.some.inj h)
      exact .inr (.inr ⟨rfl, rfl⟩)

variable {history : List (ThreadsState (GridThread blocks) (KernelLocals n) (Fin n → α) ×
  GridThread blocks)} {state : ThreadsState (GridThread blocks) (KernelLocals n) (Fin n → α)}

/-- A property of the single elements that the first assignment and the rounds keep, for elements
that are the element of some thread, holds in every run. Nothing is assumed about the sizes. -/
theorem element_invariant (property : Fin n → α → Prop) (hstart : ∀ i, property i (memory i))
    (hfirst : ∀ (thread : GridThread blocks) (i : Fin n) value,
      thread.index.toInt = (i : ℕ) → property i value → property i (kernel.first i value))
    (hround : ∀ (thread : GridThread blocks) (i : Fin n) j value value',
      thread.index.toInt = (i : ℕ) → kernel.round i j value = some value' → property i value →
        property i value')
    (hrun : (kernel.launch blocks).IsRun memory history state) (i : Fin n) :
    property i (state.memory i) := by
  -- a thread in its loop works on the element of its index
  let holds (thread : GridThread blocks) (point : ThreadPoint (KernelLocals n)) : Prop :=
    ∀ i j, point = .running (.loop i j) → thread.index.toInt = (i : ℕ)
  have hupdate {current : Fin n → α} {i : Fin n} {value : α} (hvalue : property i value)
      (h : ∀ i, property i (current i)) (k : Fin n) :
      property k (Function.update current i value k) := by
    by_cases hk : k = i
    · subst hk
      rwa [Function.update_self]
    · rw [Function.update_of_ne hk]
      exact h k
  have hinvariant := ThreadCode.invariant_of_run holds (fun memory ↦ ∀ i, property i (memory i))
    (fun _ _ _ h ↦ by cases h) hstart ?_ (fun _ _ _ h ↦ by cases h) hrun
  · exact hinvariant.2 i
  · intro thread locals memory locals' memory' hholds helements hstep
    rcases step_cases hstep with ⟨rfl, i, hi, rfl, rfl⟩ | ⟨i, j, value, rfl, hvalue, rfl, rfl⟩ |
      ⟨rfl, rfl⟩
    · refine ⟨fun k j h ↦ ?_, hupdate (hfirst thread i _ hi (helements i)) helements⟩
      obtain ⟨rfl, -⟩ := KernelLocals.loop.inj (ThreadPoint.running.inj h)
      exact hi
    · have hi := hholds i j rfl
      refine ⟨fun k j h ↦ ?_, hupdate (hround thread i j _ value hi hvalue (helements i)) helements⟩
      obtain ⟨rfl, -⟩ := KernelLocals.loop.inj (ThreadPoint.running.inj h)
      exact hi
    · exact ⟨fun _ _ h ↦ (by cases h), helements⟩

/-- If no value of the counter ends the loop, a thread with an element does not return. -/
theorem not_returned_of_run (hrounds : 2 ^ 31 ≤ kernel.rounds)
    (hindex : 0 ≤ thread.index.toInt ∧ thread.index.toInt < n)
    (hrun : (kernel.launch blocks).IsRun memory history state) :
    state.point thread ≠ .returned := by
  let holds (other : GridThread blocks) (point : ThreadPoint (KernelLocals n)) : Prop :=
    other = thread → point ≠ .returned
  have hinvariant := ThreadCode.invariant_of_run holds (fun _ ↦ True) (fun _ _ ↦ by simp) trivial
    ?_ (fun _ _ ↦ by simp) hrun
  · exact hinvariant.1 thread rfl
  · rintro other locals memory locals' memory' - - hstep
    refine ⟨?_, trivial⟩
    rintro rfl
    cases locals with
    | entry =>
      obtain ⟨rfl, -⟩ := Prod.mk.inj (Option.some.inj ((dif_pos hindex).symm.trans hstep))
      simp [ThreadPoint.ofOption]
    | loop i j =>
      have hlt : j.toInt < kernel.rounds := BitVec.toInt_lt.trans_le hrounds
      obtain ⟨value, -, hafter⟩ :=
        Option.bind_eq_some_iff.mp ((if_pos hlt).symm.trans hstep)
      obtain ⟨rfl, -⟩ := Prod.mk.inj (Option.some.inj hafter)
      simp [ThreadPoint.ofOption]

end Steps

/-! ## The assertions -/

section Assertions

variable (memory : Fin n → α)

/-- What has been done with the element of a thread. -/
def Done (thread : GridThread blocks) : ThreadPoint (KernelLocals n) → (Fin n → α) → Prop
  | .running .entry, current =>
    ∀ i : Fin n, (i : ℕ) = thread.number → current i = memory i
  | .running (.loop i j), current =>
    (i : ℕ) = thread.number ∧ j.toNat ≤ kernel.count ∧
      kernel.after i (memory i) j.toNat = some (current i)
  | .returned, current =>
    ∀ i : Fin n, (i : ℕ) = thread.number →
      kernel.after i (memory i) kernel.count = some (current i)
  | .faulted, _ => False

/-- The elements without a thread are untouched. -/
def Untouched (blocks : ℕ) (current : Fin n → α) : Prop :=
  ∀ i : Fin n, threadsPerBlock * blocks ≤ i → current i = memory i

def remaining : ThreadPoint (KernelLocals n) → ℕ
  | .running .entry => kernel.count + 2
  | .running (.loop _ j) => kernel.count - j.toNat + 1
  | .returned => 0
  | .faulted => 0

variable {kernel memory} {thread other : GridThread blocks} {current : Fin n → α}
  {point : ThreadPoint (KernelLocals n)} {i : Fin n}

theorem Done.update (h : kernel.Done memory other point current) (hi : (i : ℕ) = thread.number)
    (hne : other ≠ thread) (value : α) :
    kernel.Done memory other point (Function.update current i value) := by
  have hother {k : Fin n} (hk : (k : ℕ) = other.number) :
      Function.update current i value k = current k := by
    apply Function.update_of_ne
    rintro rfl
    exact hne (GridThread.number_injective (hk.symm.trans hi))
  match point, h with
  | .running .entry, h =>
    intro k hk
    rw [hother hk]
    exact h k hk
  | .running (.loop k j), h =>
    refine ⟨h.1, h.2.1, ?_⟩
    rw [hother h.1]
    exact h.2.2
  | .returned, h =>
    intro k hk
    rw [hother hk]
    exact h k hk

theorem Untouched.update (h : Untouched memory blocks current) (hi : (i : ℕ) = thread.number)
    (value : α) : Untouched memory blocks (Function.update current i value) := by
  intro k hk
  have hlt := thread.number_lt
  rw [Function.update_of_ne (by rintro rfl; omega)]
  exact h k hk

end Assertions

/-- The step at the start of the kernel. -/
theorem step_entry {memory current : Fin n → α} {thread : GridThread blocks}
    (hfits : threadsPerBlock * blocks ≤ 2 ^ 31)
    (hinside : kernel.guarded = true ∨ threadsPerBlock * blocks ≤ n)
    (h : kernel.Done memory thread (.running .entry) current)
    (hshared : Untouched memory blocks current) :
    ∃ locals' current', kernel.step thread .entry current = some (locals', current') ∧
      kernel.Done memory thread (.ofOption locals') current' ∧
      Untouched memory blocks current' ∧
      kernel.remaining (.ofOption locals') < kernel.remaining (.running .entry) ∧
      ∀ other, other ≠ thread → ∀ point, kernel.Done memory other point current →
        kernel.Done memory other point current' := by
  have hint := thread.toInt_index hfits
  by_cases hindex : thread.number < n
  · have hbounds : 0 ≤ thread.index.toInt ∧ thread.index.toInt < n := by
      rw [hint]
      exact ⟨Int.natCast_nonneg _, Int.ofNat_lt.mpr hindex⟩
    have hi : thread.index.toInt.toNat = thread.number := by
      rw [hint, Int.toNat_natCast]
    refine ⟨_, _, dif_pos hbounds, ⟨hi, Nat.zero_le _, ?_⟩, hshared.update hi _,
      Nat.lt_succ_self _, fun other hne point hother ↦ hother.update hi hne _⟩
    rw [Function.update_self, h _ hi]
    rfl
  · have hguarded : kernel.guarded = true := by
      rcases hinside with hguarded | hall
      · exact hguarded
      · exact absurd (thread.number_lt.trans_le hall) hindex
    have hbounds : ¬ (0 ≤ thread.index.toInt ∧ thread.index.toInt < n) := by
      rw [hint]
      omega
    refine ⟨none, current, ?_, fun i hi ↦ absurd i.isLt (hi ▸ hindex), hshared,
      Nat.succ_pos _, fun other _ point hother ↦ hother⟩
    rw [step, dif_neg hbounds, if_pos ⟨hguarded, by rw [hint]; omega⟩]

/-- The step of a round, or the end of the loop. -/
theorem step_loop {memory current : Fin n → α} {thread : GridThread blocks} {i : Fin n}
    {j : BitVec 32} {result : α} (hrounds : kernel.rounds < 2 ^ 31)
    (hresult : kernel.after i (memory i) kernel.count = some result)
    (h : kernel.Done memory thread (.running (.loop i j)) current)
    (hshared : Untouched memory blocks current) :
    ∃ locals' current', kernel.step thread (.loop i j) current = some (locals', current') ∧
      kernel.Done memory thread (.ofOption locals') current' ∧
      Untouched memory blocks current' ∧
      kernel.remaining (.ofOption locals') < kernel.remaining (.running (.loop i j)) ∧
      ∀ other, other ≠ thread → ∀ point, kernel.Done memory other point current →
        kernel.Done memory other point current' := by
  obtain ⟨hi, hj, hafter⟩ := h
  have hcount : kernel.count < 2 ^ 31 := by
    rw [count]
    omega
  have hint : j.toInt = j.toNat := BitVec.toInt_eq_toNat_of_lt (by omega)
  have hround : j.toInt < kernel.rounds ↔ j.toNat < kernel.count := by
    rw [hint, count]
    omega
  by_cases hlt : j.toNat < kernel.count
  · have hnext : (j + 1).toNat = j.toNat + 1 :=
      BitVec.toNat_add_of_lt (by change j.toNat + 1 < 2 ^ 32; omega)
    obtain ⟨value, hvalue⟩ := kernel.exists_after hresult hlt
    have hstep : kernel.round i j (current i) = some value := by
      rw [after, hafter, Option.bind_some, BitVec.ofNat_toNat, BitVec.setWidth_eq] at hvalue
      exact hvalue
    refine ⟨some (.loop i (j + 1)), Function.update current i value, ?_, ⟨hi, ?_, ?_⟩,
      hshared.update hi _, ?_, fun other hne point hother ↦ hother.update hi hne _⟩
    · simp [step, hround.mpr hlt, hstep]
    · rw [hnext]
      exact hlt
    · rw [hnext, hvalue, Function.update_self]
    · change kernel.count - (j + 1).toNat + 1 < kernel.count - j.toNat + 1
      omega
  · have hdone : j.toNat = kernel.count := by omega
    refine ⟨none, current, ?_, fun k hk ↦ ?_, hshared, Nat.succ_pos _,
      fun other _ point hother ↦ hother⟩
    · rw [step, if_neg (mt hround.mp hlt)]
    · obtain rfl : k = i := Fin.ext (hk.trans hi.symm)
      rw [← hdone]
      exact hafter

/-- Every element with a thread has gone through all rounds in the end, and the others are as they
were. -/
theorem launch_ensures (blocks : ℕ) {memory : Fin n → α}
    (hfits : threadsPerBlock * blocks ≤ 2 ^ 31) (hrounds : kernel.rounds < 2 ^ 31)
    (hinside : kernel.guarded = true ∨ threadsPerBlock * blocks ≤ n)
    (hresult : ∀ i, ∃ result, kernel.after i (memory i) kernel.count = some result) :
    (kernel.launch blocks).Ensures memory fun final ↦ ∀ i : Fin n,
      ((i : ℕ) < threadsPerBlock * blocks →
        kernel.after i (memory i) kernel.count = some (final i)) ∧
      (threadsPerBlock * blocks ≤ i → final i = memory i) := by
  let outline : (kernel.launch blocks).Outline memory :=
    { holds := kernel.Done memory
      shared := Untouched memory blocks
      remaining := fun _ ↦ kernel.remaining
      holds_entry := fun _ _ _ ↦ rfl
      shared_entry := fun _ _ ↦ rfl
      holds_step := fun thread locals current h hshared ↦ by
        cases locals with
        | entry => exact kernel.step_entry hfits hinside h hshared
        | loop i j =>
          obtain ⟨result, hresult⟩ := hresult i
          exact kernel.step_loop hrounds hresult h hshared }
  apply outline.ensures
  intro final hshared hreturned i
  refine ⟨fun hi ↦ ?_, fun hi ↦ hshared i hi⟩
  obtain ⟨thread, hthread⟩ := GridThread.exists_number hi
  exact hreturned thread i hthread.symm

/-- A guarded kernel on a grid that covers the array. -/
theorem launch_covering_ensures {memory result : Fin n → α} (hguarded : kernel.guarded = true)
    (hn : n ≤ 2 ^ 31) (hrounds : kernel.rounds < 2 ^ 31)
    (hresult : ∀ i, kernel.after i (memory i) kernel.count = some (result i)) :
    (kernel.launch (blocksPerGrid n)).Ensures memory (· = result) := by
  have hlaunch := kernel.launch_ensures (blocksPerGrid n) (blocksPerGrid_fits hn) hrounds
    (Or.inl hguarded) fun i ↦ ⟨result i, hresult i⟩
  apply hlaunch.mono
  intro final hfinal
  funext i
  have hi := (hfinal i).1 (i.isLt.trans_le (le_blocksPerGrid n))
  exact Option.some.inj (hi.symm.trans (hresult i))

end ElementKernel

end Systemish.Gpu
