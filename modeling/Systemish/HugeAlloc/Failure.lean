import Systemish.HugeAlloc.Runs

/-!
# Failed allocations

`alloc` doubles `prev_allocation_size` before it reserves memory, and halves it
again only where the reservation reports that there are no hugepages left. An
exception passes that code by, and halving does not undo a doubling that wrapped
around. This module says exactly when a call that hands out no Buffer leaves the
allocator as it was.
-/

namespace Systemish.HugeAlloc

open Foundation

/-- The call returned the null Buffer or threw an exception. -/
def Undelivered : Except Stop Buffer → Prop
  | .ok buffer => buffer.buf = 0
  | .error (.thrown _) => True
  | .error _ => False

/-- The outcomes of the system calls after which `prev_allocation_size` has its old value. -/
def Answers.Restore (answers : Answers) (prevAllocationSize : ℕ) : Prop :=
  match verdict answers.trips with
  | .waiting => True
  | .outOfMemory => prevAllocationSize < 2 ^ 63
  | .refused _ => prevAllocationSize = 0
  | .granted _ _ => answers.Usable ∨ prevAllocationSize = 0

theorem setPrev_heap_eq_iff (process : Process) (size : ℕ) :
    (process.setPrevAllocationSize size).heap = process.heap ↔
      size = process.heap.prevAllocationSize := by
  constructor
  · intro h
    exact congrArg HugeAlloc.prevAllocationSize h
  · rintro rfl
    rfl

theorem doubledSize_eq_iff (heap : HugeAlloc) :
    doubledSize heap = heap.prevAllocationSize ↔ heap.prevAllocationSize = 0 := by
  unfold doubledSize
  omega

theorem half_doubledSize_eq_iff (heap : HugeAlloc) :
    doubledSize heap / 2 = heap.prevAllocationSize ↔ heap.prevAllocationSize < 2 ^ 63 := by
  unfold doubledSize
  omega

/-- A reservation that fails leaves the doubled size behind, unless it reports `ENOMEM`. -/
theorem RawResult.heap_eq_iff {answers : Answers} {process final : Process} {size : ℕ}
    {message : String}
    (h : RawResult answers process.double size (.error (.thrown message)) final) :
    final.heap = process.heap ↔ answers.Restore process.heap.prevAllocationSize := by
  have hdouble := (setPrev_heap_eq_iff process _).trans (doubledSize_eq_iff process.heap)
  cases h with
  | refused errno _ hverdict =>
    simp only [Answers.Restore, hverdict]
    exact hdouble
  | unusable draw id _ hverdict husable =>
    simp only [Answers.Restore, hverdict, husable, false_or]
    exact hdouble

theorem AllocResult.undelivered_iff {build : Build} {answers : Answers} {world : World}
    (hclassed : Classed build world) {classI : Fin kNumClasses}
    (hlow : classI.val ≠ 0 ∨ build.bsrlZero = 0) {result : Except Stop Buffer} {final : Process}
    (h : AllocResult build answers world.process classI result final) :
    (Undelivered result → final.heap = world.process.heap) ↔
      Served world.process.heap classI ∨
        (build.asserts = true ∧ doubledSize world.process.heap < kMaxClassSize) ∨
        answers.Restore world.process.heap.prevAllocationSize := by
  cases h with
  | served middle buffer rest hserved hrun hback =>
    have hbuffer := hclassed.back_ne_zero hlow hrun hback
    exact ⟨fun _ ↦ .inl hserved, fun _ hnull ↦ absurd hnull hbuffer⟩
  | aborted _ hasserts hsmall => exact ⟨fun _ ↦ .inr (.inl ⟨hasserts, hsmall⟩), fun _ ↦ False.elim⟩
  | stopped stop _ hserved hraw hassert =>
    simp only [hserved, hassert, false_or]
    cases stop with
    | thrown message =>
      rw [← hraw.heap_eq_iff]
      exact ⟨fun h ↦ h trivial, fun h _ ↦ h⟩
    | pending =>
      cases hraw with
      | waiting hverdict => simp [Answers.Restore, hverdict, Undelivered]
    | aborted | undefined | exited => cases hraw
  | outOfMemory hserved hverdict hassert =>
    simp only [hserved, hassert, false_or, Answers.Restore, hverdict]
    rw [← half_doubledSize_eq_iff, ← setPrev_heap_eq_iff]
    exact ⟨fun h ↦ h rfl, fun h _ ↦ h⟩
  | reserved draw id middle buffer rest hserved hverdict husable _ hrun hback =>
    have hreserved := (hclassed.reserve husable draw id (doubledSize world.process.heap)).shuffle
      (.setPrev (doubledSize world.process.heap))
    have hbuffer := hreserved.back_ne_zero hlow hrun hback
    simp only [Answers.Restore, hverdict, husable, true_or, or_true, iff_true]
    exact fun hnull ↦ absurd hnull hbuffer
  | undefined draw id _ hserved hverdict husable =>
    simp only [Answers.Restore, hverdict, husable, true_or, or_true, iff_true]
    exact False.elim

/-- A class index outside the array ends the program: the call neither returns nor throws. -/
theorem not_undelivered_outside {build : Build} (answers : Answers) (process : Process) {size : ℕ}
    (hpos : 1 ≤ size) (hsize : size ≤ kMaxClassSize)
    (hclass : kNumClasses ≤ classIndex build size) :
    ¬ Undelivered ((alloc build answers size).eval process).1 := by
  have hend := Call.ensures_iff.mp (alloc_ensures_outside answers process hpos hsize hclass)
  rcases hend with hend | hend <;> rw [hend] <;> exact not_false

/-- In every reachable state, a call of `alloc` that delivers no Buffer leaves the allocator as it
was exactly if the freelists serve the call or `get_class` ends the program, the assertion on the
reservation stops the program, or the system calls end in a way that restores
`prev_allocation_size`. -/
theorem alloc_undelivered_restores_iff (build : Build) {allowed : World → Op → Prop}
    {initialSize : ℕ} {kernel : Kernel} {history : List (World × Op)} {world : World}
    (hrun : Run (World.step build) allowed (World.start initialSize kernel) history world)
    (answers : Answers) {size : ℕ} (hpos : 1 ≤ size) (hsize : size ≤ kMaxClassSize) :
    (Undelivered ((alloc build answers size).eval world.process).1 →
        ((alloc build answers size).eval world.process).2.heap = world.process.heap) ↔
      world.request build (.alloc size answers) = none ∨
        (build.asserts = true ∧ doubledSize world.process.heap < kMaxClassSize) ∨
        answers.Restore world.process.heap.prevAllocationSize := by
  by_cases hclass : classIndex build size < kNumClasses
  · have hclassed := classed_of_run hrun
    have halloc := alloc_ensures answers hclassed.tagged hpos hsize ⟨_, hclass⟩ rfl
    have hlow : (⟨_, hclass⟩ : Fin kNumClasses).val ≠ 0 ∨ build.bsrlZero = 0 :=
      ne_zero_or_bsrlZero hsize rfl
    rw [AllocResult.undelivered_iff hclassed hlow (Call.ensures_iff.mp halloc)]
    simp [World.request, hclass]
  · have hend := not_undelivered_outside answers world.process hpos hsize (not_lt.mp hclass)
    simp [World.request, hclass, hend]

/-- `ENOMEM` at the first reservation is undone. -/
theorem alloc_outOfMemory_restores :
    ((alloc ⟨true, 0⟩ ⟨[⟨7, .error .ENOMEM⟩], .failed, -1⟩ 1).eval
        (World.start 0 ⟨[], []⟩).process).2.heap = (World.start 0 ⟨[], []⟩).process.heap := by
  have hrun : Run (World.step ⟨true, 0⟩) (fun _ _ ↦ True) (World.start 0 ⟨[], []⟩) [] _ := .start
  refine (alloc_undelivered_restores_iff ⟨true, 0⟩ hrun
    ⟨[⟨7, .error .ENOMEM⟩], .failed, -1⟩ le_rfl (by decide)).mpr (.inr (.inr ?_)) ?_
  · show kMaxClassSize < 2 ^ 63
    decide
  · rfl

/-- `EACCES` at the first reservation leaves `prev_allocation_size` doubled. -/
theorem alloc_refused_doubles :
    Undelivered ((alloc ⟨true, 0⟩ ⟨[⟨7, .error .EACCES⟩], .failed, -1⟩ 1).eval
        (World.start 0 ⟨[], []⟩).process).1 ∧
      ((alloc ⟨true, 0⟩ ⟨[⟨7, .error .EACCES⟩], .failed, -1⟩ 1).eval
        (World.start 0 ⟨[], []⟩).process).2.heap.prevAllocationSize = 16 * 1024 * 1024 ∧
      (World.start 0 ⟨[], []⟩).process.heap.prevAllocationSize = 8 * 1024 * 1024 := by
  refine ⟨?_, ?_, ?_⟩
  · trivial
  · decide +kernel
  · decide

end Systemish.HugeAlloc
