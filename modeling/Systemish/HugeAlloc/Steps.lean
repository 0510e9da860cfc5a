import Systemish.HugeAlloc.SizeClass

/-!
# What one call can do

One lemma per function of the allocator, each giving the result and the final
state of a call. `AllocResult` lists every way in which `alloc` can end; all
later invariants are derived from that list and never unfold the code again.
The only fact assumed of the state is `Tagged`: Buffers lie in the freelist of
their class.
-/

namespace Systemish.HugeAlloc

open Foundation

/-! ## Reservation -/

/-- What the loop around `shmget` comes to. -/
inductive Verdict where
  | waiting
  | outOfMemory
  | refused (errno : Errno)
  | granted (draw id : ℕ)
deriving DecidableEq

/-- The first answer that is not `EEXIST` decides. -/
def verdict : List Trip → Verdict
  | [] => .waiting
  | trip :: rest =>
    match trip.shmget with
    | .error .EEXIST => verdict rest
    | .error .ENOMEM => .outOfMemory
    | .error errno => .refused errno
    | .ok id => .granted trip.draw id

/-- The address that `alloc_raw` uses is not null and the memory policy could be set. -/
def Answers.Usable (answers : Answers) : Prop := answers.shmat.pointer ≠ 0 ∧ answers.mbind = 0

instance (answers : Answers) : Decidable answers.Usable := inferInstanceAs (Decidable (_ ∧ _))

/-- The answers of an operating system that grants a request at the first try. -/
def Answers.grant (draw id address : ℕ) : Answers := ⟨[⟨draw, .ok id⟩], .mapped address, 0⟩

/-- The process once a segment of `size` bytes has been created and mapped. -/
def Process.mapSegment (process : Process) (answers : Answers) (draw id size : ℕ) : Process :=
  (process.createSegment id (chooseKey draw) size).attach answers.shmat size

/-- The process once the new region has been recorded as well. -/
def Process.mapRegion (process : Process) (answers : Answers) (draw id size : ℕ) : Process :=
  (process.mapSegment answers draw id size).addRegion
    ⟨chooseKey draw, answers.shmat.pointer, size⟩

/-- What the loop around `shmget` leaves behind, by its verdict. -/
theorem shmgetLoop_ensures (size : ℕ) (trips : List Trip) (process : Process)
    (post : Except Stop (Option ℤ) → Process → Prop)
    (hwaiting : verdict trips = .waiting → post (.error .pending) process)
    (hmemory : verdict trips = .outOfMemory → post (.ok none) process)
    (hrefused : ∀ errno message, verdict trips = .refused errno →
      post (.error (.thrown message)) process)
    (hgranted : ∀ draw id, verdict trips = .granted draw id →
      post (.ok (some (chooseKey draw))) (process.createSegment id (chooseKey draw) size)) :
    (shmgetLoop size trips).Ensures process post := by
  induction trips with
  | nil => exact hwaiting rfl
  | cons trip rest ih =>
    rcases trip with ⟨draw, shmget⟩
    cases shmget with
    | ok id => exact hgranted draw id rfl
    | error errno =>
      cases errno with
      | EEXIST => exact ih hwaiting hmemory hrefused hgranted
      | EACCES => exact hrefused _ _ rfl
      | EINVAL => exact hrefused _ _ rfl
      | ENOMEM => exact hmemory rfl
      | other description => exact hrefused _ _ rfl

theorem ensures_rtAssert (condition : Prop) [Decidable condition] (message : String)
    (process : Process) (post : Except Stop Unit → Process → Prop) :
    (rtAssert condition message).Ensures process post ↔
      if condition then post (.ok ()) process else post (.error (.thrown message)) process := by
  unfold rtAssert
  split <;> rfl

/-- Every way in which `alloc_raw` can end. -/
inductive RawResult (answers : Answers) (process : Process) (size : ℕ) :
    Except Stop Buffer → Process → Prop
  | waiting (h : verdict answers.trips = .waiting) :
      RawResult answers process size (.error .pending) process
  | outOfMemory (h : verdict answers.trips = .outOfMemory) :
      RawResult answers process size (.ok ⟨0, 0⟩) process
  | refused (errno : Errno) (message : String) (h : verdict answers.trips = .refused errno) :
      RawResult answers process size (.error (.thrown message)) process
  | unusable (draw id : ℕ) (message : String) (h : verdict answers.trips = .granted draw id)
      (husable : ¬ answers.Usable) :
      RawResult answers process size (.error (.thrown message))
        (process.mapSegment answers draw id (roundUp kHugepageSize size))
  | mapped (draw id : ℕ) (h : verdict answers.trips = .granted draw id) (husable : answers.Usable) :
      RawResult answers process size (.ok ⟨answers.shmat.pointer, sizeMax⟩)
        (process.mapRegion answers draw id (roundUp kHugepageSize size))

theorem allocRaw_ensures (build : Build) (answers : Answers) (size : ℕ) (process : Process) :
    (allocRaw build answers size).Ensures process (RawResult answers process size) := by
  simp only [allocRaw, Call.ensures_bind]
  apply shmgetLoop_ensures
  · intro h
    exact .waiting h
  · intro h
    exact .outOfMemory h
  · intro errno message h
    exact .refused errno message h
  · intro draw id h
    simp only [Call.ensures_bind, Call.ensures_modify, ensures_rtAssert, Call.ensures_check,
      Call.ensures_pure]
    by_cases hpointer : answers.shmat.pointer = 0
    · rw [if_neg (not_not.mpr hpointer)]
      exact .unusable draw id _ h fun husable ↦ husable.1 hpointer
    · rw [if_pos hpointer]
      by_cases hmbind : answers.mbind = 0
      · simp only [if_pos hmbind]
        rw [if_neg]
        · exact .mapped draw id h ⟨hpointer, hmbind⟩
        · have hdvd := Nat.mod_eq_zero_of_dvd (kHugepageSize_dvd_roundUp size)
          exact fun hcheck ↦ hcheck.2 hdvd
      · simp only [if_neg hmbind]
        exact .unusable draw id _ h fun husable ↦ hmbind husable.2

/-- The largest class. -/
def lastClass : Fin kNumClasses := ⟨kNumClasses - 1, by decide⟩

/-- The process once a new region has been cut into Buffers of the largest class. -/
def Process.reserve (process : Process) (answers : Answers) (draw id size : ℕ) : Process :=
  let mapped := process.mapRegion answers draw id (roundUp kHugepageSize size)
  (mapped.setFreelist lastClass (pushSlices answers.shmat.pointer (size / kMaxClassSize)
    (mapped.heap.freelist lastClass))).addReservation size

theorem ensures_freelistAt (classI : Fin kNumClasses) (process : Process)
    (post : Except Stop (List Buffer) → Process → Prop) :
    (freelistAt classI).Ensures process post ↔
      post (.ok (process.heap.freelist classI)) process := by
  simp only [freelistAt, Call.ensures_bind, Call.ensures_get, dif_pos classI.isLt,
    Call.ensures_pure]

theorem ensures_setFreelistAt (classI : Fin kNumClasses) (buffers : List Buffer)
    (process : Process) (post : Except Stop Unit → Process → Prop) :
    (setFreelistAt classI buffers).Ensures process post ↔
      post (.ok ()) (process.setFreelist classI buffers) := by
  simp only [setFreelistAt, dif_pos classI.isLt, Call.ensures_modify]

/-- Every way in which `reserve_hugepages` can end. -/
inductive ReserveResult (build : Build) (answers : Answers) (process : Process) (size : ℕ) :
    Except Stop Bool → Process → Prop
  | aborted (hasserts : build.asserts = true) (hsmall : size < kMaxClassSize) :
      ReserveResult build answers process size (.error .aborted) process
  | stopped (stop : Stop) (final : Process)
      (hraw : RawResult answers process size (.error stop) final)
      (hassert : ¬ (build.asserts = true ∧ size < kMaxClassSize)) :
      ReserveResult build answers process size (.error stop) final
  | outOfMemory (h : verdict answers.trips = .outOfMemory)
      (hassert : ¬ (build.asserts = true ∧ size < kMaxClassSize)) :
      ReserveResult build answers process size (.ok false) process
  | reserved (draw id : ℕ) (h : verdict answers.trips = .granted draw id) (husable : answers.Usable)
      (hassert : ¬ (build.asserts = true ∧ size < kMaxClassSize)) :
      ReserveResult build answers process size (.ok true) (process.reserve answers draw id size)

theorem reserveHugepages_ensures (build : Build) (answers : Answers) (size : ℕ)
    (process : Process) :
    (reserveHugepages build answers size).Ensures process
      (ReserveResult build answers process size) := by
  simp only [reserveHugepages, Call.ensures_bind, Call.ensures_check, not_le]
  by_cases hassert : build.asserts = true ∧ size < kMaxClassSize
  · rw [if_pos hassert]
    exact .aborted hassert.1 hassert.2
  rw [if_neg hassert]
  refine (allocRaw_ensures build answers size process).mono fun result final hraw ↦ ?_
  cases hraw with
  | waiting h => exact .stopped _ _ (.waiting h) hassert
  | outOfMemory h => exact .outOfMemory h hassert
  | refused errno message h => exact .stopped _ _ (.refused errno message h) hassert
  | unusable draw id message h husable =>
    exact .stopped _ _ (.unusable draw id message h husable) hassert
  | mapped draw id h husable =>
    have hcount : ¬ (build.asserts = true ∧ ¬ 1 ≤ size / kMaxClassSize) := by
      rintro ⟨hasserts, hcount⟩
      have hmax : 0 < kMaxClassSize := by decide
      have hzero := Nat.lt_one_iff.mp (not_le.mp hcount)
      exact hassert ⟨hasserts, (Nat.div_eq_zero_iff_lt hmax).mp hzero⟩
    have hread := ensures_freelistAt lastClass
    have hwrite := ensures_setFreelistAt lastClass
    simp only [lastClass] at hread hwrite
    simp only [if_neg husable.1, Call.ensures_bind, Call.ensures_check, if_neg hcount, hread,
      hwrite, Call.ensures_modify, Call.ensures_pure]
    exact .reserved draw id h husable hassert

/-! ## Freelists -/

/-- Buffers lie in the freelist of their class. -/
def Tagged (heap : HugeAlloc) : Prop :=
  ∀ classI, ∀ buffer ∈ heap.freelist classI, buffer.classSize = classMaxSize classI

/-- The process once the back of `classI + 1` has been split into its halves. -/
def Process.splitBack (process : Process) (classI : ℕ) (h : classI + 1 < kNumClasses)
    (buffer : Buffer) (rest : List Buffer) : Process :=
  (process.setFreelist ⟨classI + 1, h⟩ rest).setFreelist ⟨classI, by omega⟩
    [⟨buffer.buf + buffer.classSize / 2, buffer.classSize / 2⟩, ⟨buffer.buf, buffer.classSize / 2⟩]

/-- The process once the back of a class has been handed out. -/
def Process.takeBack (process : Process) (classI : Fin kNumClasses) (buffer : Buffer)
    (rest : List Buffer) : Process :=
  (process.setFreelist classI rest).addUserAllocTot buffer.classSize

/-- A chain of splits, each into an empty class from `lowest` on. -/
inductive SplitRun (lowest : ℕ) : Process → Process → Prop
  | refl (process : Process) : SplitRun lowest process process
  | step {process final : Process} (classI : ℕ) (hlow : lowest ≤ classI)
      (h : classI + 1 < kNumClasses) (buffer : Buffer) (rest : List Buffer)
      (hsource : process.heap.freelist ⟨classI + 1, h⟩ = buffer :: rest)
      (htarget : process.heap.freelist ⟨classI, by omega⟩ = [])
      (hrun : SplitRun lowest (process.splitBack classI h buffer rest) final) :
      SplitRun lowest process final

theorem setFreelist_freelist (process : Process) (classI other : Fin kNumClasses)
    (buffers : List Buffer) :
    (process.setFreelist classI buffers).heap.freelist other =
      if other = classI then buffers else process.heap.freelist other := by
  simp only [Process.setFreelist, Function.update_apply]

theorem Tagged.setFreelist {process : Process} (h : Tagged process.heap)
    {classI : Fin kNumClasses} {buffers : List Buffer}
    (hbuffers : ∀ buffer ∈ buffers, buffer.classSize = classMaxSize classI) :
    Tagged (process.setFreelist classI buffers).heap := by
  intro other buffer hbuffer
  rw [setFreelist_freelist] at hbuffer
  split at hbuffer
  · rename_i hother
    rw [hother]
    exact hbuffers buffer hbuffer
  · exact h other buffer hbuffer

theorem Tagged.head {heap : HugeAlloc} (h : Tagged heap) {classI : Fin kNumClasses}
    {buffer : Buffer} {rest : List Buffer} (hsource : heap.freelist classI = buffer :: rest) :
    buffer.classSize = classMaxSize classI :=
  h classI buffer (by rw [hsource]; exact List.mem_cons_self ..)

theorem Tagged.tail {heap : HugeAlloc} (h : Tagged heap) {classI : Fin kNumClasses}
    {buffer : Buffer} {rest : List Buffer} (hsource : heap.freelist classI = buffer :: rest) :
    ∀ other ∈ rest, other.classSize = classMaxSize classI := fun other hother ↦
  h classI other (by rw [hsource]; exact List.mem_cons_of_mem _ hother)

theorem Tagged.splitBack {process : Process} (h : Tagged process.heap) (classI : ℕ)
    (hclass : classI + 1 < kNumClasses) (buffer : Buffer) (rest : List Buffer)
    (hsource : process.heap.freelist ⟨classI + 1, hclass⟩ = buffer :: rest) :
    Tagged (process.splitBack classI hclass buffer rest).heap := by
  have hhalf : buffer.classSize / 2 = classMaxSize classI := by
    rw [h.head hsource, classMaxSize_succ, Nat.mul_div_cancel_left _ (by decide)]
  refine (h.setFreelist (h.tail hsource)).setFreelist fun half hmem ↦ ?_
  simp only [List.mem_cons, List.not_mem_nil, or_false] at hmem
  rcases hmem with rfl | rfl <;> exact hhalf

theorem SplitRun.tagged {lowest : ℕ} {process final : Process}
    (hrun : SplitRun lowest process final) (h : Tagged process.heap) : Tagged final.heap := by
  induction hrun with
  | refl => exact h
  | step classI _ hclass buffer rest hsource _ _ ih =>
    exact ih (h.splitBack classI hclass buffer rest hsource)

theorem split_ensures (build : Build) {process : Process} (htagged : Tagged process.heap)
    (classI : ℕ) (h : classI + 1 < kNumClasses) (buffer : Buffer) (rest : List Buffer)
    (hsource : process.heap.freelist ⟨classI + 1, h⟩ = buffer :: rest)
    (htarget : process.heap.freelist ⟨classI, by omega⟩ = []) :
    (split build (classI + 1)).Ensures process fun result final ↦
      result = .ok () ∧ final = process.splitBack classI h buffer rest := by
  have hread (other : Fin kNumClasses) := ensures_freelistAt other
  have hsize := htagged.head hsource
  simp only [split, Call.ensures_bind, Call.ensures_check, Nat.add_sub_cancel,
    hread ⟨classI + 1, h⟩, hread ⟨classI, by omega⟩, hsource, htarget,
    ensures_setFreelistAt ⟨classI + 1, h⟩, ensures_setFreelistAt ⟨classI, by omega⟩]
  simp [hsize, Process.splitBack]

/-- The chain of splits reaches the wanted class. -/
theorem splitDown_ensures (build : Build) (classI rounds : ℕ) {process : Process}
    (htagged : Tagged process.heap) (h : classI + rounds < kNumClasses)
    (hsource : process.heap.freelist ⟨classI + rounds, h⟩ ≠ [])
    (hempty : ∀ other : Fin kNumClasses, classI ≤ other → other.val < classI + rounds →
      process.heap.freelist other = []) :
    (splitDown build classI rounds).Ensures process fun result final ↦
      result = .ok () ∧ SplitRun classI process final ∧
        final.heap.freelist ⟨classI, by omega⟩ ≠ [] := by
  induction rounds generalizing process with
  | zero => exact ⟨rfl, .refl _, hsource⟩
  | succ rounds ih =>
    obtain ⟨buffer, rest, hsource⟩ := List.exists_cons_of_ne_nil hsource
    have htarget := hempty ⟨classI + rounds, by omega⟩ (by simp) (by simp)
    have hsplit := split_ensures build htagged (classI + rounds) h buffer rest hsource htarget
    simp only [splitDown, Call.ensures_bind]
    refine hsplit.mono fun result middle hmiddle ↦ ?_
    obtain ⟨rfl, rfl⟩ := hmiddle
    -- the halves are the only Buffers below the class that was split
    have hnext := ih (htagged.splitBack _ h buffer rest hsource) (by omega)
      (by simp [Process.splitBack, setFreelist_freelist]) (by
        intro other hlow hhigh
        have hother := hempty other hlow (by omega)
        have h₁ : other ≠ ⟨classI + rounds, by omega⟩ := fun he ↦ by simp [he] at hhigh
        have h₂ : other ≠ ⟨classI + rounds + 1, h⟩ := fun he ↦ by simp [he] at hhigh
        simp [Process.splitBack, setFreelist_freelist, h₁, h₂, hother])
    refine hnext.mono fun result final hfinal ↦ ?_
    obtain ⟨hresult, hrun, hreached⟩ := hfinal
    exact ⟨hresult, .step _ (Nat.le_add_right _ _) h buffer rest hsource htarget hrun, hreached⟩

theorem allocFromClass_ensures (build : Build) {process : Process} (htagged : Tagged process.heap)
    (classI : Fin kNumClasses) (buffer : Buffer) (rest : List Buffer)
    (hsource : process.heap.freelist classI = buffer :: rest) :
    (allocFromClass build classI).Ensures process fun result final ↦
      result = .ok buffer ∧ final = process.takeBack classI buffer rest := by
  have hsize := htagged.head hsource
  have hsame : (if build.asserts then { buffer with classSize := classMaxSize classI }
      else buffer) = buffer := by
    rw [← hsize]
    split <;> rfl
  have hpos : buffer.classSize ≠ 0 := by
    rw [hsize]
    exact (classMaxSize_pos _).ne'
  simp only [allocFromClass, Call.ensures_bind, Call.ensures_check, ensures_freelistAt, hsource,
    hsame, ensures_setFreelistAt, Call.ensures_modify, Call.ensures_pure]
  simp [hpos, Process.takeBack]

/-- The class search ends at the first class with free Buffers. -/
theorem findClass_spec (freelist : Buckets kNumClasses Buffer) (rounds nextClass : ℕ)
    (hle : nextClass ≤ kNumClasses) (hrounds : kNumClasses ≤ nextClass + rounds) :
    nextClass ≤ findClass freelist rounds nextClass ∧
      findClass freelist rounds nextClass ≤ kNumClasses ∧
      (∀ other : Fin kNumClasses, nextClass ≤ other →
        other.val < findClass freelist rounds nextClass → freelist other = []) ∧
      ∀ h : findClass freelist rounds nextClass < kNumClasses,
        freelist ⟨findClass freelist rounds nextClass, h⟩ ≠ [] := by
  induction rounds generalizing nextClass with
  | zero =>
    simp only [findClass]
    exact ⟨le_rfl, hle, fun other hlow hhigh ↦ by omega, fun h ↦ by omega⟩
  | succ rounds ih =>
    unfold findClass
    split
    · rename_i hlt
      split
      · rename_i hsome
        exact ⟨le_rfl, hle, fun other hlow hhigh ↦ by omega, fun _ ↦ hsome⟩
      · rename_i hnone
        obtain ⟨hlow, hhigh, hempty, hfound⟩ := ih (nextClass + 1) (by omega) (by omega)
        refine ⟨by omega, hhigh, fun other hother hbelow ↦ ?_, hfound⟩
        by_cases heq : other.val = nextClass
        · rw [show other = ⟨nextClass, hlt⟩ from Fin.ext heq]
          exact not_not.mp hnone
        · exact hempty other (by omega) hbelow
    · exact ⟨le_rfl, hle, fun other hlow hhigh ↦ by omega, fun h ↦ by omega⟩

/-! ## Allocation -/

/-- Some class from `classI` on has free Buffers, so no reservation is needed. -/
def Served (heap : HugeAlloc) (classI : Fin kNumClasses) : Prop :=
  ∃ larger : Fin kNumClasses, classI ≤ larger ∧ heap.freelist larger ≠ []

/-- The size that `alloc` asks `reserve_hugepages` for. -/
def doubledSize (heap : HugeAlloc) : ℕ := heap.prevAllocationSize * 2 % 2 ^ 64

/-- The process once `prev_allocation_size` has been doubled. -/
def Process.double (process : Process) : Process :=
  process.setPrevAllocationSize (doubledSize process.heap)

/-- Every way in which `alloc` can end for a size of class `classI`. -/
inductive AllocResult (build : Build) (answers : Answers) (process : Process)
    (classI : Fin kNumClasses) : Except Stop Buffer → Process → Prop
  | served (middle : Process) (buffer : Buffer) (rest : List Buffer)
      (hserved : Served process.heap classI) (hrun : SplitRun classI process middle)
      (hback : middle.heap.freelist classI = buffer :: rest) :
      AllocResult build answers process classI (.ok buffer) (middle.takeBack classI buffer rest)
  | aborted (hserved : ¬ Served process.heap classI) (hasserts : build.asserts = true)
      (hsmall : doubledSize process.heap < kMaxClassSize) :
      AllocResult build answers process classI (.error .aborted) process.double
  | stopped (stop : Stop) (final : Process) (hserved : ¬ Served process.heap classI)
      (hraw : RawResult answers process.double (doubledSize process.heap) (.error stop) final)
      (hassert : ¬ (build.asserts = true ∧ doubledSize process.heap < kMaxClassSize)) :
      AllocResult build answers process classI (.error stop) final
  | outOfMemory (hserved : ¬ Served process.heap classI)
      (h : verdict answers.trips = .outOfMemory)
      (hassert : ¬ (build.asserts = true ∧ doubledSize process.heap < kMaxClassSize)) :
      AllocResult build answers process classI (.ok ⟨0, 0⟩)
        (process.double.setPrevAllocationSize (doubledSize process.heap / 2))
  | reserved (draw id : ℕ) (middle : Process) (buffer : Buffer) (rest : List Buffer)
      (hserved : ¬ Served process.heap classI) (h : verdict answers.trips = .granted draw id)
      (husable : answers.Usable) (hlarge : kMaxClassSize ≤ doubledSize process.heap)
      (hrun : SplitRun classI
        (process.double.reserve answers draw id (doubledSize process.heap)) middle)
      (hback : middle.heap.freelist classI = buffer :: rest) :
      AllocResult build answers process classI (.ok buffer) (middle.takeBack classI buffer rest)
  | undefined (draw id : ℕ) (final : Process) (hserved : ¬ Served process.heap classI)
      (h : verdict answers.trips = .granted draw id) (husable : answers.Usable)
      (hasserts : build.asserts = false) (hsmall : doubledSize process.heap < kMaxClassSize) :
      AllocResult build answers process classI (.error .undefined) final

/-- Splitting down from a class with free Buffers and taking one. -/
theorem allocFromLarger_ensures (build : Build) {process : Process}
    (htagged : Tagged process.heap) (classI larger : Fin kNumClasses) (hle : classI ≤ larger)
    (hsource : process.heap.freelist larger ≠ [])
    (hempty : ∀ other : Fin kNumClasses, classI ≤ other → other < larger →
      process.heap.freelist other = []) :
    (allocFromLarger build classI larger).Ensures process fun result final ↦
      ∃ middle buffer rest, SplitRun classI process middle ∧
        middle.heap.freelist classI = buffer :: rest ∧ result = .ok buffer ∧
        final = middle.takeBack classI buffer rest := by
  have hsum : classI.val + (larger.val - classI.val) = larger.val := by
    have := Fin.le_def.mp hle
    omega
  simp only [allocFromLarger, Call.ensures_bind, Call.ensures_check]
  rw [if_neg (fun h ↦ h.2 larger.isLt)]
  have hdown := splitDown_ensures build classI (larger - classI) htagged (by omega)
    (by simpa only [hsum] using hsource)
    (fun other hlow hhigh ↦ hempty other hlow (Fin.lt_def.mpr (by omega)))
  refine hdown.mono fun result middle hmiddle ↦ ?_
  obtain ⟨rfl, hrun, hreached⟩ := hmiddle
  obtain ⟨buffer, rest, hback⟩ := List.exists_cons_of_ne_nil hreached
  simp only [ensures_freelistAt]
  rw [if_neg (fun h ↦ h.2 hreached)]
  refine (allocFromClass_ensures build (hrun.tagged htagged) classI buffer rest hback).mono
    fun result final hfinal ↦ ?_
  exact ⟨middle, buffer, rest, hrun, hback, hfinal.1, hfinal.2⟩

/-- Without assertions, splitting down from an empty class reads the back of an empty vector. -/
theorem allocFromLarger_undefined {build : Build} (hasserts : build.asserts = false)
    {process : Process} (classI larger : Fin kNumClasses) (hle : classI ≤ larger)
    (hsource : process.heap.freelist larger = []) :
    (allocFromLarger build classI larger).Ensures process fun result _ ↦
      result = .error .undefined := by
  simp only [allocFromLarger, Call.ensures_bind, Call.ensures_check, hasserts, Bool.false_eq_true,
    false_and, if_false]
  rcases hle.eq_or_lt with rfl | hlt
  · simp only [Nat.sub_self, splitDown, Call.ensures_pure, ensures_freelistAt, allocFromClass,
      Call.ensures_bind, Call.ensures_check, hasserts, Bool.false_eq_true, false_and, if_false,
      hsource, Call.ensures_throw]
  · obtain ⟨rounds, hrounds⟩ : ∃ rounds, larger.val = classI.val + rounds + 1 :=
      ⟨larger.val - classI.val - 1, by have := Fin.lt_def.mp hlt; omega⟩
    have hread := ensures_freelistAt larger
    have hbelow := ensures_freelistAt ⟨classI + rounds, by omega⟩
    rw [hrounds] at hread ⊢
    rw [show classI.val + rounds + 1 - classI.val = rounds + 1 by omega]
    simp only [splitDown, split, Call.ensures_bind, Call.ensures_check, hasserts,
      Bool.false_eq_true, false_and, if_false, hread, hbelow, Nat.add_sub_cancel, hsource,
      Call.ensures_throw]

theorem mem_pushSlices {buf count : ℕ} {buffers : List Buffer} {buffer : Buffer} :
    buffer ∈ pushSlices buf count buffers ↔
      (∃ i < count, buffer = ⟨buf + i * kMaxClassSize, kMaxClassSize⟩) ∨ buffer ∈ buffers := by
  induction count with
  | zero => simp [pushSlices]
  | succ count ih =>
    simp only [pushSlices, List.mem_cons, ih, Nat.lt_succ_iff_lt_or_eq, or_and_right, exists_or,
      exists_eq_left]
    rw [← or_assoc, or_comm (a := buffer = _)]

theorem Tagged.reserve {process : Process} (h : Tagged process.heap) (answers : Answers)
    (draw id size : ℕ) : Tagged (process.reserve answers draw id size).heap := by
  have hmapped : Tagged
      (process.mapRegion answers draw id (roundUp kHugepageSize size)).heap := h
  refine hmapped.setFreelist fun buffer hbuffer ↦ ?_
  rcases mem_pushSlices.mp hbuffer with ⟨i, _, rfl⟩ | hold
  · exact classMaxSize_last.symm
  · exact h lastClass buffer hold

theorem reserve_freelist (process : Process) (answers : Answers) (draw id size : ℕ)
    (classI : Fin kNumClasses) :
    (process.reserve answers draw id size).heap.freelist classI =
      if classI = lastClass then pushSlices answers.shmat.pointer (size / kMaxClassSize)
        (process.heap.freelist lastClass) else process.heap.freelist classI :=
  setFreelist_freelist _ _ _ _

theorem pushSlices_ne_nil {buf count : ℕ} (h : 1 ≤ count) (buffers : List Buffer) :
    pushSlices buf count buffers ≠ [] := by
  obtain ⟨count, rfl⟩ := Nat.exists_eq_add_of_le' h
  exact List.cons_ne_nil _ _

theorem le_lastClass (classI : Fin kNumClasses) : classI ≤ lastClass :=
  Fin.le_def.mpr (Nat.le_sub_one_of_lt classI.isLt)

theorem allocFromReservation_ensures (build : Build) (answers : Answers) {process : Process}
    (htagged : Tagged process.heap) (classI : Fin kNumClasses)
    (hserved : ¬ Served process.heap classI) :
    (allocFromReservation build answers classI).Ensures process
      (AllocResult build answers process classI) := by
  have hempty (other : Fin kNumClasses) (hother : classI ≤ other) :
      process.heap.freelist other = [] := by
    by_contra hne
    exact hserved ⟨other, hother, hne⟩
  simp only [allocFromReservation, Call.ensures_bind, Call.ensures_modify, Call.ensures_get]
  refine (reserveHugepages_ensures build answers (doubledSize process.heap) process.double).mono
    fun result final hreserve ↦ ?_
  cases hreserve with
  | aborted hasserts hsmall => exact .aborted hserved hasserts hsmall
  | stopped stop final hraw hassert => exact .stopped stop final hserved hraw hassert
  | outOfMemory h hassert =>
    simp only [Bool.false_eq_true, if_false, Call.ensures_bind, Call.ensures_modify,
      Call.ensures_pure]
    exact .outOfMemory hserved h hassert
  | reserved draw id h husable hassert =>
    simp only [if_true]
    by_cases hlarge : kMaxClassSize ≤ doubledSize process.heap
    · have hcount : 1 ≤ doubledSize process.heap / kMaxClassSize :=
        (Nat.one_le_div_iff (by decide)).mpr hlarge
      have htagged' : Tagged process.double.heap := htagged
      refine (allocFromLarger_ensures build (htagged'.reserve answers draw id _) classI lastClass
        (le_lastClass classI) ?_ ?_).mono fun result final hfinal ↦ ?_
      · rw [reserve_freelist, if_pos rfl]
        exact pushSlices_ne_nil hcount _
      · intro other hlow hhigh
        rw [reserve_freelist, if_neg hhigh.ne]
        exact hempty other hlow
      · obtain ⟨middle, buffer, rest, hrun, hback, rfl, rfl⟩ := hfinal
        exact .reserved draw id middle buffer rest hserved h husable hlarge hrun hback
    · have hsmall := not_le.mp hlarge
      have hasserts : build.asserts = false := by
        by_contra hne
        exact hassert ⟨by simpa using hne, hsmall⟩
      refine (allocFromLarger_undefined hasserts classI lastClass (le_lastClass classI) ?_).mono
        fun result final hfinal ↦ ?_
      · rw [reserve_freelist, if_pos rfl, Nat.div_eq_of_lt hsmall]
        exact hempty lastClass (le_lastClass classI)
      · rw [hfinal]
        exact .undefined draw id final hserved h husable hasserts hsmall

section Search

variable {build : Build} {answers : Answers} {process : Process} {size : ℕ}
  {classI : Fin kNumClasses} {post : Except Stop Buffer → Process → Prop}

/-- `alloc` takes from the class of the size, and looks for a larger class if that one is empty. -/
theorem alloc_ensures_of_class (hpos : 1 ≤ size) (hsize : size ≤ kMaxClassSize)
    (hclass : classIndex build size = classI)
    (hself : process.heap.freelist classI ≠ [] →
      (allocFromClass build classI).Ensures process post)
    (hsearch : process.heap.freelist classI = [] →
      if findClass process.heap.freelist kNumClasses (classI.val + 1) = kNumClasses then
        (allocFromReservation build answers classI).Ensures process post
      else (allocFromLarger build classI
        (findClass process.heap.freelist kNumClasses (classI.val + 1))).Ensures process post) :
    (alloc build answers size).Ensures process post := by
  simp only [alloc, Call.ensures_bind, Call.ensures_check]
  rw [if_neg (fun h ↦ h.2 hsize)]
  refine (getClass_ensures build hpos hsize process).mono fun result middle hmiddle ↦ ?_
  obtain ⟨rfl, rfl⟩ := hmiddle
  simp only [hclass, ensures_freelistAt]
  rw [if_neg (fun h ↦ h.2 classI.isLt)]
  by_cases hsource : middle.heap.freelist classI = []
  · rw [if_neg (not_not.mpr hsource)]
    simp only [Call.ensures_bind, Call.ensures_get]
    specialize hsearch hsource
    split at hsearch
    · next hnone =>
      rw [if_pos hnone]
      exact hsearch
    · next hfound =>
      rw [if_neg hfound]
      exact hsearch
  · rw [if_pos hsource]
    exact hself hsource

/-- Where a class can serve the call, `alloc` splits down from the first such class. -/
theorem alloc_ensures_of_isLeast (hpos : 1 ≤ size) (hsize : size ≤ kMaxClassSize)
    (hclass : classIndex build size = classI) {larger : Fin kNumClasses}
    (hleast : IsLeast {other | classI ≤ other ∧ process.heap.freelist other ≠ []} larger)
    (hlarger : (allocFromLarger build classI larger).Ensures process post) :
    (alloc build answers size).Ensures process post := by
  apply alloc_ensures_of_class hpos hsize hclass
  case hself =>
    intro hsource
    have hself : larger = classI := le_antisymm (hleast.2 ⟨le_rfl, hsource⟩) hleast.1.1
    rw [hself] at hlarger
    simp only [allocFromLarger, Nat.sub_self, splitDown, Call.ensures_bind, Call.ensures_check,
      Call.ensures_pure, ensures_freelistAt] at hlarger
    rw [if_neg (fun h ↦ h.2 classI.isLt), if_neg (fun h ↦ h.2 hsource)] at hlarger
    exact hlarger
  case hsearch =>
    intro hsource
    obtain ⟨hlow, hhigh, hempty, hfound⟩ := findClass_spec process.heap.freelist kNumClasses
      (classI.val + 1) classI.isLt (by omega)
    have hne : classI ≠ larger := fun h ↦ hleast.1.2 (h ▸ hsource)
    have hlt : classI.val + 1 ≤ larger := lt_of_le_of_ne hleast.1.1 hne
    -- the search neither passes the first class that can serve nor stops before it
    have hle : findClass process.heap.freelist kNumClasses (classI.val + 1) ≤ larger := by
      by_contra hpast
      exact hleast.1.2 (hempty larger hlt (not_le.mp hpast))
    have hfound : findClass process.heap.freelist kNumClasses (classI.val + 1) = larger := by
      have hlt := hle.trans_lt larger.isLt
      have hmem : classI ≤ ⟨_, hlt⟩ ∧ process.heap.freelist ⟨_, hlt⟩ ≠ [] :=
        ⟨Nat.le_of_succ_le hlow, hfound hlt⟩
      exact le_antisymm hle (hleast.2 hmem)
    rw [hfound, if_neg larger.isLt.ne]
    exact hlarger

/-- Where no class can serve the call, `alloc` reserves more hugepages. -/
theorem alloc_ensures_of_not_served (hpos : 1 ≤ size) (hsize : size ≤ kMaxClassSize)
    (hclass : classIndex build size = classI) (hserved : ¬ Served process.heap classI)
    (hreserve : (allocFromReservation build answers classI).Ensures process post) :
    (alloc build answers size).Ensures process post := by
  apply alloc_ensures_of_class hpos hsize hclass
  case hself =>
    intro hsource
    exact absurd ⟨classI, le_rfl, hsource⟩ hserved
  case hsearch =>
    intro _
    obtain ⟨hlow, hhigh, -, hfound⟩ := findClass_spec process.heap.freelist kNumClasses
      (classI.val + 1) classI.isLt (by omega)
    have hnone : findClass process.heap.freelist kNumClasses (classI.val + 1) = kNumClasses := by
      by_contra hne
      have hlt := lt_of_le_of_ne hhigh hne
      exact hserved ⟨⟨_, hlt⟩, Nat.le_of_succ_le hlow, hfound hlt⟩
    rw [if_pos hnone]
    exact hreserve

/-- The first class that can serve the call. -/
theorem Served.exists_isLeast {heap : HugeAlloc} (h : Served heap classI) :
    ∃ larger, IsLeast {other | classI ≤ other ∧ heap.freelist other ≠ []} larger := by
  obtain ⟨larger, hminimal⟩ := Set.Finite.exists_minimal (Set.toFinite _) h
  exact ⟨larger, minimal_iff_isLeast.mp hminimal⟩

end Search

/-- `alloc` ends in one of the listed ways. -/
theorem alloc_ensures {build : Build} (answers : Answers) {process : Process}
    (htagged : Tagged process.heap) {size : ℕ} (hpos : 1 ≤ size) (hsize : size ≤ kMaxClassSize)
    (classI : Fin kNumClasses) (hclass : classIndex build size = classI) :
    (alloc build answers size).Ensures process (AllocResult build answers process classI) := by
  by_cases hserved : Served process.heap classI
  · obtain ⟨larger, hleast⟩ := hserved.exists_isLeast
    apply alloc_ensures_of_isLeast hpos hsize hclass hleast
    have hempty (other : Fin kNumClasses) (hlow : classI ≤ other) (hlt : other < larger) :
        process.heap.freelist other = [] := by
      by_contra hne
      exact hlt.not_ge (hleast.2 ⟨hlow, hne⟩)
    refine (allocFromLarger_ensures build htagged classI larger hleast.1.1 hleast.1.2
      hempty).mono fun result final hfinal ↦ ?_
    obtain ⟨split, buffer, rest, hrun, hback, rfl, rfl⟩ := hfinal
    exact .served split buffer rest hserved hrun hback
  · exact alloc_ensures_of_not_served hpos hsize hclass hserved
      (allocFromReservation_ensures build answers htagged classI hserved)

/-- A class index outside the array ends the program. -/
theorem alloc_ensures_outside {build : Build} (answers : Answers) (process : Process) {size : ℕ}
    (hpos : 1 ≤ size) (hsize : size ≤ kMaxClassSize)
    (hclass : kNumClasses ≤ classIndex build size) :
    (alloc build answers size).Ensures process fun result _ ↦
      result = .error .aborted ∨ result = .error .undefined := by
  simp only [alloc, Call.ensures_bind, Call.ensures_check]
  rw [if_neg (fun h ↦ h.2 hsize)]
  refine (getClass_ensures build hpos hsize process).mono fun result middle hmiddle ↦ ?_
  obtain ⟨rfl, rfl⟩ := hmiddle
  simp only [freelistAt, Call.ensures_bind, Call.ensures_get, dif_neg (not_lt.mpr hclass),
    Call.ensures_throw]
  split
  · exact .inl trivial
  · exact .inr trivial

/-! ## Deallocation -/

/-- The process once a Buffer has been put back. -/
def Process.putBack (process : Process) (classI : Fin kNumClasses) (buffer : Buffer) : Process :=
  (process.setFreelist classI (buffer :: process.heap.freelist classI)).addUserAllocTot
    (2 ^ 64 - buffer.classSize)

/-- A Buffer whose class is found goes back to the freelist of that class. -/
theorem freeBuf_ensures {build : Build} (process : Process) {buffer : Buffer}
    (hbuf : buffer.buf ≠ 0) (classI : Fin kNumClasses)
    (hclass : buffer.classSize = classMaxSize classI)
    (hindex : classIndex build buffer.classSize = classI) :
    (freeBuf build buffer).Ensures process fun result final ↦
      result = .ok () ∧ final = process.putBack classI buffer := by
  have hpos : 1 ≤ buffer.classSize := by
    rw [hclass]
    exact classMaxSize_pos _
  have hsize : buffer.classSize ≤ kMaxClassSize := by
    rw [hclass]
    exact classMaxSize_le classI.isLt
  simp only [freeBuf, Call.ensures_bind, Call.ensures_check]
  rw [if_neg (fun h ↦ h.2 hbuf)]
  refine (getClass_ensures build hpos hsize process).mono fun result middle hmiddle ↦ ?_
  obtain ⟨rfl, rfl⟩ := hmiddle
  simp only [hindex, ensures_freelistAt, ensures_setFreelistAt, Call.ensures_modify]
  rw [if_neg (fun h ↦ h.2 hclass.symm)]
  exact ⟨trivial, rfl⟩

end Systemish.HugeAlloc
