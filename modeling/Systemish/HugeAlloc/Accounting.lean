import Systemish.HugeAlloc.Runs

/-!
# Accounting

The two counters of the allocator against the memory itself. A split keeps the
sum of class sizes, `alloc` and `free_buf` move a class size between the freelists
and the counter, and a reservation adds the slices that it was cut into. The
counters are `size_t` values, so they are right modulo `2 ^ 64` in every run and
right as numbers while less than `2 ^ 64` bytes are reserved.
-/

namespace Systemish.HugeAlloc

open Foundation

/-- The sum of the class sizes of some Buffers. -/
def classTotal (buffers : List Buffer) : ℕ := (buffers.map Buffer.classSize).sum

/-- The sum of the sizes of some regions. -/
def regionTotal (regions : List ShmRegion) : ℕ := (regions.map ShmRegion.size).sum

/-- The bytes that reservations of these sizes put into the freelists. -/
def slicedTotal (sizes : List ℕ) : ℕ :=
  (sizes.map fun size ↦ size / kMaxClassSize * kMaxClassSize).sum

theorem classTotal_perm {buffers buffers' : List Buffer} (h : buffers.Perm buffers') :
    classTotal buffers = classTotal buffers' := (h.map _).sum_nat

@[simp]
theorem classTotal_cons (buffer : Buffer) (buffers : List Buffer) :
    classTotal (buffer :: buffers) = buffer.classSize + classTotal buffers := List.sum_cons

@[simp]
theorem classTotal_append (buffers buffers' : List Buffer) :
    classTotal (buffers ++ buffers') = classTotal buffers + classTotal buffers' := by
  simp [classTotal]

theorem classTotal_pushSlices (buf count : ℕ) :
    classTotal (pushSlices buf count []) = count * kMaxClassSize := by
  induction count with
  | zero => simp [pushSlices, classTotal]
  | succ count ih => rw [pushSlices, classTotal_cons, ih, Nat.succ_mul, Nat.add_comm]

theorem le_classTotal {buffer : Buffer} {buffers : List Buffer} (h : buffer ∈ buffers) :
    buffer.classSize ≤ classTotal buffers := by
  rw [classTotal_perm (List.perm_cons_erase h), classTotal_cons]
  exact Nat.le_add_right _ _

theorem regionTotal_append_singleton (regions : List ShmRegion) (region : ShmRegion) :
    regionTotal (regions ++ [region]) = regionTotal regions + region.size := by
  simp [regionTotal]

/-! ## The invariant -/

/-- The counters and the memory agree. -/
structure Balanced (world : World) : Prop where
  user : world.process.heap.userAllocTot = classTotal world.live % 2 ^ 64
  shm : world.process.heap.shmReserved = regionTotal world.process.heap.shmList % 2 ^ 64
  conserved : classTotal world.buffers = slicedTotal world.process.reservations
  backed : slicedTotal world.process.reservations ≤ regionTotal world.process.heap.shmList
  pages : ∀ region ∈ world.process.heap.shmList, kHugepageSize ∣ region.size

theorem Balanced.start (initialSize : ℕ) (kernel : Kernel) :
    Balanced (World.start initialSize kernel) where
  user := rfl
  shm := rfl
  conserved := by rw [World.start_buffers]; rfl
  backed := le_rfl
  pages _ hregion := absurd hregion List.not_mem_nil

/-- What a region of whole hugepages changes, given that the reservations stay backed. -/
theorem Balanced.addRegion {world : World} (h : Balanced world) (answers : Answers)
    (draw id size sliced : ℕ) (hsliced : sliced ≤ roundUp kHugepageSize size)
    {mapped : Process} (hmapped : mapped = world.process.mapRegion answers draw id
      (roundUp kHugepageSize size)) :
    mapped.heap.shmReserved = regionTotal mapped.heap.shmList % 2 ^ 64 ∧
      sliced + slicedTotal world.process.reservations ≤ regionTotal mapped.heap.shmList ∧
      ∀ region ∈ mapped.heap.shmList, kHugepageSize ∣ region.size := by
  have hlist : mapped.heap.shmList = world.process.heap.shmList ++
      [⟨chooseKey draw, answers.shmat.pointer, roundUp kHugepageSize size⟩] := by
    rw [hmapped]
    rfl
  have hreserved : mapped.heap.shmReserved =
      (world.process.heap.shmReserved + roundUp kHugepageSize size) % 2 ^ 64 := by
    rw [hmapped]
    rfl
  rw [hlist, hreserved, regionTotal_append_singleton, h.shm, Nat.mod_add_mod]
  refine ⟨rfl, ?_, fun region hregion ↦ ?_⟩
  · rw [Nat.add_comm]
    exact Nat.add_le_add h.backed hsliced
  · rcases List.mem_append.mp hregion with hold | hnew
    · exact h.pages region hold
    · rw [List.mem_singleton.mp hnew]
      exact kHugepageSize_dvd_roundUp size

theorem Balanced.arrival {build : Build} {world after : World} {op : Op} (h : Balanced world)
    (hlaw : NonemptyLaw build world op) (harrival : Arrival build world op after) :
    Balanced after := by
  cases harrival with
  | nothing => exact h
  | lost | foreign => exact ⟨h.user, h.shm, h.conserved, h.backed, h.pages⟩
  | @reserved _ size answers draw id hrequest hsize hverdict husable =>
    have hpos := hlaw size answers draw id hrequest hverdict
    have hfit : size / kMaxClassSize * kMaxClassSize ≤ roundUp kHugepageSize size :=
      (Nat.div_mul_le_self _ _).trans (le_roundUp hsize hpos.ne')
    obtain ⟨hshm, hbacked, hpages⟩ := h.addRegion answers draw id size _ hfit rfl
    refine ⟨h.user, hshm, ?_, hbacked, hpages⟩
    have hitems := classTotal_perm ((reserve_items world.process answers draw id size).append_right
      world.live)
    rw [List.append_assoc, classTotal_append (pushSlices _ _ _), classTotal_pushSlices] at hitems
    exact hitems.trans (congrArg (_ + ·) h.conserved)
  | @raw _ size answers draw id hrequest hverdict husable =>
    obtain ⟨hshm, hbacked, hpages⟩ := h.addRegion answers draw id size 0 (Nat.zero_le _) rfl
    rw [Nat.zero_add] at hbacked
    exact ⟨h.user, hshm, h.conserved, hbacked, hpages⟩

theorem Balanced.shuffle {build : Build} {world after : World} (hclassed : Classed build world)
    (h : Balanced world) (hshuffle : Shuffle build world after) : Balanced after := by
  cases hshuffle with
  | setPrev => exact ⟨h.user, h.shm, h.conserved, h.backed, h.pages⟩
  | split classI _ hclass buffer rest hsource htarget =>
    obtain ⟨others, hbefore, hafter⟩ := splitBack_items classI hclass hsource htarget
    refine ⟨h.user, h.shm, ?_, h.backed, h.pages⟩
    have hwhole : buffer.classSize = 2 * classMaxSize classI :=
      (hclassed.tagged.head hsource).trans (classMaxSize_succ classI)
    have htotal := classTotal_perm (hbefore.append_right world.live)
    have htotal' := classTotal_perm (hafter.append_right world.live)
    simp only [List.cons_append, classTotal_cons] at htotal htotal'
    have hsame :
        classTotal (world.process.splitBack classI hclass buffer rest).heap.freelist.items +
          classTotal world.live = classTotal world.process.heap.freelist.items +
          classTotal world.live := by
      rw [← classTotal_append, ← classTotal_append, htotal, htotal']
      omega
    rw [World.buffers, classTotal_append]
    exact hsame.trans ((classTotal_append _ _).symm.trans h.conserved)
  | take classI buffer rest hback =>
    refine ⟨?_, h.shm, ?_, h.backed, h.pages⟩
    · show (world.process.heap.userAllocTot + buffer.classSize) % 2 ^ 64 = _
      rw [h.user, Nat.mod_add_mod, classTotal_cons, Nat.add_comm]
    · rw [← classTotal_perm (take_buffers hback)]
      exact h.conserved
  | put buffer hlive classI hclass =>
    refine ⟨?_, h.shm, ?_, h.backed, h.pages⟩
    · show (world.process.heap.userAllocTot + (2 ^ 64 - buffer.classSize)) % 2 ^ 64 =
        classTotal (world.live.erase buffer) % 2 ^ 64
      have hsize : buffer.classSize ≤ 2 ^ 64 := by
        rw [hclass]
        exact (classMaxSize_le classI.isLt).trans (by decide)
      have htotal := classTotal_perm (List.perm_cons_erase hlive)
      rw [classTotal_cons] at htotal
      rw [h.user, Nat.mod_add_mod, htotal]
      omega
    · rw [← classTotal_perm (put_buffers classI hlive)]
      exact h.conserved

theorem balanced_of_run {build : Build} {initialSize : ℕ} {kernel : Kernel}
    {history : List (World × Op)} {world : World}
    (hrun : Run (World.step build) (NonemptyLaw build) (World.start initialSize kernel) history
      world) :
    Balanced world :=
  invariant_of_moves Balanced (.start initialSize kernel)
    (fun _ _ _ _ h hlaw harrival ↦ h.arrival hlaw harrival)
    (fun _ _ hclassed h hshuffle ↦ h.shuffle hclassed hshuffle) hrun

/-! ## While less than `2 ^ 64` bytes are reserved -/

theorem kMinClassSize_dvd_classTotal {build : Build} {buffers : List Buffer}
    (h : ∀ buffer ∈ buffers, Returnable build buffer) : kMinClassSize ∣ classTotal buffers := by
  induction buffers with
  | nil => exact Nat.dvd_zero _
  | cons buffer buffers ih =>
    obtain ⟨⟨_, classI, hclass, _⟩, hrest⟩ := List.forall_mem_cons.mp h
    rw [classTotal_cons, hclass]
    exact Nat.dvd_add (kMinClassSize_dvd_classMaxSize classI) (ih hrest)

theorem kHugepageSize_dvd_regionTotal {regions : List ShmRegion}
    (h : ∀ region ∈ regions, kHugepageSize ∣ region.size) : kHugepageSize ∣ regionTotal regions :=
  List.dvd_sum fun size hsize ↦ by
    obtain ⟨region, hregion, rfl⟩ := List.mem_map.mp hsize
    exact h region hregion

theorem Balanced.userAllocTot_eq {world : World} (h : Balanced world)
    (hreserved : regionTotal world.process.heap.shmList < 2 ^ 64) :
    world.process.heap.userAllocTot = classTotal world.live := by
  have hlive : classTotal world.live ≤ classTotal world.buffers := by
    rw [World.buffers, classTotal_append]
    exact Nat.le_add_left _ _
  have hconserved := h.conserved
  have hbacked := h.backed
  rw [h.user, Nat.mod_eq_of_lt (by omega)]

theorem getStatShmReserved_eval (build : Build) {process : Process}
    (h : process.heap.shmReserved % kHugepageSize = 0) :
    (getStatShmReserved build).eval process = (.ok process.heap.shmReserved, process) := by
  have hrun : (getStatShmReserved build).Ensures process
      fun result final ↦ result = .ok process.heap.shmReserved ∧ final = process := by
    simp only [getStatShmReserved, Call.ensures_bind, Call.ensures_get, Call.ensures_check,
      Call.ensures_pure]
    rw [if_neg fun hcheck ↦ hcheck.2 h]
    exact ⟨trivial, trivial⟩
  exact Prod.ext hrun.1 hrun.2

theorem getStatUserAllocTot_eval (build : Build) {process : Process}
    (h : process.heap.userAllocTot % kMinClassSize = 0) :
    (getStatUserAllocTot build).eval process = (.ok process.heap.userAllocTot, process) := by
  have hrun : (getStatUserAllocTot build).Ensures process
      fun result final ↦ result = .ok process.heap.userAllocTot ∧ final = process := by
    simp only [getStatUserAllocTot, Call.ensures_bind, Call.ensures_get, Call.ensures_check,
      Call.ensures_pure]
    rw [if_neg fun hcheck ↦ hcheck.2 h]
    exact ⟨trivial, trivial⟩
  exact Prod.ext hrun.1 hrun.2

/-- In every reachable state with less than `2 ^ 64` reserved bytes the counters are exact, no
class memory is lost or duplicated, freeing a Buffer does not wrap, and both getters return. -/
theorem counters_exact_of_run (build : Build) (initialSize : ℕ) (kernel : Kernel)
    {history : List (World × Op)} {world : World}
    (hrun : Run (World.step build) (NonemptyLaw build) (World.start initialSize kernel) history
      world)
    (hreserved : regionTotal world.process.heap.shmList < 2 ^ 64) :
    world.process.heap.userAllocTot = classTotal world.live ∧
      world.process.heap.shmReserved = regionTotal world.process.heap.shmList ∧
      classTotal world.process.heap.freelist.items + world.process.heap.userAllocTot =
        slicedTotal world.process.reservations ∧
      (∀ buffer ∈ world.live, buffer.classSize ≤ world.process.heap.userAllocTot ∧
        ((freeBuf build buffer).eval world.process).2.heap.userAllocTot =
          world.process.heap.userAllocTot - buffer.classSize) ∧
      (getStatShmReserved build).eval world.process =
        (.ok world.process.heap.shmReserved, world.process) ∧
      (getStatUserAllocTot build).eval world.process =
        (.ok world.process.heap.userAllocTot, world.process) := by
  have hbalanced := balanced_of_run hrun
  have hclassed := classed_of_run hrun
  have huser := hbalanced.userAllocTot_eq hreserved
  have hshm : world.process.heap.shmReserved = regionTotal world.process.heap.shmList := by
    rw [hbalanced.shm, Nat.mod_eq_of_lt hreserved]
  refine ⟨huser, hshm, ?_, fun buffer hlive ↦ ?_, ?_, ?_⟩
  · rw [huser, ← classTotal_append]
    exact hbalanced.conserved
  · have hle : buffer.classSize ≤ world.process.heap.userAllocTot := by
      rw [huser]
      exact le_classTotal hlive
    have hlt : world.process.heap.userAllocTot < 2 ^ 64 := by
      rw [hbalanced.user]
      exact Nat.mod_lt _ (by decide)
    refine ⟨hle, ?_⟩
    obtain ⟨hbuf, classI, hclass, hindex⟩ :=
      hclassed.returnable buffer (List.mem_append_right _ hlive)
    rw [(Call.ensures_iff.mp (freeBuf_ensures world.process hbuf classI hclass hindex)).2]
    show (world.process.heap.userAllocTot + (2 ^ 64 - buffer.classSize)) % 2 ^ 64 = _
    omega
  · refine getStatShmReserved_eval build (Nat.mod_eq_zero_of_dvd ?_)
    rw [hshm]
    exact kHugepageSize_dvd_regionTotal hbalanced.pages
  · refine getStatUserAllocTot_eval build (Nat.mod_eq_zero_of_dvd ?_)
    rw [huser]
    exact kMinClassSize_dvd_classTotal fun buffer hlive ↦
      hclassed.returnable buffer (List.mem_append_right _ hlive)

/-- After the first allocation of 100 bytes the counters are exact. -/
theorem counters_exact_after_alloc : ∃ history world,
    Run (World.step ⟨true, 0⟩) (NonemptyLaw ⟨true, 0⟩) (World.start 0 ⟨[], []⟩) history world ∧
      classTotal world.live = 128 ∧
      world.process.heap.userAllocTot = classTotal world.live := by
  have hstep : ((World.start 0 ⟨[], []⟩).step ⟨true, 0⟩ (.alloc 100 (.grant 7 1 (2 ^ 30)))).map
      (fun world ↦ (classTotal world.live, regionTotal world.process.heap.shmList)) =
        some (128, 2 ^ 24) := by decide +kernel
  obtain ⟨world, hstep, htotals⟩ := Option.map_eq_some_iff.mp hstep
  rw [Prod.mk.injEq] at htotals
  have hlaw : NonemptyLaw ⟨true, 0⟩ (World.start 0 ⟨[], []⟩)
      (.alloc 100 (.grant 7 1 (2 ^ 30))) := by
    intro size answers _ _ hrequest _
    rw [(World.request_alloc_eq hrequest).1]
    decide
  have hrun := Run.next .start hlaw hstep
  have hreserved : regionTotal world.process.heap.shmList < 2 ^ 64 := by
    rw [htotals.2]
    decide
  exact ⟨_, world, hrun, htotals.1,
    (counters_exact_of_run ⟨true, 0⟩ 0 ⟨[], []⟩ hrun hreserved).1⟩

end Systemish.HugeAlloc
