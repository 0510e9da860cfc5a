import Systemish.Foundation.Run
import Systemish.HugeAlloc.Steps

/-!
# Runs of an allocator

A `World` is the process together with what its user holds. The user may call
`alloc` and `alloc_raw` and may free a Buffer that it holds; other processes may
create shared-memory segments. An exception that a call throws is caught and the
run goes on in the state that the call left. A run ends where a call aborts,
exits, waits for ever or has undefined behaviour.
-/

namespace Systemish.HugeAlloc

open Foundation

/-- The process, the Buffers that `alloc` returned and that have not been freed since, and the
address and size of the memory that `alloc_raw` returned. -/
structure World where
  process : Process
  live : List Buffer
  raw : List (ℕ × ℕ)

/-- One thing that happens in a run. -/
inductive Op where
  | alloc (size : ℕ) (answers : Answers)
  | allocRaw (size : ℕ) (answers : Answers)
  | freeBuf (buffer : Buffer)
  | foreign (segment : Segment)

namespace World

/-- The world of a new allocator. -/
def start (initialSize : ℕ) (kernel : Kernel) : World where
  process := ⟨construct initialSize, kernel, [], []⟩
  live := []
  raw := []

/-- Go on after a call, unless the call ended the program. -/
def resume {α : Type} (world : World) (onReturn : α → World → World) :
    Except Stop α × Process → Option World
  | (.ok value, process) => some (onReturn value { world with process })
  | (.error (.thrown _), process) => some { world with process }
  | (.error _, _) => none

/-- The user keeps a Buffer that is not null. -/
def hold (buffer : Buffer) (world : World) : World :=
  if buffer.buf = 0 then world else { world with live := buffer :: world.live }

/-- The user keeps `size` bytes of raw memory. -/
def holdRaw (size : ℕ) (buffer : Buffer) (world : World) : World :=
  if buffer.buf = 0 then world else { world with raw := (buffer.buf, size) :: world.raw }

/-- The user gives up a Buffer. -/
def drop (buffer : Buffer) (world : World) : World :=
  { world with live := world.live.erase buffer }

/-- One step of a run. -/
def step (build : Build) (world : World) : Op → Option World
  | .alloc size answers =>
    if 1 ≤ size ∧ size ≤ kMaxClassSize then
      world.resume hold ((alloc build answers size).eval world.process)
    else none
  | .allocRaw size answers =>
    if size < 2 ^ 64 then
      world.resume (holdRaw (roundUp kHugepageSize size))
        ((allocRaw build answers size).eval world.process)
    else none
  | .freeBuf buffer =>
    if buffer ∈ world.live then
      world.resume (fun _ ↦ drop buffer) ((freeBuf build buffer).eval world.process)
    else none
  | .foreign segment =>
    some { world with
      process := { world.process with kernel := world.process.kernel.create segment } }

end World

/-! ## What one step can do -/

instance (heap : HugeAlloc) (classI : Fin kNumClasses) : Decidable (Served heap classI) :=
  inferInstanceAs (Decidable (∃ _ : Fin kNumClasses, _ ∧ _))

/-- The size that an operation passes to `alloc_raw`, with the answers to its system calls. There
is none where the freelists serve the operation. -/
def World.request (build : Build) (world : World) : Op → Option (ℕ × Answers)
  | .alloc size answers =>
    if h : classIndex build size < kNumClasses then
      if Served world.process.heap ⟨classIndex build size, h⟩ then none
      else some (doubledSize world.process.heap, answers)
    else none
  | .allocRaw size answers => some (size, answers)
  | .freeBuf _ => none
  | .foreign _ => none

theorem World.request_alloc {build : Build} {world : World} {size : ℕ} (answers : Answers)
    (classI : Fin kNumClasses) (hclass : classIndex build size = classI)
    (hserved : ¬ Served world.process.heap classI) :
    world.request build (.alloc size answers) =
      some (doubledSize world.process.heap, answers) := by
  simp only [World.request, hclass, dif_pos classI.isLt, if_neg hserved]

theorem World.request_served {build : Build} {world : World} {size : ℕ} (answers : Answers)
    (classI : Fin kNumClasses) (hclass : classIndex build size = classI)
    (hserved : Served world.process.heap classI) :
    world.request build (.alloc size answers) = none := by
  simp only [World.request, hclass, dif_pos classI.isLt, if_pos hserved]

theorem World.request_alloc_eq {build : Build} {world : World} {size size' : ℕ}
    {answers answers' : Answers}
    (h : world.request build (.alloc size answers) = some (size', answers')) :
    size' = doubledSize world.process.heap ∧ answers' = answers := by
  simp only [World.request] at h
  split at h
  · split at h
    · cases h
    · cases h
      exact ⟨rfl, rfl⟩
  · cases h

/-- Assumption about the operating system: `shmget` of size zero fails. -/
def NonemptyLaw (build : Build) (world : World) (op : Op) : Prop :=
  ∀ size answers draw id, world.request build op = some (size, answers) →
    verdict answers.trips = .granted draw id → 0 < roundUp kHugepageSize size

/-- What comes from outside in one step: a segment of the allocator, with or without its region, or
a segment of another process. -/
inductive Arrival (build : Build) (world : World) : Op → World → Prop
  | nothing {op : Op} (hforeign : ∀ segment, op ≠ .foreign segment)
      (h : ∀ size answers draw id, world.request build op = some (size, answers) →
        verdict answers.trips ≠ .granted draw id) :
      Arrival build world op world
  | lost {op : Op} {size : ℕ} {answers : Answers} {draw id : ℕ}
      (hrequest : world.request build op = some (size, answers))
      (h : verdict answers.trips = .granted draw id) (husable : ¬ answers.Usable) :
      Arrival build world op { world with
        process := world.process.mapSegment answers draw id (roundUp kHugepageSize size) }
  | reserved {op : Op} {size : ℕ} {answers : Answers} {draw id : ℕ}
      (hrequest : world.request build op = some (size, answers)) (hsize : size < 2 ^ 64)
      (h : verdict answers.trips = .granted draw id) (husable : answers.Usable) :
      Arrival build world op { world with process := world.process.reserve answers draw id size }
  | raw {op : Op} {size : ℕ} {answers : Answers} {draw id : ℕ}
      (hrequest : world.request build op = some (size, answers))
      (h : verdict answers.trips = .granted draw id) (husable : answers.Usable) :
      Arrival build world op { world with
        process := world.process.mapRegion answers draw id (roundUp kHugepageSize size)
        raw := (answers.shmat.pointer, roundUp kHugepageSize size) :: world.raw }
  | foreign (segment : Segment) : Arrival build world (.foreign segment) { world with
      process := { world.process with kernel := world.process.kernel.create segment } }

/-- Nothing arrives where `shmget` grants nothing. -/
theorem Arrival.denied {build : Build} {world : World} {op : Op} {size : ℕ} {answers : Answers}
    (hrequest : world.request build op = some (size, answers))
    (h : ∀ draw id, verdict answers.trips ≠ .granted draw id) : Arrival build world op world := by
  refine .nothing (fun segment hop ↦ ?_) fun size' answers' draw id hrequest' ↦ ?_
  · rw [hop] at hrequest
    cases hrequest
  · rw [hrequest] at hrequest'
    cases hrequest'
    exact h draw id

/-- What happens inside the allocator: memory changes its form or its owner. -/
inductive Shuffle (build : Build) (world : World) : World → Prop
  | setPrev (size : ℕ) :
      Shuffle build world { world with process := world.process.setPrevAllocationSize size }
  | split (classI : ℕ) (hlow : classI ≠ 0 ∨ build.bsrlZero = 0) (h : classI + 1 < kNumClasses)
      (buffer : Buffer) (rest : List Buffer)
      (hsource : world.process.heap.freelist ⟨classI + 1, h⟩ = buffer :: rest)
      (htarget : world.process.heap.freelist ⟨classI, Nat.lt_of_succ_lt h⟩ = []) :
      Shuffle build world { world with process := world.process.splitBack classI h buffer rest }
  | take (classI : Fin kNumClasses) (buffer : Buffer) (rest : List Buffer)
      (hback : world.process.heap.freelist classI = buffer :: rest) :
      Shuffle build world { world with
        process := world.process.takeBack classI buffer rest
        live := buffer :: world.live }
  | put (buffer : Buffer) (hlive : buffer ∈ world.live) (classI : Fin kNumClasses)
      (hclass : buffer.classSize = classMaxSize classI) :
      Shuffle build world { world with
        process := world.process.putBack classI buffer
        live := world.live.erase buffer }

theorem SplitRun.shuffles {build : Build} {lowest : ℕ} (hlow : lowest ≠ 0 ∨ build.bsrlZero = 0)
    {process final : Process} (hrun : SplitRun lowest process final) (live : List Buffer)
    (raw : List (ℕ × ℕ)) :
    Relation.ReflTransGen (Shuffle build) ⟨process, live, raw⟩ ⟨final, live, raw⟩ := by
  induction hrun with
  | refl => exact .refl
  | step classI hle h buffer rest hsource htarget _ ih =>
    have hclass : classI ≠ 0 ∨ build.bsrlZero = 0 := hlow.imp_left fun hne ↦ by omega
    exact .head (.split classI hclass h buffer rest hsource htarget) ih

/-! ## The freelists as one list of Buffers -/

/-- A split exchanges one Buffer for its halves. -/
theorem splitBack_items {process : Process} (classI : ℕ) (h : classI + 1 < kNumClasses)
    {buffer : Buffer} {rest : List Buffer}
    (hsource : process.heap.freelist ⟨classI + 1, h⟩ = buffer :: rest)
    (htarget : process.heap.freelist ⟨classI, Nat.lt_of_succ_lt h⟩ = []) :
    ∃ others : List Buffer, process.heap.freelist.items.Perm (buffer :: others) ∧
      (process.splitBack classI h buffer rest).heap.freelist.items.Perm
        (⟨buffer.buf + buffer.classSize / 2, buffer.classSize / 2⟩ ::
          ⟨buffer.buf, buffer.classSize / 2⟩ :: others) := by
  refine ⟨_, Buckets.items_pop hsource, ?_⟩
  have hne : (⟨classI, by omega⟩ : Fin kNumClasses) ≠ ⟨classI + 1, h⟩ := by simp
  have hpush := Buckets.items_append (process.setFreelist ⟨classI + 1, h⟩ rest).heap.freelist
    ⟨classI, by omega⟩ [⟨buffer.buf + buffer.classSize / 2, buffer.classSize / 2⟩,
      ⟨buffer.buf, buffer.classSize / 2⟩]
  rw [setFreelist_freelist, if_neg hne, htarget, List.append_nil] at hpush
  exact hpush

theorem takeBack_items {process : Process} {classI : Fin kNumClasses} {buffer : Buffer}
    {rest : List Buffer} (hback : process.heap.freelist classI = buffer :: rest) :
    process.heap.freelist.items.Perm
      (buffer :: (process.takeBack classI buffer rest).heap.freelist.items) :=
  Buckets.items_pop hback

theorem putBack_items (process : Process) (classI : Fin kNumClasses) (buffer : Buffer) :
    (process.putBack classI buffer).heap.freelist.items.Perm
      (buffer :: process.heap.freelist.items) :=
  Buckets.items_push _ _ _

theorem pushSlices_eq_append (buf count : ℕ) (buffers : List Buffer) :
    pushSlices buf count buffers = pushSlices buf count [] ++ buffers := by
  induction count with
  | zero => rfl
  | succ count ih => rw [pushSlices, pushSlices, ih, List.cons_append]

/-- A reservation adds its slices. -/
theorem reserve_items (process : Process) (answers : Answers) (draw id size : ℕ) :
    (process.reserve answers draw id size).heap.freelist.items.Perm
      (pushSlices answers.shmat.pointer (size / kMaxClassSize) [] ++
        process.heap.freelist.items) := by
  have hpush := Buckets.items_append process.heap.freelist lastClass
    (pushSlices answers.shmat.pointer (size / kMaxClassSize) [])
  rw [← pushSlices_eq_append] at hpush
  exact hpush

/-! ## Buffers belong to a class -/

/-- The Buffer is not null, has the size of a class, and `get_class` finds that class. -/
def Returnable (build : Build) (buffer : Buffer) : Prop :=
  buffer.buf ≠ 0 ∧ ∃ classI : Fin kNumClasses,
    buffer.classSize = classMaxSize classI ∧ classIndex build buffer.classSize = classI

theorem Returnable.of_classSize {build : Build} {buffer : Buffer} (hbuf : buffer.buf ≠ 0)
    (classI : Fin kNumClasses) (hclass : buffer.classSize = classMaxSize classI)
    (hlow : classI.val ≠ 0 ∨ build.bsrlZero = 0) : Returnable build buffer := by
  refine ⟨hbuf, classI, hclass, ?_⟩
  rw [hclass]
  exact classIndex_classMaxSize classI.isLt hlow

/-- The Buffers of all freelists and of the user. -/
def World.buffers (world : World) : List Buffer := world.process.heap.freelist.items ++ world.live

/-- Freelists hold Buffers of their class, and every Buffer can be freed. -/
structure Classed (build : Build) (world : World) : Prop where
  tagged : Tagged world.process.heap
  returnable : ∀ buffer ∈ world.buffers, Returnable build buffer

theorem World.start_buffers (initialSize : ℕ) (kernel : Kernel) :
    (World.start initialSize kernel).buffers = [] := by
  simp [World.buffers, World.start, construct, Buckets.items]

theorem Classed.start (build : Build) (initialSize : ℕ) (kernel : Kernel) :
    Classed build (World.start initialSize kernel) where
  tagged _ _ hbuffer := absurd hbuffer List.not_mem_nil
  returnable := by simp [World.start_buffers]

theorem Classed.reserve {build : Build} {world : World} (h : Classed build world)
    {answers : Answers} (husable : answers.Usable) (draw id size : ℕ) :
    Classed build { world with process := world.process.reserve answers draw id size } := by
  refine ⟨h.tagged.reserve _ _ _ _, fun buffer hbuffer ↦ ?_⟩
  have hmem := ((reserve_items _ _ _ _ _).append_right _).mem_iff.mp hbuffer
  rw [List.append_assoc, List.mem_append] at hmem
  rcases hmem with hslice | hold
  · obtain ⟨i, _, rfl⟩ := (mem_pushSlices.mp hslice).resolve_right List.not_mem_nil
    have hbuf := Nat.add_pos_left (Nat.pos_of_ne_zero husable.1) (i * kMaxClassSize)
    exact .of_classSize hbuf.ne' lastClass classMaxSize_last.symm (.inl (by decide))
  · exact h.returnable buffer hold

theorem Classed.arrival {build : Build} {world after : World} {op : Op} (h : Classed build world)
    (harrival : Arrival build world op after) : Classed build after := by
  cases harrival with
  | nothing => exact h
  | lost | raw | foreign => exact ⟨h.tagged, h.returnable⟩
  | reserved _ _ _ husable => exact h.reserve husable _ _ _

/-- Taking a Buffer only changes its owner. -/
theorem take_buffers {world : World} {classI : Fin kNumClasses} {buffer : Buffer}
    {rest : List Buffer} (hback : world.process.heap.freelist classI = buffer :: rest) :
    world.buffers.Perm (World.buffers { world with
      process := world.process.takeBack classI buffer rest
      live := buffer :: world.live }) :=
  ((takeBack_items hback).append_right world.live).trans List.perm_middle.symm

/-- So does giving it back. -/
theorem put_buffers {world : World} (classI : Fin kNumClasses) {buffer : Buffer}
    (hlive : buffer ∈ world.live) :
    world.buffers.Perm (World.buffers { world with
      process := world.process.putBack classI buffer
      live := world.live.erase buffer }) := by
  have hitems := (putBack_items world.process classI buffer).append_right (world.live.erase buffer)
  have hlive := (List.perm_cons_erase hlive).append_left world.process.heap.freelist.items
  exact hlive.trans (List.perm_middle.trans hitems.symm)

theorem Classed.shuffle {build : Build} {world after : World} (h : Classed build world)
    (hshuffle : Shuffle build world after) : Classed build after := by
  cases hshuffle with
  | setPrev => exact ⟨h.tagged, h.returnable⟩
  | split classI hlow hclass buffer rest hsource htarget =>
    obtain ⟨others, hbefore, hafter⟩ := splitBack_items classI hclass hsource htarget
    have hhalf : buffer.classSize / 2 = classMaxSize classI := by
      rw [h.tagged.head hsource, classMaxSize_succ, Nat.mul_div_cancel_left _ two_pos]
    have hbefore' := List.forall_mem_cons.mp fun other hother ↦
      h.returnable other ((hbefore.append_right world.live).mem_iff.mpr hother)
    have hbuf := hbefore'.1.1
    have hlt : classI < kNumClasses := Nat.lt_of_succ_lt hclass
    refine ⟨h.tagged.splitBack classI hclass buffer rest hsource, fun other hother ↦ ?_⟩
    have hmem := (hafter.append_right world.live).mem_iff.mp hother
    simp only [List.cons_append, List.mem_cons] at hmem
    rcases hmem with rfl | rfl | hmem
    · apply Returnable.of_classSize _ ⟨classI, hlt⟩ hhalf hlow
      exact (Nat.add_pos_left (Nat.pos_of_ne_zero hbuf) _).ne'
    · exact .of_classSize hbuf ⟨classI, hlt⟩ hhalf hlow
    · exact hbefore'.2 other hmem
  | take classI buffer rest hback =>
    exact ⟨h.tagged.setFreelist (h.tagged.tail hback), fun other hother ↦
      h.returnable other ((take_buffers hback).mem_iff.mpr hother)⟩
  | put buffer hlive classI hclass =>
    exact ⟨h.tagged.setFreelist (List.forall_mem_cons.mpr ⟨hclass, h.tagged classI⟩),
      fun other hother ↦ h.returnable other ((put_buffers classI hlive).mem_iff.mpr hother)⟩

theorem Classed.shuffles {build : Build} {world after : World} (h : Classed build world)
    (hshuffles : Relation.ReflTransGen (Shuffle build) world after) : Classed build after := by
  induction hshuffles with
  | refl => exact h
  | tail _ hshuffle ih => exact ih.shuffle hshuffle

/-- A Buffer that is left at the back of a class after splitting is not null. -/
theorem Classed.back_ne_zero {build : Build} {world : World} (h : Classed build world)
    {lowest : ℕ} (hlow : lowest ≠ 0 ∨ build.bsrlZero = 0) {middle : Process}
    (hrun : SplitRun lowest world.process middle) {classI : Fin kNumClasses} {buffer : Buffer}
    {rest : List Buffer} (hback : middle.heap.freelist classI = buffer :: rest) :
    buffer.buf ≠ 0 := by
  have hclassed := h.shuffles (hrun.shuffles hlow world.live world.raw)
  have hmem := (takeBack_items hback).mem_iff.mpr (List.mem_cons_self ..)
  exact (hclassed.returnable buffer (List.mem_append_left _ hmem)).1

/-! ## Every step is an arrival and a shuffle -/

theorem World.resume_eq_some {α : Type} {world after : World} {onReturn : α → World → World}
    {outcome : Except Stop α × Process} (h : world.resume onReturn outcome = some after) :
    (∃ value, outcome.1 = .ok value ∧ after = onReturn value { world with process := outcome.2 }) ∨
      ∃ message, outcome.1 = .error (.thrown message) ∧
        after = { world with process := outcome.2 } := by
  rcases outcome with ⟨_ | value, process⟩
  · rename_i stop
    cases stop <;> simp only [World.resume, reduceCtorEq, Option.some.injEq] at h
    exact .inr ⟨_, rfl, h.symm⟩
  · simp only [World.resume, Option.some.injEq] at h
    exact .inl ⟨value, rfl, h.symm⟩

section Steps

variable {build : Build} {world after : World} {size : ℕ} {answers : Answers} {final : Process}

/-- Splitting and taking a Buffer that is not null. -/
theorem shuffles_hold (h : Classed build world) {classI : Fin kNumClasses}
    (hlow : classI.val ≠ 0 ∨ build.bsrlZero = 0) {middle : Process} {buffer : Buffer}
    {rest : List Buffer} (hrun : SplitRun classI world.process middle)
    (hback : middle.heap.freelist classI = buffer :: rest) :
    Relation.ReflTransGen (Shuffle build) world
      (World.hold buffer { world with process := middle.takeBack classI buffer rest }) := by
  rw [World.hold, if_neg (h.back_ne_zero hlow hrun hback)]
  exact (hrun.shuffles hlow world.live world.raw).tail (.take classI buffer rest hback)

/-- One step: something may arrive, and then memory is moved inside the allocator. -/
def Moves (build : Build) (world : World) (op : Op) (after : World) : Prop :=
  ∃ middle, Arrival build world op middle ∧ Relation.ReflTransGen (Shuffle build) middle after

/-- The class that `alloc` works on is the smallest one only if `get_class` finds that class. -/
theorem ne_zero_or_bsrlZero (hsize : size ≤ kMaxClassSize) {classI : Fin kNumClasses}
    (hclass : classIndex build size = classI) : classI.val ≠ 0 ∨ build.bsrlZero = 0 := by
  rw [or_iff_not_imp_left, not_not]
  intro hzero
  exact bsrlZero_of_classIndex hsize (hclass.trans hzero)

theorem moves_of_alloc (h : Classed build world) (hsize : size ≤ kMaxClassSize)
    {classI : Fin kNumClasses} (hclass : classIndex build size = classI) {buffer : Buffer}
    (halloc : AllocResult build answers world.process classI (.ok buffer) final) :
    Moves build world (.alloc size answers)
      (World.hold buffer { world with process := final }) := by
  have hlow := ne_zero_or_bsrlZero hsize hclass
  cases halloc with
  | served middle _ rest hserved hrun hback =>
    refine ⟨world, .nothing (by simp) ?_, shuffles_hold h hlow hrun hback⟩
    simp [World.request_served answers classI hclass hserved]
  | outOfMemory hserved hverdict _ =>
    have hrequest := World.request_alloc answers classI hclass hserved
    exact ⟨world, .denied hrequest (by simp [hverdict]),
      .single (.setPrev (doubledSize world.process.heap / 2))⟩
  | reserved draw id middle _ rest hserved hverdict husable _ hrun hback =>
    have harrival : Arrival build world (.alloc size answers) _ :=
      .reserved (World.request_alloc answers classI hclass hserved) (Nat.mod_lt _ (by decide))
        hverdict husable
    have hdouble : Shuffle build { world with
        process := world.process.reserve answers draw id (doubledSize world.process.heap) } _ :=
      .setPrev (doubledSize world.process.heap)
    have hclassed := (h.arrival harrival).shuffle hdouble
    exact ⟨_, harrival, .head hdouble (shuffles_hold hclassed hlow hrun hback)⟩

theorem moves_of_allocThrew {classI : Fin kNumClasses} (hclass : classIndex build size = classI)
    {message : String}
    (halloc : AllocResult build answers world.process classI (.error (.thrown message)) final) :
    Moves build world (.alloc size answers) { world with process := final } := by
  cases halloc with
  | stopped _ _ hserved hraw _ =>
    have hrequest := World.request_alloc answers classI hclass hserved
    cases hraw with
    | refused errno _ hverdict =>
      exact ⟨world, .denied hrequest (by simp [hverdict]),
        .single (.setPrev (doubledSize world.process.heap))⟩
    | unusable draw id _ hverdict husable =>
      exact ⟨_, .lost hrequest hverdict husable,
        .single (.setPrev (doubledSize world.process.heap))⟩

theorem moves_of_allocRaw {buffer : Buffer}
    (hraw : RawResult answers world.process size (.ok buffer) final) :
    Moves build world (.allocRaw size answers)
      (World.holdRaw (roundUp kHugepageSize size) buffer { world with process := final }) := by
  cases hraw with
  | outOfMemory hverdict => exact ⟨world, .denied rfl (by simp [hverdict]), .refl⟩
  | mapped draw id hverdict husable =>
    rw [World.holdRaw, if_neg husable.1]
    exact ⟨_, .raw rfl hverdict husable, .refl⟩

theorem moves_of_allocRawThrew {message : String}
    (hraw : RawResult answers world.process size (.error (.thrown message)) final) :
    Moves build world (.allocRaw size answers) { world with process := final } := by
  cases hraw with
  | refused errno _ hverdict => exact ⟨world, .denied rfl (by simp [hverdict]), .refl⟩
  | unusable draw id _ hverdict husable => exact ⟨_, .lost rfl hverdict husable, .refl⟩

/-- A call of `alloc` after which the run goes on has found a class. -/
theorem class_of_resume (hpos : 1 ≤ size) (hsize : size ≤ kMaxClassSize)
    (hstep : world.resume World.hold ((alloc build answers size).eval world.process) = some after) :
    ∃ classI : Fin kNumClasses, classIndex build size = classI := by
  by_contra hnone
  have hclass : kNumClasses ≤ classIndex build size :=
    not_lt.mp fun hlt ↦ hnone ⟨⟨_, hlt⟩, rfl⟩
  have hend := Call.ensures_iff.mp (alloc_ensures_outside answers world.process hpos hsize hclass)
  rcases World.resume_eq_some hstep with ⟨_, hresult, _⟩ | ⟨_, hresult, _⟩ <;>
    simp [hresult] at hend

/-- The list of arrivals and shuffles is complete. -/
theorem moves_of_step (h : Classed build world) {op : Op}
    (hstep : world.step build op = some after) : Moves build world op after := by
  cases op with
  | alloc size answers =>
    simp only [World.step, Option.ite_none_right_eq_some] at hstep
    obtain ⟨⟨hpos, hsize⟩, hstep⟩ := hstep
    obtain ⟨classI, hclass⟩ := class_of_resume hpos hsize hstep
    have halloc :=
      Call.ensures_iff.mp (alloc_ensures answers h.tagged hpos hsize classI hclass)
    rcases World.resume_eq_some hstep with ⟨buffer, hresult, rfl⟩ | ⟨message, hresult, rfl⟩
    · rw [hresult] at halloc
      exact moves_of_alloc h hsize hclass halloc
    · rw [hresult] at halloc
      exact moves_of_allocThrew hclass halloc
  | allocRaw size answers =>
    simp only [World.step, Option.ite_none_right_eq_some] at hstep
    have hraw := Call.ensures_iff.mp (allocRaw_ensures build answers size world.process)
    rcases World.resume_eq_some hstep.2 with ⟨buffer, hresult, rfl⟩ | ⟨message, hresult, rfl⟩
    · rw [hresult] at hraw
      exact moves_of_allocRaw hraw
    · rw [hresult] at hraw
      exact moves_of_allocRawThrew hraw
  | freeBuf buffer =>
    simp only [World.step, Option.ite_none_right_eq_some] at hstep
    obtain ⟨hlive, hstep⟩ := hstep
    obtain ⟨hbuf, classI, hclass, hindex⟩ := h.returnable buffer (List.mem_append_right _ hlive)
    obtain ⟨hresult, hfinal⟩ :=
      Call.ensures_iff.mp (freeBuf_ensures world.process hbuf classI hclass hindex)
    rcases World.resume_eq_some hstep with ⟨_, _, rfl⟩ | ⟨message, hthrown, rfl⟩
    · rw [hfinal]
      refine ⟨world, .nothing (by simp) ?_, .single (.put buffer hlive classI hclass)⟩
      simp [World.request]
    · rw [hresult] at hthrown
      simp at hthrown
  | foreign segment =>
    simp only [World.step, Option.some.injEq] at hstep
    rw [← hstep]
    exact ⟨_, .foreign segment, .refl⟩

end Steps

section Invariants

variable {build : Build} {allowed : World → Op → Prop} {initialSize : ℕ} {kernel : Kernel}
  {history : List (World × Op)} {world : World}

/-- Every run keeps `Classed`, whatever the environment does. -/
theorem classed_of_run
    (hrun : Run (World.step build) allowed (World.start initialSize kernel) history world) :
    Classed build world := by
  refine hrun.invariant (Classed build) (.start build initialSize kernel)
    fun before op after h _ hstep ↦ ?_
  obtain ⟨middle, harrival, hshuffles⟩ := moves_of_step h hstep
  exact (h.arrival harrival).shuffles hshuffles

/-- What survives every allowed arrival and every shuffle holds after every run. -/
theorem invariant_of_moves (property : World → Prop)
    (hstart : property (World.start initialSize kernel))
    (harrive : ∀ before op after, Classed build before → property before → allowed before op →
      Arrival build before op after → property after)
    (hshuffle : ∀ before after, Classed build before → property before →
      Shuffle build before after → property after)
    (hrun : Run (World.step build) allowed (World.start initialSize kernel) history world) :
    property world := by
  refine (hrun.invariant (fun world ↦ Classed build world ∧ property world)
    ⟨.start build initialSize kernel, hstart⟩ fun before op after h hallowed hstep ↦ ?_).2
  obtain ⟨middle, harrival, hshuffles⟩ := moves_of_step h.1 hstep
  have hmiddle := harrive before op middle h.1 h.2 hallowed harrival
  have hclassed := h.1.arrival harrival
  clear harrival hstep
  induction hshuffles with
  | refl => exact ⟨hclassed, hmiddle⟩
  | tail _ hnext ih => exact ⟨ih.1.shuffle hnext, hshuffle _ _ ih.1 ih.2 hnext⟩

end Invariants

end Systemish.HugeAlloc
