import Systemish.HugeAlloc.Runs

/-!
# Segments and the destructor

The destructor removes the segments whose keys are in `shm_list`. It removes what
the allocator created exactly if every segment was created under a key that names
it and got as far as `shm_list` with its mapping. Key zero is `IPC_PRIVATE` and
names nothing, and a segment whose `shmat` or `mbind` fails is forgotten.
-/

namespace Systemish.HugeAlloc

open Foundation

/-! ## The operating system -/

namespace Kernel

/-- Ids are unique, keys other than `IPC_PRIVATE` are unique, and nothing is attached at the
address that reports a failed `shmat`. -/
structure Consistent (kernel : Kernel) : Prop where
  ids : ∀ segment ∈ kernel.segments, ∀ other ∈ kernel.segments,
    segment.id = other.id → segment = other
  keys : ∀ segment ∈ kernel.segments, ∀ other ∈ kernel.segments,
    segment.key = other.key → segment.key ≠ 0 → segment = other
  attached : ∀ range ∈ kernel.attached, range.1 ≠ Shmat.failed.pointer

/-- A segment may be created: its id is new, and so is its key unless it is `IPC_PRIVATE`. -/
structure Admits (kernel : Kernel) (id : ℕ) (key : ℤ) : Prop where
  id_fresh : ∀ segment ∈ kernel.segments, segment.id ≠ id
  key_fresh : ∀ segment ∈ kernel.segments, segment.key = key → key = 0

theorem Consistent.create {kernel : Kernel} (h : kernel.Consistent) {segment : Segment}
    (hadmits : kernel.Admits segment.id segment.key) : (kernel.create segment).Consistent where
  ids := by
    intro first hfirst second hsecond hid
    rcases List.mem_cons.mp hfirst with rfl | hold <;>
      rcases List.mem_cons.mp hsecond with rfl | hold'
    · rfl
    · exact absurd hid.symm (hadmits.id_fresh second hold')
    · exact absurd hid (hadmits.id_fresh first hold)
    · exact h.ids first hold second hold' hid
  keys := by
    intro first hfirst second hsecond hkey hne
    rcases List.mem_cons.mp hfirst with rfl | hold <;>
      rcases List.mem_cons.mp hsecond with rfl | hold'
    · rfl
    · exact absurd (hadmits.key_fresh second hold' hkey.symm) hne
    · exact absurd (hkey.trans (hadmits.key_fresh first hold hkey)) hne
    · exact h.keys first hold second hold' hkey hne
  attached := h.attached

theorem find_eq_some_iff {kernel : Kernel} (h : kernel.Consistent) {key : ℤ} {segment : Segment} :
    kernel.find key = some segment ↔
      key ≠ 0 ∧ segment ∈ kernel.segments ∧ segment.key = key := by
  unfold find
  split
  · rename_i hzero
    simp [hzero]
  · rename_i hne
    constructor
    · intro hfind
      exact ⟨hne, List.mem_of_find?_eq_some hfind, by simpa using List.find?_some hfind⟩
    · rintro ⟨_, hmem, rfl⟩
      have hsome : (kernel.segments.find? fun other ↦ other.key = segment.key).isSome :=
        List.find?_isSome.mpr ⟨segment, hmem, decide_eq_true rfl⟩
      obtain ⟨found, hfound⟩ := Option.isSome_iff_exists.mp hsome
      have hkey : found.key = segment.key := by simpa using List.find?_some hfound
      rw [hfound, h.keys found (List.mem_of_find?_eq_some hfound) segment hmem hkey (hkey ▸ hne)]

/-- The kernel once a region has been given back. -/
def release (kernel : Kernel) (region : ShmRegion) : Kernel where
  segments := kernel.segments.filter fun segment ↦ segment.key ≠ region.shmKey
  attached := kernel.attached.filter fun range ↦ range.1 ≠ region.buf

theorem Consistent.release {kernel : Kernel} (h : kernel.Consistent) (region : ShmRegion) :
    (kernel.release region).Consistent where
  ids first hfirst second hsecond :=
    h.ids first (List.mem_of_mem_filter hfirst) second (List.mem_of_mem_filter hsecond)
  keys first hfirst second hsecond :=
    h.keys first (List.mem_of_mem_filter hfirst) second (List.mem_of_mem_filter hsecond)
  attached range hrange := h.attached range (List.mem_of_mem_filter hrange)

/-- The destructor can give a region back. -/
def Holds (kernel : Kernel) (region : ShmRegion) : Prop :=
  region.shmKey ≠ 0 ∧ (∃ segment ∈ kernel.segments, segment.key = region.shmKey) ∧
    ∃ range ∈ kernel.attached, range.1 = region.buf

theorem Holds.release {kernel : Kernel} {region other : ShmRegion} (h : kernel.Holds other)
    (hkey : other.shmKey ≠ region.shmKey) (hbuf : other.buf ≠ region.buf) :
    (kernel.release region).Holds other := by
  obtain ⟨hne, ⟨segment, hsegment, hnamed⟩, range, hrange, hstart⟩ := h
  refine ⟨hne, ⟨segment, ?_, hnamed⟩, range, ?_, hstart⟩
  · exact List.mem_filter.mpr ⟨hsegment, by simpa [hnamed] using hkey⟩
  · exact List.mem_filter.mpr ⟨hrange, by simpa [hstart] using hbuf⟩

theorem shmctlRemove_attached (kernel : Kernel) (id : ℕ) :
    (kernel.shmctlRemove id).2.attached = kernel.attached := by
  unfold shmctlRemove
  split <;> rfl

theorem shmdt_spec (kernel : Kernel) (address : ℕ) :
    ((kernel.shmdt address).1 = 0 → ∃ range ∈ kernel.attached, range.1 = address) ∧
      (kernel.shmdt address).2.attached ⊆ kernel.attached := by
  unfold shmdt
  split
  · rename_i hany
    obtain ⟨range, hrange, hstart⟩ := List.any_eq_true.mp hany
    exact ⟨fun _ ↦ ⟨range, hrange, of_decide_eq_true hstart⟩, List.filter_subset_self _⟩
  · exact ⟨fun h ↦ absurd h (by simp), List.Subset.refl _⟩

end Kernel

/-! ## The destructor -/

theorem deleteShm_ensures {process : Process} (hkernel : process.kernel.Consistent)
    {region : ShmRegion} (h : process.kernel.Holds region) :
    (deleteShm region).Ensures process fun result final ↦
      result = .ok () ∧ final = { process with kernel := process.kernel.release region } := by
  obtain ⟨hne, ⟨segment, hsegment, hkey⟩, range, hrange, hstart⟩ := h
  have hfind := (Kernel.find_eq_some_iff hkernel).mpr ⟨hne, hsegment, hkey⟩
  have hremove : process.kernel.shmctlRemove segment.id = (0, { process.kernel with
      segments := process.kernel.segments.filter fun other ↦ other.key ≠ region.shmKey }) := by
    have hany : process.kernel.segments.any (fun other ↦ other.id = segment.id) = true :=
      List.any_eq_true.mpr ⟨segment, hsegment, decide_eq_true rfl⟩
    have hfilter : (process.kernel.segments.filter fun other ↦ other.id ≠ segment.id) =
        process.kernel.segments.filter fun other ↦ other.key ≠ region.shmKey := by
      refine List.filter_congr fun other hother ↦ ?_
      have hiff : other.id = segment.id ↔ other.key = region.shmKey := by
        constructor
        · intro hid
          rw [hkernel.ids other hother segment hsegment hid, hkey]
        · intro hnamed
          rw [hkernel.keys other hother segment hsegment (hnamed.trans hkey.symm) (hnamed ▸ hne)]
      simp [hiff]
    rw [Kernel.shmctlRemove, if_pos hany, hfilter]
  have hany : process.kernel.attached.any (fun other ↦ other.1 = region.buf) = true :=
    List.any_eq_true.mpr ⟨range, hrange, decide_eq_true hstart⟩
  simp only [deleteShm, Call.ensures_bind, Call.ensures_get, hfind, hremove, Call.ensures_modify,
    ne_eq, not_true_eq_false, if_false, Kernel.shmdt, hany, if_true, Call.ensures_pure]
  exact ⟨trivial, rfl⟩

/-- The destructor gives back the regions it is given, if it can, and nothing else. -/
theorem deleteAll_ensures (regions : List ShmRegion) {process : Process}
    (hkernel : process.kernel.Consistent)
    (hkeys : regions.Pairwise fun region other ↦ other.shmKey ≠ region.shmKey)
    (hbufs : regions.Pairwise fun region other ↦ other.buf ≠ region.buf)
    (h : ∀ region ∈ regions, process.kernel.Holds region) :
    (deleteAll regions).Ensures process fun result final ↦
      result = .ok () ∧ final.kernel.segments =
        process.kernel.segments.filter
          fun segment ↦ segment.key ∉ regions.map ShmRegion.shmKey := by
  induction regions generalizing process with
  | nil =>
    simp only [deleteAll, Call.ensures_pure]
    exact ⟨trivial, by simp⟩
  | cons region rest ih =>
    obtain ⟨hkey, hkeys⟩ := List.pairwise_cons.mp hkeys
    obtain ⟨hbuf, hbufs⟩ := List.pairwise_cons.mp hbufs
    obtain ⟨hregion, hrest⟩ := List.forall_mem_cons.mp h
    simp only [deleteAll, Call.ensures_bind]
    refine (deleteShm_ensures hkernel hregion).mono fun result middle hmiddle ↦ ?_
    obtain ⟨rfl, rfl⟩ := hmiddle
    refine (ih (hkernel.release region) hkeys hbufs fun other hother ↦
      (hrest other hother).release (hkey other hother) (hbuf other hother)).mono
      fun result final hfinal ↦ ⟨hfinal.1, ?_⟩
    rw [hfinal.2]
    simp only [Kernel.release, List.filter_filter]
    refine List.filter_congr fun segment _ ↦ ?_
    rw [← Bool.decide_and, decide_eq_decide, List.map_cons, List.mem_cons, not_or, and_comm]

/-- A region is given back only if it has a key and a mapping, and giving it back attaches
nothing. -/
theorem deleteShm_ok (region : ShmRegion) (process : Process) :
    (deleteShm region).Ensures process fun result final ↦ result = .ok () →
      region.shmKey ≠ 0 ∧ (∃ range ∈ process.kernel.attached, range.1 = region.buf) ∧
        final.kernel.attached ⊆ process.kernel.attached := by
  simp only [deleteShm, Call.ensures_bind, Call.ensures_get]
  cases hfind : process.kernel.find region.shmKey with
  | none => simp
  | some segment =>
    have hne : region.shmKey ≠ 0 := by
      intro hzero
      rw [Kernel.find, if_pos hzero] at hfind
      cases hfind
    simp only [Call.ensures_bind, Call.ensures_modify]
    split
    · simp
    · have hdetach := Kernel.shmdt_spec (process.kernel.shmctlRemove segment.id).2 region.buf
      rw [Kernel.shmctlRemove_attached] at hdetach
      split
      · simp
      · rename_i hok
        exact fun _ ↦ ⟨hne, hdetach.1 (not_not.mp hok), hdetach.2⟩

theorem deleteAll_ok (regions : List ShmRegion) (process : Process) :
    (deleteAll regions).Ensures process fun result _ ↦ result = .ok () →
      ∀ region ∈ regions, region.shmKey ≠ 0 ∧
        ∃ range ∈ process.kernel.attached, range.1 = region.buf := by
  induction regions generalizing process with
  | nil => exact fun _ _ hregion ↦ absurd hregion List.not_mem_nil
  | cons region rest ih =>
    simp only [deleteAll, Call.ensures_bind]
    refine (deleteShm_ok region process).mono fun result middle hmiddle ↦ ?_
    cases result with
    | error stop => exact fun h ↦ absurd h (by simp)
    | ok _ =>
      obtain ⟨hkey, hattached, hsubset⟩ := hmiddle rfl
      refine (ih middle).mono fun result final hfinal hok ↦ List.forall_mem_cons.mpr
        ⟨⟨hkey, hattached⟩, fun other hother ↦ ?_⟩
      obtain ⟨hkey', range, hrange, hstart⟩ := hfinal hok other hother
      exact ⟨hkey', range, hsubset hrange, hstart⟩

/-! ## Runs -/

/-- Assumption about the operating system: `shmget` creates segments that the kernel admits,
`shmat` maps at an address of its own, which is not the one that reports failure, and other
processes create segments that the kernel admits. -/
structure SegmentLaw (build : Build) (world : World) (op : Op) : Prop where
  admits : ∀ size answers draw id, world.request build op = some (size, answers) →
    verdict answers.trips = .granted draw id → world.process.kernel.Admits id (chooseKey draw)
  address : ∀ size answers address, world.request build op = some (size, answers) →
    answers.shmat = .mapped address → address ≠ Shmat.failed.pointer ∧
      ∀ range ∈ world.process.kernel.attached, range.1 ≠ address
  foreign : ∀ segment, op = .foreign segment →
    world.process.kernel.Admits segment.id segment.key

/-- No segment is created under key zero, and none is created whose mapping or policy fails. -/
def Clean (build : Build) (world : World) (op : Op) : Prop :=
  ∀ size answers draw id, world.request build op = some (size, answers) →
    verdict answers.trips = .granted draw id →
      draw % 2 ^ 32 ≠ 0 ∧ answers.shmat ≠ .failed ∧ answers.Usable

section Records

variable {kernel : Kernel} {created : List ℕ} {regions : List ShmRegion} {answers : Answers}
  {id size : ℕ} {key : ℤ}

/-- How the regions and the history of the allocator relate to the kernel. -/
structure Tracked (kernel : Kernel) (created : List ℕ) (regions : List ShmRegion) : Prop where
  consistent : kernel.Consistent
  existing : ∀ id ∈ created, ∃ segment ∈ kernel.segments, segment.id = id
  named : ∀ region ∈ regions, region.shmKey ≠ 0 →
    ∃ segment ∈ kernel.segments, segment.key = region.shmKey ∧ segment.id ∈ created
  keys : regions.Pairwise fun region other ↦ other.shmKey = region.shmKey → region.shmKey = 0
  mapped : ∀ region ∈ regions, region.buf = Shmat.failed.pointer ∨
    ∃ range ∈ kernel.attached, range.1 = region.buf
  bufs : regions.Pairwise fun region other ↦
    other.buf = region.buf → region.buf = Shmat.failed.pointer

/-- Every region can be given back and every segment of the allocator has a region. -/
structure Recorded (kernel : Kernel) (created : List ℕ) (regions : List ShmRegion) : Prop where
  usable : ∀ region ∈ regions, region.shmKey ≠ 0 ∧
    ∃ range ∈ kernel.attached, range.1 = region.buf
  complete : ∀ segment ∈ kernel.segments, segment.id ∈ created →
    ∃ region ∈ regions, region.shmKey = segment.key

theorem attached_subset (kernel : Kernel) (shmat : Shmat) (size : ℕ) :
    kernel.attached ⊆ (kernel.attach shmat size).attached := by
  cases shmat with
  | failed => exact List.Subset.refl _
  | mapped address => exact List.subset_cons_self _ _

@[simp]
theorem attach_segments (kernel : Kernel) (shmat : Shmat) (size : ℕ) :
    (kernel.attach shmat size).segments = kernel.segments := by
  cases shmat <;> rfl

/-- The pointer of a new region is attached unless `shmat` failed. -/
theorem pointer_attached_iff (hkernel : kernel.Consistent) (shmat : Shmat) (size : ℕ) :
    (∃ range ∈ (kernel.attach shmat size).attached, range.1 = shmat.pointer) ↔
      shmat ≠ .failed := by
  cases shmat with
  | failed =>
    simp only [ne_eq, not_true_eq_false, iff_false]
    rintro ⟨range, hrange, hstart⟩
    exact hkernel.attached range hrange hstart
  | mapped address =>
    simp only [ne_eq, reduceCtorEq, not_false_eq_true, iff_true]
    exact ⟨(address, size), List.mem_cons_self .., rfl⟩

theorem Tracked.foreign (h : Tracked kernel created regions) {segment : Segment}
    (hadmits : kernel.Admits segment.id segment.key) :
    Tracked (kernel.create segment) created regions where
  consistent := h.consistent.create hadmits
  existing id hid := by
    obtain ⟨other, hother, hsame⟩ := h.existing id hid
    exact ⟨other, List.mem_cons_of_mem _ hother, hsame⟩
  named region hregion hne := by
    obtain ⟨other, hother, hnamed⟩ := h.named region hregion hne
    exact ⟨other, List.mem_cons_of_mem _ hother, hnamed⟩
  keys := h.keys
  mapped := h.mapped
  bufs := h.bufs

/-- A segment that is created and perhaps mapped, but not recorded. -/
theorem Tracked.mapSegment (h : Tracked kernel created regions)
    (hadmits : kernel.Admits id key)
    (haddress : ∀ address, answers.shmat = .mapped address → address ≠ Shmat.failed.pointer) :
    Tracked ((kernel.create ⟨id, key, size⟩).attach answers.shmat size) (id :: created)
      regions := by
  have hforeign : Tracked (kernel.create ⟨id, key, size⟩) created regions :=
    h.foreign hadmits
  refine ⟨⟨?_, ?_, ?_⟩, ?_, ?_, h.keys, ?_, h.bufs⟩
  · simpa using hforeign.consistent.ids
  · simpa using hforeign.consistent.keys
  · cases hshmat : answers.shmat with
    | failed => exact h.consistent.attached
    | mapped address =>
      exact List.forall_mem_cons.mpr ⟨haddress address hshmat, h.consistent.attached⟩
  · rw [attach_segments]
    exact List.forall_mem_cons.mpr ⟨⟨_, List.mem_cons_self .., rfl⟩, hforeign.existing⟩
  · intro region hregion hne
    obtain ⟨segment, hsegment, hkey, hcreated⟩ := hforeign.named region hregion hne
    rw [attach_segments]
    exact ⟨segment, hsegment, hkey, List.mem_cons_of_mem _ hcreated⟩
  · intro region hregion
    refine (h.mapped region hregion).imp_right fun ⟨range, hrange, hstart⟩ ↦ ?_
    exact ⟨range, attached_subset _ _ _ hrange, hstart⟩

/-- Regions do not share the key of a new segment. -/
theorem Tracked.key_fresh (h : Tracked kernel created regions)
    (hadmits : kernel.Admits id key) {region : ShmRegion} (hregion : region ∈ regions)
    (hkey : key = region.shmKey) : region.shmKey = 0 := by
  by_contra hne
  obtain ⟨segment, hsegment, hnamed, _⟩ := h.named region hregion hne
  exact hne (hkey.symm.trans (hadmits.key_fresh segment hsegment (hnamed.trans hkey.symm)))

/-- A segment that is recorded as a region. -/
theorem Tracked.mapRegion (h : Tracked kernel created regions)
    (hadmits : kernel.Admits id key)
    (haddress : ∀ address, answers.shmat = .mapped address → address ≠ Shmat.failed.pointer ∧
      ∀ range ∈ kernel.attached, range.1 ≠ address) :
    Tracked ((kernel.create ⟨id, key, size⟩).attach answers.shmat size) (id :: created)
      (regions ++ [⟨key, answers.shmat.pointer, size⟩]) := by
  have hsegment : Tracked ((kernel.create ⟨id, key, size⟩).attach answers.shmat size)
      (id :: created) regions :=
    h.mapSegment hadmits fun address hshmat ↦ (haddress address hshmat).1
  refine ⟨hsegment.consistent, hsegment.existing, ?_, ?_, ?_, ?_⟩
  · refine List.forall_mem_append.mpr ⟨hsegment.named, List.forall_mem_singleton.mpr fun _ ↦ ?_⟩
    rw [attach_segments]
    exact ⟨_, List.mem_cons_self .., rfl, List.mem_cons_self ..⟩
  · refine List.pairwise_append.mpr ⟨h.keys, List.pairwise_singleton _ _, fun region hregion ↦ ?_⟩
    exact List.forall_mem_singleton.mpr fun hkey ↦ h.key_fresh hadmits hregion hkey
  · refine List.forall_mem_append.mpr ⟨hsegment.mapped, List.forall_mem_singleton.mpr ?_⟩
    cases hshmat : answers.shmat with
    | failed => exact .inl rfl
    | mapped address => exact .inr ⟨_, List.mem_cons_self .., rfl⟩
  · refine List.pairwise_append.mpr ⟨h.bufs, List.pairwise_singleton _ _, fun region hregion ↦ ?_⟩
    refine List.forall_mem_singleton.mpr fun hbuf ↦ ?_
    rcases h.mapped region hregion with hfailed | ⟨range, hrange, hstart⟩
    · exact hfailed
    · cases hshmat : answers.shmat with
      | failed => rw [← hbuf, hshmat]
      | mapped address =>
        rw [hshmat] at hbuf
        exact absurd (hstart.trans hbuf.symm) ((haddress address hshmat).2 range hrange)

theorem recorded_foreign_iff (h : Tracked kernel created regions) {segment : Segment}
    (hadmits : kernel.Admits segment.id segment.key) :
    Recorded (kernel.create segment) created regions ↔ Recorded kernel created regions := by
  have hnew : segment.id ∉ created := fun hcreated ↦ by
    obtain ⟨other, hother, hid⟩ := h.existing _ hcreated
    exact hadmits.id_fresh other hother hid
  constructor
  · intro hrecorded
    exact ⟨hrecorded.usable, fun other hother ↦
      hrecorded.complete other (List.mem_cons_of_mem _ hother)⟩
  · intro hrecorded
    refine ⟨hrecorded.usable, List.forall_mem_cons.mpr ⟨fun hcreated ↦ ?_, hrecorded.complete⟩⟩
    exact absurd hcreated hnew

/-- A segment that never reaches `shm_list` is lost. -/
theorem not_recorded_mapSegment (h : Tracked kernel created regions)
    (hadmits : kernel.Admits id key) :
    ¬ Recorded ((kernel.create ⟨id, key, size⟩).attach answers.shmat size)
      (id :: created) regions := by
  intro hrecorded
  obtain ⟨region, hregion, hkey⟩ := hrecorded.complete ⟨id, key, size⟩
    (by rw [attach_segments]; exact List.mem_cons_self ..) (List.mem_cons_self ..)
  exact (hrecorded.usable region hregion).1 (h.key_fresh hadmits hregion hkey.symm)

/-- A segment that reaches `shm_list` can be removed if it has a key and a mapping. -/
theorem recorded_mapRegion_iff (h : Tracked kernel created regions)
    (hadmits : kernel.Admits id key)
    (haddress : ∀ address, answers.shmat = .mapped address → address ≠ Shmat.failed.pointer) :
    Recorded ((kernel.create ⟨id, key, size⟩).attach answers.shmat size)
        (id :: created) (regions ++ [⟨key, answers.shmat.pointer, size⟩]) ↔
      Recorded kernel created regions ∧ key ≠ 0 ∧ answers.shmat ≠ .failed := by
  have hcreate : (kernel.create ⟨id, key, size⟩).Consistent := h.consistent.create hadmits
  have hnew := pointer_attached_iff hcreate answers.shmat size
  constructor
  · intro hrecorded
    have hlast := hrecorded.usable ⟨key, answers.shmat.pointer, size⟩
      (List.mem_append_right _ (List.mem_singleton_self _))
    refine ⟨⟨fun region hregion ↦ ?_, fun segment hsegment hcreated ↦ ?_⟩, hlast.1,
      hnew.mp hlast.2⟩
    · obtain ⟨hne, range, hrange, hstart⟩ :=
        hrecorded.usable region (List.mem_append_left _ hregion)
      refine ⟨hne, (h.mapped region hregion).resolve_left fun hfailed ↦ ?_⟩
      exact (h.mapSegment hadmits haddress).consistent.attached range hrange (hstart.trans hfailed)
    · obtain ⟨region, hregion, hkey⟩ := hrecorded.complete segment
        (by rw [attach_segments]; exact List.mem_cons_of_mem _ hsegment)
        (List.mem_cons_of_mem _ hcreated)
      rcases List.mem_append.mp hregion with hold | hlast'
      · exact ⟨region, hold, hkey⟩
      · rw [List.mem_singleton.mp hlast'] at hkey
        exact absurd (hadmits.key_fresh segment hsegment hkey.symm) hlast.1
  · rintro ⟨hrecorded, hkey, hshmat⟩
    refine ⟨List.forall_mem_append.mpr ⟨fun region hregion ↦ ?_, List.forall_mem_singleton.mpr
      ⟨hkey, hnew.mpr hshmat⟩⟩, ?_⟩
    · obtain ⟨hne, range, hrange, hstart⟩ := hrecorded.usable region hregion
      exact ⟨hne, range, attached_subset _ _ _ hrange, hstart⟩
    · rw [attach_segments]
      refine List.forall_mem_cons.mpr ⟨fun _ ↦ ⟨_, List.mem_append_right _
        (List.mem_singleton_self _), rfl⟩, fun segment hsegment hcreated ↦ ?_⟩
      have hold := (List.mem_cons.mp hcreated).resolve_left (hadmits.id_fresh segment hsegment)
      obtain ⟨region, hregion, hkey⟩ := hrecorded.complete segment hsegment hold
      exact ⟨region, List.mem_append_left _ hregion, hkey⟩

end Records

/-! ## Every run -/

/-- The invariant in terms of a process. -/
def Process.Tracked (process : Process) : Prop :=
  HugeAlloc.Tracked process.kernel process.created process.heap.shmList

def Process.Recorded (process : Process) : Prop :=
  HugeAlloc.Recorded process.kernel process.created process.heap.shmList

/-- What the destructor should achieve: every segment that was created is found under a key of
`shm_list`, and the destructor returns having removed these segments and no others. -/
structure Removable (process : Process) : Prop where
  found : ∀ id ∈ process.created, ∃ region ∈ process.heap.shmList, ∃ segment,
    process.kernel.find region.shmKey = some segment ∧ segment.id = id
  returns : (destruct.eval process).1 = .ok ()
  removed : (destruct.eval process).2.kernel.segments =
    process.kernel.segments.filter fun segment ↦ segment.id ∉ process.created

theorem destruct_eval (process : Process) :
    destruct.eval process = (deleteAll process.heap.shmList).eval process := rfl

theorem Process.Recorded.removable {process : Process} (htracked : process.Tracked)
    (h : process.Recorded) : Removable process := by
  have hkeys : process.heap.shmList.Pairwise fun region other ↦ other.shmKey ≠ region.shmKey :=
    htracked.keys.imp_of_mem fun hregion _ hkey hsame ↦ (h.usable _ hregion).1 (hkey hsame)
  have hbufs : process.heap.shmList.Pairwise fun region other ↦ other.buf ≠ region.buf :=
    htracked.bufs.imp_of_mem fun hregion _ hbuf hsame ↦ by
      obtain ⟨range, hrange, hstart⟩ := (h.usable _ hregion).2
      exact htracked.consistent.attached range hrange (hstart.trans (hbuf hsame))
  have hholds : ∀ region ∈ process.heap.shmList, process.kernel.Holds region := by
    intro region hregion
    obtain ⟨hne, hattached⟩ := h.usable region hregion
    obtain ⟨segment, hsegment, hkey, _⟩ := htracked.named region hregion hne
    exact ⟨hne, ⟨segment, hsegment, hkey⟩, hattached⟩
  have hdelete := Call.ensures_iff.mp
    (deleteAll_ensures process.heap.shmList htracked.consistent hkeys hbufs hholds)
  refine ⟨fun id hid ↦ ?_, hdelete.1, ?_⟩
  · obtain ⟨segment, hsegment, rfl⟩ := htracked.existing id hid
    obtain ⟨region, hregion, hkey⟩ := h.complete segment hsegment hid
    exact ⟨region, hregion, segment, (Kernel.find_eq_some_iff htracked.consistent).mpr
      ⟨(h.usable region hregion).1, hsegment, hkey.symm⟩, rfl⟩
  · rw [destruct_eval, hdelete.2]
    refine List.filter_congr fun segment hsegment ↦ ?_
    rw [decide_eq_decide, not_iff_not, List.mem_map]
    constructor
    · rintro ⟨region, hregion, hkey⟩
      have hne := (h.usable region hregion).1
      obtain ⟨other, hother, hnamed, hcreated⟩ := htracked.named region hregion hne
      rwa [htracked.consistent.keys segment hsegment other hother (hkey.symm.trans hnamed.symm)
        (hkey ▸ hne)]
    · exact h.complete segment hsegment

theorem Removable.recorded {process : Process} (htracked : process.Tracked)
    (h : Removable process) : process.Recorded where
  usable := Call.ensures_iff.mp (deleteAll_ok process.heap.shmList process) h.returns
  complete segment hsegment hcreated := by
    obtain ⟨region, hregion, other, hfind, hid⟩ := h.found segment.id hcreated
    obtain ⟨_, hother, hkey⟩ := (Kernel.find_eq_some_iff htracked.consistent).mp hfind
    rw [← htracked.consistent.ids other hother segment hsegment hid]
    exact ⟨region, hregion, hkey.symm⟩

/-- Two processes that differ in neither segments nor regions. -/
structure SameSegments (process other : Process) : Prop where
  kernel : other.kernel = process.kernel
  created : other.created = process.created
  shmList : other.heap.shmList = process.heap.shmList

theorem SameSegments.tracked_iff {process other : Process} (h : SameSegments process other) :
    other.Tracked ↔ process.Tracked := by
  rw [Process.Tracked, Process.Tracked, h.kernel, h.created, h.shmList]

theorem SameSegments.recorded_iff {process other : Process} (h : SameSegments process other) :
    other.Recorded ↔ process.Recorded := by
  rw [Process.Recorded, Process.Recorded, h.kernel, h.created, h.shmList]

/-- Moving memory inside the allocator does not concern the kernel. -/
theorem sameSegments_of_shuffles {build : Build} {world after : World}
    (h : Relation.ReflTransGen (Shuffle build) world after) :
    SameSegments world.process after.process := by
  induction h with
  | refl => exact ⟨rfl, rfl, rfl⟩
  | tail _ hshuffle ih =>
    cases hshuffle <;> exact ⟨ih.kernel, ih.created, ih.shmList⟩

theorem clean_iff {build : Build} {world : World} {op : Op} {size : ℕ} {answers : Answers}
    {draw id : ℕ} (hrequest : world.request build op = some (size, answers))
    (hverdict : verdict answers.trips = .granted draw id) :
    Clean build world op ↔ chooseKey draw ≠ 0 ∧ answers.shmat ≠ .failed ∧ answers.Usable := by
  rw [ne_eq, chooseKey_eq_zero_iff]
  constructor
  · intro h
    exact h size answers draw id hrequest hverdict
  · intro h size' answers' draw' id' hrequest' hverdict'
    obtain ⟨rfl, rfl⟩ : size = size' ∧ answers = answers' := by
      simpa using hrequest.symm.trans hrequest'
    obtain ⟨rfl, rfl⟩ : draw = draw' ∧ id = id' := by
      simpa using hverdict.symm.trans hverdict'
    exact h

/-- A segment that is usable goes into the records. -/
theorem Process.Tracked.mapRegion {build : Build} {world : World} {op : Op} {size : ℕ}
    {answers : Answers} {draw id : ℕ} (h : world.process.Tracked) (hlaw : SegmentLaw build world op)
    (hrequest : world.request build op = some (size, answers))
    (hverdict : verdict answers.trips = .granted draw id) (husable : answers.Usable) :
    (world.process.mapRegion answers draw id (roundUp kHugepageSize size)).Tracked ∧
      ((world.process.mapRegion answers draw id (roundUp kHugepageSize size)).Recorded ↔
        world.process.Recorded ∧ Clean build world op) := by
  have hadmits := hlaw.admits size answers draw id hrequest hverdict
  have haddress := fun address hshmat ↦ hlaw.address size answers address hrequest hshmat
  refine ⟨HugeAlloc.Tracked.mapRegion h hadmits haddress, ?_⟩
  rw [clean_iff hrequest hverdict, and_iff_left husable]
  exact recorded_mapRegion_iff h hadmits fun address hshmat ↦ (haddress address hshmat).1

/-- An arrival keeps the invariant, and it keeps the records complete exactly if it is clean. -/
theorem Process.Tracked.arrival {build : Build} {world after : World} {op : Op}
    (h : world.process.Tracked) (hlaw : SegmentLaw build world op)
    (harrival : Arrival build world op after) :
    after.process.Tracked ∧
      (after.process.Recorded ↔ world.process.Recorded ∧ Clean build world op) := by
  cases harrival with
  | nothing _ hdenied =>
    have hclean : Clean build world op := fun size answers draw id hrequest hverdict ↦
      absurd hverdict (hdenied size answers draw id hrequest)
    exact ⟨h, (and_iff_left hclean).symm⟩
  | @lost _ size answers draw id hrequest hverdict husable =>
    have hadmits := hlaw.admits size answers draw id hrequest hverdict
    have haddress := fun address hshmat ↦
      (hlaw.address size answers address hrequest hshmat).1
    refine ⟨Tracked.mapSegment h hadmits haddress, iff_of_false ?_ ?_⟩
    · exact not_recorded_mapSegment h hadmits
    · rw [clean_iff hrequest hverdict]
      exact fun hclean ↦ husable hclean.2.2.2
  | @reserved _ size answers draw id hrequest _ hverdict husable =>
    exact h.mapRegion hlaw hrequest hverdict husable
  | @raw _ size answers draw id hrequest hverdict husable =>
    exact h.mapRegion hlaw hrequest hverdict husable
  | foreign segment =>
    have hadmits := hlaw.foreign segment rfl
    have hclean : Clean build world (.foreign segment) := fun _ _ _ _ hrequest ↦ nomatch hrequest
    exact ⟨Tracked.foreign h hadmits,
      (recorded_foreign_iff h hadmits).trans (and_iff_left hclean).symm⟩

theorem Process.Tracked.start (initialSize : ℕ) {kernel : Kernel} (h : kernel.Consistent) :
    (World.start initialSize kernel).process.Tracked :=
  ⟨h, by simp [World.start], by simp [World.start, construct], .nil,
    by simp [World.start, construct], .nil⟩

/-- One step: the invariant, and when the records stay complete. -/
theorem tracked_of_step {build : Build} {world after : World} {op : Op}
    (h : Classed build world ∧ world.process.Tracked) (hlaw : SegmentLaw build world op)
    (hstep : world.step build op = some after) :
    (Classed build after ∧ after.process.Tracked) ∧
      (after.process.Recorded ↔ world.process.Recorded ∧ Clean build world op) := by
  obtain ⟨middle, harrival, hshuffles⟩ := moves_of_step h.1 hstep
  obtain ⟨htracked, hrecorded⟩ := h.2.arrival hlaw harrival
  have hsame := sameSegments_of_shuffles hshuffles
  exact ⟨⟨(h.1.arrival harrival).shuffles hshuffles, hsame.tracked_iff.mpr htracked⟩,
    hsame.recorded_iff.trans hrecorded⟩

/-- After every run, the destructor returns and removes exactly the segments that the allocator
created if and only if every step of the run was clean. -/
theorem destructor_removes_created_iff (build : Build) (initialSize : ℕ) {kernel : Kernel}
    (hkernel : kernel.Consistent) {history : List (World × Op)} {world : World}
    (hrun : Run (World.step build) (SegmentLaw build) (World.start initialSize kernel) history
      world) :
    Removable world.process ↔ ∀ entry ∈ history, Clean build entry.1 entry.2 := by
  have hstart : Classed build (World.start initialSize kernel) ∧
      (World.start initialSize kernel).process.Tracked :=
    ⟨.start build initialSize kernel, .start initialSize hkernel⟩
  have hnone : (World.start initialSize kernel).process.Recorded :=
    ⟨fun _ hregion ↦ absurd hregion List.not_mem_nil,
      fun _ _ hcreated ↦ absurd hcreated List.not_mem_nil⟩
  obtain ⟨hinvariant, hrecorded⟩ := hrun.iff_forall_clean
    (fun world ↦ Classed build world ∧ world.process.Tracked) hstart
    (fun _ _ _ h hlaw hstep ↦ (tracked_of_step h hlaw hstep).1) hnone
    (fun _ _ _ h hlaw hstep ↦ (tracked_of_step h hlaw hstep).2)
  exact ⟨fun h ↦ hrecorded.mp (h.recorded hinvariant.2),
    fun h ↦ (hrecorded.mpr h).removable hinvariant.2⟩

/-- A first allocation in a system without other segments. -/
theorem segmentLaw_start (build : Build) (initialSize size : ℕ) {answers : Answers}
    (h : answers.shmat ≠ .mapped Shmat.failed.pointer) :
    SegmentLaw build (World.start initialSize ⟨[], []⟩) (.alloc size answers) where
  admits _ _ _ _ _ _ :=
    ⟨fun _ hsegment ↦ absurd hsegment List.not_mem_nil,
      fun _ hsegment ↦ absurd hsegment List.not_mem_nil⟩
  address _ _ address hrequest hshmat := by
    rw [(World.request_alloc_eq hrequest).2] at hshmat
    refine ⟨?_, fun _ hrange ↦ absurd hrange List.not_mem_nil⟩
    rintro rfl
    exact h hshmat
  foreign _ hop := nomatch hop

/-- One clean allocation, after which the destructor leaves nothing behind. -/
theorem destructor_removes_after_alloc : ∃ history world,
    Run (World.step ⟨true, 0⟩) (SegmentLaw ⟨true, 0⟩) (World.start 0 ⟨[], []⟩) history world ∧
      world.process.created = [1] ∧ Removable world.process := by
  have hstep : ((World.start 0 ⟨[], []⟩).step ⟨true, 0⟩ (.alloc 100 (.grant 7 1 (2 ^ 30)))).map
      (fun world ↦ world.process.created) = some [1] := by decide +kernel
  obtain ⟨world, hstep, hcreated⟩ := Option.map_eq_some_iff.mp hstep
  have hrun := Run.next .start (segmentLaw_start ⟨true, 0⟩ 0 100 (by decide)) hstep
  refine ⟨_, world, hrun, hcreated, (destructor_removes_created_iff ⟨true, 0⟩ 0 ?_ hrun).mpr ?_⟩
  · exact ⟨by simp, by simp, by simp⟩
  · refine List.forall_mem_singleton.mpr fun size answers draw id hrequest hverdict ↦ ?_
    rw [(World.request_alloc_eq hrequest).2] at hverdict ⊢
    obtain ⟨rfl, rfl⟩ : 7 = draw ∧ 1 = id := by simpa [verdict, Answers.grant] using hverdict
    exact ⟨by decide, by decide, by decide⟩

/-- A draw whose low 32 bits are zero makes the destructor exit, and a failing `mbind` makes it
return with the segment still there. -/
theorem destructor_exits_and_leaks :
    (∃ history world,
      Run (World.step ⟨true, 0⟩) (SegmentLaw ⟨true, 0⟩) (World.start 0 ⟨[], []⟩) history world ∧
        world.process.created = [1] ∧
        (destruct.eval world.process).1 = .error .exited) ∧
      ∃ history world,
        Run (World.step ⟨true, 0⟩) (SegmentLaw ⟨true, 0⟩) (World.start 0 ⟨[], []⟩) history world ∧
          world.process.created = [1] ∧
          (destruct.eval world.process).2.kernel.segments = [⟨1, 7, 2 ^ 24⟩] := by
  constructor
  · have hstep : ((World.start 0 ⟨[], []⟩).step ⟨true, 0⟩
        (.alloc 100 (.grant (2 ^ 32) 1 (2 ^ 30)))).map (fun world ↦
          (world.process.created, (destruct.eval world.process).1)) =
        some ([1], .error .exited) := by decide +kernel
    obtain ⟨world, hstep, hfinal⟩ := Option.map_eq_some_iff.mp hstep
    rw [Prod.mk.injEq] at hfinal
    exact ⟨_, world, .next .start (segmentLaw_start ⟨true, 0⟩ 0 100 (by decide)) hstep, hfinal⟩
  · have hstep : ((World.start 0 ⟨[], []⟩).step ⟨true, 0⟩
        (.alloc 100 ⟨[⟨7, .ok 1⟩], .mapped (2 ^ 30), -1⟩)).map (fun world ↦
          (world.process.created, (destruct.eval world.process).2.kernel.segments)) =
        some ([1], [⟨1, 7, 2 ^ 24⟩]) := by decide +kernel
    obtain ⟨world, hstep, hfinal⟩ := Option.map_eq_some_iff.mp hstep
    rw [Prod.mk.injEq] at hfinal
    exact ⟨_, world, .next .start (segmentLaw_start ⟨true, 0⟩ 0 100 (by decide)) hstep, hfinal⟩

end Systemish.HugeAlloc
