import Systemish.Foundation.Carving
import Systemish.HugeAlloc.Runs

/-!
# Memory layout

Every byte that the allocator manages has at most one owner. The Buffers of all
freelists, the Buffers of the user and the raw memory of the user are a
`Carving` of the regions in `shm_list`, and each Buffer sits at a multiple of its
class size. A reservation grows the carving by a region and cuts it into slices,
a split cuts one Buffer into halves, and `alloc` and `free_buf` only move Buffers
between a freelist and the user.
-/

namespace Systemish

open Foundation

/-- The addresses of a Buffer. -/
def Buffer.range (buffer : Buffer) : Set ℕ := bytes buffer.buf buffer.classSize

/-- The addresses of a region. -/
def ShmRegion.range (region : ShmRegion) : Set ℕ := bytes region.buf region.size

namespace HugeAlloc

/-! ## Buffers placed in regions -/

/-- Buffers and raw memory carve the regions, each Buffer at a multiple of its size. -/
structure Placed (regions : List ShmRegion) (buffers : List Buffer) (raw : List (ℕ × ℕ)) :
    Prop where
  carving : Carving (regions.map ShmRegion.range)
    (buffers.map Buffer.range ++ raw.map fun memory ↦ bytes memory.1 memory.2)
  aligned : ∀ buffer ∈ buffers, ∃ region ∈ regions,
    buffer.range ⊆ region.range ∧ buffer.classSize ∣ buffer.buf - region.buf

namespace Placed

variable {regions : List ShmRegion} {buffers : List Buffer} {raw : List (ℕ × ℕ)}

theorem empty : Placed [] [] [] := ⟨Carving.empty, by simp⟩

theorem perm {buffers' : List Buffer} (h : Placed regions buffers raw)
    (hperm : buffers.Perm buffers') : Placed regions buffers' raw where
  carving := h.carving.perm ((hperm.map _).append_right _)
  aligned buffer hbuffer := h.aligned buffer (hperm.mem_iff.mpr hbuffer)

theorem classSize_pos (h : Placed regions buffers raw) {buffer : Buffer}
    (hbuffer : buffer ∈ buffers) : 0 < buffer.classSize := by
  have hnonempty := h.carving.nonempty buffer.range
    (List.mem_append_left _ (List.mem_map_of_mem hbuffer))
  obtain ⟨address, haddress⟩ := hnonempty
  have := mem_bytes.mp haddress
  omega

/-- Two halves take the place of a Buffer. -/
theorem split {buf half : ℕ} (hhalf : 0 < half)
    (h : Placed regions (⟨buf, 2 * half⟩ :: buffers) raw) :
    Placed regions (⟨buf + half, half⟩ :: ⟨buf, half⟩ :: buffers) raw where
  carving := by
    have hlow : bytes buf half ⊆ bytes buf (2 * half) := bytes_subset le_rfl (by omega)
    have hhigh : bytes (buf + half) half ⊆ bytes buf (2 * half) :=
      bytes_subset (by omega) (by omega)
    have hdisjoint : [bytes (buf + half) half, bytes buf half].Pairwise Disjoint := by
      simpa using (bytes_disjoint le_rfl).symm
    refine h.carving.refine hdisjoint ?_ ?_
    · simpa using ⟨bytes_nonempty hhalf, bytes_nonempty hhalf⟩
    · simpa using ⟨hhigh, hlow⟩
  aligned := by
    rw [List.forall_mem_cons, List.forall_mem_cons]
    obtain ⟨⟨region, hregion, hsub, hdvd⟩, hrest⟩ := List.forall_mem_cons.mp h.aligned
    have hstart : region.buf ≤ buf := (le_of_bytes_subset (Nat.mul_pos two_pos hhalf) hsub).1
    have hdvd' : half ∣ buf - region.buf := (Nat.dvd_mul_left half 2).trans hdvd
    have hhigh : half ∣ buf + half - region.buf := by
      rw [Nat.sub_add_comm hstart]
      exact Nat.dvd_add_self_right.mpr hdvd'
    refine ⟨⟨region, hregion, ?_, hhigh⟩, ⟨region, hregion, ?_, hdvd'⟩, hrest⟩
    · exact (bytes_subset (by simp) (by simp; omega)).trans hsub
    · exact (bytes_subset (by simp) (by simp; omega)).trans hsub

/-- A fresh region is cut into slices of the largest class; what is left over has no owner. -/
theorem reserve {count : ℕ} (region : ShmRegion) (h : Placed regions buffers raw)
    (hfit : count * kMaxClassSize ≤ region.size) (hsize : 0 < region.size)
    (hfresh : ∀ old ∈ regions, Disjoint old.range region.range) :
    Placed (regions ++ [region]) (pushSlices region.buf count [] ++ buffers) raw where
  carving := by
    have hslices : (pushSlices region.buf count []).map Buffer.range =
        slices region.buf kMaxClassSize count := by
      clear hfit
      induction count with
      | zero => rfl
      | succ count ih => simp [pushSlices, slices, ih, Buffer.range]
    have hnew : region.range.Nonempty := bytes_nonempty hsize
    have hgrow := h.carving.grow hnew (by simpa using hfresh)
    rw [List.map_append, List.map_append, hslices, List.append_assoc]
    refine hgrow.refine (slices_disjoint _ _ _) (fun range hrange ↦ ?_) (slices_subset hfit)
    obtain ⟨i, _, rfl⟩ := mem_slices.mp hrange
    exact bytes_nonempty (by decide)
  aligned := by
    intro buffer hbuffer
    rcases List.mem_append.mp hbuffer with hslice | hold
    · obtain ⟨i, hi, rfl⟩ := (mem_pushSlices.mp hslice).resolve_right List.not_mem_nil
      refine ⟨region, by simp, ?_, ?_⟩
      · exact slices_subset hfit _ (mem_slices.mpr ⟨i, hi, rfl⟩)
      · rw [Nat.add_sub_cancel_left]
        exact Nat.dvd_mul_left _ _
    · obtain ⟨old, hold, hplace⟩ := h.aligned buffer hold
      exact ⟨old, List.mem_append_left _ hold, hplace⟩

/-- A fresh region goes to the user as a whole. -/
theorem addRaw (region : ShmRegion) (h : Placed regions buffers raw) (hsize : 0 < region.size)
    (hfresh : ∀ old ∈ regions, Disjoint old.range region.range) :
    Placed (regions ++ [region]) buffers ((region.buf, region.size) :: raw) where
  carving := by
    have hnew : region.range.Nonempty := bytes_nonempty hsize
    have hgrow := h.carving.grow hnew (by simpa using hfresh)
    rw [List.map_append]
    exact hgrow.perm List.perm_middle.symm
  aligned buffer hbuffer := by
    obtain ⟨old, hold, hplace⟩ := h.aligned buffer hbuffer
    exact ⟨old, List.mem_append_left _ hold, hplace⟩

variable {buffer : Buffer}

theorem existsUnique_region (h : Placed regions buffers raw) (hbuffer : buffer ∈ buffers) :
    ∃! i : Fin regions.length, buffer.range ⊆ (regions.get i).range :=
  h.carving.existsUnique_index (List.mem_append_left _ (List.mem_map_of_mem hbuffer))

/-- Only one region is around a Buffer, so the Buffer is aligned in whatever region is. -/
theorem dvd_of_subset (h : Placed regions buffers raw) (hbuffer : buffer ∈ buffers)
    {region : ShmRegion} (hregion : region ∈ regions) (hsub : buffer.range ⊆ region.range) :
    region.buf ≤ buffer.buf ∧ buffer.classSize ∣ buffer.buf - region.buf := by
  refine ⟨(le_of_bytes_subset (h.classSize_pos hbuffer) hsub).1, ?_⟩
  obtain ⟨region', hregion', hsub', hdvd⟩ := h.aligned buffer hbuffer
  obtain ⟨i, rfl⟩ := List.mem_iff_get.mp hregion
  obtain ⟨j, rfl⟩ := List.mem_iff_get.mp hregion'
  rwa [(h.existsUnique_region hbuffer).unique hsub hsub']

end Placed

/-! ## The invariant of runs -/

/-- Assumption about the operating system: `shmget` of size zero fails, and the memory that
`alloc_raw` gets overlaps no earlier region. -/
structure MemoryLaw (build : Build) (world : World) (op : Op) : Prop where
  nonempty : NonemptyLaw build world op
  disjoint : ∀ size answers draw id, world.request build op = some (size, answers) →
    verdict answers.trips = .granted draw id → answers.Usable →
    ∀ region ∈ world.process.heap.shmList,
      Disjoint region.range (bytes answers.shmat.pointer (roundUp kHugepageSize size))

/-- Every byte has at most one owner. -/
def World.Sound (world : World) : Prop :=
  Placed world.process.heap.shmList world.buffers world.raw

theorem World.Sound.arrival {build : Build} {world after : World} {op : Op} (h : world.Sound)
    (hlaw : MemoryLaw build world op) (harrival : Arrival build world op after) : after.Sound := by
  cases harrival with
  | nothing | lost | foreign => exact h
  | @reserved _ size answers draw id hrequest hsize hverdict husable =>
    have hpos := hlaw.nonempty size answers draw id hrequest hverdict
    have hfit : size / kMaxClassSize * kMaxClassSize ≤ roundUp kHugepageSize size :=
      (Nat.div_mul_le_self _ _).trans (le_roundUp hsize hpos.ne')
    have hplaced := Placed.reserve
      ⟨chooseKey draw, answers.shmat.pointer, roundUp kHugepageSize size⟩ h hfit hpos
      (hlaw.disjoint size answers draw id hrequest hverdict husable)
    have hitems := (reserve_items world.process answers draw id size).append_right world.live
    rw [List.append_assoc] at hitems
    exact hplaced.perm hitems.symm
  | @raw _ size answers draw id hrequest hverdict husable =>
    have hpos := hlaw.nonempty size answers draw id hrequest hverdict
    exact Placed.addRaw ⟨chooseKey draw, _, _⟩ h hpos
      (hlaw.disjoint size answers draw id hrequest hverdict husable)

theorem World.Sound.shuffle {build : Build} {world after : World} (hclassed : Classed build world)
    (h : world.Sound) (hshuffle : Shuffle build world after) : after.Sound := by
  cases hshuffle with
  | setPrev => exact h
  | split classI _ hclass buffer rest hsource htarget =>
    obtain ⟨others, hbefore, hafter⟩ := splitBack_items classI hclass hsource htarget
    rcases buffer with ⟨buf, classSize⟩
    obtain rfl : classSize = 2 * classMaxSize classI :=
      (hclassed.tagged.head hsource).trans (classMaxSize_succ classI)
    have hhead := Placed.perm h (hbefore.append_right world.live)
    have hsplit := hhead.split (classMaxSize_pos classI)
    rw [Nat.mul_div_cancel_left _ two_pos] at hafter
    exact hsplit.perm (hafter.append_right world.live).symm
  | take classI buffer rest hback => exact Placed.perm h (take_buffers hback)
  | put buffer hlive classI hclass => exact Placed.perm h (put_buffers classI hlive)

theorem World.Sound.start (initialSize : ℕ) (kernel : Kernel) :
    (World.start initialSize kernel).Sound := by
  rw [World.Sound, World.start_buffers]
  exact Placed.empty

theorem sound_of_run {build : Build} {initialSize : ℕ} {kernel : Kernel}
    {history : List (World × Op)} {world : World}
    (hrun : Run (World.step build) (MemoryLaw build) (World.start initialSize kernel) history
      world) :
    world.Sound :=
  invariant_of_moves World.Sound (.start initialSize kernel)
    (fun _ _ _ _ h hlaw harrival ↦ h.arrival hlaw harrival)
    (fun _ _ hclassed h hshuffle ↦ h.shuffle hclassed hshuffle) hrun

/-- What every reachable state looks like: the owners of memory are pairwise disjoint, a Buffer
lies inside exactly one region, a Buffer in a freelist has the size of its class, and it lies at a
multiple of its size. -/
theorem owners_disjoint_of_run (build : Build) (initialSize : ℕ) (kernel : Kernel)
    {history : List (World × Op)} {world : World}
    (hrun : Run (World.step build) (MemoryLaw build) (World.start initialSize kernel) history
      world) :
    (world.buffers.map Buffer.range ++
        world.raw.map fun memory ↦ bytes memory.1 memory.2).Pairwise Disjoint ∧
      (∀ buffer ∈ world.buffers, ∃! i : Fin world.process.heap.shmList.length,
        buffer.range ⊆ (world.process.heap.shmList.get i).range) ∧
      (∀ classI, ∀ buffer ∈ world.process.heap.freelist classI,
        buffer.classSize = classMaxSize classI) ∧
      (∀ buffer ∈ world.buffers, ∀ region ∈ world.process.heap.shmList,
        buffer.range ⊆ region.range →
          region.buf ≤ buffer.buf ∧ buffer.classSize ∣ buffer.buf - region.buf) := by
  have hsound := sound_of_run hrun
  exact ⟨hsound.carving.blocks_disjoint, fun buffer hbuffer ↦ hsound.existsUnique_region hbuffer,
    (classed_of_run hrun).tagged,
    fun buffer hbuffer region hregion ↦ hsound.dvd_of_subset hbuffer hregion⟩

/-- The first allocation of 100 bytes takes the last 128 bytes of a new region. -/
theorem owners_disjoint_after_alloc : ∃ history world,
    Run (World.step ⟨true, 0⟩) (MemoryLaw ⟨true, 0⟩) (World.start 0 ⟨[], []⟩) history world ∧
      world.live = [⟨2 ^ 30 + 2 ^ 24 - 128, 128⟩] ∧
      (world.buffers.map Buffer.range ++
        world.raw.map fun memory ↦ bytes memory.1 memory.2).Pairwise Disjoint := by
  have hstep : ((World.start 0 ⟨[], []⟩).step ⟨true, 0⟩ (.alloc 100 (.grant 7 1 (2 ^ 30)))).map
      World.live = some [⟨2 ^ 30 + 2 ^ 24 - 128, 128⟩] := by decide +kernel
  obtain ⟨world, hstep, hlive⟩ := Option.map_eq_some_iff.mp hstep
  have hlaw : MemoryLaw ⟨true, 0⟩ (World.start 0 ⟨[], []⟩) (.alloc 100 (.grant 7 1 (2 ^ 30))) := by
    refine ⟨fun size answers _ _ hrequest _ ↦ ?_, fun _ _ _ _ _ _ _ _ hregion ↦ ?_⟩
    · rw [(World.request_alloc_eq hrequest).1]
      decide
    · exact absurd hregion List.not_mem_nil
  have hrun := Run.next .start hlaw hstep
  exact ⟨_, world, hrun, hlive,
    (owners_disjoint_of_run ⟨true, 0⟩ 0 ⟨[], []⟩ hrun).1⟩

end HugeAlloc

end Systemish
