import Mathlib

/-!
# Carving regions into disjoint blocks

Memory managers hand out blocks cut from a growing family of regions. The
bookkeeping fact is the same for all of them: the blocks are pairwise disjoint
and every block lies inside one region. Two rules keep it: a new region may
enter as one block, and a block may be replaced by disjoint pieces of itself.
Nothing depends on how the blocks are stored, so any reordering keeps it too.
-/

namespace Systemish.Foundation

section General

variable {α : Type*}

/-- Pairwise disjoint non-empty blocks, each inside one of pairwise disjoint regions. -/
structure Carving (regions blocks : List (Set α)) : Prop where
  regions_disjoint : regions.Pairwise Disjoint
  blocks_disjoint : blocks.Pairwise Disjoint
  nonempty : ∀ block ∈ blocks, block.Nonempty
  placed : ∀ block ∈ blocks, ∃ region ∈ regions, block ⊆ region

namespace Carving

variable {regions blocks pieces : List (Set α)} {region block : Set α}

theorem empty : Carving ([] : List (Set α)) [] :=
  ⟨.nil, .nil, by simp, by simp⟩

/-- The order in which blocks are stored does not matter. -/
theorem perm {blocks' : List (Set α)} (h : Carving regions blocks) (hperm : blocks.Perm blocks') :
    Carving regions blocks' where
  regions_disjoint := h.regions_disjoint
  blocks_disjoint := h.blocks_disjoint.perm hperm fun hdisjoint ↦ hdisjoint.symm
  nonempty block hblock := h.nonempty block (hperm.mem_iff.mpr hblock)
  placed block hblock := h.placed block (hperm.mem_iff.mpr hblock)

/-- A fresh region enters as one block of its own. -/
theorem grow (h : Carving regions blocks) (hregion : region.Nonempty)
    (hfresh : ∀ old ∈ regions, Disjoint old region) :
    Carving (regions ++ [region]) (region :: blocks) where
  regions_disjoint := by
    rw [List.pairwise_append]
    exact ⟨h.regions_disjoint, List.pairwise_singleton _ _, by simpa using hfresh⟩
  blocks_disjoint := by
    refine List.pairwise_cons.mpr ⟨fun block hblock ↦ ?_, h.blocks_disjoint⟩
    obtain ⟨old, hold, hsub⟩ := h.placed block hblock
    exact ((hfresh old hold).mono_left hsub).symm
  nonempty := by
    simpa only [List.forall_mem_cons] using ⟨hregion, h.nonempty⟩
  placed := by
    rw [List.forall_mem_cons]
    refine ⟨⟨region, by simp, subset_rfl⟩, fun block hblock ↦ ?_⟩
    obtain ⟨old, hold, hsub⟩ := h.placed block hblock
    exact ⟨old, by simp [hold], hsub⟩

/-- A block may be replaced by disjoint non-empty pieces of itself. -/
theorem refine (h : Carving regions (block :: blocks)) (hdisjoint : pieces.Pairwise Disjoint)
    (hnonempty : ∀ piece ∈ pieces, piece.Nonempty) (hsub : ∀ piece ∈ pieces, piece ⊆ block) :
    Carving regions (pieces ++ blocks) where
  regions_disjoint := h.regions_disjoint
  blocks_disjoint := by
    obtain ⟨hblock, hblocks⟩ := List.pairwise_cons.mp h.blocks_disjoint
    refine List.pairwise_append.mpr ⟨hdisjoint, hblocks, fun piece hpiece other hother ↦ ?_⟩
    exact (hblock other hother).mono_left (hsub piece hpiece)
  nonempty := by
    intro piece hpiece
    rcases List.mem_append.mp hpiece with hpiece | hpiece
    · exact hnonempty piece hpiece
    · exact h.nonempty piece (List.mem_cons_of_mem _ hpiece)
  placed := by
    intro piece hpiece
    rcases List.mem_append.mp hpiece with hpiece | hpiece
    · obtain ⟨region, hregion, hblock⟩ := h.placed block (List.mem_cons_self ..)
      exact ⟨region, hregion, (hsub piece hpiece).trans hblock⟩
    · exact h.placed piece (List.mem_cons_of_mem _ hpiece)

/-- Disjoint regions leave a non-empty block only one place to be. -/
theorem existsUnique_index {ρ : Type*} {regions : List ρ} {extent : ρ → Set α}
    (h : Carving (regions.map extent) blocks) (hblock : block ∈ blocks) :
    ∃! i : Fin regions.length, block ⊆ extent (regions.get i) := by
  obtain ⟨_, hmem, hsub⟩ := h.placed block hblock
  obtain ⟨region, hregion, rfl⟩ := List.mem_map.mp hmem
  obtain ⟨i, rfl⟩ := List.mem_iff_get.mp hregion
  refine ⟨i, hsub, fun j hsub' ↦ ?_⟩
  by_contra hne
  obtain ⟨point, hpoint⟩ := h.nonempty block hblock
  have hpairwise := List.pairwise_iff_get.mp (List.pairwise_map.mp h.regions_disjoint)
  have hdisjoint : Disjoint (extent (regions.get j)) (extent (regions.get i)) := by
    rcases Nat.lt_or_gt_of_ne (Fin.val_ne_of_ne hne) with hlt | hlt
    · exact hpairwise j i hlt
    · exact (hpairwise i j hlt).symm
  exact Set.disjoint_left.mp hdisjoint (hsub' hpoint) (hsub hpoint)

end Carving

end General

/-! ## Byte ranges -/

/-- The addresses of `size` bytes from `start` on. -/
def bytes (start size : ℕ) : Set ℕ := Set.Ico start (start + size)

theorem mem_bytes {start size address : ℕ} :
    address ∈ bytes start size ↔ start ≤ address ∧ address < start + size := Iff.rfl

theorem bytes_nonempty {start size : ℕ} (h : 0 < size) : (bytes start size).Nonempty :=
  ⟨start, by rw [mem_bytes]; omega⟩

theorem bytes_subset {start size start' size' : ℕ} (hstart : start' ≤ start)
    (hstop : start + size ≤ start' + size') : bytes start size ⊆ bytes start' size' :=
  Set.Ico_subset_Ico hstart hstop

theorem bytes_disjoint {start size start' size' : ℕ} (h : start + size ≤ start') :
    Disjoint (bytes start size) (bytes start' size') := by
  rw [bytes, bytes, Set.Ico_disjoint_Ico]
  omega

/-- The start of a non-empty range inside another lies inside it, and so does its end. -/
theorem le_of_bytes_subset {start size start' size' : ℕ} (hsize : 0 < size)
    (h : bytes start size ⊆ bytes start' size') :
    start' ≤ start ∧ start + size ≤ start' + size' := by
  have hfirst := h (show start ∈ bytes start size by rw [mem_bytes]; omega)
  have hlast := h (show start + size - 1 ∈ bytes start size by rw [mem_bytes]; omega)
  rw [mem_bytes] at hfirst hlast
  omega

/-- `count` neighbouring ranges of `size` bytes, the last one first. -/
def slices (start size : ℕ) : ℕ → List (Set ℕ)
  | 0 => []
  | count + 1 => bytes (start + count * size) size :: slices start size count

theorem mem_slices {start size count : ℕ} {range : Set ℕ} :
    range ∈ slices start size count ↔ ∃ i < count, range = bytes (start + i * size) size := by
  induction count with
  | zero => simp [slices]
  | succ count ih =>
    simp only [slices, List.mem_cons, ih, Nat.lt_succ_iff_lt_or_eq, or_and_right, exists_or,
      exists_eq_left]
    exact or_comm

theorem slices_disjoint (start size count : ℕ) : (slices start size count).Pairwise Disjoint := by
  induction count with
  | zero => exact .nil
  | succ count ih =>
    refine List.pairwise_cons.mpr ⟨fun range hrange ↦ ?_, ih⟩
    obtain ⟨i, hi, rfl⟩ := mem_slices.mp hrange
    have hstop : (i + 1) * size ≤ count * size := Nat.mul_le_mul_right size hi
    exact (bytes_disjoint (by rw [Nat.add_mul] at hstop; omega)).symm

theorem slices_subset {start size count total : ℕ} (h : count * size ≤ total) :
    ∀ range ∈ slices start size count, range ⊆ bytes start total := by
  intro range hrange
  obtain ⟨i, hi, rfl⟩ := mem_slices.mp hrange
  have hstop : (i + 1) * size ≤ count * size := Nat.mul_le_mul_right size hi
  exact bytes_subset (by omega) (by rw [Nat.add_mul] at hstop; omega)

end Systemish.Foundation
