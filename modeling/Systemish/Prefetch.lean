import Mathlib

/-!
# Prefetching the next load

The two branches of `main` in `prefetch.c`. Both add up `do_work` of the loads `A[Ind[i]]`; one of
them also prefetches the next load, unless the index that it has just read is `N - 1`. The loads
that a branch makes are kept in order. Indices are numbers and the sum is an `int` of 32 bits.
-/

namespace Systemish.Prefetch

/-- The two arrays. Every index that `Ind` holds is below `CAP`. -/
structure Arrays where
  n : ℕ
  n_pos : 0 < n
  cap : ℕ
  ind : Fin n → Fin cap
  a : Fin cap → BitVec 32

def doWork (a : BitVec 32) : BitVec 32 :=
  (List.range 110).foldl (fun a i ↦ a ^^^ BitVec.ofNat 32 i) a

inductive Access where
  | readInd (index : ℕ)
  | prefetchA (index : ℤ)
  | readA (index : ℕ)
  deriving DecidableEq

/-- What a branch has done so far, the latest access first. -/
structure Progress where
  accesses : List Access
  ans : BitVec 32

namespace Progress

def start : Progress := ⟨[], 0⟩

def record (progress : Progress) (access : Access) : Progress :=
  { progress with accesses := access :: progress.accesses }

/-- `int load = A[index]; ans += do_work(load);`. -/
def work {arrays : Arrays} (progress : Progress) (index : Fin arrays.cap) : Progress :=
  { accesses := .readA index :: progress.accesses
    ans := progress.ans + doWork (arrays.a index) }

end Progress

namespace Arrays

variable (arrays : Arrays)

def last : Fin arrays.n := ⟨arrays.n - 1, Nat.sub_one_lt_of_lt arrays.n_pos⟩

/-- `Ind[i]`. Behind the array there is some `stray` value. -/
def indAt (stray : ℤ) (i : ℕ) : ℤ := if h : i < arrays.n then (arrays.ind ⟨i, h⟩ : ℕ) else stray

def prefetchingBody (stray : ℤ) (progress : Progress) (i : Fin arrays.n) : Progress :=
  let index := arrays.ind i
  let progress := progress.record (.readInd i)
  let progress :=
    if (index : ℕ) ≠ arrays.n - 1 then
      let nextIndex := arrays.indAt stray (i + 1)
      (progress.record (.readInd (i + 1))).record (.prefetchA nextIndex)
    else progress
  progress.work index

def prefetching (stray : ℤ) : Progress :=
  (List.finRange arrays.n).foldl (arrays.prefetchingBody stray) .start

def plainBody (progress : Progress) (i : Fin arrays.n) : Progress :=
  let index := arrays.ind i
  let progress := progress.record (.readInd i)
  progress.work index

def plain : Progress := (List.finRange arrays.n).foldl arrays.plainBody .start

/-- The access stays inside its array. -/
def InBounds : Access → Prop
  | .readInd index => index < arrays.n
  | .prefetchA index => 0 ≤ index ∧ index < arrays.cap
  | .readA index => index < arrays.cap

/-! ## One iteration -/

variable {arrays} (stray : ℤ)

theorem prefetchingBody_ans (progress : Progress) (i : Fin arrays.n) :
    (arrays.prefetchingBody stray progress i).ans =
      progress.ans + doWork (arrays.a (arrays.ind i)) := by
  unfold prefetchingBody
  dsimp only
  split <;> rfl

theorem inBounds_indAt {i : ℕ} (hi : i < arrays.n) :
    arrays.InBounds (.prefetchA (arrays.indAt stray i)) := by
  rw [indAt, dif_pos hi]
  exact ⟨Int.natCast_nonneg _, Int.ofNat_lt.mpr (Fin.isLt _)⟩

/-- The guard is on the index that was read, not on `i`. -/
theorem inBounds_prefetchingBody_iff (progress : Progress) (i : Fin arrays.n) :
    (∀ access ∈ (arrays.prefetchingBody stray progress i).accesses, arrays.InBounds access) ↔
      (∀ access ∈ progress.accesses, arrays.InBounds access) ∧
        ((arrays.ind i : ℕ) ≠ arrays.n - 1 → (i : ℕ) + 1 < arrays.n) := by
  unfold prefetchingBody
  dsimp only
  split
  · next hguard =>
    simp only [Progress.work, Progress.record, List.forall_mem_cons]
    constructor
    · rintro ⟨-, -, hnext, -, hbefore⟩
      exact ⟨hbefore, fun _ ↦ hnext⟩
    · rintro ⟨hbefore, hnext⟩
      have hi := hnext hguard
      exact ⟨Fin.isLt _, inBounds_indAt stray hi, hi, i.isLt, hbefore⟩
  · next hguard =>
    simp only [Progress.work, Progress.record, List.forall_mem_cons]
    constructor
    · rintro ⟨-, -, hbefore⟩
      exact ⟨hbefore, fun h ↦ absurd h hguard⟩
    · rintro ⟨hbefore, -⟩
      exact ⟨Fin.isLt _, i.isLt, hbefore⟩

/-! ## The loops -/

theorem ans_foldl_prefetchingBody (steps : List (Fin arrays.n)) (first second : Progress)
    (hans : first.ans = second.ans) :
    (steps.foldl (arrays.prefetchingBody stray) first).ans =
      (steps.foldl arrays.plainBody second).ans := by
  induction steps generalizing first second with
  | nil => exact hans
  | cons i steps ih =>
    apply ih
    rw [prefetchingBody_ans, hans]
    rfl

theorem inBounds_foldl_iff (steps : List (Fin arrays.n)) (progress : Progress) :
    (∀ access ∈ (steps.foldl (arrays.prefetchingBody stray) progress).accesses,
        arrays.InBounds access) ↔
      (∀ access ∈ progress.accesses, arrays.InBounds access) ∧
        ∀ i ∈ steps, (arrays.ind i : ℕ) ≠ arrays.n - 1 → (i : ℕ) + 1 < arrays.n := by
  induction steps generalizing progress with
  | nil => exact (and_iff_left fun _ h ↦ absurd h List.not_mem_nil).symm
  | cons i steps ih =>
    rw [List.foldl_cons, ih, inBounds_prefetchingBody_iff, List.forall_mem_cons, and_assoc]

/-- Only the last iteration can look too far ahead. -/
theorem forall_guard_iff :
    (∀ i : Fin arrays.n, (arrays.ind i : ℕ) ≠ arrays.n - 1 → (i : ℕ) + 1 < arrays.n) ↔
      (arrays.ind arrays.last : ℕ) = arrays.n - 1 := by
  have hpos := arrays.n_pos
  constructor
  · intro h
    by_contra hlast
    have hnext : arrays.n - 1 + 1 < arrays.n := h arrays.last hlast
    omega
  · intro hlast i hi
    have hne : i ≠ arrays.last := fun heq ↦ hi (heq ▸ hlast)
    have hval : (i : ℕ) ≠ arrays.n - 1 := fun heq ↦ hne (Fin.ext heq)
    omega

end Arrays

end Systemish.Prefetch
