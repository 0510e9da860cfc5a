import Systemish.Foundation.AddSquare
import Systemish.Foundation.Visits
import Systemish.Gpu.Grid

/-!
# Adding and squaring on the processor and on the device

`cpu_run` and the kernel of `gpu/vectorAdd/vectorAdd.cu`. Both add `A[i] + B[i]` to `C[i]` and
square it, `COMPUTE` times. The kernel sets `C[i]` to zero first, `cpu_run` starts from what the
buffer holds. An `int` has 32 bits and wraps; `COMPUTE` is any number.
-/

namespace Systemish.Gpu.VectorAdd

open Foundation

variable {n : ℕ}

structure Input (n : ℕ) where
  a : Fin n → BitVec 32
  b : Fin n → BitVec 32
  compute : ℕ

/-- `C[i] += A[i] + B[i]; C[i] *= C[i];`. -/
def Input.round (input : Input n) (i : Fin n) (c : BitVec 32) : BitVec 32 :=
  let c := c + (input.a i + input.b i)
  c * c

def vectorAdd (input : Input n) : ElementKernel n (BitVec 32) where
  guarded := true
  first _ _ := 0
  rounds := input.compute
  round i _ c := some (input.round i c)

/-- The loops are cut off after `fuel` tests of their conditions. -/
def cpuRun (fuel : ℕ) (input : Input n) (c : Fin n → BitVec 32) : Option (Fin n → BitVec 32) :=
  forLoop (1 : BitVec 32) n
    (fun i c ↦ forLoop (1 : BitVec 32) input.compute
      (fun _ c ↦ visitInt (fun i c ↦ some (input.round i c)) c i) fuel 0 c)
    fuel 0 c

/-! ## What the two compute -/

theorem cpuRun_eq {fuel : ℕ} {input : Input n} (hcompute : input.compute < 2 ^ 31)
    (hn : n < 2 ^ 31) (hfuel : input.compute < fuel ∧ n < fuel) (c : Fin n → BitVec 32) :
    cpuRun fuel input c = some fun i ↦ (input.round i)^[input.compute] (c i) := by
  have hcells : (List.range n).foldlM
      (fun c i ↦ (List.range input.compute).foldlM
        (fun c _ ↦ visit (fun i c ↦ some (input.round i c)) c i) c) c =
      some fun i ↦ (input.round i)^[input.compute] (c i) := by
    apply foldlM_cell_by_cell fun _ ↦ True
    · exact fun _ _ _ ↦ ⟨rfl, trivial⟩
    · exact fun _ ↦ trivial
  rw [cpuRun, forLoop_one _ hn hfuel.2, ← hcells]
  apply foldlM_congr
  intro i hi c
  simp only [forLoop_one _ hcompute hfuel.1, visitInt_ofNat _ _ ((List.mem_range.mp hi).trans hn)]

theorem cpuRun_returns {input : Input n} (hcompute : input.compute < 2 ^ 31) (hn : n < 2 ^ 31)
    (c : Fin n → BitVec 32) :
    Returns (fun fuel ↦ cpuRun fuel input c) fun i ↦ (input.round i)^[input.compute] (c i) :=
  .of_lt (max input.compute n) fun _ hfuel ↦ cpuRun_eq hcompute hn (max_lt_iff.mp hfuel) c

theorem cpuRun_eq_none {input : Input n} (hcompute : 2 ^ 31 ≤ input.compute) (hpos : 0 < n)
    (c : Fin n → BitVec 32) (fuel : ℕ) : cpuRun fuel input c = none := by
  have hlt : (0 : BitVec 32).toInt < n := Int.natCast_pos.mpr hpos
  apply forLoop_eq_none_of_body hlt
  exact forLoop_eq_none _ _ (by exact_mod_cast hcompute) fuel 0 c

theorem vectorAdd_after (input : Input n) (i : Fin n) (c : BitVec 32) (j : ℕ) :
    (vectorAdd input).after i c j = some ((input.round i)^[j] 0) := by
  induction j with
  | zero => rfl
  | succ j ih =>
    rw [ElementKernel.after, ih, Function.iterate_succ_apply']
    rfl

theorem vectorAdd_ensures {input : Input n} (hcompute : input.compute < 2 ^ 31) (hn : n < 2 ^ 31)
    (priorGpu : Fin n → BitVec 32) :
    ((vectorAdd input).launch (blocksPerGrid n)).Ensures priorGpu
      (· = fun i ↦ (input.round i)^[input.compute] 0) := by
  have hrounds : (input.compute : ℤ) < 2 ^ 31 := by exact_mod_cast hcompute
  exact (vectorAdd input).launch_covering_ensures rfl hn.le hrounds
    fun i ↦ vectorAdd_after input i (priorGpu i) _

/-! ## Factors of two in 32 bits -/

theorem natCast_toNat (x : BitVec 32) : (x.toNat : BitVec 32) = x := by
  rw [BitVec.natCast_eq_ofNat, BitVec.ofNat_toNat, BitVec.setWidth_eq]

theorem even_or_odd (x : BitVec 32) : Even x ∨ Odd x := by
  rw [← natCast_toNat x]
  exact (Nat.even_or_odd x.toNat).imp Even.natCast Odd.natCast

theorem pow_dvd_iff {k : ℕ} (hk : k ≤ 32) (x : BitVec 32) : 2 ^ k ∣ x ↔ 2 ^ k ∣ x.toNat := by
  constructor
  · rintro ⟨y, rfl⟩
    have hcast : 2 ^ k * y = ((2 ^ k * y.toNat : ℕ) : BitVec 32) := by
      rw [Nat.cast_mul, Nat.cast_pow, Nat.cast_ofNat, natCast_toNat]
    rw [hcast, BitVec.natCast_eq_ofNat, BitVec.toNat_ofNat, Nat.dvd_mod_iff (pow_dvd_pow 2 hk)]
    exact dvd_mul_right _ _
  · intro h
    have hcast := Nat.cast_dvd_cast (α := BitVec 32) h
    rwa [natCast_toNat, Nat.cast_pow, Nat.cast_ofNat] at hcast

theorem two_pow_eq_zero : (2 : BitVec 32) ^ 32 = 0 := by decide

theorem ne_zero_of_hasTwos {k : ℕ} {x : BitVec 32} (h : HasTwos k x) (hk : k < 32) : x ≠ 0 := by
  obtain ⟨u, ⟨m, rfl⟩, rfl⟩ := h
  intro hzero
  have hlast : (2 : BitVec 32) ^ 31 = 0 := by
    calc
      (2 : BitVec 32) ^ 31 = 2 ^ (31 - k + k) * (2 * m + 1) - 2 ^ 32 * m := by
        rw [Nat.sub_add_cancel (Nat.le_of_lt_succ hk)]
        ring
      _ = 2 ^ (31 - k) * (2 ^ k * (2 * m + 1)) - 0 * m := by
        rw [two_pow_eq_zero, pow_add, mul_assoc]
      _ = 0 := by rw [hzero, mul_zero, zero_mul, sub_zero]
  exact absurd hlast (by decide)

theorem exists_hasTwos {x : BitVec 32} (h : x ≠ 0) : ∃ k, HasTwos k x := by
  have hnat : x.toNat ≠ 0 := fun hzero ↦ h (BitVec.eq_of_toNat_eq hzero)
  obtain ⟨k, u, hu, hx⟩ := Nat.exists_eq_two_pow_mul_odd hnat
  refine ⟨k, u, hu.natCast, ?_⟩
  rw [← natCast_toNat x, hx, Nat.cast_mul, Nat.cast_pow, Nat.cast_ofNat]

/-! ## When nothing is left of the old contents -/

/-- The number of factors of two that are enough for an old content to be forgotten. -/
def twosNeeded (compute : ℕ) : ℕ := if compute < 20 then 32 - compute - compute / 2 else 1

theorem twosNeeded_le (compute : ℕ) : twosNeeded compute ≤ 32 := by
  rw [twosNeeded]
  split <;> omega

theorem eq_of_pow_dvd_sub {c d : BitVec 32} (h : 2 ^ 32 ∣ c - d) : c = d := by
  rw [two_pow_eq_zero, zero_dvd_iff] at h
  exact sub_eq_zero.mp h

/-- Twenty rounds forget all even contents. -/
theorem twenty_rounds_eq (s : BitVec 32) {c : BitVec 32} (hc : Even c) :
    (addSquare s)^[20] c = (addSquare s)^[20] 0 := by
  have heven : Even ((addSquare s)^[4] 0) :=
    even_two_rounds even_or_odd s (even_two_rounds even_or_odd s Even.zero)
  have hpairs := pow_dvd_pairs even_or_odd s (k := 6) heven (pow_dvd_four_rounds even_or_odd s hc) 8
  rw [← Function.iterate_add_apply, ← Function.iterate_add_apply] at hpairs
  exact eq_of_pow_dvd_sub hpairs.2

theorem iterate_eq_of_dvd (s : BitVec 32) {c : BitVec 32} {compute : ℕ}
    (h : 2 ^ twosNeeded compute ∣ c) :
    (addSquare s)^[compute] c = (addSquare s)^[compute] 0 := by
  rw [twosNeeded] at h
  split at h
  · next hfew =>
    obtain ⟨k, hk⟩ : ∃ k, 32 - compute - compute / 2 = k + 2 :=
      ⟨30 - compute - compute / 2, by omega⟩
    rw [hk] at h
    have hdvd := pow_dvd_iterate_sub even_or_odd s (c := c) Even.zero (by rwa [sub_zero]) compute
    have hexp : k + 2 + compute + compute / 2 = 32 := by omega
    rw [hexp] at hdvd
    exact eq_of_pow_dvd_sub hdvd
  · next hmany =>
    obtain ⟨more, rfl⟩ := Nat.exists_eq_add_of_le' (not_lt.mp hmany)
    rw [pow_one] at h
    rw [Function.iterate_add_apply, Function.iterate_add_apply,
      twenty_rounds_eq s (even_iff_two_dvd.mpr h)]

/-- Odd contents are never forgotten. -/
theorem iterate_ne_of_odd (s : BitVec 32) {c : BitVec 32} (h : Odd c) (compute : ℕ) :
    (addSquare s)^[compute] c ≠ (addSquare s)^[compute] 0 := by
  have hsub : Odd (c - 0) := by rwa [sub_zero]
  have htwos := hasTwos_zero (odd_iterate_sub s hsub compute)
  exact sub_ne_zero.mp (ne_zero_of_hasTwos htwos (by decide))

/-- For a content with a single factor of two, some `s` makes the first round gain at most three
more. -/
theorem exists_first_round {c : BitVec 32} (h : HasTwos 1 c) :
    ∃ r : BitVec 32, ∃ k ≤ 1,
      HasTwos (k + 3) (addSquare (4 * r + 1) c - addSquare (4 * r + 1) 0) := by
  obtain ⟨u, hu, rfl⟩ := h
  have hround (s : BitVec 32) :
      addSquare s (2 ^ 1 * u) - addSquare s 0 = 2 ^ 2 * u * (u + s) := by
    unfold addSquare
    ring
  have hfirst : HasTwos 2 (2 ^ 2 * u) := ⟨u, hu, rfl⟩
  obtain ⟨m, rfl⟩ := hu
  simp only [hround]
  rcases even_or_odd m with ⟨q, rfl⟩ | ⟨q, rfl⟩
  · have hsecond : HasTwos 1 (2 * (q + q) + 1 + (4 * 0 + 1)) := ⟨2 * q + 1, ⟨q, rfl⟩, by ring⟩
    exact ⟨0, 0, Nat.zero_le 1, hfirst.mul hsecond⟩
  · have hsecond : HasTwos 2 (2 * (2 * q + 1) + 1 + (4 * -q + 1)) := ⟨1, odd_one, by ring⟩
    exact ⟨-q, 1, le_rfl, hfirst.mul hsecond⟩

/-- A content with one factor of two is not forgotten in fewer than twenty rounds. -/
theorem exists_iterate_ne_of_hasTwos_one {c : BitVec 32} (h : HasTwos 1 c) {compute : ℕ}
    (hfew : compute < 20) : ∃ s, (addSquare s)^[compute] c ≠ (addSquare s)^[compute] 0 := by
  obtain ⟨r, k, hk, hround⟩ := exists_first_round h
  refine ⟨4 * r + 1, ?_⟩
  match compute with
  | 0 => exact ne_zero_of_hasTwos h (by decide)
  | 1 => exact sub_ne_zero.mp (ne_zero_of_hasTwos hround (by omega))
  | n + 2 =>
    have htwos := hasTwos_iterate_sub_of_hasTwos rfl (hasTwos_addSquare_add rfl Even.zero)
      (even_addSquare_addSquare rfl Even.zero) hround n
    exact sub_ne_zero.mp (ne_zero_of_hasTwos htwos (by omega))

theorem exists_iterate_ne {c : BitVec 32} {compute : ℕ} (h : ¬ 2 ^ twosNeeded compute ∣ c) :
    ∃ s, (addSquare s)^[compute] c ≠ (addSquare s)^[compute] 0 := by
  rw [twosNeeded] at h
  split at h
  · next hfew =>
    have hne : c ≠ 0 := by
      rintro rfl
      exact h (dvd_zero _)
    obtain ⟨k, hk⟩ := exists_hasTwos hne
    have hlt : k < 32 - compute - compute / 2 := by
      obtain ⟨u, -, rfl⟩ := hk
      by_contra hle
      exact h ((pow_dvd_pow 2 (not_lt.mp hle)).mul_right u)
    match k, hk, hlt with
    | 0, ⟨u, hu, hc⟩, _ =>
      rw [pow_zero, one_mul] at hc
      exact ⟨0, iterate_ne_of_odd 0 (hc ▸ hu) compute⟩
    | 1, hk, _ => exact exists_iterate_ne_of_hasTwos_one hk hfew
    | k + 2, hk, hlt =>
      have hs : (1 : BitVec 32) = 4 * 0 + 1 := by ring
      have htwos := hasTwos_iterate_sub hs Even.zero (c := c) (by rwa [sub_zero]) compute
      exact ⟨1, sub_ne_zero.mp (ne_zero_of_hasTwos htwos (by omega))⟩
  · rw [pow_one, ← even_iff_two_dvd] at h
    exact ⟨0, iterate_ne_of_odd 0 ((even_or_odd c).resolve_left h) compute⟩

/-- With no round and with twenty rounds or more, it makes no difference what is added. -/
theorem iterate_eq_iff_dvd (s c : BitVec 32) {compute : ℕ}
    (hcompute : compute = 0 ∨ 20 ≤ compute) :
    (addSquare s)^[compute] c = (addSquare s)^[compute] 0 ↔ 2 ^ twosNeeded compute ∣ c := by
  refine ⟨fun heq ↦ ?_, iterate_eq_of_dvd s⟩
  rcases hcompute with rfl | hmany
  · have hzero : c = 0 := heq
    rw [hzero]
    exact dvd_zero _
  · rw [twosNeeded, if_neg (not_lt.mpr hmany), pow_one, ← even_iff_two_dvd]
    exact (even_or_odd c).resolve_right fun hodd ↦ iterate_ne_of_odd s hodd compute heq

/-! ## The two runs -/

/-- The verification in `main`: no difference exceeds one. -/
def Verified (hCCpu hC : Fin n → BitVec 32) : Prop := ∀ i, ¬ |(hCCpu i - hC i).toInt| > 1

theorem verified_self (c : Fin n → BitVec 32) : Verified c c := by
  intro i
  rw [BitVec.sub_self, BitVec.toInt_zero]
  decide

/-- `cpu_run` and the kernel, with its threads in any order, come to an end and leave the same
vector, so that the verification passes. -/
def Agrees (input : Input n) (priorCpu priorGpu : Fin n → BitVec 32) : Prop :=
  ((vectorAdd input).launch (blocksPerGrid n)).Ensures priorGpu fun final ↦
    ∃ c, Returns (fun fuel ↦ cpuRun fuel input priorCpu) c ∧ c = final ∧ Verified c final

theorem Input.round_eq (input : Input n) (i : Fin n) :
    input.round i = addSquare (input.a i + input.b i) := rfl

theorem agrees_iff_iterate {input : Input n} (hcompute : input.compute < 2 ^ 31) (hn : n < 2 ^ 31)
    (priorCpu priorGpu : Fin n → BitVec 32) :
    Agrees input priorCpu priorGpu ↔
      ∀ i, (input.round i)^[input.compute] (priorCpu i) = (input.round i)^[input.compute] 0 := by
  have hcpu := cpuRun_returns hcompute hn priorCpu
  have hgpu := vectorAdd_ensures hcompute hn priorGpu
  constructor
  · intro hagrees i
    obtain ⟨-, state, -, -, hfinal, c, hc, heq, -⟩ := (hgpu.and hagrees).exists_end
    have hsame := (hcpu.unique hc).trans (heq.trans hfinal)
    exact congrFun hsame i
  · intro hforgets
    apply hgpu.mono
    rintro final rfl
    have heq := funext hforgets
    exact ⟨_, hcpu, heq, heq ▸ verified_self _⟩

theorem not_agrees {input : Input n} (hcompute : 2 ^ 31 ≤ input.compute) (hpos : 0 < n)
    (priorCpu priorGpu : Fin n → BitVec 32) : ¬ Agrees input priorCpu priorGpu := by
  intro hagrees
  obtain ⟨-, -, -, -, c, hc, -⟩ := hagrees.exists_end
  exact not_returns_of_eq_none (cpuRun_eq_none hcompute hpos priorCpu) c hc

/-- With `N` a positive `int`, the processor and the device compute the same vector for all `A` and
`B`, whatever the device's buffer held before, if and only if `COMPUTE` fits into an `int` and each
number that the processor's buffer held has as many factors of two as so many rounds need. With no
round and with twenty or more, that is the condition for each single `A` and `B`, too. -/
theorem cpuRun_agrees_iff (compute : ℕ) (hpos : 0 < n) (hn : n < 2 ^ 31)
    (priorCpu priorGpu : Fin n → BitVec 32) :
    ((∀ a b, Agrees ⟨a, b, compute⟩ priorCpu priorGpu) ↔
        compute < 2 ^ 31 ∧ ∀ i, 2 ^ twosNeeded compute ∣ (priorCpu i).toNat) ∧
      (compute = 0 ∨ 20 ≤ compute → ∀ a b,
        (Agrees ⟨a, b, compute⟩ priorCpu priorGpu ↔
          compute < 2 ^ 31 ∧ ∀ i, 2 ^ twosNeeded compute ∣ (priorCpu i).toNat)) := by
  have hlt {a b : Fin n → BitVec 32} (hagrees : Agrees ⟨a, b, compute⟩ priorCpu priorGpu) :
      compute < 2 ^ 31 := by
    by_contra hlarge
    have hcompute : 2 ^ 31 ≤ (⟨a, b, compute⟩ : Input n).compute := not_lt.mp hlarge
    exact not_agrees hcompute hpos priorCpu priorGpu hagrees
  simp only [← pow_dvd_iff (twosNeeded_le compute)]
  constructor
  · constructor
    · intro hall
      have hcompute := hlt (hall 0 0)
      refine ⟨hcompute, fun i ↦ ?_⟩
      by_contra hnot
      obtain ⟨s, hs⟩ := exists_iterate_ne hnot
      have heq := (agrees_iff_iterate hcompute hn priorCpu priorGpu).mp (hall (fun _ ↦ s) 0) i
      rw [Input.round_eq] at heq
      change (addSquare (s + 0))^[compute] _ = (addSquare (s + 0))^[compute] _ at heq
      rw [add_zero] at heq
      exact hs heq
    · rintro ⟨hcompute, hdvd⟩ a b
      exact (agrees_iff_iterate hcompute hn priorCpu priorGpu).mpr
        fun i ↦ iterate_eq_of_dvd _ (hdvd i)
  · intro hrounds a b
    constructor
    · intro hagrees
      have hcompute := hlt hagrees
      refine ⟨hcompute, fun i ↦ (iterate_eq_iff_dvd (a i + b i) _ hrounds).mp ?_⟩
      exact (agrees_iff_iterate hcompute hn priorCpu priorGpu).mp hagrees i
    · rintro ⟨hcompute, hdvd⟩
      exact (agrees_iff_iterate hcompute hn priorCpu priorGpu).mpr
        fun i ↦ iterate_eq_of_dvd _ (hdvd i)

/-- A hundred rounds, as in the program, on a buffer that held two and six. -/
theorem cpuRun_agrees_hundred_rounds :
    Agrees ⟨fun _ ↦ 3, fun i ↦ if i = 0 then 4 else 7, 100⟩ (fun i : Fin 2 ↦ if i = 0 then 2 else 6)
      fun _ ↦ 5 :=
  (cpuRun_agrees_iff 100 (by decide) (by decide) _ _).1.mpr ⟨by decide, by decide⟩ _ _

/-- One round on a buffer that held three: the processor gets nine, the device zero, and the
verification fails. -/
theorem stale_buffer_differs :
    let input : Input 1 := ⟨fun _ ↦ 0, fun _ ↦ 0, 1⟩
    Returns (fun fuel ↦ cpuRun fuel input fun _ ↦ 3) (fun _ ↦ 9) ∧
      ∃ history state,
        ((vectorAdd input).launch (blocksPerGrid 1)).IsRun (fun _ ↦ 0) history state ∧
        (∀ thread, state.point thread = .returned) ∧ state.memory = (fun _ ↦ 0) ∧
        ¬ Verified (fun _ ↦ 9) state.memory := by
  intro input
  have hcompute : input.compute < 2 ^ 31 := by decide
  obtain ⟨history, state, hrun, hreturned, hfinal⟩ :=
    (vectorAdd_ensures hcompute (by decide) fun _ ↦ 0).exists_end
  have hzero : state.memory = fun _ ↦ 0 := hfinal
  refine ⟨cpuRun_returns hcompute (by decide) _, history, state, hrun, hreturned, hzero, ?_⟩
  rw [hzero]
  exact fun hverified ↦ hverified 0 (by decide)

end Systemish.Gpu.VectorAdd
