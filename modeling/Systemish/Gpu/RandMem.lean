import Systemish.Foundation.Visits
import Systemish.Goto.Fpp
import Systemish.Gpu.Grid

/-!
# Random accesses to a log

The two versions of `cpu_run` in `gpu/randMem/randMem.cu`, which `USE_INTERLEAVING` chooses from,
and the kernel of the same program. All of them replace each packet by the entry of the log that
it points to, `DEPTH` times. An access outside `log` or `pkts` is a fault. The counters of all
loops are `int`s, and `DEPTH` is any number.
-/

namespace Systemish.Gpu.RandMem

open Foundation Goto

variable {logCap n : ℕ}

/-- The log. Its entries are indices of it. -/
abbrev Log (logCap : ℕ) := Fin logCap → IndexInt logCap

/-- `log[value]`. -/
def Log.read (log : Log logCap) (value : CInt) : Option CInt :=
  (readAt log value).map Subtype.val

/-- `pkts[i] = log[pkts[i]]`. -/
def chaseAt (log : Log logCap) (pkts : Fin n → CInt) (i : CInt) : Option (Fin n → CInt) :=
  visitInt (fun _ value ↦ log.read value) pkts i

/-- `cpu_run` with `USE_INTERLEAVING`: eight packets at a time. The loops are cut off after `fuel`
tests of their conditions. -/
def cpuRunInterleaved (fuel : ℕ) (log : Log logCap) (depth : ℕ) (pkts : Fin n → CInt) :
    Option (Fin n → CInt) :=
  forLoop 8 n
    (fun i pkts ↦ forLoop (1 : CInt) depth
      (fun _ pkts ↦ (List.range 8).foldlM
        (fun pkts lane ↦ chaseAt log pkts (i + BitVec.ofNat 32 lane)) pkts) fuel 0 pkts)
    fuel 0 pkts

/-- `cpu_run` without. -/
def cpuRun (fuel : ℕ) (log : Log logCap) (depth : ℕ) (pkts : Fin n → CInt) :
    Option (Fin n → CInt) :=
  forLoop 1 n
    (fun i pkts ↦ forLoop (1 : CInt) depth (fun _ pkts ↦ chaseAt log pkts i) fuel 0 pkts)
    fuel 0 pkts

def vectorAdd (n : ℕ) (log : Log logCap) (depth : ℕ) : ElementKernel n CInt where
  guarded := true
  first _ value := value
  rounds := depth
  round _ _ value := log.read value

/-! ## Following the log -/

/-- The log as a map on the indices that it holds. -/
def Log.next (log : Log logCap) (entry : IndexInt logCap) : IndexInt logCap := log entry.toFin

/-- What all versions are to leave behind. -/
def chased (log : Log logCap) (depth : ℕ) (pkts : Fin n → IndexInt logCap) : Fin n → CInt :=
  fun i ↦ (log.next^[depth] (pkts i)).val

theorem Log.read_val (log : Log logCap) (entry : IndexInt logCap) :
    log.read entry.val = some (log.next entry).val := by
  rw [Log.read, readAt_val, Option.map_some, Log.next]

/-- `log.next` on all `int`s. -/
def Log.nextValue (log : Log logCap) (value : CInt) : CInt :=
  if h : InRange logCap value then (log.next ⟨value, h⟩).val else value

theorem Log.nextValue_val (log : Log logCap) (entry : IndexInt logCap) :
    log.nextValue entry.val = (log.next entry).val := dif_pos entry.2

theorem Log.iterate_nextValue (log : Log logCap) (k : ℕ) (entry : IndexInt logCap) :
    log.nextValue^[k] entry.val = (log.next^[k] entry).val := by
  have hsemiconj : Function.Semiconj Subtype.val log.next log.nextValue :=
    fun entry ↦ (log.nextValue_val entry).symm
  exact (hsemiconj.iterate_right k entry).symm

/-- A packet stays an index of the log. -/
theorem Log.read_inRange (log : Log logCap) (value : CInt) (h : InRange logCap value) :
    log.read value = some (log.nextValue value) ∧ InRange logCap (log.nextValue value) := by
  rw [log.nextValue_val ⟨value, h⟩]
  exact ⟨log.read_val ⟨value, h⟩, (log.next ⟨value, h⟩).2⟩

/-! ## The loops of the processor -/

theorem iterate_eq_chased (log : Log logCap) (depth : ℕ) (pkts : Fin n → IndexInt logCap) :
    (fun i ↦ log.nextValue^[depth] (pkts i).val) = chased log depth pkts :=
  funext fun i ↦ log.iterate_nextValue depth (pkts i)

theorem chaseAt_ofNat (log : Log logCap) (pkts : Fin n → CInt) {i : ℕ} (hi : i < 2 ^ 31) :
    chaseAt log pkts (BitVec.ofNat 32 i) = visit (fun _ value ↦ log.read value) pkts i :=
  visitInt_ofNat _ _ hi

theorem cpuRun_eq {fuel depth : ℕ} (log : Log logCap) (hdepth : depth < 2 ^ 31) (hn : n < 2 ^ 31)
    (hfuel : depth < fuel ∧ n < fuel) (pkts : Fin n → IndexInt logCap) :
    cpuRun fuel log depth (fun i ↦ (pkts i).val) = some (chased log depth pkts) := by
  have hcells := foldlM_cell_by_cell (InRange logCap) (fun _ : Fin n ↦ log.read_inRange) depth
    fun i ↦ (pkts i).2
  rw [cpuRun, forLoop_one _ hn hfuel.2, ← iterate_eq_chased, ← hcells]
  apply foldlM_congr
  intro i hi pkts
  have hlt := (List.mem_range.mp hi).trans hn
  simp only [forLoop_one _ hdepth hfuel.1, chaseAt_ofNat log _ hlt]

/-- The order of the visits with `USE_INTERLEAVING`. -/
def interleavedOrder (groups depth : ℕ) : List ℕ :=
  (List.range groups).flatMap fun group ↦
    (List.range depth).flatMap fun _ ↦ (List.range 8).map (8 * group + ·)

theorem mem_lanes {group index : ℕ} :
    index ∈ (List.range 8).map (8 * group + ·) ↔ index / 8 = group := by
  rw [List.mem_map]
  constructor
  · rintro ⟨lane, hlane, rfl⟩
    have hlt := List.mem_range.mp hlane
    omega
  · rintro rfl
    exact ⟨index % 8, List.mem_range.mpr (Nat.mod_lt _ (by decide)), Nat.div_add_mod index 8⟩

theorem lt_of_mem_interleavedOrder {groups depth index : ℕ}
    (h : index ∈ interleavedOrder groups depth) : index < 8 * groups := by
  obtain ⟨group, hgroup, hinner⟩ := List.mem_flatMap.mp h
  obtain ⟨_, _, hlanes⟩ := List.mem_flatMap.mp hinner
  have hlt := List.mem_range.mp hgroup
  have hdiv := mem_lanes.mp hlanes
  omega

/-- Each packet is visited in one group, once per level. -/
theorem count_interleavedOrder {groups index : ℕ} (depth : ℕ) (h : index < 8 * groups) :
    (interleavedOrder groups depth).count index = depth := by
  have honly (group : ℕ) (hne : group ≠ index / 8) :
      index ∉ (List.range depth).flatMap fun _ ↦ (List.range 8).map (8 * group + ·) := by
    intro hinner
    obtain ⟨_, _, hlanes⟩ := List.mem_flatMap.mp hinner
    exact hne (mem_lanes.mp hlanes).symm
  have hnodup : ((List.range 8).map (8 * (index / 8) + ·)).Nodup :=
    List.nodup_range.map fun _ _ heq ↦ Nat.add_left_cancel heq
  rw [interleavedOrder, count_flatMap_range _ (Nat.div_lt_of_lt_mul h) honly, count_flatMap_const,
    List.count_eq_one_of_mem hnodup (mem_lanes.mpr rfl), Nat.mul_one]

theorem cpuRunInterleaved_eq_foldlM {fuel depth groups : ℕ} (log : Log logCap)
    (hdepth : depth < 2 ^ 31) (hn : 8 * groups < 2 ^ 31) (hfuel : depth < fuel ∧ 8 * groups < fuel)
    (pkts : Fin (8 * groups) → CInt) :
    cpuRunInterleaved fuel log depth pkts =
      (interleavedOrder groups depth).foldlM (visit fun _ value ↦ log.read value) pkts := by
  have hloop := @forLoop_eq_foldlM 31 _ (8 * groups : ℕ) fuel 8 groups
    (fun i pkts ↦ forLoop (1 : CInt) depth
      (fun _ pkts ↦ (List.range 8).foldlM
        (fun pkts lane ↦ chaseAt log pkts (i + BitVec.ofNat 32 lane)) pkts) fuel 0 pkts)
    (fun k hk ↦ by omega) (by omega) (by omega) (by omega) pkts
  refine hloop.trans ?_
  simp only [interleavedOrder, foldlM_flatMap, List.foldlM_map]
  apply foldlM_congr
  intro group hgroup pkts
  rw [forLoop_one _ hdepth hfuel.1]
  apply foldlM_congr
  intro _ _ pkts
  apply foldlM_congr
  intro lane hlane pkts
  have hlt : 8 * group + lane < 2 ^ 31 := by
    have hgroups := List.mem_range.mp hgroup
    have height := List.mem_range.mp hlane
    omega
  rw [← BitVec.ofNat_add, Nat.mul_comm group 8]
  exact chaseAt_ofNat log pkts hlt

theorem cpuRunInterleaved_eq {fuel depth groups : ℕ} (log : Log logCap) (hdepth : depth < 2 ^ 31)
    (hn : 8 * groups < 2 ^ 31) (hfuel : depth < fuel ∧ 8 * groups < fuel)
    (pkts : Fin (8 * groups) → IndexInt logCap) :
    cpuRunInterleaved fuel log depth (fun i ↦ (pkts i).val) = some (chased log depth pkts) := by
  have hvisits := foldlM_visit (InRange logCap) (fun _ ↦ log.read_inRange)
    (interleavedOrder groups depth) (fun _ ↦ lt_of_mem_interleavedOrder) fun i ↦ (pkts i).2
  rw [cpuRunInterleaved_eq_foldlM log hdepth hn hfuel, ← iterate_eq_chased]
  refine hvisits.trans ?_
  simp only [count_interleavedOrder depth (Fin.isLt _)]

/-! ## The kernel -/

theorem vectorAdd_after (log : Log logCap) (depth : ℕ) (i : Fin n) (entry : IndexInt logCap)
    (j : ℕ) : (vectorAdd n log depth).after i entry.val j = some (log.next^[j] entry).val := by
  induction j with
  | zero => rfl
  | succ j ih =>
    rw [ElementKernel.after, ih, Function.iterate_succ_apply']
    exact log.read_val _

theorem vectorAdd_ensures {depth : ℕ} (log : Log logCap) (hdepth : depth < 2 ^ 31) (hn : n < 2 ^ 31)
    (pkts : Fin n → IndexInt logCap) :
    ((vectorAdd n log depth).launch (blocksPerGrid n)).Ensures (fun i ↦ (pkts i).val)
      (· = chased log depth pkts) := by
  have hrounds : (depth : ℤ) < 2 ^ 31 := by exact_mod_cast hdepth
  exact (vectorAdd n log depth).launch_covering_ensures rfl hn.le hrounds
    fun i ↦ vectorAdd_after log depth i (pkts i) _

/-! ## The three versions -/

/-- The two versions of `cpu_run` and the kernel, with its threads in any order, come to an end,
make no access out of range and replace each packet by what `DEPTH` steps along the log lead to. -/
structure ChasePackets (log : Log logCap) (depth : ℕ) (pkts : Fin n → IndexInt logCap) : Prop where
  interleaved : Returns (fun fuel ↦ cpuRunInterleaved fuel log depth fun i ↦ (pkts i).val)
    (chased log depth pkts)
  plain : Returns (fun fuel ↦ cpuRun fuel log depth fun i ↦ (pkts i).val) (chased log depth pkts)
  kernel : ((vectorAdd n log depth).launch (blocksPerGrid n)).Ensures (fun i ↦ (pkts i).val)
    (· = chased log depth pkts)

theorem chasePackets_of_lt {depth groups : ℕ} (log : Log logCap) (hdepth : depth < 2 ^ 31)
    (hn : 8 * groups < 2 ^ 31) (pkts : Fin (8 * groups) → IndexInt logCap) :
    ChasePackets log depth pkts where
  interleaved := .of_lt (max depth (8 * groups)) fun _ hfuel ↦
    cpuRunInterleaved_eq log hdepth hn (max_lt_iff.mp hfuel) pkts
  plain := .of_lt (max depth (8 * groups)) fun _ hfuel ↦
    cpuRun_eq log hdepth hn (max_lt_iff.mp hfuel) pkts
  kernel := vectorAdd_ensures log hdepth hn pkts

/-- The first packet is never done. -/
theorem cpuRun_eq_none {depth : ℕ} (log : Log logCap) (hdepth : 2 ^ 31 ≤ depth) (hn : 0 < n)
    (pkts : Fin n → CInt) (fuel : ℕ) : cpuRun fuel log depth pkts = none := by
  have hlt : (0 : CInt).toInt < n := Int.natCast_pos.mpr hn
  apply forLoop_eq_none_of_body hlt
  exact forLoop_eq_none _ _ (by exact_mod_cast hdepth) fuel 0 pkts

/-- With an `int` number of packets that is a positive multiple of eight, all versions replace each
packet by what `DEPTH` steps along the log lead to, if and only if `DEPTH` fits into an `int`. -/
theorem chasePackets_iff (log : Log logCap) (depth groups : ℕ) (hpos : 0 < groups)
    (hn : 8 * groups < 2 ^ 31) (pkts : Fin (8 * groups) → IndexInt logCap) :
    ChasePackets log depth pkts ↔ depth < 2 ^ 31 := by
  constructor
  · intro h
    by_contra hdepth
    exact not_returns_of_eq_none
      (cpuRun_eq_none log (not_lt.mp hdepth) (by omega) fun i ↦ (pkts i).val) _ h.plain
  · exact fun hdepth ↦ chasePackets_of_lt log hdepth hn pkts

/-- Sixteen packets and a log of three entries that lead round in a circle. -/
theorem chasePackets_sixteen :
    ChasePackets
      (fun entry : Fin 3 ↦
        (⟨if entry = 0 then 1 else if entry = 1 then 2 else 0,
          by split_ifs <;> decide⟩ : IndexInt 3))
      5 (fun _ : Fin (8 * 2) ↦ (⟨1, by decide⟩ : IndexInt 3)) :=
  (chasePackets_iff _ 5 2 (by decide) (by decide) _).mpr (by decide)

/-- With `DEPTH` at `2 ^ 31` and eight packets, `cpu_run` does not return in either version, and in
no run of the kernel a thread with a packet returns. -/
theorem chase_without_end :
    let log : Log 1 := fun _ ↦ ⟨0, by decide⟩
    let pkts : Fin 8 → CInt := fun _ ↦ 0
    (∀ fuel, cpuRunInterleaved fuel log (2 ^ 31) pkts = none) ∧
      (∀ fuel, cpuRun fuel log (2 ^ 31) pkts = none) ∧
      ∀ history state,
        ((vectorAdd 8 log (2 ^ 31)).launch (blocksPerGrid 8)).IsRun pkts history state →
          state.point (⟨0, by decide⟩, ⟨0, by decide⟩) ≠ .returned := by
  intro log pkts
  refine ⟨fun fuel ↦ ?_, cpuRun_eq_none log le_rfl (by decide) pkts, fun history state hrun ↦ ?_⟩
  · have hlt : (0 : CInt).toInt < (8 : ℕ) := by decide
    apply forLoop_eq_none_of_body hlt
    exact forLoop_eq_none _ _ (by exact_mod_cast le_rfl) fuel 0 pkts
  · have hrounds : (2 : ℤ) ^ 31 ≤ ((2 ^ 31 : ℕ) : ℤ) := by decide
    exact ElementKernel.not_returned_of_run hrounds (by decide) hrun

end Systemish.Gpu.RandMem
