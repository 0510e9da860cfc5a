import Systemish.Foundation.Visits
import Systemish.Goto.Fpp

/-!
# Pointer chasing in C and in ISPC

`ptr_chase` of `pointer-chasing/ispc/main.c` and `ispc_ptr_chase` of `main.ispc`. The C function
follows a chain of pointers for each element of a batch, one pointer of each chain at a time. The
ISPC function runs its body for the elements of the batch in gangs of program instances, but the
body works on `programIndex`, the lane of the instance in its gang, and not on the element. The
counters of the loops are `int`s; `DEREF_LENGTH` is any number.
-/

namespace Systemish.PointerChasing

open Foundation Goto

/-- `CAP` is a power of two that an `int` can index. -/
structure Sizes where
  capLog : ℕ
  capLog_le : capLog ≤ 31
  batchSize : ℕ
  derefLength : ℕ
  batchSize_le : batchSize ≤ 2 ^ capLog

def Sizes.cap (sizes : Sizes) : ℕ := 2 ^ sizes.capLog

variable {sizes : Sizes}

/-- `value & CAP_`. -/
def mask (sizes : Sizes) (value : CInt) : CInt := value &&& BitVec.ofNat 32 (sizes.cap - 1)

/-- `sum[j]`, with the `addr` of the chain that is followed for it. -/
structure Chain where
  addr : CInt
  sum : CInt

abbrev Pointers (sizes : Sizes) := Fin sizes.cap → IndexInt sizes.cap

abbrev Chains (sizes : Sizes) := Fin sizes.batchSize → Chain

/-- `A[index]`. -/
def load (a : Pointers sizes) (index : CInt) : Option CInt := (readAt a index).map Subtype.val

/-- `addr = A[lane]`. -/
def setAddr (a : Pointers sizes) (lane : Fin sizes.batchSize) (chain : Chain) : Option Chain := do
  let addr ← load a (BitVec.ofNat 32 lane)
  return { chain with addr := addr }

/-- `sum += A[addr]; addr = (A[addr] + i) & CAP_`. -/
def advance (a : Pointers sizes) (i : CInt) (chain : Chain) : Option Chain := do
  let value ← load a chain.addr
  return ⟨mask sizes (value + i), chain.sum + value⟩

/-- The C function: one step along each chain in turn. The loops are cut off after `fuel` tests of
their conditions. -/
def ptrChase (fuel : ℕ) (a : Pointers sizes) (chains : Chains sizes) : Option (Chains sizes) := do
  let chains ← forLoop (1 : CInt) sizes.batchSize (fun j chains ↦ visitInt (setAddr a) chains j)
    fuel 0 chains
  forLoop (1 : CInt) sizes.derefLength
    (fun i chains ↦ forLoop (1 : CInt) sizes.batchSize
      (fun j chains ↦ visitInt (fun _ chain ↦ advance a i chain) chains j) fuel 0 chains)
    fuel 0 chains

/-- The body of `foreach` in one program instance: a whole chain. -/
def instanceBody (fuel : ℕ) (a : Pointers sizes) (chains : Chains sizes) (programIndex : ℕ) :
    Option (Chains sizes) := do
  let chains ← visit (setAddr a) chains programIndex
  forLoop (1 : CInt) sizes.derefLength
    (fun j chains ↦ visit (fun _ chain ↦ advance a j chain) chains programIndex) fuel 0 chains

/-- `foreach (i = 0 ... BATCH_SIZE)` in gangs of `width` instances. In the last gang only the
instances whose element is below `BATCH_SIZE` are active. -/
def ispcPtrChase (fuel width : ℕ) (a : Pointers sizes) (chains : Chains sizes) :
    Option (Chains sizes) :=
  (List.range ((sizes.batchSize + width - 1) / width)).foldlM
    (fun chains gang ↦
      (List.range (min width (sizes.batchSize - gang * width))).foldlM (instanceBody fuel a) chains)
    chains

/-! ## One chain -/

theorem mask_toNat (value : CInt) : (mask sizes value).toNat = value.toNat % sizes.cap := by
  have hpow : sizes.cap ≤ 2 ^ 31 := Nat.pow_le_pow_right (by decide) sizes.capLog_le
  have hpos : 0 < sizes.cap := Nat.two_pow_pos _
  rw [mask, BitVec.toNat_and, BitVec.toNat_ofNat, Nat.mod_eq_of_lt (by omega)]
  exact Nat.and_two_pow_sub_one_eq_mod _ _

theorem inRange_of_toNat_lt {value : CInt} (h : value.toNat < sizes.cap) :
    InRange sizes.cap value := by
  have hpow : sizes.cap ≤ 2 ^ 31 := Nat.pow_le_pow_right (by decide) sizes.capLog_le
  rw [InRange, BitVec.toInt_eq_toNat_of_lt (by omega)]
  omega

/-- The mask makes an index of any `int`. -/
def maskIndex (sizes : Sizes) (value : CInt) : IndexInt sizes.cap :=
  ⟨mask sizes value, by
    apply inRange_of_toNat_lt
    rw [mask_toNat]
    exact Nat.mod_lt _ (Nat.two_pow_pos _)⟩

variable (a : Pointers sizes)

/-- `addr` of the chain that starts at `A[lane]`, after a number of steps. -/
def addrAt (lane : Fin sizes.batchSize) : (steps : ℕ) → IndexInt sizes.cap
  | 0 => a ⟨lane, lane.isLt.trans_le sizes.batchSize_le⟩
  | i + 1 => maskIndex sizes ((a (addrAt lane i).toFin).val + BitVec.ofNat 32 i)

/-- What the first steps along the chain add up to. -/
def total (lane : Fin sizes.batchSize) (steps : ℕ) : CInt :=
  ∑ i ∈ Finset.range steps, (a (addrAt a lane i).toFin).val

theorem load_val (index : IndexInt sizes.cap) : load a index.val = some (a index.toFin).val := by
  rw [load, readAt_val, Option.map_some]

/-- The number of a lane is an index of `A`. -/
theorem load_lane (lane : Fin sizes.batchSize) :
    load a (BitVec.ofNat 32 lane) = some (addrAt a lane 0).val := by
  have hpow : sizes.cap ≤ 2 ^ 31 := Nat.pow_le_pow_right (by decide) sizes.capLog_le
  have hlane : (lane : ℕ) < sizes.cap := lane.isLt.trans_le sizes.batchSize_le
  rw [load, readAt_eq a hlane (toInt_ofNat_of_lt (hlane.trans_le hpow))]
  rfl

theorem setAddr_eq (lane : Fin sizes.batchSize) (chain : Chain) :
    setAddr a lane chain = some ⟨(addrAt a lane 0).val, chain.sum⟩ := by
  rw [setAddr, load_lane]
  rfl

theorem advance_eq (lane : Fin sizes.batchSize) (i : ℕ) (sum : CInt) :
    advance a (BitVec.ofNat 32 i) ⟨(addrAt a lane i).val, sum⟩ =
      some ⟨(addrAt a lane (i + 1)).val, sum + (a (addrAt a lane i).toFin).val⟩ := by
  rw [advance, load_val]
  rfl

theorem total_succ (lane : Fin sizes.batchSize) (steps : ℕ) :
    total a lane (steps + 1) = total a lane steps + (a (addrAt a lane steps).toFin).val :=
  Finset.sum_range_succ _ _

/-- A chain that was followed for a number of steps. -/
def chased (lane : Fin sizes.batchSize) (steps : ℕ) (chain : Chain) : Chain :=
  ⟨(addrAt a lane steps).val, chain.sum + total a lane steps⟩

theorem chased_zero (lane : Fin sizes.batchSize) (chain : Chain) :
    setAddr a lane chain = some (chased a lane 0 chain) := by
  rw [setAddr_eq, chased, total, Finset.sum_range_zero, add_zero]

theorem chased_succ (lane : Fin sizes.batchSize) (i : ℕ) (chain : Chain) :
    advance a (BitVec.ofNat 32 i) (chased a lane i chain) =
      some (chased a lane (i + 1) chain) := by
  rw [chased, advance_eq, chased, total_succ, add_assoc]

/-! ## The two functions -/

section Ends

variable {fuel : ℕ} (hbatch : sizes.batchSize < 2 ^ 31 ∧ sizes.batchSize < fuel)
  (hderef : sizes.derefLength < 2 ^ 31 ∧ sizes.derefLength < fuel)

include hbatch in
/-- One loop over the batch. -/
theorem forLoop_batch_eq {f : Fin sizes.batchSize → Chain → Option Chain}
    {chains values : Chains sizes} (h : ∀ lane, f lane (chains lane) = some (values lane)) :
    forLoop (1 : CInt) sizes.batchSize (fun j chains ↦ visitInt f chains j) fuel 0 chains =
      some values := by
  rw [forLoop_one _ hbatch.1 hbatch.2, ← foldlM_visit_once h]
  apply foldlM_congr
  intro j hj chains
  exact visitInt_ofNat _ _ ((List.mem_range.mp hj).trans hbatch.1)

include hbatch hderef in
/-- The C function follows each chain once. -/
theorem ptrChase_eq (chains : Chains sizes) :
    ptrChase fuel a chains = some fun lane ↦ chased a lane sizes.derefLength (chains lane) := by
  have hrounds (steps : ℕ) : (List.range steps).foldlM
      (fun chains i ↦ forLoop (1 : CInt) sizes.batchSize
        (fun j chains ↦ visitInt (fun _ chain ↦ advance a (BitVec.ofNat 32 i) chain) chains j)
        fuel 0 chains) (fun lane ↦ chased a lane 0 (chains lane)) =
      some fun lane ↦ chased a lane steps (chains lane) := by
    induction steps with
    | zero => rfl
    | succ steps ih =>
      rw [List.range_succ, List.foldlM_append, ih, Option.bind_eq_bind, Option.bind_some,
        List.foldlM_cons,
        forLoop_batch_eq hbatch fun lane ↦ chased_succ a lane steps (chains lane)]
      rfl
  rw [ptrChase, forLoop_batch_eq hbatch fun lane ↦ chased_zero a lane (chains lane),
    Option.bind_eq_bind, Option.bind_some, forLoop_one _ hderef.1 hderef.2]
  exact hrounds sizes.derefLength

include hderef in
/-- A program instance follows the chain of its lane. -/
theorem instanceBody_lane (chains : Chains sizes) (lane : Fin sizes.batchSize) :
    instanceBody fuel a chains lane =
      visit (fun lane chain ↦ some (chased a lane sizes.derefLength chain)) chains lane := by
  have hrounds (steps : ℕ) : (List.range steps).foldlM
      (fun chains j ↦ visit (fun _ chain ↦ advance a (BitVec.ofNat 32 j) chain) chains lane)
      (Function.update chains lane (chased a lane 0 (chains lane))) =
      some (Function.update chains lane (chased a lane steps (chains lane))) := by
    induction steps with
    | zero => rfl
    | succ steps ih =>
      have hstep := chased_succ a lane steps (chains lane)
      rw [List.range_succ, List.foldlM_append, ih, Option.bind_eq_bind, Option.bind_some,
        List.foldlM_cons, visit_eq (by rw [Function.update_self]; exact hstep),
        Function.update_idem]
      rfl
  rw [instanceBody, visit_eq (chased_zero a lane (chains lane)), visit_eq rfl,
    Option.bind_eq_bind, Option.bind_some, forLoop_one _ hderef.1 hderef.2]
  exact hrounds sizes.derefLength

include hderef in
theorem instanceBody_eq :
    instanceBody fuel a = visit fun lane chain ↦ some (chased a lane sizes.derefLength chain) := by
  funext chains lane
  by_cases hlane : lane < sizes.batchSize
  · exact instanceBody_lane a hderef chains ⟨lane, hlane⟩
  · rw [instanceBody, visit, dif_neg hlane, visit, dif_neg hlane]
    rfl

end Ends

/-- The lanes that run, gang after gang. -/
def laneOrder (batchSize width : ℕ) : List ℕ :=
  (List.range ((batchSize + width - 1) / width)).flatMap fun gang ↦
    List.range (min width (batchSize - gang * width))

theorem lt_of_mem_laneOrder {batchSize width lane : ℕ} (h : lane ∈ laneOrder batchSize width) :
    lane < batchSize := by
  obtain ⟨gang, -, hlane⟩ := List.mem_flatMap.mp h
  have hlt := List.mem_range.mp hlane
  omega

/-- The ISPC function follows the chain of a lane once for each gang in which the lane is active. -/
theorem ispcPtrChase_eq {fuel : ℕ}
    (hderef : sizes.derefLength < 2 ^ 31 ∧ sizes.derefLength < fuel) (width : ℕ)
    (chains : Chains sizes) :
    ispcPtrChase fuel width a chains = some fun lane ↦
      (chased a lane sizes.derefLength)^[(laneOrder sizes.batchSize width).count (lane : ℕ)]
        (chains lane) := by
  rw [ispcPtrChase, instanceBody_eq a hderef, ← foldlM_flatMap]
  apply foldlM_visit fun _ ↦ True
  · exact fun _ _ _ ↦ ⟨rfl, trivial⟩
  · exact fun _ ↦ lt_of_mem_laneOrder
  · exact fun _ ↦ trivial

/-! ## How often a lane runs -/

/-- The number of gangs with lane `lane`. -/
def instances (batchSize width lane : ℕ) : ℕ :=
  if lane < width then (batchSize - lane + width - 1) / width else 0

theorem lt_instances_iff {batchSize width lane gang : ℕ} (hlane : lane < batchSize) :
    gang < instances batchSize width lane ↔ lane < min width (batchSize - gang * width) := by
  rw [instances]
  split
  · next hwidth =>
    have hpos : 0 < width := by omega
    rw [Nat.lt_div_iff_mul_lt hpos]
    omega
  · omega

theorem instances_le (batchSize width lane : ℕ) :
    instances batchSize width lane ≤ (batchSize + width - 1) / width := by
  rw [instances]
  split
  · exact Nat.div_le_div_right (by omega)
  · exact Nat.zero_le _

theorem count_laneOrder {batchSize width lane : ℕ} (hlane : lane < batchSize) :
    (laneOrder batchSize width).count lane = instances batchSize width lane := by
  have hgang (gang : ℕ) : (List.range (min width (batchSize - gang * width))).count lane =
      if gang < instances batchSize width lane then 1 else 0 := by
    rw [List.nodup_range.count]
    simp only [List.mem_range, lt_instances_iff hlane]
  have hfilter : (Finset.range ((batchSize + width - 1) / width)).filter
      (· < instances batchSize width lane) = Finset.range (instances batchSize width lane) := by
    have hle := instances_le batchSize width lane
    ext gang
    rw [Finset.mem_filter, Finset.mem_range, Finset.mem_range]
    omega
  calc
    (laneOrder batchSize width).count lane =
        ((List.range ((batchSize + width - 1) / width)).map fun gang ↦
          if gang < instances batchSize width lane then 1 else 0).sum := by
      rw [laneOrder, List.count_flatMap]
      simp only [Function.comp_def, hgang]
    _ = ∑ gang ∈ Finset.range ((batchSize + width - 1) / width),
        if gang < instances batchSize width lane then 1 else 0 := by
      rw [← List.sum_toFinset _ List.nodup_range, List.toFinset_range]
    _ = instances batchSize width lane := by
      rw [Finset.sum_boole, hfilter, Finset.card_range, Nat.cast_id]

/-- If the batch fits in one gang, each lane of it runs once. -/
theorem instances_eq_one {batchSize width lane : ℕ} (hlane : lane < batchSize)
    (hfits : batchSize ≤ width) : instances batchSize width lane = 1 := by
  rw [instances, if_pos (by omega)]
  apply Nat.div_eq_of_lt_le <;> omega

/-! ## The results -/

theorem sum_iterate_chased (lane : Fin sizes.batchSize) (steps k : ℕ) (chain : Chain) :
    ((chased a lane steps)^[k] chain).sum = chain.sum + k • total a lane steps := by
  induction k with
  | zero => rw [zero_nsmul, add_zero, Function.iterate_zero, id]
  | succ k ih =>
    rw [Function.iterate_succ_apply', chased, ih, succ_nsmul, add_assoc]

section Results

variable (width : ℕ) (chains : Chains sizes) {a}

theorem ptrChase_returns (hbatch : sizes.batchSize < 2 ^ 31) (hderef : sizes.derefLength < 2 ^ 31) :
    Returns (fun fuel ↦ ptrChase fuel a chains)
      fun lane ↦ chased a lane sizes.derefLength (chains lane) := by
  refine .of_lt (max sizes.batchSize sizes.derefLength) fun fuel hfuel ↦ ?_
  obtain ⟨hbatchFuel, hderefFuel⟩ := max_lt_iff.mp hfuel
  exact ptrChase_eq a ⟨hbatch, hbatchFuel⟩ ⟨hderef, hderefFuel⟩ chains

theorem ispcPtrChase_returns (hderef : sizes.derefLength < 2 ^ 31) :
    Returns (fun fuel ↦ ispcPtrChase fuel width a chains) fun lane ↦
      (chased a lane sizes.derefLength)^[instances sizes.batchSize width lane] (chains lane) := by
  refine .of_lt sizes.derefLength fun fuel hfuel ↦ ?_
  rw [ispcPtrChase_eq a ⟨hderef, hfuel⟩]
  simp only [count_laneOrder (Fin.isLt _)]

variable (a) in
/-- Both functions return and make no access outside `A` and `sum`, and they leave the same sums. -/
def SameSums : Prop :=
  ∃ byC byIspc, Returns (fun fuel ↦ ptrChase fuel a chains) byC ∧
    Returns (fun fuel ↦ ispcPtrChase fuel width a chains) byIspc ∧ ∀ j, (byIspc j).sum = (byC j).sum

theorem sameSums_iff_total (hbatch : sizes.batchSize < 2 ^ 31)
    (hderef : sizes.derefLength < 2 ^ 31) :
    SameSums a width chains ↔
      ∀ j : Fin sizes.batchSize, instances sizes.batchSize width j • total a j sizes.derefLength =
        total a j sizes.derefLength := by
  have hbyC := ptrChase_returns (a := a) chains hbatch hderef
  have hbyIspc := ispcPtrChase_returns (a := a) width chains hderef
  have hiff (j : Fin sizes.batchSize) :
      ((chased a j sizes.derefLength)^[instances sizes.batchSize width j] (chains j)).sum =
          (chased a j sizes.derefLength (chains j)).sum ↔
        instances sizes.batchSize width j • total a j sizes.derefLength =
          total a j sizes.derefLength := by
    rw [sum_iterate_chased, chased, add_right_inj]
  constructor
  · rintro ⟨byC, byIspc, hc, hispc, hsame⟩ j
    have hj := hsame j
    rw [← hbyC.unique hc, ← hbyIspc.unique hispc] at hj
    exact (hiff j).mp hj
  · exact fun h ↦ ⟨_, _, hbyC, hbyIspc, fun j ↦ (hiff j).mpr (h j)⟩

/-- A chain through an array of ones. -/
theorem total_ones (hone : InRange sizes.cap 1) (lane : Fin sizes.batchSize) (steps : ℕ) :
    total (fun _ ↦ ⟨1, hone⟩) lane steps = BitVec.ofNat 32 steps := by
  rw [total, Finset.sum_const, Finset.card_range, nsmul_one, BitVec.natCast_eq_ofNat]

theorem SameSums.lt (h : SameSums a width chains) :
    sizes.batchSize < 2 ^ 31 ∧ sizes.derefLength < 2 ^ 31 := by
  obtain ⟨byC, -, hbyC, -⟩ := h
  constructor
  · by_contra hlarge
    refine not_returns_of_eq_none (fun fuel ↦ ?_) byC hbyC
    rw [ptrChase, forLoop_eq_none _ _ (by exact_mod_cast not_lt.mp hlarge)]
    rfl
  · by_contra hlarge
    refine not_returns_of_eq_none (fun fuel ↦ ?_) byC hbyC
    refine Option.bind_eq_none_iff.mpr fun chains _ ↦ ?_
    exact forLoop_eq_none _ _ (by exact_mod_cast not_lt.mp hlarge) fuel 0 chains

end Results

/-- Lane `width` is in no gang, so its chain is never followed. -/
theorem exists_not_sameSums {width : ℕ} (hwidth : 0 < width) (hbatch : sizes.batchSize < 2 ^ 31)
    (hderef : sizes.derefLength < 2 ^ 31) (hlarge : width < sizes.batchSize)
    (hsteps : sizes.derefLength ≠ 0) :
    ∃ (a : Pointers sizes) (chains : Chains sizes), ¬ SameSums a width chains := by
  have hcap : 1 < sizes.cap := by
    have hle : sizes.batchSize ≤ sizes.cap := sizes.batchSize_le
    omega
  have hone : InRange sizes.cap 1 := ⟨by decide, by change (1 : ℤ) < sizes.cap; exact_mod_cast hcap⟩
  refine ⟨fun _ ↦ ⟨1, hone⟩, fun _ ↦ ⟨0, 0⟩, fun hsame ↦ ?_⟩
  have htotal := (sameSums_iff_total width _ hbatch hderef).mp hsame ⟨width, hlarge⟩
  rw [instances, if_neg (lt_irrefl width), zero_nsmul, total_ones hone] at htotal
  have hzero := congrArg BitVec.toNat htotal
  rw [BitVec.toNat_ofNat, Nat.mod_eq_of_lt (hderef.trans (by decide))] at hzero
  exact hsteps hzero.symm

/-- With sizes that fit into an `int`, both functions return and stay inside `A` and `sum`. They
leave the same sums for every array and every start, if and only if moreover the batch fits in one
gang or no pointer is followed at all. -/
theorem ispcPtrChase_agrees_iff (width : ℕ) (hwidth : 0 < width) :
    (sizes.batchSize < 2 ^ 31 → sizes.derefLength < 2 ^ 31 →
        ∀ (a : Pointers sizes) (chains : Chains sizes), ∃ byC byIspc,
          Returns (fun fuel ↦ ptrChase fuel a chains) byC ∧
          Returns (fun fuel ↦ ispcPtrChase fuel width a chains) byIspc) ∧
      ((∀ (a : Pointers sizes) (chains : Chains sizes), SameSums a width chains) ↔
        sizes.batchSize < 2 ^ 31 ∧ sizes.derefLength < 2 ^ 31 ∧
          (sizes.batchSize ≤ width ∨ sizes.derefLength = 0)) := by
  refine ⟨fun hbatch hderef a chains ↦ ⟨_, _, ptrChase_returns chains hbatch hderef,
    ispcPtrChase_returns width chains hderef⟩, fun hall ↦ ?_, ?_⟩
  · obtain ⟨hbatch, hderef⟩ :=
      (hall (fun _ ↦ maskIndex sizes 0) fun _ ↦ ⟨0, 0⟩).lt
    refine ⟨hbatch, hderef, ?_⟩
    by_contra hnot
    obtain ⟨hlarge, hsteps⟩ := not_or.mp hnot
    obtain ⟨a, chains, hdiffer⟩ :=
      exists_not_sameSums hwidth hbatch hderef (not_le.mp hlarge) hsteps
    exact hdiffer (hall a chains)
  · rintro ⟨hbatch, hderef, hfits⟩ a chains
    apply (sameSums_iff_total width chains hbatch hderef).mpr
    intro j
    rcases hfits with hfits | hsteps
    · rw [instances_eq_one j.isLt hfits, one_nsmul]
    · rw [hsteps, total, Finset.sum_range_zero, nsmul_zero]

/-- The constants of the program and gangs of sixteen, on an array of ones. -/
theorem ispcPtrChase_agrees_gang_of_sixteen :
    let sizes : Sizes := ⟨10, by decide, 16, 4194304, by decide⟩
    let a : Pointers sizes := fun _ ↦ ⟨1, by decide⟩
    SameSums a 16 fun _ ↦ ⟨0, 0⟩ :=
  (ispcPtrChase_agrees_iff 16 (by decide)).2.mpr ⟨by decide, by decide, .inl (by decide)⟩ _ _

/-- Two elements in gangs of one: the ISPC function follows the first chain twice and the second
not at all. -/
theorem gangs_of_one_differ :
    let sizes : Sizes := ⟨1, by decide, 2, 1, by decide⟩
    let a : Pointers sizes := fun _ ↦ ⟨1, by decide⟩
    let chains : Chains sizes := fun _ ↦ ⟨0, 0⟩
    (ptrChase 3 a chains).map (fun chains ↦ ((chains 0).sum, (chains 1).sum)) = some (1, 1) ∧
      (ispcPtrChase 3 1 a chains).map (fun chains ↦ ((chains 0).sum, (chains 1).sum)) =
        some (2, 0) := by
  decide

end Systemish.PointerChasing
