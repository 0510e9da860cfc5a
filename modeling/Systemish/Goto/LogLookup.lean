import Systemish.Goto.FppRuns
import Systemish.Goto.Hash

/-!
# Five versions of one lookup

`simple/nogoto.c`, `simple/goto.c`, `simple/manual.c`, `locals/nogoto.c` and
`locals/goto.c` look up each packet of a batch in `ht_log`, at the hash of the
packet, and add up what they find. The first and the fourth take the packets one
by one, the third hashes all packets before it reads the log, and the other two
switch to the next packet between the hash and the read. `BATCH_SIZE` is 8 in all
of them; here it is any size that the machine allows. `COMPUTE` and the number of
packets are arbitrary, the counters of the loops over them are `int`s.
-/

namespace Systemish.Goto

open Foundation

variable {batch : BatchSize}

/-- `ht_log`. -/
abbrev HtLog := Fin logCap → CInt

/-- `h & LOG_CAP_`. -/
def memAddr (h : CInt) : CInt := h &&& BitVec.ofNat 32 (logCap - 1)

/-! ## The programs -/

/-- `process_pkts_in_batch` of `simple/nogoto.c`. -/
def Simple.nogoto (fuel : ℕ) (htLog : HtLog) (compute : ℕ) (pktLo : Fin batch.size → CInt)
    (sum : CInt) : Option CInt :=
  (List.finRange batch.size).foldlM
    (fun sum batchIndex ↦ do
      let h ← Simple.hash compute fuel (pktLo batchIndex)
      let value ← readAt htLog (memAddr h)
      return sum + value) sum

/-- `process_pkts_in_batch` of `locals/nogoto.c`. -/
def Locals.nogoto (fuel : ℕ) (htLog : HtLog) (compute : ℕ) (pktLo : Fin batch.size → CInt)
    (sum : CInt) : Option CInt :=
  (List.finRange batch.size).foldlM
    (fun sum batchIndex ↦ do
      let h ← Locals.hash compute fuel (pktLo batchIndex)
      let value ← readAt htLog (memAddr h)
      return sum + value) sum

/-- `process_pkts_in_batch` of `simple/manual.c`. The array `mem_addr` is on the stack. -/
def Manual.process (fuel : ℕ) (htLog : HtLog) (compute : ℕ)
    (pktLo stack : Fin batch.size → CInt) (sum : CInt) : Option CInt := do
  let memAddrs ← (List.finRange batch.size).foldlM
    (fun memAddrs batchIndex ↦ do
      let h ← Manual.hash compute fuel (pktLo batchIndex)
      return Function.update memAddrs batchIndex (memAddr h)) stack
  (List.finRange batch.size).foldlM
    (fun sum batchIndex ↦ do
      let value ← readAt htLog (memAddrs batchIndex)
      return sum + value) sum

/-- The code of one lane of `process_pkts_in_batch` of `simple/goto.c`. Its one local is
`mem_addr[I]`. -/
def Simple.program (fuel : ℕ) (htLog : HtLog) (compute : ℕ) (pktLo : Fin batch.size → CInt) :
    Program batch BodyLabel CInt CInt where
  entry := .label0
  segment I label addr sum :=
    match label with
    | .label0 => do
      let h ← Simple.hash compute fuel (pktLo I)
      let address := memAddr h
      -- the address that is prefetched
      let _ ← readAt htLog address
      return (address, sum, .label .label1)
    | .label1 => do
      let value ← readAt htLog addr
      return (addr, sum + value, .endBlock)

/-- `process_pkts_in_batch` of `simple/goto.c`, cut off after `fuel` dispatches. -/
def Simple.goto (fuel : ℕ) (htLog : HtLog) (compute : ℕ) (pktLo stack : Fin batch.size → CInt)
    (sum : CInt) : Option CInt :=
  match (Machine.start (Simple.program fuel htLog compute pktLo) stack sum).dispatches
      (Simple.program fuel htLog compute pktLo) fuel with
  | .returned machine => some machine.acc
  | _ => none

/-- The variables of `process_pkts_in_batch` of `locals/goto.c`. -/
structure Locals.State (batch : BatchSize) where
  I : Fin batch.size
  batchRips : Fin batch.size → BodyLabel
  a1 : Fin batch.size → CInt
  sum : CInt

/-- The code from a label on, up to the next jump or to the end of the function. The code at
`label_0` runs on into `label_1` when the last packet of the batch has been hashed. -/
def Locals.block (hashFuel : ℕ) (htLog : HtLog) (compute : ℕ) (pktLo : Fin batch.size → CInt)
    (label : BodyLabel) (state : Locals.State batch) :
    Option (Locals.State batch × Option BodyLabel) :=
  match label with
  | .label0 => do
    let h ← Locals.hash compute hashFuel (pktLo state.I)
    let a1 := memAddr h
    -- the address that is prefetched
    let _ ← readAt htLog a1
    let state :=
      { state with
        a1 := Function.update state.a1 state.I a1
        batchRips := Function.update state.batchRips state.I .label1
        I := batch.next state.I }
    return (state, if state.I.val ≠ 0 then some (state.batchRips state.I) else some .label1)
  | .label1 => do
    let value ← readAt htLog (state.a1 state.I)
    let state := { state with sum := state.sum + value, I := batch.next state.I }
    return (state, if state.I.val ≠ 0 then some (state.batchRips state.I) else none)

/-- The blocks that are executed from a label on, at most `fuel` of them. -/
def Locals.blocks (hashFuel : ℕ) (htLog : HtLog) (compute : ℕ) (pktLo : Fin batch.size → CInt) :
    (fuel : ℕ) → BodyLabel → Locals.State batch → Option CInt
  | 0, _, _ => none
  | fuel + 1, label, state => do
    let (state, target) ← Locals.block hashFuel htLog compute pktLo label state
    match target with
    | none => return state.sum
    | some label => Locals.blocks hashFuel htLog compute pktLo fuel label state

/-- `process_pkts_in_batch` of `locals/goto.c`, cut off after `fuel` blocks. -/
def Locals.goto (fuel : ℕ) (htLog : HtLog) (compute : ℕ) (pktLo stack : Fin batch.size → CInt)
    (sum : CInt) : Option CInt :=
  Locals.blocks fuel htLog compute pktLo fuel .label0
    ⟨⟨0, batch.size_pos⟩, fun _ ↦ .label0, stack, sum⟩

/-- The batch at `&pkts[i]`, if all of it is in the array. -/
def batchAt {numPkts : ℕ} (pkts : Fin numPkts → CInt) (i : CInt) :
    Option (Fin batch.size → CInt) :=
  if h : 0 ≤ i.toInt ∧ i.toInt.toNat + batch.size ≤ numPkts then
    some fun I ↦ pkts ⟨i.toInt.toNat + I, (Nat.add_lt_add_left I.isLt _).trans_le h.2⟩
  else none

/-- The loop of `main` over the packets, cut off after `fuel` tests of its condition. `process`
handles the batch at `&pkts[i]`. -/
def processPkts (fuel : ℕ) {numPkts : ℕ}
    (process : (i : CInt) → (Fin batch.size → CInt) → CInt → Option CInt)
    (pkts : Fin numPkts → CInt) (sum : CInt) : Option CInt :=
  forLoop (BitVec.ofNat 32 batch.size) numPkts
    (fun i sum ↦ do
      let pktLo ← batchAt pkts i
      process i pktLo sum) fuel 0 sum

/-! ## Each program adds up the same values -/

/-- What is read for a packet. -/
def lookup (htLog : HtLog) (compute : ℕ) (pkt : CInt) : CInt :=
  (readAt htLog (memAddr (Manual.rounds compute pkt))).getD 0

/-- An address is in the log, whatever the hash is. -/
theorem memAddr_inRange (h : CInt) : InRange logCap (memAddr h) := by
  have hmask : (memAddr h).toNat = h.toNat % 2 ^ 27 := by
    rw [memAddr, BitVec.toNat_and]
    exact Nat.and_two_pow_sub_one_eq_mod h.toNat 27
  have hlt : (memAddr h).toNat < 2 ^ 27 := by
    rw [hmask]
    exact Nat.mod_lt _ (Nat.two_pow_pos 27)
  have hint : (memAddr h).toInt = (memAddr h).toNat := by
    apply BitVec.toInt_eq_toNat_of_lt
    omega
  constructor
  · rw [hint]
    exact Int.natCast_nonneg _
  · rw [hint]
    exact Int.ofNat_lt.mpr hlt

theorem readAt_memAddr (htLog : HtLog) (compute : ℕ) (pkt : CInt) :
    readAt htLog (memAddr (Manual.rounds compute pkt)) = some (lookup htLog compute pkt) := by
  obtain ⟨i, hi⟩ := exists_readAt htLog (memAddr_inRange (Manual.rounds compute pkt))
  rw [lookup, hi, Option.getD_some]

variable {htLog : HtLog} {compute fuel : ℕ} {pktLo stack : Fin batch.size → CInt}

/-- A loop that assigns every entry of an array leaves nothing of what was there. -/
theorem foldlM_update_finRange {n : ℕ} {α : Type} (value initial : Fin n → α) :
    (List.finRange n).foldlM (fun arr i ↦ some (Function.update arr i (value i))) initial =
      some value := by
  have hlist (indices : List (Fin n)) (initial : Fin n → α) :
      indices.foldlM (fun arr i ↦ some (Function.update arr i (value i))) initial =
        some fun j ↦ if j ∈ indices then value j else initial j := by
    induction indices generalizing initial with
    | nil => simp
    | cons i indices ih =>
      rw [List.foldlM_cons, Option.bind_eq_bind, Option.bind_some, ih]
      congr 1
      funext j
      by_cases hj : j = i
      · subst hj
        simp
      · simp [hj]
  simp only [hlist, List.mem_finRange, if_true]

/-- What a lane of `simple/goto.c` will still add to `sum`. -/
def Simple.rest (htLog : HtLog) (compute : ℕ) (pktLo : Fin batch.size → CInt)
    (lane : Fin batch.size) (target : Target BodyLabel) (addr : CInt) : CInt :=
  match target with
  | .label .label0 => lookup htLog compute (pktLo lane)
  | .label .label1 => (readAt htLog addr).getD 0
  | .endBlock => 0

section Enough

variable (hcompute : compute < 2 ^ 31) (hfuel : compute < fuel)

include hcompute hfuel

theorem Simple.hash_eq {pkt : CInt} (hpkt : InRange logCap pkt) :
    Simple.hash compute fuel pkt = some (Manual.rounds compute pkt) := by
  rw [← rounds_eq_rounds compute (toNat_lt_of_inRange hpkt)]
  exact hashWith_eq _ hcompute hfuel pkt

theorem Manual.hash_eq (pkt : CInt) :
    Manual.hash compute fuel pkt = some (Manual.rounds compute pkt) :=
  hashWith_eq _ hcompute hfuel pkt

theorem Locals.hash_eq (pkt : CInt) :
    Locals.hash compute fuel pkt = some (Manual.rounds compute pkt) :=
  hashWith_eq _ hcompute hfuel pkt

theorem Simple.nogoto_eq (hpkts : ∀ lane, InRange logCap (pktLo lane)) (sum : CInt) :
    Simple.nogoto fuel htLog compute pktLo sum =
      some (sum + ∑ lane, lookup htLog compute (pktLo lane)) := by
  apply foldlM_finRange
  intro sum lane
  rw [Simple.hash_eq hcompute hfuel (hpkts lane), Option.bind_eq_bind, Option.bind_some,
    readAt_memAddr]
  rfl

theorem Locals.nogoto_eq (sum : CInt) :
    Locals.nogoto fuel htLog compute pktLo sum =
      some (sum + ∑ lane, lookup htLog compute (pktLo lane)) := by
  apply foldlM_finRange
  intro sum lane
  rw [Locals.hash_eq hcompute hfuel, Option.bind_eq_bind, Option.bind_some, readAt_memAddr]
  rfl

theorem Manual.process_eq (sum : CInt) :
    Manual.process fuel htLog compute pktLo stack sum =
      some (sum + ∑ lane, lookup htLog compute (pktLo lane)) := by
  have hhashed : (List.finRange batch.size).foldlM
      (fun memAddrs lane ↦ do
        let h ← Manual.hash compute fuel (pktLo lane)
        return Function.update memAddrs lane (memAddr h)) stack =
      some fun lane ↦ memAddr (Manual.rounds compute (pktLo lane)) := by
    simp only [Manual.hash_eq hcompute hfuel, Option.bind_eq_bind, Option.bind_some,
      Option.pure_def]
    exact foldlM_update_finRange _ stack
  rw [Manual.process, hhashed, Option.bind_eq_bind, Option.bind_some]
  apply foldlM_finRange
  intro sum lane
  rw [readAt_memAddr]
  rfl

theorem Simple.program_foretells (hpkts : ∀ lane, InRange logCap (pktLo lane)) :
    Foretells (Simple.program fuel htLog compute pktLo) (Simple.rest htLog compute pktLo) := by
  intro lane label addr sum after sum' target hsegment
  cases label with
  | label0 =>
    simp only [Simple.program, Simple.hash_eq hcompute hfuel (hpkts lane), readAt_memAddr,
      Option.bind_eq_bind, Option.bind_some] at hsegment
    obtain ⟨rfl, rfl, rfl⟩ : memAddr (Manual.rounds compute (pktLo lane)) = after ∧ sum = sum' ∧
        .label .label1 = target := by simpa using hsegment
    rfl
  | label1 =>
    obtain ⟨value, hvalue, hend⟩ := Option.bind_eq_some_iff.mp hsegment
    obtain ⟨rfl, rfl, rfl⟩ : addr = after ∧ sum + value = sum' ∧ .endBlock = target := by
      simpa using hend
    simp [Simple.rest, hvalue]

theorem Simple.program_halts (hpkts : ∀ lane, InRange logCap (pktLo lane))
    (lane : Fin batch.size) (addr : CInt) :
    Halts (Simple.program fuel htLog compute pktLo) lane (.label .label0) addr := by
  have hlabel1 {addr : CInt} (haddr : InRange logCap addr) :
      Halts (Simple.program fuel htLog compute pktLo) lane (.label .label1) addr := by
    obtain ⟨i, hi⟩ := exists_readAt htLog haddr
    apply Halts.of_segment
    intro sum
    refine ⟨addr, sum + htLog i, .endBlock, ?_, .endBlock addr⟩
    simp [Simple.program, hi]
  have haddr := memAddr_inRange (Manual.rounds compute (pktLo lane))
  obtain ⟨i, hi⟩ := exists_readAt htLog haddr
  apply Halts.of_segment
  intro sum
  refine ⟨_, sum, .label .label1, ?_, hlabel1 haddr⟩
  simp [Simple.program, Simple.hash_eq hcompute hfuel (hpkts lane), hi]

/-- More fuel does not change the program. -/
theorem Simple.program_eq (hpkts : ∀ lane, InRange logCap (pktLo lane)) :
    Simple.program fuel htLog compute pktLo =
      Simple.program (compute + 1) htLog compute pktLo := by
  have hhash (lane : Fin batch.size) :
      Simple.hash compute fuel (pktLo lane) = Simple.hash compute (compute + 1) (pktLo lane) := by
    rw [Simple.hash_eq hcompute hfuel (hpkts lane),
      Simple.hash_eq hcompute (Nat.lt_succ_self compute) (hpkts lane)]
  simp only [Simple.program, hhash]

end Enough

theorem Simple.goto_eq (hcompute : compute < 2 ^ 31)
    (hpkts : ∀ lane, InRange logCap (pktLo lane)) (sum : CInt) :
    ∃ bound, ∀ fuel ≥ bound, Simple.goto fuel htLog compute pktLo stack sum =
      some (sum + ∑ lane, lookup htLog compute (pktLo lane)) := by
  have henough : compute < compute + 1 := Nat.lt_succ_self compute
  obtain ⟨count, final, hreturned, hacc⟩ := exists_returned_acc sum
    (fun lane ↦ Simple.program_halts hcompute henough hpkts lane (stack lane))
    (Simple.program_foretells hcompute henough hpkts) fun _ _ ↦ rfl
  refine ⟨max (compute + 1) (count + 1), fun fuel hfuel ↦ ?_⟩
  rw [Simple.goto, Simple.program_eq hcompute ((le_max_left _ _).trans hfuel) hpkts,
    Machine.dispatches_returned hreturned ((le_max_right _ _).trans hfuel)]
  exact congrArg some hacc

/-! ### The two rounds of `locals/goto.c` -/

/-- The sum over the first `k` lanes. -/
def sumBelow {n : ℕ} (value : Fin n → CInt) (k : ℕ) : CInt :=
  ∑ lane, if lane.val < k then value lane else 0

theorem sumBelow_zero {n : ℕ} (value : Fin n → CInt) : sumBelow value 0 = 0 := by
  simp [sumBelow]

theorem sumBelow_succ {n : ℕ} (value : Fin n → CInt) (k : Fin n) :
    sumBelow value (k + 1) = sumBelow value k + value k := by
  have hlane (lane : Fin n) : (if lane.val < k + 1 then value lane else 0) =
      (if lane.val < k then value lane else 0) + if lane = k then value lane else 0 := by
    by_cases heq : lane = k
    · subst heq
      rw [if_pos (Nat.lt_succ_self _), if_neg (Nat.lt_irrefl _), if_pos rfl, zero_add]
    · have hval : lane.val ≠ k := fun h ↦ heq (Fin.ext h)
      have hiff : lane.val < k + 1 ↔ lane.val < k := by omega
      rw [if_neg heq, add_zero]
      exact if_congr hiff rfl rfl
  simp only [sumBelow, hlane, Finset.sum_add_distrib, Finset.sum_ite_eq', Finset.mem_univ, if_true]

theorem sumBelow_size {n : ℕ} (value : Fin n → CInt) : sumBelow value n = ∑ lane, value lane := by
  simp [sumBelow]

theorem next_val_of_lt {I : Fin batch.size} (h : I + 1 < batch.size) :
    (batch.next I).val = I + 1 := by
  rw [batch.next_val, Nat.mod_eq_of_lt h]

theorem next_val_of_eq {I : Fin batch.size} (h : I + 1 = batch.size) :
    (batch.next I).val = 0 := by
  rw [batch.next_val, h, Nat.mod_self]

/-- The state once the log has been read for lane `I`. -/
def Locals.State.readNext (htLog : HtLog) (compute : ℕ) (pktLo : Fin batch.size → CInt)
    (state : Locals.State batch) : Locals.State batch :=
  { state with
    sum := state.sum + lookup htLog compute (pktLo state.I)
    I := batch.next state.I }

theorem Locals.blocks_readNext (hashFuel fuel : ℕ) {state : Locals.State batch}
    (ha1 : state.a1 state.I = memAddr (Manual.rounds compute (pktLo state.I))) :
    Locals.blocks hashFuel htLog compute pktLo (fuel + 1) .label1 state =
      if (batch.next state.I).val ≠ 0 then
        Locals.blocks hashFuel htLog compute pktLo fuel (state.batchRips (batch.next state.I))
          (state.readNext htLog compute pktLo)
      else some (state.readNext htLog compute pktLo).sum := by
  have hblock : Locals.block hashFuel htLog compute pktLo .label1 state =
      some (state.readNext htLog compute pktLo, if (batch.next state.I).val ≠ 0 then
        some (state.batchRips (batch.next state.I)) else none) := by
    change (readAt htLog (state.a1 state.I)).bind _ = _
    rw [ha1, readAt_memAddr]
    rfl
  rw [Locals.blocks, hblock]
  by_cases hnext : (batch.next state.I).val ≠ 0
  · rw [if_pos hnext, if_pos hnext]
    rfl
  · rw [if_neg hnext, if_neg hnext]
    rfl

/-- The second round: lane `I` and those above it are still to be read. -/
theorem Locals.blocks_label1 (hashFuel : ℕ) (sum : CInt) (left : ℕ) {fuel : ℕ}
    {state : Locals.State batch}
    (hleft : state.I + 1 + left = batch.size)
    (hrips : ∀ lane, state.batchRips lane = .label1)
    (ha1 : ∀ lane, state.a1 lane = memAddr (Manual.rounds compute (pktLo lane)))
    (hsum : state.sum = sum + sumBelow (fun lane ↦ lookup htLog compute (pktLo lane)) state.I)
    (hfuel : left < fuel) :
    Locals.blocks hashFuel htLog compute pktLo fuel .label1 state =
      some (sum + ∑ lane, lookup htLog compute (pktLo lane)) := by
  induction left generalizing fuel state with
  | zero =>
    obtain ⟨fuel, rfl⟩ := Nat.exists_eq_succ_of_ne_zero (by omega : fuel ≠ 0)
    have hnext := next_val_of_eq (I := state.I) (by omega)
    rw [Locals.blocks_readNext hashFuel fuel (ha1 state.I), if_neg (not_not.mpr hnext)]
    change some (state.sum + lookup htLog compute (pktLo state.I)) = _
    rw [hsum, add_assoc, ← sumBelow_succ, ← sumBelow_size]
    congr
  | succ left ih =>
    obtain ⟨fuel, rfl⟩ := Nat.exists_eq_succ_of_ne_zero (by omega : fuel ≠ 0)
    have hnext := next_val_of_lt (I := state.I) (by omega)
    rw [Locals.blocks_readNext hashFuel fuel (ha1 state.I), if_pos (by omega), hrips]
    apply ih
    · change (batch.next state.I).val + 1 + left = batch.size
      omega
    · exact hrips
    · exact ha1
    · change state.sum + _ = sum + sumBelow _ (batch.next state.I).val
      rw [hnext, sumBelow_succ, hsum, add_assoc]
    · omega

/-- The state once the packet of lane `I` has been hashed. -/
def Locals.State.hashNext (compute : ℕ) (pktLo : Fin batch.size → CInt)
    (state : Locals.State batch) : Locals.State batch :=
  { state with
    a1 := Function.update state.a1 state.I (memAddr (Manual.rounds compute (pktLo state.I)))
    batchRips := Function.update state.batchRips state.I .label1
    I := batch.next state.I }

theorem Locals.blocks_hashNext (hcompute : compute < 2 ^ 31) {hashFuel : ℕ}
    (hhashFuel : compute < hashFuel) (fuel : ℕ) (state : Locals.State batch) :
    Locals.blocks hashFuel htLog compute pktLo (fuel + 1) .label0 state =
      Locals.blocks hashFuel htLog compute pktLo fuel
        (if (batch.next state.I).val ≠ 0 then
          (state.hashNext compute pktLo).batchRips (batch.next state.I) else .label1)
        (state.hashNext compute pktLo) := by
  have hblock : Locals.block hashFuel htLog compute pktLo .label0 state =
      some (state.hashNext compute pktLo, if (batch.next state.I).val ≠ 0 then
        some ((state.hashNext compute pktLo).batchRips (batch.next state.I)) else
          some .label1) := by
    change (Locals.hash compute hashFuel (pktLo state.I)).bind _ = _
    rw [Locals.hash_eq hcompute hhashFuel, Option.bind_some]
    change (readAt htLog (memAddr (Manual.rounds compute (pktLo state.I)))).bind _ = _
    rw [readAt_memAddr]
    rfl
  rw [Locals.blocks, hblock, ← apply_ite some]
  rfl

/-- The first `count` lanes have been hashed and go on at `label_1`. -/
def Locals.State.HashedBelow (compute : ℕ) (pktLo : Fin batch.size → CInt)
    (state : Locals.State batch) (count : ℕ) : Prop :=
  ∀ lane : Fin batch.size, lane.val < count → state.batchRips lane = .label1 ∧
    state.a1 lane = memAddr (Manual.rounds compute (pktLo lane))

theorem Locals.State.HashedBelow.hashNext {state : Locals.State batch}
    (h : state.HashedBelow compute pktLo state.I) :
    (state.hashNext compute pktLo).HashedBelow compute pktLo (state.I + 1) := by
  intro lane hlane
  by_cases heq : lane = state.I
  · subst heq
    exact ⟨Function.update_self _ _ _, Function.update_self _ _ _⟩
  · have hval : lane.val ≠ state.I := fun h ↦ heq (Fin.ext h)
    obtain ⟨hrip, ha1⟩ := h lane (by omega)
    exact ⟨(Function.update_of_ne heq _ _).trans hrip, (Function.update_of_ne heq _ _).trans ha1⟩

/-- The first round: lane `I` and those above it are still to be hashed. -/
theorem Locals.blocks_label0 (hcompute : compute < 2 ^ 31) {hashFuel : ℕ}
    (hhashFuel : compute < hashFuel) (left : ℕ) {fuel : ℕ} {state : Locals.State batch}
    (hleft : state.I + 1 + left = batch.size) (hbelow : state.HashedBelow compute pktLo state.I)
    (habove : ∀ lane ≥ state.I, state.batchRips lane = .label0)
    (hfuel : left + batch.size < fuel) :
    Locals.blocks hashFuel htLog compute pktLo fuel .label0 state =
      some (state.sum + ∑ lane, lookup htLog compute (pktLo lane)) := by
  induction left generalizing fuel state with
  | zero =>
    obtain ⟨fuel, rfl⟩ := Nat.exists_eq_succ_of_ne_zero (by omega : fuel ≠ 0)
    have hnext := next_val_of_eq (I := state.I) (by omega)
    have hall := hbelow.hashNext
    rw [Locals.blocks_hashNext hcompute hhashFuel, if_neg (not_not.mpr hnext)]
    apply Locals.blocks_label1 hashFuel state.sum (batch.size - 1)
    · change (batch.next state.I).val + 1 + (batch.size - 1) = batch.size
      omega
    · exact fun lane ↦ (hall lane (by omega)).1
    · exact fun lane ↦ (hall lane (by omega)).2
    · change state.sum = state.sum + sumBelow _ (batch.next state.I).val
      rw [hnext, sumBelow_zero, add_zero]
    · omega
  | succ left ih =>
    obtain ⟨fuel, rfl⟩ := Nat.exists_eq_succ_of_ne_zero (by omega : fuel ≠ 0)
    have hnext := next_val_of_lt (I := state.I) (by omega)
    have hlater (lane : Fin batch.size) (hlane : batch.next state.I ≤ lane) :
        (state.hashNext compute pktLo).batchRips lane = .label0 := by
      have hbound : (batch.next state.I).val ≤ lane.val := hlane
      have heq : lane ≠ state.I := by
        rintro rfl
        omega
      exact (Function.update_of_ne heq _ _).trans (habove lane (Fin.le_def.mpr (by omega)))
    rw [Locals.blocks_hashNext hcompute hhashFuel, if_pos (by omega), hlater _ le_rfl]
    apply ih
    · change (batch.next state.I).val + 1 + left = batch.size
      omega
    · change (state.hashNext compute pktLo).HashedBelow compute pktLo (batch.next state.I).val
      rw [hnext]
      exact hbelow.hashNext
    · exact hlater
    · omega

theorem Locals.goto_eq (hcompute : compute < 2 ^ 31) (hcomputeFuel : compute < fuel)
    (hfuel : 2 * batch.size ≤ fuel) (sum : CInt) :
    Locals.goto fuel htLog compute pktLo stack sum =
      some (sum + ∑ lane, lookup htLog compute (pktLo lane)) := by
  have hpos := batch.size_pos
  apply Locals.blocks_label0 hcompute hcomputeFuel (batch.size - 1)
  · change 0 + 1 + (batch.size - 1) = batch.size
    omega
  · intro lane hlane
    exact absurd hlane (Nat.not_lt_zero _)
  · intro lane _
    rfl
  · omega

/-! ## All packets -/

section Packets

variable {batches : ℕ} (pkts : Fin (batches * batch.size) → CInt)

/-- The batch with the number `i`. -/
def batchOf (i : Fin batches) : Fin batch.size → CInt := fun I ↦ pkts (finProdFinEquiv (i, I))

theorem batchAt_eq (hfits : batches * batch.size < 2 ^ 31) (i : Fin batches) :
    batchAt pkts (BitVec.ofNat 32 (i * batch.size)) = some (batchOf pkts i) := by
  have hend : i * batch.size + batch.size ≤ batches * batch.size := by
    rw [← Nat.succ_mul]
    exact Nat.mul_le_mul_right _ i.isLt
  have hint : (BitVec.ofNat 32 (i * batch.size)).toInt = (i * batch.size : ℕ) :=
    toInt_ofNat_of_lt (by have := batch.size_pos; omega)
  rw [batchAt, dif_pos (by rw [hint, Int.toNat_natCast]; exact ⟨Int.natCast_nonneg _, hend⟩)]
  congr 1
  funext I
  apply congrArg pkts
  apply Fin.ext
  simp only [hint, Int.toNat_natCast, finProdFinEquiv_apply_val]
  rw [Nat.add_comm, Nat.mul_comm]

/-- A program that adds up what is read for a batch adds up what is read for all packets. -/
theorem processPkts_returns (hfits : batches * batch.size < 2 ^ 31)
    {process : (fuel : ℕ) → (i : CInt) → (Fin batch.size → CInt) → CInt → Option CInt}
    (hprocess : ∀ (i : Fin batches) sum,
      Returns (fun fuel ↦ process fuel (BitVec.ofNat 32 (i * batch.size)) (batchOf pkts i) sum)
        (sum + ∑ I, lookup htLog compute (batchOf pkts i I))) (sum : CInt) :
    Returns (fun fuel ↦ processPkts fuel (process fuel) pkts sum)
      (sum + ∑ i, ∑ I, lookup htLog compute (batchOf pkts i I)) := by
  obtain ⟨bound, hbound⟩ := foldlM_finRange_of_fuel (fun sum i ↦ hprocess i sum) sum
  refine ⟨max bound (batches + 1), fun fuel hfuel ↦ ?_⟩
  have hbelow (k : ℕ) (hk : k < batches) :
      ((k * batch.size : ℕ) : ℤ) < (batches * batch.size : ℕ) :=
    Int.ofNat_lt.mpr (Nat.mul_lt_mul_of_pos_right hk batch.size_pos)
  have hloop := forLoop_eq_foldlM
    (fun i sum ↦ (batchAt pkts i).bind fun pktLo ↦ process fuel i pktLo sum) hbelow le_rfl hfits
    ((le_max_right _ _).trans hfuel) sum
  refine hloop.trans ?_
  rw [← List.map_coe_finRange_eq_range, List.foldlM_map,
    ← hbound fuel ((le_max_left _ _).trans hfuel)]
  simp only [batchAt_eq pkts hfits, Option.bind_some]

end Packets

/-- All five programs come to an end without leaving the log, and with the same sum. `stack` is
what the array on the stack holds when a batch is begun. -/
def SumsAgree (htLog : HtLog) (compute : ℕ) {numPkts : ℕ} (pkts : Fin numPkts → CInt)
    (stack : (i : CInt) → Fin batch.size → CInt) (sum : CInt) : Prop :=
  ∃ result,
    Returns (fun fuel ↦ processPkts fuel
      (fun _ ↦ @Simple.nogoto batch fuel htLog compute) pkts sum) result ∧
    Returns (fun fuel ↦ processPkts fuel
      (fun i pktLo ↦ Simple.goto fuel htLog compute pktLo (stack i)) pkts sum) result ∧
    Returns (fun fuel ↦ processPkts fuel
      (fun i pktLo ↦ Manual.process fuel htLog compute pktLo (stack i)) pkts sum) result ∧
    Returns (fun fuel ↦ processPkts fuel
      (fun _ ↦ @Locals.nogoto batch fuel htLog compute) pkts sum) result ∧
    Returns (fun fuel ↦ processPkts fuel
      (fun i pktLo ↦ Locals.goto fuel htLog compute pktLo (stack i)) pkts sum) result

theorem sumsAgree_of_lt {batches : ℕ} {pkts : Fin (batches * batch.size) → CInt}
    (hcompute : compute < 2 ^ 31) (hfits : batches * batch.size < 2 ^ 31)
    (hpkts : ∀ i, InRange logCap (pkts i)) (stack : (i : CInt) → Fin batch.size → CInt)
    (sum : CInt) : SumsAgree htLog compute pkts stack sum := by
  have hbatch (i : Fin batches) (I : Fin batch.size) : InRange logCap (batchOf pkts i I) := hpkts _
  refine ⟨sum + ∑ i, ∑ I, lookup htLog compute (batchOf pkts i I), ?_, ?_, ?_, ?_, ?_⟩
  · apply processPkts_returns pkts hfits
    intro i sum
    exact .of_lt compute fun fuel hfuel ↦ Simple.nogoto_eq hcompute hfuel (hbatch i) sum
  · apply processPkts_returns pkts hfits
    intro i sum
    exact Simple.goto_eq hcompute (hbatch i) sum
  · apply processPkts_returns pkts hfits
    intro i sum
    exact .of_lt compute fun fuel hfuel ↦ Manual.process_eq hcompute hfuel sum
  · apply processPkts_returns pkts hfits
    intro i sum
    exact .of_lt compute fun fuel hfuel ↦ Locals.nogoto_eq hcompute hfuel sum
  · apply processPkts_returns pkts hfits
    intro i sum
    refine ⟨max (compute + 1) (2 * batch.size), fun fuel hfuel ↦ ?_⟩
    exact Locals.goto_eq hcompute ((le_max_left _ _).trans hfuel) ((le_max_right _ _).trans hfuel)
      sum

/-! ## Constants that do not fit -/

/-- No packet gets its hash. -/
theorem Simple.nogoto_eq_none (hcompute : 2 ^ 31 ≤ compute) (fuel : ℕ) (sum : CInt) :
    Simple.nogoto fuel htLog compute pktLo sum = none := by
  have hhash (pkt : CInt) : Simple.hash compute fuel pkt = none :=
    hashWith_eq_none _ hcompute fuel pkt
  have hnil : List.finRange batch.size ≠ [] := by
    rw [ne_eq, List.finRange_eq_nil_iff]
    exact batch.size_pos.ne'
  obtain ⟨lane, lanes, hlanes⟩ := List.exists_cons_of_ne_nil hnil
  rw [Simple.nogoto, hlanes, List.foldlM_cons, hhash]
  rfl

theorem processPkts_nogoto_eq_none {numPkts : ℕ} (hpos : 0 < numPkts) {pkts : Fin numPkts → CInt}
    (hlarge : 2 ^ 31 ≤ compute ∨ 2 ^ 31 ≤ numPkts) (sum : CInt) (fuel : ℕ) :
    processPkts fuel (fun _ ↦ @Simple.nogoto batch fuel htLog compute) pkts sum = none := by
  rcases hlarge with hcompute | hnum
  · refine forLoop_eq_none_of_body (Int.natCast_pos.mpr hpos) ?_ fuel
    exact Option.bind_eq_none_iff.mpr fun _ _ ↦ Simple.nogoto_eq_none hcompute fuel sum
  · exact forLoop_eq_none _ _ (by exact_mod_cast hnum) fuel 0 sum

theorem processPkts_empty {process : (fuel : ℕ) → (i : CInt) → (Fin batch.size → CInt) → CInt →
    Option CInt} (pkts : Fin 0 → CInt) (sum : CInt) :
    Returns (fun fuel ↦ processPkts fuel (process fuel) pkts sum) sum := by
  refine .of_lt 0 fun fuel hfuel ↦ ?_
  obtain ⟨fuel, rfl⟩ := Nat.exists_eq_succ_of_ne_zero hfuel.ne'
  rfl

/-- All five programs come to an end without leaving the log, and with the same sum, if and only if
`COMPUTE` and the number of packets fit into an `int`, or there is no packet. -/
theorem lookup_sums_agree_iff (batch : BatchSize) (htLog : HtLog) (compute batches : ℕ)
    (pkts : Fin (batches * batch.size) → CInt) (hpkts : ∀ i, InRange logCap (pkts i))
    (stack : (i : CInt) → Fin batch.size → CInt) (sum : CInt) :
    SumsAgree htLog compute pkts stack sum ↔
      batches = 0 ∨ compute < 2 ^ 31 ∧ batches * batch.size < 2 ^ 31 := by
  constructor
  · rintro ⟨result, hnogoto, -⟩
    by_contra hnot
    obtain ⟨hbatches, hlarge⟩ := not_or.mp hnot
    have hpos := Nat.mul_pos (Nat.pos_of_ne_zero hbatches) batch.size_pos
    refine not_returns_of_eq_none (processPkts_nogoto_eq_none hpos ?_ sum) result hnogoto
    by_contra hsmall
    obtain ⟨hcompute, hnum⟩ := not_or.mp hsmall
    exact hlarge ⟨not_le.mp hcompute, not_le.mp hnum⟩
  · rintro (rfl | ⟨hcompute, hfits⟩)
    · generalize hzero : 0 * batch.size = numPkts at pkts
      obtain rfl := hzero.symm.trans (Nat.zero_mul _)
      exact ⟨sum, processPkts_empty pkts sum, processPkts_empty pkts sum,
        processPkts_empty pkts sum, processPkts_empty pkts sum, processPkts_empty pkts sum⟩
    · exact sumsAgree_of_lt hcompute hfits hpkts stack sum

/-- `ht_log` as `main` fills it. -/
def identityLog : HtLog := fun i ↦ BitVec.ofNat 32 i

/-- Two batches of 8 packets, with `COMPUTE` as it is set in `param.h`. -/
theorem lookup_sums_agree_sixteen_pkts :
    @SumsAgree ⟨8, 3, by decide⟩ identityLog 32 16 (fun i ↦ BitVec.ofNat 32 i) (fun _ _ ↦ 9) 1 :=
  (lookup_sums_agree_iff ⟨8, 3, by decide⟩ identityLog 32 2 (fun i ↦ BitVec.ofNat 32 i) (by decide)
    (fun _ _ ↦ 9) 1).mpr (.inr (by decide))

/-- With `COMPUTE` at `2 ^ 31` no form of `hash` returns, and so the first program does not return
for one batch of packets. -/
theorem lookup_without_end :
    (∀ fuel a, Simple.hash (2 ^ 31) fuel a = none ∧ Manual.hash (2 ^ 31) fuel a = none ∧
      Locals.hash (2 ^ 31) fuel a = none) ∧
    (∀ fuel, processPkts fuel (fun _ ↦ @Simple.nogoto ⟨8, 3, by decide⟩ fuel identityLog (2 ^ 31))
      (fun i : Fin 8 ↦ BitVec.ofNat 32 i) 0 = none) ∧
    ¬ @SumsAgree ⟨8, 3, by decide⟩ identityLog (2 ^ 31) 8 (fun i ↦ BitVec.ofNat 32 i)
      (fun _ _ ↦ 9) 0 := by
  have hnone (fuel : ℕ) : processPkts fuel
      (fun _ ↦ @Simple.nogoto ⟨8, 3, by decide⟩ fuel identityLog (2 ^ 31))
      (fun i : Fin 8 ↦ BitVec.ofNat 32 i) 0 = none :=
    processPkts_nogoto_eq_none (by decide) (.inl le_rfl) 0 fuel
  refine ⟨fun fuel a ↦ ⟨?_, ?_, ?_⟩, hnone, ?_⟩
  · exact hashWith_eq_none _ le_rfl fuel a
  · exact hashWith_eq_none _ le_rfl fuel a
  · exact hashWith_eq_none _ le_rfl fuel a
  · rintro ⟨result, hnogoto, -⟩
    exact not_returns_of_eq_none hnone result hnogoto

end Systemish.Goto
