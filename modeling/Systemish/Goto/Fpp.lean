import Mathlib

/-!
# The batched goto machine

Embedding of `fpp.h` and of the code that surrounds a function body in the goto
programs: the initialisation of `batch_rips`, the macro `FPP_PSS` and the block
at label `end`. A lane is one packet of the batch. Its code is given by what it
does from a label up to the next switch; it works on the locals of its lane and
on an accumulator that all lanes share. A jump through an entry of `batch_rips`
that was never assigned, and a segment that leaves its arrays, are faults.
-/

namespace Systemish.Goto

/-- A C `int`: 32 bits, wrapping. -/
abbrev CInt := BitVec 32

/-- The value is an index in `[0, n)`. -/
def InRange (n : ℕ) (value : CInt) : Prop := 0 ≤ value.toInt ∧ value.toInt < n

instance (n : ℕ) (value : CInt) : Decidable (InRange n value) :=
  inferInstanceAs (Decidable (_ ∧ _))

/-- `arr[index]`. -/
def readAt {n : ℕ} {α : Type} (arr : Fin n → α) (index : CInt) : Option α :=
  if h : InRange n index then some (arr ⟨index.toInt.toNat, (Int.toNat_lt h.1).mpr h.2⟩) else none

theorem exists_readAt {n : ℕ} {α : Type} (arr : Fin n → α) {index : CInt} (h : InRange n index) :
    ∃ i, readAt arr index = some (arr i) := ⟨_, dif_pos h⟩

theorem readAt_eq {n : ℕ} {α : Type} (arr : Fin n → α) {index : CInt} {i : ℕ} (hi : i < n)
    (hindex : index.toInt = i) : readAt arr index = some (arr ⟨i, hi⟩) := by
  have hrange : InRange n index := by
    rw [InRange, hindex]
    exact ⟨Int.natCast_nonneg i, Int.ofNat_lt.mpr hi⟩
  rw [readAt, dif_pos hrange]
  simp only [hindex, Int.toNat_natCast]

/-- An `int` that is an index in `[0, n)`. -/
abbrev IndexInt (n : ℕ) := { value : CInt // InRange n value }

def IndexInt.toFin {n : ℕ} (index : IndexInt n) : Fin n :=
  ⟨index.val.toInt.toNat, (Int.toNat_lt index.2.1).mpr index.2.2⟩

theorem readAt_val {n : ℕ} {α : Type} (arr : Fin n → α) (index : IndexInt n) :
    readAt arr index.val = some (arr index.toFin) := dif_pos index.2

/-- `BATCH_SIZE`, a power of two up to 16. -/
structure BatchSize where
  size : ℕ
  powerOfTwo : ∃ k ≤ 4, size = 2 ^ k

namespace BatchSize

/-- `BATCH_SIZE_`. -/
def mask (batch : BatchSize) : ℕ := batch.size - 1

theorem size_pos (batch : BatchSize) : 0 < batch.size := by
  obtain ⟨k, _, hk⟩ := batch.powerOfTwo
  rw [hk]
  exact Nat.two_pow_pos k

theorem and_mask (batch : BatchSize) (x : ℕ) : x &&& batch.mask = x % batch.size := by
  obtain ⟨k, _, hk⟩ := batch.powerOfTwo
  rw [mask, hk, Nat.and_two_pow_sub_one_eq_mod]

/-- `I = (I + 1) & BATCH_SIZE_`. -/
def next (batch : BatchSize) (I : Fin batch.size) : Fin batch.size :=
  ⟨(I + 1) &&& batch.mask, by rw [and_mask]; exact Nat.mod_lt _ batch.size_pos⟩

theorem next_val (batch : BatchSize) (I : Fin batch.size) :
    (batch.next I).val = (I + 1) % batch.size := and_mask batch _

end BatchSize

/-- The labels of the function bodies of the goto programs. -/
inductive BodyLabel where
  | label0
  | label1
deriving DecidableEq

/-- Where a lane can be: at a label of its body, or at the label `end`. -/
inductive Target (Label : Type) where
  | label (label : Label)
  | endBlock
deriving DecidableEq

/-- The code of the lanes. `segment` runs a lane from a label up to its next switch and tells the
label that `FPP_PSS` saves there, or `endBlock` where the lane runs into the block at `end`. -/
structure Program (batch : BatchSize) (Label σ α : Type) where
  entry : Label
  segment : Fin batch.size → Label → σ → α → Option (σ × α × Target Label)

/-- A segment that was executed: its lane, its label, and the accumulator before and after it. -/
structure Event (batch : BatchSize) (Label α : Type) where
  lane : Fin batch.size
  label : Label
  before : α
  after : α

/-- The variables of `process_pkts_in_batch`, and the segments executed so far. -/
structure Machine (batch : BatchSize) (Label σ α : Type) where
  I : Fin batch.size
  batchRips : Fin batch.size → Option (Target Label)
  iMask : ℕ
  locals : Fin batch.size → σ
  acc : α
  log : List (Event batch Label α)

/-- What one dispatch comes to. -/
inductive Outcome (batch : BatchSize) (Label σ α : Type) where
  | running (machine : Machine batch Label σ α)
  | returned (machine : Machine batch Label σ α)
  | fault

variable {batch : BatchSize} {Label σ α : Type}

/-- `FPP_SET`. -/
def fppSet (n i : ℕ) : ℕ := n ||| (1 <<< i)

namespace Machine

/-- The state at `label_0`, after every entry of `batch_rips` has been set to it. -/
def start (program : Program batch Label σ α) (locals : Fin batch.size → σ) (acc : α) :
    Machine batch Label σ α where
  I := ⟨0, batch.size_pos⟩
  batchRips _ := some (.label program.entry)
  iMask := 0
  locals := locals
  acc := acc
  log := []

/-- The end of `FPP_PSS`: save the label and switch to the next lane. -/
def fppPss (machine : Machine batch Label σ α) (label : Label) : Machine batch Label σ α :=
  { machine with
    batchRips := Function.update machine.batchRips machine.I (some (.label label))
    I := batch.next machine.I }

/-- The first two statements at `end`. -/
def markDone (machine : Machine batch Label σ α) : Machine batch Label σ α :=
  { machine with
    batchRips := Function.update machine.batchRips machine.I (some .endBlock)
    iMask := fppSet machine.iMask machine.I }

/-- The block at `end`. -/
def endBlock (machine : Machine batch Label σ α) : Outcome batch Label σ α :=
  let machine := machine.markDone
  if machine.iMask = (1 <<< batch.size) - 1 then .returned machine
  else .running { machine with I := batch.next machine.I }

/-- The effect of a segment on the locals of its lane, the accumulator and the log. -/
def execute (machine : Machine batch Label σ α) (label : Label) (locals : σ) (acc : α) :
    Machine batch Label σ α :=
  { machine with
    locals := Function.update machine.locals machine.I locals
    acc := acc
    log := machine.log ++ [⟨machine.I, label, machine.acc, acc⟩] }

/-- `goto *batch_rips[I]`, up to the next computed goto or to the return. -/
def dispatch (program : Program batch Label σ α) (machine : Machine batch Label σ α) :
    Outcome batch Label σ α :=
  match machine.batchRips machine.I with
  | none => .fault
  | some .endBlock => machine.endBlock
  | some (.label label) =>
    match program.segment machine.I label (machine.locals machine.I) machine.acc with
    | none => .fault
    | some (locals, acc, .label saved) => .running ((machine.execute label locals acc).fppPss saved)
    | some (locals, acc, .endBlock) => (machine.execute label locals acc).endBlock

/-- At most `count` dispatches. -/
def dispatches (program : Program batch Label σ α) :
    (count : ℕ) → Machine batch Label σ α → Outcome batch Label σ α
  | 0, machine => .running machine
  | count + 1, machine =>
    match machine.dispatch program with
    | .running machine => dispatches program count machine
    | outcome => outcome

end Machine

end Systemish.Goto
