import Systemish.Antlr.DeclarationInserter
import Systemish.Goto.Fpp

/-!
# The function that the pipeline emits

What `DeclarationInserter` puts around a function body is code: `initCode` and the
array declarations in front of it, `endCode` behind it. The body is given by what
it does from one of its labels up to the place where it leaves: at a switch, at a
`return` of its own, or by running into the block at `end`. All memory that it
works on, the arrays of its variables included, is one value here. It does not
name `I`, `batch_rips` and `iMask`, which the pass brings in, other than by
switches.
-/

namespace Systemish.Antlr.EmittedFunction

open Goto

/-- `BATCH_SIZE`: any power of two from 2 on. -/
structure BatchSize where
  size : ℕ
  powerOfTwo : ∃ k ≥ 1, size = 2 ^ k

namespace BatchSize

variable (batch : BatchSize)

theorem two_le_size : 2 ≤ batch.size := by
  obtain ⟨k, hk, hsize⟩ := batch.powerOfTwo
  calc
    2 = 2 ^ 1 := rfl
    _ ≤ 2 ^ k := Nat.pow_le_pow_right Nat.two_pos hk
    _ = batch.size := hsize.symm

theorem size_pos : 0 < batch.size := Nat.lt_of_lt_of_le Nat.two_pos batch.two_le_size

/-- `I = (I + 1) & BATCH_SIZE_`. -/
def next (I : Fin batch.size) : Fin batch.size :=
  ⟨(I + 1) &&& (batch.size - 1), by
    have hle : (I.val + 1) &&& (batch.size - 1) ≤ batch.size - 1 := Nat.and_le_right
    have hpos := batch.size_pos
    omega⟩

/-- `(1 << BATCH_SIZE) - 1`. Shifting an `int` by its width or more is undefined. -/
def fullMask : Option CInt := if batch.size < 32 then some ((1 <<< batch.size) - 1) else none

end BatchSize

variable {batch : BatchSize} {Label σ : Type}

/-- How the body is left. -/
inductive Exit (Label : Type) where
  /-- By a switch, which saves the label. -/
  | switch (label : Label)
  /-- By running into the block at `end`. -/
  | fallThrough
  /-- By a `return`. -/
  | returns

/-- A function body. `piece` has no value if the body is never left from there. -/
structure Body (batch : BatchSize) (Label σ : Type) where
  entry : Label
  piece : Fin batch.size → Label → σ → Option (σ × Exit Label)

/-- The variables of the emitted function, and the pieces of the body executed so far. -/
structure State (batch : BatchSize) (Label σ : Type) where
  I : Fin batch.size
  batchRips : Fin batch.size → Option (Target Label)
  iMask : CInt
  memory : σ
  log : List (Fin batch.size × Label × Exit Label)

/-- Where an execution has come to. -/
inductive Outcome (batch : BatchSize) (Label σ : Type) where
  /-- In front of `goto *batch_rips[I]`. -/
  | running (state : State batch Label σ)
  | returned (state : State batch Label σ)
  /-- In the body, for ever. -/
  | diverged
  /-- At `goto *batch_rips[I]`, and the entry has never been assigned. -/
  | unassigned
  | undefined

/-! ## The function -/

namespace State

/-- After `initCode` and the declarations. Nothing is assigned to `batch_rips` there. -/
def start (batch : BatchSize) (Label : Type) (memory : σ) : State batch Label σ where
  I := ⟨0, batch.size_pos⟩
  batchRips _ := none
  iMask := 0
  memory := memory
  log := []

/-- `batch_rips[I] = target`. -/
def save (state : State batch Label σ) (target : Target Label) : State batch Label σ :=
  { state with batchRips := Function.update state.batchRips state.I (some target) }

/-- `endCode`. -/
def endCode (state : State batch Label σ) : Outcome batch Label σ :=
  let state := { state.save .endBlock with iMask := state.iMask ||| (1 <<< state.I.val) }
  match batch.fullMask with
  | none => .undefined
  | some fullMask =>
    if state.iMask = fullMask then .returned state
    else .running { state with I := batch.next state.I }

/-- The body from one of its labels on. -/
def runBody (body : Body batch Label σ) (state : State batch Label σ) (label : Label) :
    Outcome batch Label σ :=
  match body.piece state.I label state.memory with
  | none => .diverged
  | some (memory, exit) =>
    let state :=
      { state with memory := memory, log := state.log ++ [(state.I, label, exit)] }
    match exit with
    | .switch saved => .running { state.save (.label saved) with I := batch.next state.I }
    | .fallThrough => state.endCode
    | .returns => .returned state

/-- `goto *batch_rips[I]`, and on to the next one. -/
def jump (body : Body batch Label σ) (state : State batch Label σ) : Outcome batch Label σ :=
  match state.batchRips state.I with
  | none => .unassigned
  | some .endBlock => state.endCode
  | some (.label label) => state.runBody body label

end State

/-- An execution of the emitted function up to its computed goto with number `count`. -/
def execution (body : Body batch Label σ) (memory : σ) : (count : ℕ) → Outcome batch Label σ
  | 0 => (State.start batch Label memory).runBody body body.entry
  | count + 1 =>
    match execution body memory count with
    | .running state => state.jump body
    | outcome => outcome

/-! ## The text -/

/-- A statement of the emitted code: its lines, and what it does. Control goes on with the next
statement or leaves the code. -/
structure Statement (batch : BatchSize) (Label σ : Type) where
  lines : List Text
  run : State batch Label σ → Except (Outcome batch Label σ) (State batch Label σ)

/-- Some statements, one after the other. -/
def runStatements : List (Statement batch Label σ) → State batch Label σ →
    Except (Outcome batch Label σ) (State batch Label σ)
  | [], state => .ok state
  | statement :: rest, state =>
    match statement.run state with
    | .ok state => runStatements rest state
    | .error outcome => .error outcome

section Statements

variable (batch Label σ)

def initStatements : List (Statement batch Label σ) :=
  [⟨["\tint I = 0;          // batch index\n".toList],
      fun state ↦ .ok { state with I := ⟨0, batch.size_pos⟩ }⟩,
    ⟨["\tvoid *batch_rips[BATCH_SIZE];       // goto targets\n".toList],
      fun state ↦ .ok { state with batchRips := fun _ ↦ none }⟩,
    ⟨["\tint iMask = 0;      // No packet is done yet".toList],
      fun state ↦ .ok { state with iMask := 0 }⟩]

def endStatements : List (Statement batch Label σ) :=
  [⟨["end:\n".toList], .ok⟩,
    ⟨["\tbatch_rips[I] = &&end;\n".toList], fun state ↦ .ok (state.save .endBlock)⟩,
    ⟨["\tiMask = SET(iMask, I);\n".toList],
      fun state ↦ .ok { state with iMask := state.iMask ||| (1 <<< state.I.val) }⟩,
    ⟨["\tif(iMask == (1 << BATCH_SIZE) - 1) \x7b\n".toList, "\t\treturn;\n".toList,
        "\t\x7d\n".toList],
      fun state ↦
        match batch.fullMask with
        | none => .error .undefined
        | some fullMask => if state.iMask = fullMask then .error (.returned state) else .ok state⟩,
    ⟨["\tI = (I + 1) & BATCH_SIZE_;\n".toList],
      fun state ↦ .ok { state with I := batch.next state.I }⟩,
    ⟨["\tgoto *batch_rips[I];\n".toList], fun state ↦ .error (.running state)⟩]

/-- The statements are those that the pass writes. -/
theorem lines_initStatements :
    (initStatements batch Label σ).flatMap Statement.lines = DeclarationInserter.initLines := rfl

theorem lines_endStatements :
    (endStatements batch Label σ).flatMap Statement.lines = DeclarationInserter.endLines := rfl

end Statements

/-- Whatever the variables were before, the first statements set them. -/
theorem runStatements_initStatements (state : State batch Label σ) :
    runStatements (initStatements batch Label σ) state =
      .ok { State.start batch Label state.memory with log := state.log } := rfl

/-- Control leaves the last statements by the computed goto at the latest. -/
theorem runStatements_endStatements (state : State batch Label σ) :
    runStatements (endStatements batch Label σ) state = .error state.endCode := by
  simp only [endStatements, runStatements, State.endCode]
  cases batch.fullMask with
  | none => rfl
  | some fullMask =>
    by_cases hfull : state.iMask ||| (1 <<< state.I.val) = fullMask
    · simp only [State.save, hfull, if_true]
    · simp only [State.save, hfull, if_false]

/-! ## What it is meant to do -/

/-- The pieces are one execution of the body, from `label` up to the block at `end`. -/
def IsBodyRun (label : Label) : List (Label × Exit Label) → Prop
  | [] => False
  | (first, .switch saved) :: rest => first = label ∧ IsBodyRun saved rest
  | (first, .fallThrough) :: rest => first = label ∧ rest = []
  | (_, .returns) :: _ => False

/-- The pieces of one lane. -/
def State.piecesOf (state : State batch Label σ) (lane : Fin batch.size) :
    List (Label × Exit Label) :=
  (state.log.filter fun piece ↦ piece.1 = lane).map Prod.snd

/-- No jump goes through an entry that has not been assigned, nothing is undefined, and every lane
has executed the body once when the function returns. -/
def Outcome.Good (entry : Label) : Outcome batch Label σ → Prop
  | .running _ => True
  | .returned state => ∀ lane, IsBodyRun entry (state.piecesOf lane)
  | .diverged => True
  | .unassigned => False
  | .undefined => False

/-! ## What it does -/

variable {body : Body batch Label σ} {memory memory' : σ}

theorem next_zero_ne (batch : BatchSize) :
    batch.next ⟨0, batch.size_pos⟩ ≠ ⟨0, batch.size_pos⟩ := by
  have hsize := batch.two_le_size
  obtain ⟨k, hk, hpow⟩ := batch.powerOfTwo
  intro heq
  have hval : (0 + 1) &&& (batch.size - 1) = 0 := congrArg Fin.val heq
  rw [hpow, Nat.and_two_pow_sub_one_eq_mod, ← hpow, Nat.mod_eq_of_lt (by omega)] at hval
  omega

/-- The mask of the first lane alone is not full. -/
theorem one_ne_fullMask {fullMask : CInt} (h : batch.fullMask = some fullMask) : 1 ≠ fullMask := by
  have hsize := batch.two_le_size
  rw [BatchSize.fullMask] at h
  split at h
  · next hlt =>
    obtain rfl := Option.some.inj h
    have hcases : batch.size ∈ Finset.Ico 2 32 := Finset.mem_Ico.mpr ⟨hsize, hlt⟩
    generalize batch.size = size at hcases
    revert size
    decide
  · exact absurd h (by simp)

/-- The body is not left at all. -/
theorem execution_diverged (h : body.piece ⟨0, batch.size_pos⟩ body.entry memory = none)
    (count : ℕ) : execution body memory count = .diverged := by
  induction count with
  | zero => simp only [execution, State.runBody, State.start, h]
  | succ count ih => rw [execution, ih]

/-- The body is left by a switch. -/
theorem execution_of_switch {saved : Label}
    (h : body.piece ⟨0, batch.size_pos⟩ body.entry memory = some (memory', .switch saved)) :
    execution body memory 1 = .unassigned := by
  have hrun : execution body memory 0 = .running
      { State.start batch Label memory with
        batchRips := Function.update (fun _ ↦ none) ⟨0, batch.size_pos⟩ (some (.label saved))
        memory := memory'
        log := [(⟨0, batch.size_pos⟩, body.entry, .switch saved)]
        I := batch.next ⟨0, batch.size_pos⟩ } := by
    simp only [execution, State.runBody, State.start, h]
    rfl
  rw [execution, hrun]
  simp only [State.jump, Function.update_of_ne (next_zero_ne batch)]

/-- The body runs into the block at `end`. -/
theorem execution_of_fallThrough
    (h : body.piece ⟨0, batch.size_pos⟩ body.entry memory = some (memory', .fallThrough)) :
    execution body memory 1 = .unassigned ∨ execution body memory 1 = .undefined := by
  cases hmask : batch.fullMask with
  | none =>
    refine .inr ?_
    simp only [execution, State.runBody, State.start, h, State.endCode, hmask]
  | some fullMask =>
    refine .inl ?_
    have hne : ¬ ((0 : CInt) ||| (1 <<< 0) = fullMask) := one_ne_fullMask hmask
    simp only [execution, State.runBody, State.start, h, State.endCode, hmask, State.save, hne,
      if_false, State.jump, Function.update_of_ne (next_zero_ne batch)]

/-- The body is left by a `return`: the other lanes have not executed it. -/
theorem not_good_of_returns
    (h : body.piece ⟨0, batch.size_pos⟩ body.entry memory = some (memory', .returns)) :
    ¬ (execution body memory 0).Good body.entry := by
  have hother := (next_zero_ne batch).symm
  simp only [execution, State.runBody, State.start, h]
  intro hgood
  have hlane := hgood (batch.next ⟨0, batch.size_pos⟩)
  simp [State.piecesOf, hother, IsBodyRun] at hlane

/-- No execution of the emitted function jumps through an entry of `batch_rips` that has not been
assigned, or returns before every lane has executed the body, if and only if the body, started for
the first lane, is never left. -/
theorem emitted_serves_iff (body : Body batch Label σ) :
    (∀ memory count, (execution body memory count).Good body.entry) ↔
      ∀ memory, body.piece ⟨0, batch.size_pos⟩ body.entry memory = none := by
  constructor
  · intro hgood memory
    rcases hpiece : body.piece ⟨0, batch.size_pos⟩ body.entry memory with _ | ⟨memory', exit⟩
    · rfl
    have hjump := hgood memory 1
    cases exit with
    | switch saved =>
      rw [execution_of_switch hpiece] at hjump
      exact hjump.elim
    | fallThrough =>
      rcases execution_of_fallThrough hpiece with hrun | hrun
      · rw [hrun] at hjump
        exact hjump.elim
      · rw [hrun] at hjump
        exact hjump.elim
    | returns => exact absurd (hgood memory 0) (not_good_of_returns hpiece)
  · intro hnone memory count
    rw [execution_diverged (hnone memory) count]
    trivial

/-- A body that runs into the block at `end` at once, with two lanes. -/
def emptyBody : Body ⟨2, 1, Nat.le_refl 1, rfl⟩ Unit Unit where
  entry := ()
  piece _ _ memory := some (memory, .fallThrough)

/-- The first computed goto goes through `batch_rips[1]`, which was never assigned. -/
theorem emptyBody_jumps_unassigned :
    execution emptyBody () 1 = .unassigned ∧
      ¬ ∀ memory count, (execution emptyBody memory count).Good emptyBody.entry := by
  have hrun : execution emptyBody () 1 = .unassigned := rfl
  refine ⟨hrun, fun hgood ↦ ?_⟩
  have hjump := hgood () 1
  rw [hrun] at hjump
  exact hjump

end Systemish.Antlr.EmittedFunction
