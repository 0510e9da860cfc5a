import Systemish.Foundation.Run

/-!
# Symmetric coroutines that take turns

A test creates as many coroutines as there are threads and launches the first one. Each runs the
body of its loop and yields to the next of the ring, which it finds through the global `coro_id`.
The coroutine that leaves its loop gives the control back to the test. The counters of the program
are 32-bit integers, and the two constants are arbitrary.
-/

namespace Systemish.CoroPerf

open Foundation

/-- What an entry of `coro_arr` points to. -/
inductive Frame where
  /-- No coroutine: the entry is not set yet, or its coroutine is deleted. -/
  | absent
  /-- Created and never resumed. -/
  | fresh
  /-- Inside its call of `yield`, with the value of `switch_i`. -/
  | suspended (switchI : BitVec 32)
  /-- `coro_func` has returned. -/
  | returned
  deriving DecidableEq, Repr

/-- Where the control is. -/
inductive Control (numThreads : ℕ) where
  /-- In the loop of `test` that creates the coroutines. -/
  | creating (thrI : BitVec 32)
  /-- In a coroutine, before the condition of its loop. -/
  | looping (coroutine : Fin numThreads) (switchI : BitVec 32)
  /-- In a coroutine that enters `yield_func`. -/
  | yielding (coroutine : Fin numThreads) (switchI : BitVec 32)
  /-- In `test`, after the call that launches the first coroutine. -/
  | done
  deriving DecidableEq, Repr

variable {numThreads : ℕ}

/-- The coroutine that runs. -/
def Control.running : Control numThreads → Option (Fin numThreads)
  | .looping coroutine _ | .yielding coroutine _ => some coroutine
  | .creating _ | .done => none

/-- The globals and the coroutines during one call of `test`. The last two fields count what has
happened since the call. -/
structure State (numThreads : ℕ) where
  coroId : BitVec 32
  coroArr : Fin numThreads → Frame
  control : Control numThreads
  /-- How often each coroutine has executed the body of its loop. -/
  bodies : Fin numThreads → ℕ
  /-- How often a coroutine has yielded to another one. -/
  switches : ℕ

/-- A call of `test` begins. -/
def State.enter (coroId : BitVec 32) : State numThreads where
  coroId := coroId
  coroArr := fun _ ↦ .absent
  control := .creating 0
  bodies := fun _ ↦ 0
  switches := 0

/-- Give the control to `*coro_arr[index]`. It goes on where it has yielded, or it begins. Nothing
is defined for an index outside of the array and for an entry without a live coroutine. -/
def State.resume (state : State numThreads) (index : ℕ) : Option (State numThreads) :=
  if h : index < numThreads then
    match state.coroArr ⟨index, h⟩ with
    | .fresh => some { state with control := .looping ⟨index, h⟩ 0 }
    | .suspended switchI => some { state with control := .looping ⟨index, h⟩ switchI }
    | .absent | .returned => none
  else none

/-- `yield_func` moves `coro_id` on and yields to the coroutine with this index. -/
def State.yieldFunc (state : State numThreads) (coroutine : Fin numThreads)
    (switchI : BitVec 32) : Option (State numThreads) :=
  let coroId := (state.coroId + 1) &&& BitVec.ofNat 32 (numThreads - 1)
  State.resume
    { state with
      coroId := coroId
      coroArr := Function.update state.coroArr coroutine (.suspended switchI)
      switches := state.switches + 1 }
    coroId.toNat

/-- One step of a test with `numSwitches` switches per thread. There is none once the launch has
returned, and none where the behaviour is not defined. -/
def State.step (numSwitches : ℕ) (state : State numThreads) : Option (State numThreads) :=
  match state.control with
  | .creating thrI =>
    if thrI.toInt < numThreads then
      if h : thrI.toNat < numThreads then
        some
          { state with
            coroArr := Function.update state.coroArr ⟨thrI.toNat, h⟩ .fresh
            control := .creating (thrI + 1) }
      else none
    else state.resume 0
  | .looping coroutine switchI =>
    if switchI.toInt < numSwitches then
      some
        { state with
          control := .yielding coroutine (switchI + 1)
          bodies := Function.update state.bodies coroutine (state.bodies coroutine + 1) }
    else
      -- The starter of a coroutine that returns is `test`, whichever coroutine has resumed it.
      some
        { state with
          coroArr := Function.update state.coroArr coroutine .returned
          control := .done }
  | .yielding coroutine switchI => state.yieldFunc coroutine switchI
  | .done => none

/-- The run of a test. Its steps take no input. -/
abbrev TestRun (numSwitches : ℕ) (start : State numThreads) :
    List (State numThreads × Unit) → State numThreads → Prop :=
  Run (fun state _ ↦ state.step numSwitches) (fun _ _ ↦ True) start

theorem TestRun.next {numSwitches : ℕ} {start state after : State numThreads}
    {history : List (State numThreads × Unit)} (hrun : TestRun numSwitches start history state)
    (hstep : state.step numSwitches = some after) :
    TestRun numSwitches start ((state, ()) :: history) after :=
  Run.next hrun trivial hstep

/-! ## What a step can do -/

/-- The steps of a test, with their conditions. -/
inductive State.Moves (numSwitches : ℕ) (state : State numThreads) : State numThreads → Prop
  | create (thrI : BitVec 32) (h : thrI.toNat < numThreads)
      (hcontrol : state.control = .creating thrI) (hlt : thrI.toInt < numThreads) :
      Moves numSwitches state
        { state with
          coroArr := Function.update state.coroArr ⟨thrI.toNat, h⟩ .fresh
          control := .creating (thrI + 1) }
  | launch (thrI : BitVec 32) (after : State numThreads)
      (hcontrol : state.control = .creating thrI) (hle : numThreads ≤ thrI.toInt)
      (hresume : state.resume 0 = some after) : Moves numSwitches state after
  | body (coroutine : Fin numThreads) (switchI : BitVec 32)
      (hcontrol : state.control = .looping coroutine switchI) (hlt : switchI.toInt < numSwitches) :
      Moves numSwitches state
        { state with
          control := .yielding coroutine (switchI + 1)
          bodies := Function.update state.bodies coroutine (state.bodies coroutine + 1) }
  | leave (coroutine : Fin numThreads) (switchI : BitVec 32)
      (hcontrol : state.control = .looping coroutine switchI) (hle : numSwitches ≤ switchI.toInt) :
      Moves numSwitches state
        { state with
          coroArr := Function.update state.coroArr coroutine .returned
          control := .done }
  | switch (coroutine : Fin numThreads) (switchI : BitVec 32) (after : State numThreads)
      (hcontrol : state.control = .yielding coroutine switchI)
      (hyield : state.yieldFunc coroutine switchI = some after) : Moves numSwitches state after

variable {numSwitches : ℕ}

theorem State.moves_of_step {state after : State numThreads}
    (hstep : state.step numSwitches = some after) : state.Moves numSwitches after := by
  unfold State.step at hstep
  split at hstep
  · next thrI hcontrol =>
    split at hstep
    · next hlt =>
      split at hstep
      · next h =>
        cases hstep
        exact .create thrI h hcontrol hlt
      · cases hstep
    · next hle => exact .launch thrI after hcontrol (not_lt.mp hle) hstep
  · next coroutine switchI hcontrol =>
    split at hstep
    · next hlt =>
      cases hstep
      exact .body coroutine switchI hcontrol hlt
    · next hle =>
      cases hstep
      exact .leave coroutine switchI hcontrol (not_lt.mp hle)
  · next coroutine switchI hcontrol => exact .switch coroutine switchI after hcontrol hstep
  · cases hstep

/-- A resumption only moves the control, to the coroutine with the index. -/
theorem State.resume_eq_some {state after : State numThreads} {index : ℕ}
    (h : state.resume index = some after) :
    ∃ (coroutine : Fin numThreads) (switchI : BitVec 32), (coroutine : ℕ) = index ∧
      after = { state with control := .looping coroutine switchI } := by
  unfold resume at h
  split at h
  · next hindex =>
    split at h
    · exact ⟨⟨index, hindex⟩, 0, rfl, (Option.some.inj h).symm⟩
    · next switchI _ => exact ⟨⟨index, hindex⟩, switchI, rfl, (Option.some.inj h).symm⟩
    · cases h
    · cases h
  · cases h

/-- The launch returns only if `switch_i` reaches the number of switches. -/
theorem numSwitches_lt_of_done {state after : State numThreads}
    (hstep : state.step numSwitches = some after) (hdone : after.control = .done) :
    numSwitches < 2 ^ 31 := by
  cases State.moves_of_step hstep with
  | create thrI h hcontrol hlt => cases hdone
  | launch thrI after hcontrol hle hresume =>
    obtain ⟨_, _, -, rfl⟩ := State.resume_eq_some hresume
    cases hdone
  | body coroutine switchI hcontrol hlt => cases hdone
  | leave coroutine switchI hcontrol hle =>
    have hbound : (numSwitches : ℤ) < 2 ^ 31 := hle.trans_lt BitVec.toInt_lt
    exact_mod_cast hbound
  | switch coroutine switchI after hcontrol hyield =>
    obtain ⟨_, _, -, rfl⟩ := State.resume_eq_some hyield
    cases hdone

/-- The loop that creates the coroutines ends only if `thr_i` reaches the number of threads. -/
theorem creating_of_testRun (hnum : 2 ^ 31 ≤ numThreads)
    {history : List (State numThreads × Unit)} {final : State numThreads}
    (hrun : TestRun numSwitches (.enter 0) history final) :
    ∃ thrI, final.control = .creating thrI := by
  apply hrun.invariant (fun state ↦ ∃ thrI, state.control = .creating thrI) ⟨0, rfl⟩
  rintro state - after ⟨thrI, hstart⟩ - hstep
  cases State.moves_of_step hstep with
  | create thrI h hcontrol hlt => exact ⟨thrI + 1, rfl⟩
  | launch thrI after hcontrol hle hresume =>
    have hbound : (numThreads : ℤ) < 2 ^ 31 := hle.trans_lt BitVec.toInt_lt
    omega
  | body coroutine switchI hcontrol hlt => cases hstart.symm.trans hcontrol
  | leave coroutine switchI hcontrol hle => cases hstart.symm.trans hcontrol
  | switch coroutine switchI after hcontrol hyield => cases hstart.symm.trans hcontrol

/-! ## The global names the coroutine that runs -/

/-- `coro_id` is the index of the coroutine that runs, and it is zero before the launch. -/
def State.Aligned (state : State numThreads) : Prop :=
  match state.control with
  | .creating _ => state.coroId = 0
  | .looping coroutine _ | .yielding coroutine _ => state.coroId.toNat = coroutine
  | .done => True

theorem State.Aligned.running {state : State numThreads} (h : state.Aligned)
    {coroutine : Fin numThreads} (hrunning : state.control.running = some coroutine) :
    state.coroId.toNat = coroutine := by
  unfold Aligned at h
  cases hcontrol : state.control <;> simp_all [Control.running]

theorem State.resume_aligned {state after : State numThreads}
    (h : state.resume state.coroId.toNat = some after) : after.Aligned := by
  obtain ⟨coroutine, switchI, hindex, rfl⟩ := resume_eq_some h
  exact hindex.symm

theorem State.Aligned.step {state after : State numThreads} (h : state.Aligned)
    (hstep : state.step numSwitches = some after) : after.Aligned := by
  cases moves_of_step hstep with
  | create thrI _ hcontrol hlt => simpa only [Aligned, hcontrol] using h
  | launch thrI after hcontrol hle hresume =>
    have hzero : state.coroId = 0 := by simpa only [Aligned, hcontrol] using h
    apply resume_aligned
    rw [hzero]
    exact hresume
  | body coroutine switchI hcontrol hlt => simpa only [Aligned, hcontrol] using h
  | leave coroutine switchI hcontrol hle => trivial
  | switch coroutine switchI after hcontrol hyield =>
    -- The index that is resumed is the new value of the global.
    unfold yieldFunc at hyield
    exact resume_aligned hyield

theorem aligned_of_testRun {history : List (State numThreads × Unit)}
    {final : State numThreads} (hrun : TestRun numSwitches (.enter 0) history final) :
    ∀ entry ∈ history, entry.1.Aligned := by
  have haligned : final.Aligned ∧ ∀ entry ∈ history, entry.1.Aligned := by
    apply hrun.invariant_history
      (fun history state ↦ state.Aligned ∧ ∀ entry ∈ history, entry.1.Aligned)
    · exact ⟨rfl, fun _ h ↦ absurd h List.not_mem_nil⟩
    · intro history state _ after h _ hstep
      exact ⟨h.1.step hstep, List.forall_mem_cons.mpr h⟩
  exact haligned.2

/-! ## What a test is for -/

/-- The launch returns, `coro_id` is the index of the running coroutine before
every step, every coroutine has executed the body of its loop `numSwitches` times, as many switches
have happened for each of them, and the next test starts as this one. -/
def Behaves (numThreads numSwitches : ℕ) : Prop :=
  ∃ (history : List (State numThreads × Unit)) (final : State numThreads),
    TestRun numSwitches (.enter 0) history final ∧ final.control = .done ∧
      (∀ entry ∈ history, ∀ coroutine, entry.1.control.running = some coroutine →
        entry.1.coroId.toNat = coroutine) ∧
      (∀ coroutine, final.bodies coroutine = numSwitches) ∧
      final.switches = numThreads * numSwitches ∧
      final.coroId = 0 ∧ (State.enter final.coroId : State numThreads) = .enter 0

theorem Behaves.numSwitches_lt (h : Behaves numThreads numSwitches) : numSwitches < 2 ^ 31 := by
  obtain ⟨history, final, hrun, hdone, -⟩ := h
  cases hrun with
  | start => cases hdone
  | next _ _ hstep => exact numSwitches_lt_of_done hstep hdone

theorem Behaves.numThreads_lt (h : Behaves numThreads numSwitches) : numThreads < 2 ^ 31 := by
  obtain ⟨history, final, hrun, hdone, -⟩ := h
  by_contra hnum
  obtain ⟨thrI, hcreating⟩ := creating_of_testRun (not_lt.mp hnum) hrun
  cases hcreating.symm.trans hdone

/-! ## The turns -/

theorem toInt_ofNat {count : ℕ} (h : count < 2 ^ 31) : (BitVec.ofNat 32 count).toInt = count := by
  rw [BitVec.toInt_ofNat']
  apply Int.bmod_eq_of_le <;> omega

/-- The first coroutines are created. -/
def State.created (count : ℕ) : State numThreads where
  coroId := 0
  coroArr := fun coroutine ↦ if coroutine < count then .fresh else .absent
  control := .creating (BitVec.ofNat 32 count)
  bodies := fun _ ↦ 0
  switches := 0

/-- The loop of `test` creates one more coroutine. -/
theorem State.step_created {count : ℕ} (hcount : count < numThreads)
    (hnum : numThreads < 2 ^ 31) :
    (State.created count : State numThreads).step numSwitches = some (.created (count + 1)) := by
  have hint := toInt_ofNat (hcount.trans hnum)
  have hnat : (BitVec.ofNat 32 count).toNat = count := by
    rw [BitVec.toNat_ofNat]
    omega
  simp only [State.step, State.created]
  rw [if_pos (by rw [hint]; exact_mod_cast hcount), dif_pos (by rwa [hnat]), BitVec.ofNat_add]
  congr 2
  funext coroutine
  simp only [Function.update_apply, Fin.ext_iff, hnat]
  split_ifs <;> first | rfl | omega

theorem testRun_created (hnum : numThreads < 2 ^ 31) {count : ℕ} (hcount : count ≤ numThreads) :
    ∃ history, TestRun numSwitches (.enter 0 : State numThreads) history (.created count) := by
  induction count with
  | zero => exact ⟨[], .start⟩
  | succ count ih =>
    obtain ⟨history, hrun⟩ := ih (by omega)
    exact ⟨_, hrun.next (State.step_created hcount hnum)⟩

/-- The entry of a coroutine that has had some turns. -/
def Frame.after : ℕ → Frame
  | 0 => .fresh
  | rounds + 1 => .suspended (BitVec.ofNat 32 (rounds + 1))

/-- A coroutine goes on with the number of its turns in `switch_i`. -/
theorem State.resume_after {state : State numThreads} {coroutine : Fin numThreads} {rounds : ℕ}
    (h : state.coroArr coroutine = .after rounds) :
    state.resume coroutine =
      some { state with control := .looping coroutine (BitVec.ofNat 32 rounds) } := by
  rw [resume, dif_pos coroutine.isLt, Fin.eta, h]
  cases rounds <;> rfl

/-- How often a coroutine has had its turn among the first `turns` turns. -/
def rounds (coroutine : Fin numThreads) (turns : ℕ) : ℕ :=
  Nat.count (· ≡ coroutine [MOD numThreads]) turns

variable [NeZero numThreads]

/-- One more turn is one more for the coroutine whose turn it is. -/
theorem rounds_succ (coroutine : Fin numThreads) (turns : ℕ) :
    rounds coroutine (turns + 1) =
      rounds coroutine turns + if coroutine = Fin.ofNat numThreads turns then 1 else 0 := by
  have hturn : turns ≡ coroutine [MOD numThreads] ↔ coroutine = Fin.ofNat numThreads turns := by
    rw [Nat.ModEq, Nat.mod_eq_of_lt coroutine.isLt, Fin.ext_iff, eq_comm]
    rfl
  simp only [rounds, Nat.count_succ, hturn]

theorem rounds_ofNat (turns : ℕ) :
    rounds (Fin.ofNat numThreads turns) turns = turns / numThreads := by
  rw [rounds, Nat.count_modEq_card turns (NeZero.pos numThreads)]
  simp

theorem rounds_mul (coroutine : Fin numThreads) (numSwitches : ℕ) :
    rounds coroutine (numThreads * numSwitches) = numSwitches := by
  rw [rounds, Nat.count_modEq_card _ (NeZero.pos numThreads), Nat.mul_mod_right,
    Nat.mul_div_cancel_left _ (NeZero.pos numThreads)]
  simp

/-- A coroutine gets its turn after `turns` turns. -/
def State.turn (turns : ℕ) : State numThreads where
  coroId := BitVec.ofNat 32 (turns % numThreads)
  coroArr := fun coroutine ↦ .after (rounds coroutine turns)
  control := .looping (Fin.ofNat numThreads turns) (BitVec.ofNat 32 (turns / numThreads))
  bodies := fun coroutine ↦ rounds coroutine turns
  switches := turns

/-- The same turn, after the body of the loop. -/
def State.bodyDone (turns : ℕ) : State numThreads where
  coroId := BitVec.ofNat 32 (turns % numThreads)
  coroArr := fun coroutine ↦ .after (rounds coroutine turns)
  control := .yielding (Fin.ofNat numThreads turns) (BitVec.ofNat 32 (turns / numThreads + 1))
  bodies := fun coroutine ↦ rounds coroutine (turns + 1)
  switches := turns

/-- The first turn begins when all coroutines are created. -/
theorem State.step_created_all (hnum : numThreads < 2 ^ 31) :
    (State.created numThreads : State numThreads).step numSwitches = some (.turn 0) := by
  have hlaunch : (State.created numThreads : State numThreads).step numSwitches =
      (State.created numThreads : State numThreads).resume (0 : Fin numThreads) := by
    simp only [State.step, State.created]
    rw [toInt_ofNat hnum, if_neg (lt_irrefl _), Fin.val_zero]
  have hfresh (coroutine : Fin numThreads) :
      (State.created numThreads : State numThreads).coroArr coroutine = .after 0 :=
    if_pos coroutine.isLt
  rw [hlaunch, resume_after (hfresh 0), turn, Nat.zero_div, Nat.zero_mod]
  congr 2
  · exact funext hfresh

theorem State.step_turn {turns : ℕ} (hnum : numSwitches < 2 ^ 31)
    (hturns : turns < numThreads * numSwitches) :
    (State.turn turns : State numThreads).step numSwitches = some (.bodyDone turns) := by
  have hlt : turns / numThreads < numSwitches := Nat.div_lt_of_lt_mul hturns
  simp only [State.step, State.turn]
  rw [toInt_ofNat (hlt.trans hnum), if_pos (by exact_mod_cast hlt), State.bodyDone,
    BitVec.ofNat_add]
  congr 2
  funext coroutine
  rw [rounds_succ, Function.update_apply]
  split_ifs with hturn
  · rw [hturn]
  · rfl

/-- For a power of two the mask is the remainder. -/
theorem nextCoroId_eq {k : ℕ} (hk : numThreads = 2 ^ k) (hle : k ≤ 32) (turns : ℕ) :
    (BitVec.ofNat 32 (turns % numThreads) + 1) &&& BitVec.ofNat 32 (numThreads - 1) =
      BitVec.ofNat 32 ((turns + 1) % numThreads) := by
  have hdvd : numThreads ∣ 2 ^ 32 := hk ▸ Nat.pow_dvd_pow 2 hle
  have hpow : numThreads ≤ 2 ^ 32 := Nat.le_of_dvd (by decide) hdvd
  have hpos := NeZero.pos numThreads
  have hturn := Nat.mod_lt turns hpos
  have hnext := Nat.mod_lt (turns + 1) hpos
  have hmask (value : ℕ) : value &&& (numThreads - 1) = value % numThreads := by
    rw [hk, Nat.and_two_pow_sub_one_eq_mod]
  apply BitVec.eq_of_toNat_eq
  calc
    ((BitVec.ofNat 32 (turns % numThreads) + 1) &&& BitVec.ofNat 32 (numThreads - 1)).toNat =
        (turns % numThreads + 1) % 2 ^ 32 % numThreads := by
      rw [BitVec.toNat_and, BitVec.toNat_add, BitVec.toNat_ofNat, BitVec.toNat_ofNat,
        Nat.mod_eq_of_lt (by omega : numThreads - 1 < 2 ^ 32), hmask,
        Nat.mod_eq_of_lt (by omega : turns % numThreads < 2 ^ 32)]
      rfl
    _ = (turns + 1) % numThreads := by rw [Nat.mod_mod_of_dvd _ hdvd, Nat.mod_add_mod]
    _ = (BitVec.ofNat 32 ((turns + 1) % numThreads)).toNat := by
      rw [BitVec.toNat_ofNat, Nat.mod_eq_of_lt (by omega : (turns + 1) % numThreads < 2 ^ 32)]

/-- The next turn is the turn of the next coroutine, which finds its own number of turns. -/
theorem State.step_bodyDone {turns k : ℕ} (hk : numThreads = 2 ^ k) (hle : k ≤ 32) :
    (State.bodyDone turns : State numThreads).step numSwitches = some (.turn (turns + 1)) := by
  have hcoroId : ((State.bodyDone turns : State numThreads).coroId + 1) &&&
      BitVec.ofNat 32 (numThreads - 1) = BitVec.ofNat 32 ((turns + 1) % numThreads) :=
    nextCoroId_eq hk hle turns
  have harr : Function.update (State.bodyDone turns : State numThreads).coroArr
      (Fin.ofNat numThreads turns) (.suspended (BitVec.ofNat 32 (turns / numThreads + 1))) =
      fun coroutine ↦ .after (rounds coroutine (turns + 1)) := by
    funext coroutine
    rw [rounds_succ, Function.update_apply]
    split_ifs with hturn
    · rw [hturn, rounds_ofNat, Frame.after]
    · rfl
  have hindex : (BitVec.ofNat 32 ((turns + 1) % numThreads)).toNat =
      Fin.ofNat numThreads (turns + 1) := by
    have hpow : 2 ^ k ≤ 2 ^ 32 := Nat.pow_le_pow_right (by decide) hle
    have hnext := Nat.mod_lt (turns + 1) (NeZero.pos numThreads)
    rw [BitVec.toNat_ofNat, Nat.mod_eq_of_lt (by omega)]
    rfl
  calc
    (State.bodyDone turns : State numThreads).step numSwitches =
        (State.bodyDone turns).yieldFunc (Fin.ofNat numThreads turns)
          (BitVec.ofNat 32 (turns / numThreads + 1)) := rfl
    _ = some (.turn (turns + 1)) := by
      rw [yieldFunc, hcoroId, harr, hindex]
      rw [resume_after rfl, rounds_ofNat]
      rfl

/-- The first coroutine leaves its loop after its last turn. -/
theorem State.step_last (hnum : numSwitches < 2 ^ 31) :
    (State.turn (numThreads * numSwitches) : State numThreads).step numSwitches =
      some
        { (State.turn (numThreads * numSwitches) : State numThreads) with
          coroArr := Function.update
            (State.turn (numThreads * numSwitches) : State numThreads).coroArr
            (Fin.ofNat numThreads (numThreads * numSwitches)) .returned
          control := .done } := by
  simp only [State.step, State.turn]
  rw [Nat.mul_div_cancel_left _ (NeZero.pos numThreads), toInt_ofNat hnum, if_neg (lt_irrefl _)]

/-! ## The run -/

/-- Turn by turn, until every coroutine has had all of its turns. -/
theorem testRun_turn {k : ℕ} (hk : numThreads = 2 ^ k) (hle : k ≤ 30)
    (hnum : numSwitches < 2 ^ 31) {turns : ℕ} (hturns : turns ≤ numThreads * numSwitches) :
    ∃ history, TestRun numSwitches (.enter 0 : State numThreads) history (.turn turns) := by
  induction turns with
  | zero =>
    have hthreads : numThreads < 2 ^ 31 :=
      hk ▸ Nat.pow_lt_pow_right (by decide) (by omega)
    obtain ⟨history, hrun⟩ := testRun_created hthreads le_rfl
    exact ⟨_, hrun.next (State.step_created_all hthreads)⟩
  | succ turns ih =>
    obtain ⟨history, hrun⟩ := ih (by omega)
    have hbody := hrun.next (State.step_turn hnum hturns)
    exact ⟨_, hbody.next (State.step_bodyDone hk (by omega))⟩

theorem behaves_of_lt {k : ℕ} (hk : numThreads = 2 ^ k) (hle : k ≤ 30)
    (hnum : numSwitches < 2 ^ 31) : Behaves numThreads numSwitches := by
  obtain ⟨history, hturns⟩ := testRun_turn hk hle hnum le_rfl
  have hrun := hturns.next (State.step_last hnum)
  have hzero : (State.turn (numThreads * numSwitches) : State numThreads).coroId = 0 := by
    rw [State.turn, Nat.mul_mod_right]
    rfl
  refine ⟨_, _, hrun, rfl, ?_, ?_, rfl, hzero, congrArg State.enter hzero⟩
  · exact fun entry hentry _ hrunning ↦ (aligned_of_testRun hrun entry hentry).running hrunning
  · exact fun coroutine ↦ rounds_mul coroutine numSwitches

/-- A test with a power of two of at least two threads behaves well exactly if both constants fit
into an `int`. -/
theorem test_behaves_iff (k numSwitches : ℕ) :
    Behaves (2 ^ (k + 1)) numSwitches ↔ k + 1 ≤ 30 ∧ numSwitches < 2 ^ 31 := by
  constructor
  · intro h
    have hthreads := (Nat.pow_lt_pow_iff_right (by decide)).mp h.numThreads_lt
    exact ⟨by omega, h.numSwitches_lt⟩
  · rintro ⟨hle, hnum⟩
    exact behaves_of_lt rfl hle hnum

/-- `switch_i` never reaches a larger number of switches. -/
theorem not_behaves_eight_threads : ¬ Behaves 8 (2 ^ 31) :=
  fun h ↦ absurd h.numSwitches_lt (lt_irrefl _)

end Systemish.CoroPerf
