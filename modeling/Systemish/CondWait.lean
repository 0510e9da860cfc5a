import Systemish.Foundation.Run

/-!
# Signalling a worker with a condition variable

`main` and the worker of `bench/thread/cond_wait.cc`. The worker's check of the jobs is
one step, since it is made with the mutex held; the lock and unlock of `main` are steps
of their own. A wait can end without a signal, and a signal without a waiter is lost. The
counters of both threads are 32-bit integers that wrap, and `ITERS` is any number.
-/

namespace Systemish.CondWait

open Foundation

inductive Thread where
  | main
  | worker
  deriving DecidableEq

/-- Where `main` is, with its loop counter. -/
inductive Main where
  | locking (i : BitVec 32)
  | incrementing (i : BitVec 32)
  | unlocking (i : BitVec 32)
  /-- In front of `pthread_cond_signal`. -/
  | signalling (i : BitVec 32)
  | joining
  | finished
  deriving DecidableEq

/-- Where the worker is. -/
inductive Worker where
  | locking
  /-- At the top of its loop, with the mutex. -/
  | checking
  /-- In front of `pthread_cond_wait`, with the mutex. -/
  | waiting
  /-- In the wait, and no wake-up is due. -/
  | asleep
  /-- In the wait, and it has to take the mutex. -/
  | woken
  /-- It still has the mutex. -/
  | returned
  deriving DecidableEq

structure State where
  mutex : Option Thread
  numJobs : BitVec 32
  totJobs : BitVec 32
  main : Main
  worker : Worker
  /-- How often `main` has incremented `num_jobs`. The threads do not read it. -/
  enqueued : ℕ
  deriving DecidableEq

inductive Event where
  | main
  | worker
  /-- The wait ends without a signal. -/
  | spurious

/-- What `pthread_cond_signal` does to the worker. -/
def Worker.notified : Worker → Worker
  | .locking => .locking
  | .checking => .checking
  | .waiting => .waiting
  | .asleep => .woken
  | .woken => .woken
  | .returned => .returned

variable (iters : ℕ)

/-- The head of the loop of `main`. -/
def Main.loopHead (i : BitVec 32) : Main := if i.toInt < iters then .locking i else .joining

def start : State := ⟨none, 0, 0, .loopHead iters 0, .locking, 0⟩

def State.stepMain (state : State) : Option State :=
  match state.main with
  | .locking i =>
    if state.mutex = none then
      some { state with mutex := some .main, main := .incrementing i }
    else none
  | .incrementing i =>
    some
      { state with
        numJobs := state.numJobs + 1
        main := .unlocking i
        enqueued := state.enqueued + 1 }
  | .unlocking i => some { state with mutex := none, main := .signalling i }
  | .signalling i =>
    some { state with worker := state.worker.notified, main := .loopHead iters (i + 1) }
  | .joining => if state.worker = .returned then some { state with main := .finished } else none
  | .finished => none

/-- The part of the worker's loop in front of the wait. -/
def State.check (state : State) : State :=
  if 0 < state.numJobs.toInt then
    { state with
      totJobs := state.totJobs + state.numJobs
      numJobs := 0
      worker := if (state.totJobs + state.numJobs).toInt = iters then .returned else .waiting }
  else { state with worker := .waiting }

def State.stepWorker (state : State) : Option State :=
  match state.worker with
  | .locking =>
    if state.mutex = none then some { state with mutex := some .worker, worker := .checking }
    else none
  | .checking => some (state.check iters)
  | .waiting => some { state with mutex := none, worker := .asleep }
  | .asleep => none
  | .woken =>
    if state.mutex = none then some { state with mutex := some .worker, worker := .checking }
    else none
  | .returned => none

def State.step (state : State) : Event → Option State
  | .main => state.stepMain iters
  | .worker => state.stepWorker iters
  | .spurious => if state.worker = .asleep then some { state with worker := .woken } else none

/-- All interleavings. -/
abbrev IsRun : List (State × Event) → State → Prop :=
  Run (State.step iters) (fun _ _ ↦ True) (start iters)

/-- `main` waits for the mutex or has it. -/
def Main.needsMutex : Main → Bool
  | .locking _ => true
  | .incrementing _ => true
  | .unlocking _ => true
  | .signalling _ => false
  | .joining => false
  | .finished => false

def Main.hasMutex : Main → Bool
  | .locking _ => false
  | .incrementing _ => true
  | .unlocking _ => true
  | .signalling _ => false
  | .joining => false
  | .finished => false

def Worker.hasMutex : Worker → Bool
  | .locking => false
  | .checking => true
  | .waiting => true
  | .asleep => false
  | .woken => false
  | .returned => true

/-- `main` has enqueued a job and not signalled it yet. -/
def Main.owesSignal : Main → Bool
  | .locking _ => false
  | .incrementing _ => false
  | .unlocking _ => true
  | .signalling _ => true
  | .joining => false
  | .finished => false

/-- No job is lost, no wake-up is missed, `main` is not shut out by the mutex that the worker
returns with, and the threads are stuck only when the worker has processed all jobs. A spurious
wake-up is not needed for that. -/
structure NoneMissed (state : State) : Prop where
  jobs : state.totJobs.toInt + state.numJobs.toInt = state.enqueued
  signal : state.worker = .asleep → 0 < state.numJobs.toInt → state.main.owesSignal = true
  mutex : state.worker = .returned → state.main.needsMutex = false
  ends : (∀ event, event ≠ .spurious → state.step iters event = none) →
    state.worker = .returned ∧ state.totJobs.toInt = iters

/-! ## Counters that do not wrap -/

/-- The jobs that `main` has enqueued at a place of its loop. -/
def Main.enqueued : Main → ℕ
  | .locking i => i.toNat
  | .incrementing i => i.toNat
  | .unlocking i => i.toNat + 1
  | .signalling i => i.toNat + 1
  | .joining => iters
  | .finished => iters

/-- In the loop, the counter is below `ITERS`. -/
def Main.InRange : Main → Prop
  | .locking i => i.toNat < iters
  | .incrementing i => i.toNat < iters
  | .unlocking i => i.toNat < iters
  | .signalling i => i.toNat < iters
  | .joining => True
  | .finished => True

/-- What holds of the two threads at all times if `ITERS` fits into an `int`. -/
structure Coordinated (state : State) : Prop where
  jobs : state.totJobs.toNat + state.numJobs.toNat = state.enqueued
  enqueued : state.enqueued = state.main.enqueued iters
  inRange : state.main.InRange iters
  mutex_main : state.mutex = some .main ↔ state.main.hasMutex = true
  mutex_worker : state.mutex = some .worker ↔ state.worker.hasMutex = true
  processed : state.worker = .waiting → state.numJobs.toNat = 0
  signal : state.worker = .asleep → 0 < state.numJobs.toNat → state.main.owesSignal = true
  returned : state.worker = .returned ↔ state.totJobs.toNat = iters
  finished : state.main = .finished → state.worker = .returned

variable {iters} {state after : State}

theorem toInt_of_le (hiters : iters < 2 ^ 31) {count : BitVec 32} (h : count.toNat ≤ iters) :
    count.toInt = count.toNat :=
  BitVec.toInt_eq_toNat_of_lt (by omega)

theorem toNat_add_of_le (hiters : iters < 2 ^ 31) {count more : BitVec 32}
    (h : count.toNat + more.toNat ≤ iters) : (count + more).toNat = count.toNat + more.toNat :=
  BitVec.toNat_add_of_lt (by omega)

theorem loopHead_of_lt (hiters : iters < 2 ^ 31) {i : BitVec 32} (h : i.toNat < iters) :
    Main.loopHead iters i = .locking i := by
  rw [Main.loopHead, toInt_of_le hiters h.le, if_pos (Int.ofNat_lt.mpr h)]

theorem loopHead_of_eq (hiters : iters < 2 ^ 31) {i : BitVec 32} (h : i.toNat = iters) :
    Main.loopHead iters i = .joining := by
  rw [Main.loopHead, toInt_of_le hiters h.le, h, if_neg (lt_irrefl _)]

theorem loopHead_enqueued (hiters : iters < 2 ^ 31) {i : BitVec 32} (h : i.toNat ≤ iters) :
    (Main.loopHead iters i).enqueued iters = i.toNat := by
  rcases h.lt_or_eq with hlt | heq
  · rw [loopHead_of_lt hiters hlt]
    rfl
  · rw [loopHead_of_eq hiters heq]
    exact heq.symm

theorem loopHead_inRange (hiters : iters < 2 ^ 31) {i : BitVec 32} (h : i.toNat ≤ iters) :
    (Main.loopHead iters i).InRange iters := by
  rcases h.lt_or_eq with hlt | heq
  · rw [loopHead_of_lt hiters hlt]
    exact hlt
  · rw [loopHead_of_eq hiters heq]
    trivial

theorem loopHead_hasMutex (i : BitVec 32) : (Main.loopHead iters i).hasMutex = false := by
  rw [Main.loopHead]
  split
  · rfl
  · rfl

theorem loopHead_ne_finished (i : BitVec 32) : Main.loopHead iters i ≠ .finished := by
  rw [Main.loopHead]
  split
  · exact Main.noConfusion
  · exact Main.noConfusion

theorem notified_hasMutex (worker : Worker) : worker.notified.hasMutex = worker.hasMutex := by
  cases worker with
  | _ => rfl

theorem notified_eq_iff {worker other : Worker} (hasleep : other ≠ .asleep)
    (hwoken : other ≠ .woken) : worker.notified = other ↔ worker = other := by
  cases worker with
  | asleep => exact iff_of_false (Ne.symm hwoken) (Ne.symm hasleep)
  | _ => exact Iff.rfl

theorem notified_ne_asleep (worker : Worker) : worker.notified ≠ .asleep := by
  cases worker with
  | _ => exact Worker.noConfusion

theorem coordinated_start (h : 1 ≤ iters) (hiters : iters < 2 ^ 31) :
    Coordinated iters (start iters) where
  jobs := rfl
  enqueued := (loopHead_enqueued hiters (i := 0) (Nat.zero_le iters)).symm
  inRange := loopHead_inRange hiters (i := 0) (Nat.zero_le iters)
  mutex_main := by
    rw [start, loopHead_hasMutex]
    exact iff_of_false (Option.some_ne_none _).symm Bool.false_ne_true
  mutex_worker := iff_of_false (Option.some_ne_none _).symm Bool.false_ne_true
  processed := Worker.noConfusion
  signal := Worker.noConfusion
  returned := iff_of_false Worker.noConfusion (Nat.ne_of_lt h)
  finished hfinished := absurd hfinished (loopHead_ne_finished 0)

theorem main_ne_worker : some Thread.main ≠ some Thread.worker := by
  decide

theorem Main.InRange.enqueued_le {main : Main} (h : main.InRange iters) :
    main.enqueued iters ≤ iters := by
  cases main with
  | locking i => exact Nat.le_of_lt h
  | incrementing i => exact Nat.le_of_lt h
  | unlocking i => exact h
  | signalling i => exact h
  | joining => exact le_rfl
  | finished => exact le_rfl

namespace Coordinated

/-- No counter is larger than `ITERS`. -/
theorem jobs_le (h : Coordinated iters state) :
    state.totJobs.toNat + state.numJobs.toNat ≤ iters := by
  rw [h.jobs, h.enqueued]
  exact h.inRange.enqueued_le

/-- The threads do not have the mutex together. -/
theorem exclusive (h : Coordinated iters state) :
    state.main.hasMutex = false ∨ state.worker.hasMutex = false := by
  by_contra hboth
  obtain ⟨hmain, hworker⟩ := not_or.mp hboth
  have hmutex := h.mutex_main.mpr (Bool.eq_true_of_not_eq_false hmain)
  rw [h.mutex_worker.mpr (Bool.eq_true_of_not_eq_false hworker)] at hmutex
  exact Thread.noConfusion (Option.some.inj hmutex)

/-- A worker that has not returned has jobs before it. -/
theorem totJobs_ne (h : Coordinated iters state) (hworker : state.worker ≠ .returned) :
    state.totJobs.toNat ≠ iters := fun htot ↦ hworker (h.returned.mpr htot)

/-- The signal wakes the worker if it waits, and `main` goes on with the next job. -/
theorem signalled (hiters : iters < 2 ^ 31) {mutex : Option Thread} {numJobs totJobs i : BitVec 32}
    {worker : Worker} {enqueued : ℕ}
    (h : Coordinated iters ⟨mutex, numJobs, totJobs, .signalling i, worker, enqueued⟩) :
    Coordinated iters
      ⟨mutex, numJobs, totJobs, .loopHead iters (i + 1), worker.notified, enqueued⟩ := by
  have hi : i.toNat < iters := h.inRange
  have hnext : (i + 1).toNat = i.toNat + 1 := toNat_add_of_le hiters hi
  have hle : (i + 1).toNat ≤ iters := by
    rw [hnext]
    exact hi
  exact
    { jobs := h.jobs
      enqueued := h.enqueued.trans (hnext.symm.trans (loopHead_enqueued hiters hle).symm)
      inRange := loopHead_inRange hiters hle
      mutex_main := by
        rw [loopHead_hasMutex]
        exact h.mutex_main
      mutex_worker := by
        rw [notified_hasMutex]
        exact h.mutex_worker
      processed := by
        rw [notified_eq_iff Worker.noConfusion Worker.noConfusion]
        exact h.processed
      signal := fun hasleep ↦ absurd hasleep (notified_ne_asleep worker)
      returned := by
        rw [notified_eq_iff Worker.noConfusion Worker.noConfusion]
        exact h.returned
      finished := fun hfinished ↦ absurd hfinished (loopHead_ne_finished _) }

/-- One more job. The worker does not have the mutex. -/
theorem incremented (hiters : iters < 2 ^ 31) {mutex : Option Thread}
    {numJobs totJobs i : BitVec 32} {worker : Worker} {enqueued : ℕ}
    (h : Coordinated iters ⟨mutex, numJobs, totJobs, .incrementing i, worker, enqueued⟩)
    (hworker : worker ≠ .waiting) :
    Coordinated iters ⟨mutex, numJobs + 1, totJobs, .unlocking i, worker, enqueued + 1⟩ := by
  have hi : i.toNat < iters := h.inRange
  have hjobs : totJobs.toNat + numJobs.toNat = enqueued := h.jobs
  have henqueued : enqueued = i.toNat := h.enqueued
  have hfits : numJobs.toNat + (1 : BitVec 32).toNat ≤ iters := by
    change numJobs.toNat + 1 ≤ iters
    omega
  have hnum : (numJobs + 1).toNat = numJobs.toNat + 1 := toNat_add_of_le hiters hfits
  refine ⟨?_, congrArg Nat.succ henqueued, hi, h.mutex_main, h.mutex_worker,
    fun hwaiting ↦ absurd hwaiting hworker, fun _ _ ↦ rfl, h.returned, Main.noConfusion⟩
  change totJobs.toNat + (numJobs + 1).toNat = enqueued + 1
  omega

theorem stepMain (hiters : iters < 2 ^ 31) (h : Coordinated iters state)
    (hstep : state.stepMain iters = some after) : Coordinated iters after := by
  have hexclusive := h.exclusive
  obtain ⟨mutex, numJobs, totJobs, main, worker, enqueued⟩ := state
  cases main with
  | locking i =>
    obtain ⟨rfl, hafter⟩ := Option.ite_none_right_eq_some.mp hstep
    obtain rfl := Option.some.inj hafter
    have hworker : worker.hasMutex ≠ true := fun hw ↦
      absurd (h.mutex_worker.mpr hw) (Option.some_ne_none _).symm
    exact ⟨h.jobs, h.enqueued, h.inRange, iff_of_true rfl rfl, iff_of_false main_ne_worker hworker,
      h.processed, fun hasleep hjobs ↦ absurd (h.signal hasleep hjobs) Bool.false_ne_true,
      h.returned, Main.noConfusion⟩
  | incrementing i =>
    obtain rfl := Option.some.inj hstep
    have hworker : worker ≠ .waiting := by
      rintro rfl
      exact hexclusive.elim Bool.noConfusion Bool.noConfusion
    exact h.incremented hiters hworker
  | unlocking i =>
    obtain rfl := Option.some.inj hstep
    have hworker : worker.hasMutex ≠ true := by
      rw [hexclusive.resolve_left Bool.noConfusion]
      exact Bool.noConfusion
    exact ⟨h.jobs, h.enqueued, h.inRange,
      iff_of_false (Option.some_ne_none _).symm Bool.false_ne_true,
      iff_of_false (Option.some_ne_none _).symm hworker, h.processed, fun _ _ ↦ rfl, h.returned,
      Main.noConfusion⟩
  | signalling i =>
    obtain rfl := Option.some.inj hstep
    exact h.signalled hiters
  | joining =>
    obtain ⟨rfl, hafter⟩ := Option.ite_none_right_eq_some.mp hstep
    obtain rfl := Option.some.inj hafter
    exact ⟨h.jobs, h.enqueued, h.inRange, h.mutex_main, h.mutex_worker, h.processed,
      Worker.noConfusion, h.returned, fun _ ↦ rfl⟩
  | finished => exact absurd hstep (Option.some_ne_none after).symm

/-- The worker takes the mutex. -/
theorem lock {numJobs totJobs : BitVec 32} {main : Main} {worker : Worker} {enqueued : ℕ}
    (h : Coordinated iters ⟨none, numJobs, totJobs, main, worker, enqueued⟩)
    (hworker : worker ≠ .returned) :
    Coordinated iters ⟨some .worker, numJobs, totJobs, main, .checking, enqueued⟩ where
  jobs := h.jobs
  enqueued := h.enqueued
  inRange := h.inRange
  mutex_main := iff_of_false main_ne_worker.symm fun hmain ↦
    absurd (h.mutex_main.mpr hmain) (Option.some_ne_none _).symm
  mutex_worker := iff_of_true rfl rfl
  processed := Worker.noConfusion
  signal := Worker.noConfusion
  returned := iff_of_false Worker.noConfusion (h.totJobs_ne hworker)
  finished hfinished := absurd (h.finished hfinished) hworker

/-- The worker takes over the jobs that are there. -/
theorem check (hiters : iters < 2 ^ 31) {mutex : Option Thread} {numJobs totJobs : BitVec 32}
    {main : Main} {enqueued : ℕ}
    (h : Coordinated iters ⟨mutex, numJobs, totJobs, main, .checking, enqueued⟩) :
    Coordinated iters
      (State.check iters ⟨mutex, numJobs, totJobs, main, .checking, enqueued⟩) := by
  have hmain : main ≠ .finished := fun hfinished ↦ Worker.noConfusion (h.finished hfinished)
  have hle : totJobs.toNat + numJobs.toNat ≤ iters := h.jobs_le
  have hsum : (totJobs + numJobs).toNat = totJobs.toNat + numJobs.toNat :=
    toNat_add_of_le hiters hle
  have hint : (totJobs + numJobs).toInt = (totJobs + numJobs).toNat :=
    toInt_of_le hiters (hsum ▸ hle)
  have hnum : numJobs.toInt = numJobs.toNat := toInt_of_le hiters (by omega)
  have hjobs : (totJobs + numJobs).toNat + (0 : BitVec 32).toNat = enqueued := hsum.trans h.jobs
  simp only [State.check, hint, hnum, Int.natCast_inj, Int.natCast_pos]
  by_cases hpositive : 0 < numJobs.toNat
  · rw [if_pos hpositive]
    by_cases hall : (totJobs + numJobs).toNat = iters
    · rw [if_pos hall]
      exact ⟨hjobs, h.enqueued, h.inRange, h.mutex_main, h.mutex_worker, Worker.noConfusion,
        Worker.noConfusion, iff_of_true rfl hall, fun _ ↦ rfl⟩
    · rw [if_neg hall]
      exact ⟨hjobs, h.enqueued, h.inRange, h.mutex_main, h.mutex_worker, fun _ ↦ rfl,
        Worker.noConfusion, iff_of_false Worker.noConfusion hall,
        fun hfinished ↦ absurd hfinished hmain⟩
  · rw [if_neg hpositive]
    exact ⟨h.jobs, h.enqueued, h.inRange, h.mutex_main, h.mutex_worker,
      fun _ ↦ Nat.eq_zero_of_not_pos hpositive, Worker.noConfusion,
      iff_of_false Worker.noConfusion (h.totJobs_ne Worker.noConfusion),
      fun hfinished ↦ absurd hfinished hmain⟩

theorem stepWorker (hiters : iters < 2 ^ 31) (h : Coordinated iters state)
    (hstep : state.stepWorker iters = some after) : Coordinated iters after := by
  have hexclusive := h.exclusive
  obtain ⟨mutex, numJobs, totJobs, main, worker, enqueued⟩ := state
  cases worker with
  | locking =>
    obtain ⟨rfl, hafter⟩ := Option.ite_none_right_eq_some.mp hstep
    obtain rfl := Option.some.inj hafter
    exact h.lock Worker.noConfusion
  | checking =>
    obtain rfl := Option.some.inj hstep
    exact h.check hiters
  | waiting =>
    obtain rfl := Option.some.inj hstep
    have hmain : main.hasMutex ≠ true := by
      rw [hexclusive.resolve_right Bool.noConfusion]
      exact Bool.noConfusion
    exact ⟨h.jobs, h.enqueued, h.inRange, iff_of_false (Option.some_ne_none _).symm hmain,
      iff_of_false (Option.some_ne_none _).symm Bool.false_ne_true, Worker.noConfusion,
      fun _ hjobs ↦ absurd (h.processed rfl) (ne_of_gt hjobs),
      iff_of_false Worker.noConfusion (h.totJobs_ne Worker.noConfusion),
      fun hfinished ↦ Worker.noConfusion (h.finished hfinished)⟩
  | asleep => exact absurd hstep (Option.some_ne_none after).symm
  | woken =>
    obtain ⟨rfl, hafter⟩ := Option.ite_none_right_eq_some.mp hstep
    obtain rfl := Option.some.inj hafter
    exact h.lock Worker.noConfusion
  | returned => exact absurd hstep (Option.some_ne_none after).symm

theorem stepSpurious (h : Coordinated iters state)
    (hstep : state.step iters .spurious = some after) : Coordinated iters after := by
  obtain ⟨mutex, numJobs, totJobs, main, worker, enqueued⟩ := state
  obtain ⟨rfl, hafter⟩ := Option.ite_none_right_eq_some.mp hstep
  obtain rfl := Option.some.inj hafter
  exact ⟨h.jobs, h.enqueued, h.inRange, h.mutex_main, h.mutex_worker, Worker.noConfusion,
    Worker.noConfusion, iff_of_false Worker.noConfusion (h.totJobs_ne Worker.noConfusion),
    fun hfinished ↦ Worker.noConfusion (h.finished hfinished)⟩

/-- A worker that has returned has taken over all jobs, so `main` has enqueued its last one. -/
theorem not_needsMutex (h : Coordinated iters state) (hreturned : state.worker = .returned) :
    state.main.needsMutex = false := by
  have hexclusive := h.exclusive
  have htot := h.returned.mp hreturned
  obtain ⟨mutex, numJobs, totJobs, main, worker, enqueued⟩ := state
  subst hreturned
  have hmain : main.hasMutex = false := hexclusive.resolve_right Bool.noConfusion
  cases main with
  | locking i =>
    -- the worker would have taken over more jobs than there are
    have hjobs : totJobs.toNat + numJobs.toNat = enqueued := h.jobs
    have henqueued : enqueued = i.toNat := h.enqueued
    have hrange : i.toNat < iters := h.inRange
    change totJobs.toNat = iters at htot
    omega
  | incrementing i => exact Bool.noConfusion hmain
  | unlocking i => exact Bool.noConfusion hmain
  | _ => rfl

/-- The mutex is free, or the thread that has it can go on, or the worker has returned. -/
theorem mutex_free (h : Coordinated iters state) (hmain : state.stepMain iters = none)
    (hworker : state.stepWorker iters = none) (hreturned : state.worker ≠ .returned) :
    state.mutex = none := by
  cases hmutex : state.mutex with
  | none => rfl
  | some thread =>
    cases thread with
    | main =>
      have hhas := h.mutex_main.mp hmutex
      rw [State.stepMain] at hmain
      cases hlocation : state.main with
      | incrementing i => simp [hlocation] at hmain
      | unlocking i => simp [hlocation] at hmain
      | _ => simp [hlocation, Main.hasMutex] at hhas
    | worker =>
      have hhas := h.mutex_worker.mp hmutex
      rw [State.stepWorker] at hworker
      cases hlocation : state.worker with
      | checking => simp [hlocation] at hworker
      | waiting => simp [hlocation] at hworker
      | returned => exact absurd hlocation hreturned
      | _ => simp [hlocation, Worker.hasMutex] at hhas

/-- A sleeping worker leaves `main` a step: with all jobs enqueued and signalled there is a job
to take over. -/
theorem exists_stepMain (h : Coordinated iters state) (hfree : state.mutex = none)
    (hasleep : state.worker = .asleep) : state.stepMain iters ≠ none := by
  intro hmain
  have hjobs := h.jobs
  have henqueued := h.enqueued
  have hsignal := h.signal hasleep
  have hreturned : state.worker ≠ .returned := by
    rw [hasleep]
    exact Worker.noConfusion
  have htot := h.totJobs_ne hreturned
  rw [State.stepMain] at hmain
  cases hlocation : state.main with
  | joining =>
    rw [hlocation] at henqueued hsignal
    have hpositive : 0 < state.numJobs.toNat := by
      change state.enqueued = iters at henqueued
      omega
    exact Bool.noConfusion (hsignal hpositive)
  | finished => exact hreturned (h.finished hlocation)
  | _ => simp [hlocation, hfree] at hmain

/-- Without a step of `main` or the worker, all is done. -/
theorem returned_of_stuck (h : Coordinated iters state) (hmain : state.stepMain iters = none)
    (hworker : state.stepWorker iters = none) : state.worker = .returned := by
  by_contra hreturned
  have hfree := h.mutex_free hmain hworker hreturned
  rw [State.stepWorker] at hworker
  cases hlocation : state.worker with
  | asleep => exact h.exists_stepMain hfree hlocation hmain
  | returned => exact hreturned hlocation
  | _ => simp [hlocation, hfree] at hworker

theorem noneMissed (hiters : iters < 2 ^ 31) (h : Coordinated iters state) :
    NoneMissed iters state := by
  have hle := h.jobs_le
  have htot : state.totJobs.toInt = state.totJobs.toNat := toInt_of_le hiters (by omega)
  have hnum : state.numJobs.toInt = state.numJobs.toNat := toInt_of_le hiters (by omega)
  refine ⟨?_, fun hasleep hjobs ↦ h.signal hasleep ?_, h.not_needsMutex, fun hstuck ↦ ?_⟩
  · rw [htot, hnum, ← h.jobs]
    exact (Int.natCast_add _ _).symm
  · rw [hnum] at hjobs
    exact Int.natCast_pos.mp hjobs
  · have hreturned := h.returned_of_stuck (hstuck .main Event.noConfusion)
      (hstuck .worker Event.noConfusion)
    exact ⟨hreturned, htot.trans (congrArg Nat.cast (h.returned.mp hreturned))⟩

end Coordinated

theorem coordinated_of_run {history : List (State × Event)} (h : 1 ≤ iters)
    (hiters : iters < 2 ^ 31) (hrun : IsRun iters history state) : Coordinated iters state := by
  apply hrun.invariant (Coordinated iters) (coordinated_start h hiters)
  intro before event after hcoordinated _ hstep
  cases event with
  | main => exact hcoordinated.stepMain hiters hstep
  | worker => exact hcoordinated.stepWorker hiters hstep
  | spurious => exact hcoordinated.stepSpurious hstep

/-! ## Counters that wrap -/

/-- `main` has enqueued some jobs before the worker has got the mutex. -/
def alone (jobs : ℕ) : State :=
  ⟨none, BitVec.ofNat 32 jobs, 0, .locking (BitVec.ofNat 32 jobs), .locking, jobs⟩

/-- No value of `i` ends the loop of `main`. -/
theorem loopHead_of_le (hiters : 2 ^ 31 ≤ iters) (i : BitVec 32) :
    Main.loopHead iters i = .locking i := by
  have hlt : i.toInt < 2 ^ 31 := BitVec.toInt_lt
  exact if_pos (by omega)

theorem isRun_alone (hiters : 2 ^ 31 ≤ iters) (jobs : ℕ) :
    ∃ history, IsRun iters history (alone jobs) := by
  induction jobs with
  | zero =>
    have hstart : start iters = alone 0 := by
      rw [start, loopHead_of_le hiters]
      rfl
    exact ⟨[], hstart ▸ .start⟩
  | succ jobs ih =>
    obtain ⟨history, hrun⟩ := ih
    apply Exists.intro
    apply hrun.of_follow [.main, .main, .main, .main]
    simp only [follow, State.step, State.stepMain, alone, loopHead_of_le hiters, if_true]
    rw [BitVec.ofNat_add]
    rfl

/-- After `2 ^ 31` jobs `num_jobs` is negative. -/
theorem not_noneMissed_alone : ¬ NoneMissed iters (alone (2 ^ 31)) := by
  intro h
  exact absurd h.jobs (by decide)

/-- In every interleaving of `main`, the worker and spurious wake-ups no job is lost, no wake-up is
missed and all jobs are processed, if and only if `ITERS` fits into an `int`. -/
theorem no_missed_signal_iff (h : 1 ≤ iters) :
    (∀ history state, IsRun iters history state → NoneMissed iters state) ↔ iters < 2 ^ 31 := by
  constructor
  · intro hall
    by_contra hiters
    obtain ⟨history, hrun⟩ := isRun_alone (not_lt.mp hiters) (2 ^ 31)
    exact not_noneMissed_alone (hall history _ hrun)
  · intro hiters history state hrun
    exact (coordinated_of_run h hiters hrun).noneMissed hiters

/-- Three jobs. The worker has processed the first one and sleeps, the second one is signalled while
the worker has not got the mutex back, and the third is enqueued and not signalled yet when the
worker sleeps again. -/
theorem no_missed_signal_of_three_jobs :
    ∃ history state, IsRun 3 history state ∧ state.totJobs = 2 ∧ state.worker = .asleep ∧
      0 < state.numJobs.toInt ∧ state.main.owesSignal = true := by
  have hstart : IsRun 3 [] (start 3) := .start
  have hrun := hstart.of_follow
    [.main, .main, .main, .worker, .worker, .worker, .main, .main, .main, .main, .main, .worker,
      .worker, .worker, .main, .main] rfl
  have hnone := (no_missed_signal_iff (by decide : 1 ≤ 3)).mpr (by decide) _ _ hrun
  exact ⟨_, _, hrun, rfl, rfl, by decide, hnone.signal rfl (by decide)⟩

/-- With `ITERS` at `2 ^ 31` there is a run in which `main` has enqueued `2 ^ 31` jobs and both
counters together are `-2 ^ 31`. -/
theorem jobs_overflow :
    ∃ history state, IsRun (2 ^ 31) history state ∧ state.enqueued = 2 ^ 31 ∧
      state.totJobs.toInt + state.numJobs.toInt = -2 ^ 31 := by
  obtain ⟨history, hrun⟩ := isRun_alone le_rfl (2 ^ 31)
  exact ⟨history, _, hrun, rfl, by decide⟩

end Systemish.CondWait
