import Systemish.Foundation.Run
import Systemish.Foundation.TicketRing

/-!
# The bounded queue of spdlog

`mpmc_bounded_queue` of `mpmc_bounded_q.h`, with any number of threads that call `enqueue` and
`dequeue`, one atomic access or one access of the data at a time, in any order. A load of an atomic
can return any value that the atomic has had, so nothing rests on the order of relaxed accesses. A
store to `sequence_` is a release, and the load is an acquire: with the value, the thread learns
which accesses of the data of the cell came before the store. To access the data without knowing of
all accesses before is a data race.
-/

namespace Systemish.Spdlog

open Foundation

/-- `size_t`. -/
abbrev Word := BitVec 64

/-- An atomic object: its value, and the values that it had before. -/
structure Atomic (α : Type) where
  current : α
  older : List α

namespace Atomic

variable {α : Type}

/-- What a load can return. -/
def values (object : Atomic α) : List α := object.current :: object.older

def store (object : Atomic α) (value : α) : Atomic α := ⟨value, object.values⟩

end Atomic

/-- A value of `sequence_`, with the number of accesses of the data that came before the store. -/
structure Stamped where
  value : Word
  accesses : ℕ
  deriving DecidableEq

/-- `cell_t`, with the number of accesses of the data so far. -/
structure Cell (T : Type) where
  sequence : Atomic Stamped
  data : T
  accesses : ℕ

structure Queue (T : Type) where
  maxSize : Word
  buffer : ℕ → Cell T
  bufferMask : Word
  enqueuePos : Atomic Word
  dequeuePos : Atomic Word

/-- What a call returns. -/
inductive Outcome (T : Type) where
  | enqueued (result : Bool)
  | dequeued (data : Option T)
  deriving DecidableEq

/-- A call of `enqueue` or of `dequeue`. -/
inductive Operation (T : Type) where
  | enqueue (data : T)
  | dequeue
  deriving DecidableEq

/-- Where a thread is: outside, before the load of the counter, before the load of `sequence_`,
before the exchange, before the access of the data, or before the store to `sequence_`. -/
inductive Point (T : Type) where
  | idle (last : Option (Outcome T))
  | load (op : Operation T)
  | sequence (op : Operation T) (pos : Word)
  | exchange (op : Operation T) (pos : Word) (accesses : ℕ)
  | access (op : Operation T) (pos : Word) (accesses : ℕ)
  | publish (op : Operation T) (pos : Word) (data : T) (accesses : ℕ)
  | raced
  deriving DecidableEq

/-- What a thread does next, with what it sees. A weak exchange can fail for no reason. Data that is
moved out leaves something behind. -/
inductive Move (T : Type) where
  | call (op : Operation T)
  | load (seen : Word)
  | loadSequence (seen : Stamped)
  | exchange
  | fail (seen : Word)
  | access (left : T)
  | store
  deriving DecidableEq

namespace Operation

variable {T : Type}

/-- `enqueue_pos_` or `dequeue_pos_`. -/
def counter (op : Operation T) (queue : Queue T) : Atomic Word :=
  match op with
  | .enqueue _ => queue.enqueuePos
  | .dequeue => queue.dequeuePos

/-- What `sequence_` is compared with. -/
def expected (op : Operation T) (pos : Word) : Word :=
  match op with
  | .enqueue _ => pos
  | .dequeue => pos + 1

/-- What is in the cell after the data was moved, and what the thread goes on with. -/
def moved (op : Operation T) (data left : T) : T × T :=
  match op with
  | .enqueue new => (new, new)
  | .dequeue => (left, data)

/-- What is stored to `sequence_`. -/
def next (op : Operation T) (bufferMask pos : Word) : Word :=
  match op with
  | .enqueue _ => pos + 1
  | .dequeue => pos + bufferMask + 1

/-- What is returned if the comparison gives a negative number. -/
def failed (op : Operation T) : Outcome T :=
  match op with
  | .enqueue _ => .enqueued false
  | .dequeue => .dequeued none

/-- What is returned at the end. -/
def succeeded (op : Operation T) (data : T) : Outcome T :=
  match op with
  | .enqueue _ => .enqueued true
  | .dequeue => .dequeued (some data)

end Operation

namespace Queue

variable {T : Type} (queue : Queue T)

/-- The constructor. `initial` is what the cells hold at first. -/
def create (bufferSize : Word) (initial : ℕ → T) : Option (Queue T) :=
  if 2 ≤ bufferSize.toNat ∧ bufferSize &&& (bufferSize - 1) = 0 then
    some
      { maxSize := bufferSize
        buffer := fun i ↦ ⟨⟨⟨BitVec.ofNat 64 i, 0⟩, []⟩, initial i, 0⟩
        bufferMask := bufferSize - 1
        enqueuePos := ⟨0, []⟩
        dequeuePos := ⟨0, []⟩ }
  else none

/-- `pos & buffer_mask_`. -/
def index (pos : Word) : ℕ := (pos &&& queue.bufferMask).toNat

/-- Write to a cell. -/
def update (i : ℕ) (cell : Cell T) : Queue T :=
  { queue with buffer := Function.update queue.buffer i cell }

/-- A successful exchange of the counter. -/
def claim (op : Operation T) (pos : Word) : Queue T :=
  match op with
  | .enqueue _ => { queue with enqueuePos := queue.enqueuePos.store (pos + 1) }
  | .dequeue => { queue with dequeuePos := queue.dequeuePos.store (pos + 1) }

/-- Move the data into the cell or out of it. The thread goes on with the data. -/
def access (op : Operation T) (pos : Word) (left : T) : Queue T × T :=
  let cell := queue.buffer (queue.index pos)
  let moved := op.moved cell.data left
  (queue.update (queue.index pos) { cell with data := moved.1, accesses := cell.accesses + 1 },
    moved.2)

/-- The store to `sequence_`. -/
def publish (op : Operation T) (pos : Word) (accesses : ℕ) : Queue T :=
  let cell := queue.buffer (queue.index pos)
  queue.update (queue.index pos)
    { cell with sequence := cell.sequence.store ⟨op.next queue.bufferMask pos, accesses⟩ }

/-- One step of a thread in `enqueue` or `dequeue`, if it is possible. -/
def step (point : Point T) (move : Move T) : Option (Queue T × Point T) :=
  match point, move with
  | .idle _, .call op => some (queue, .load op)
  | .load op, .load seen =>
    if seen ∈ (op.counter queue).values then some (queue, .sequence op seen) else none
  | .sequence op pos, .loadSequence seen =>
    if seen ∈ (queue.buffer (queue.index pos)).sequence.values then
      let dif := (seen.value - op.expected pos).toInt
      if dif = 0 then some (queue, .exchange op pos seen.accesses)
      else if dif < 0 then some (queue, .idle (some op.failed))
      else some (queue, .load op)
    else none
  | .exchange op pos accesses, .exchange =>
    if (op.counter queue).current = pos then some (queue.claim op pos, .access op pos accesses)
    else none
  | .exchange op _ _, .fail seen =>
    if seen ∈ (op.counter queue).values then some (queue, .sequence op seen) else none
  | .access op pos accesses, .access left =>
    if (queue.buffer (queue.index pos)).accesses = accesses then
      let (queue, data) := queue.access op pos left
      some (queue, .publish op pos data (accesses + 1))
    else some (queue, .raced)
  | .publish op pos data accesses, .store =>
    some (queue.publish op pos accesses, .idle (some (op.succeeded data)))
  | _, _ => none

@[simp]
theorem buffer_update_self (i : ℕ) (cell : Cell T) : (queue.update i cell).buffer i = cell :=
  Function.update_self ..

theorem buffer_update_of_ne {i j : ℕ} (h : j ≠ i) (cell : Cell T) :
    (queue.update i cell).buffer j = queue.buffer j := Function.update_of_ne h ..

/-- What a step can be. -/
inductive Steps : Point T → Move T → Queue T → Point T → Prop
  | call (last : Option (Outcome T)) (op : Operation T) :
      Steps (.idle last) (.call op) queue (.load op)
  | load {op : Operation T} {seen : Word} (hseen : seen ∈ (op.counter queue).values) :
      Steps (.load op) (.load seen) queue (.sequence op seen)
  | ready {op : Operation T} {pos : Word} {seen : Stamped}
      (hseen : seen ∈ (queue.buffer (queue.index pos)).sequence.values)
      (hvalue : seen.value = op.expected pos) :
      Steps (.sequence op pos) (.loadSequence seen) queue (.exchange op pos seen.accesses)
  | failed {op : Operation T} {pos : Word} {seen : Stamped}
      (hseen : seen ∈ (queue.buffer (queue.index pos)).sequence.values)
      (hneg : (seen.value - op.expected pos).toInt < 0) :
      Steps (.sequence op pos) (.loadSequence seen) queue (.idle (some op.failed))
  | late {op : Operation T} {pos : Word} {seen : Stamped} :
      Steps (.sequence op pos) (.loadSequence seen) queue (.load op)
  | claim {op : Operation T} {pos : Word} {accesses : ℕ}
      (hcurrent : (op.counter queue).current = pos) :
      Steps (.exchange op pos accesses) .exchange (queue.claim op pos) (.access op pos accesses)
  | retry {op : Operation T} {pos seen : Word} {accesses : ℕ}
      (hseen : seen ∈ (op.counter queue).values) :
      Steps (.exchange op pos accesses) (.fail seen) queue (.sequence op seen)
  | access {op : Operation T} {pos : Word} {accesses : ℕ} {left : T}
      (haccesses : (queue.buffer (queue.index pos)).accesses = accesses) :
      Steps (.access op pos accesses) (.access left) (queue.access op pos left).1
        (.publish op pos (queue.access op pos left).2 (accesses + 1))
  | race {op : Operation T} {pos : Word} {accesses : ℕ} {left : T}
      (haccesses : (queue.buffer (queue.index pos)).accesses ≠ accesses) :
      Steps (.access op pos accesses) (.access left) queue .raced
  | publish {op : Operation T} {pos : Word} {data : T} {accesses : ℕ} :
      Steps (.publish op pos data accesses) .store (queue.publish op pos accesses)
        (.idle (some (op.succeeded data)))

theorem steps_of_step {point point' : Point T} {move : Move T} {queue' : Queue T}
    (h : queue.step point move = some (queue', point')) :
    queue.Steps point move queue' point' := by
  unfold step at h
  split at h
  · obtain ⟨rfl, rfl⟩ := Prod.mk.inj (Option.some.inj h)
    exact .call _ _
  · split_ifs at h with hseen
    obtain ⟨rfl, rfl⟩ := Prod.mk.inj (Option.some.inj h)
    exact .load hseen
  · dsimp only at h
    split_ifs at h with hseen hzero hneg
    · obtain ⟨rfl, rfl⟩ := Prod.mk.inj (Option.some.inj h)
      apply Steps.ready hseen
      exact sub_eq_zero.mp (BitVec.eq_of_toInt_eq (hzero.trans BitVec.toInt_zero.symm))
    · obtain ⟨rfl, rfl⟩ := Prod.mk.inj (Option.some.inj h)
      exact .failed hseen hneg
    · obtain ⟨rfl, rfl⟩ := Prod.mk.inj (Option.some.inj h)
      exact .late
  · split_ifs at h with hcurrent
    obtain ⟨rfl, rfl⟩ := Prod.mk.inj (Option.some.inj h)
    exact .claim hcurrent
  · split_ifs at h with hseen
    obtain ⟨rfl, rfl⟩ := Prod.mk.inj (Option.some.inj h)
    exact .retry hseen
  · split_ifs at h with haccesses
    · obtain ⟨rfl, rfl⟩ := Prod.mk.inj (Option.some.inj h)
      exact .access haccesses
    · obtain ⟨rfl, rfl⟩ := Prod.mk.inj (Option.some.inj h)
      exact .race haccesses
  · obtain ⟨rfl, rfl⟩ := Prod.mk.inj (Option.some.inj h)
    exact .publish
  · exact absurd h (Option.some_ne_none _).symm

end Queue

/-- The queue, and the threads that use it. -/
structure System (θ T : Type) where
  queue : Queue T
  point : θ → Point T

namespace System

variable {θ T : Type} [DecidableEq θ]

/-- No thread is in a call at first. -/
def start (θ : Type) (queue : Queue T) : System θ T := ⟨queue, fun _ ↦ .idle none⟩

/-- A thread gets to a point, with a new queue. -/
def put (system : System θ T) (thread : θ) (queue : Queue T) (point : Point T) : System θ T :=
  ⟨queue, Function.update system.point thread point⟩

@[simp]
theorem queue_put (system : System θ T) (thread : θ) (queue : Queue T) (point : Point T) :
    (system.put thread queue point).queue = queue := rfl

@[simp]
theorem point_put_self (system : System θ T) (thread : θ) (queue : Queue T) (point : Point T) :
    (system.put thread queue point).point thread = point := Function.update_self ..

theorem point_put_of_ne (system : System θ T) {thread other : θ} (h : other ≠ thread)
    (queue : Queue T) (point : Point T) :
    (system.put thread queue point).point other = system.point other := Function.update_of_ne h ..

/-- One step of one thread. -/
def step (system : System θ T) (input : θ × Move T) : Option (System θ T) :=
  (system.queue.step (system.point input.1) input.2).map fun (queue, point) ↦
    system.put input.1 queue point

/-- What a step sends: the data of an `enqueue` that wins a position. -/
def sends (entry : System θ T × (θ × Move T)) : Option T :=
  match entry.1.point entry.2.1, entry.2.2 with
  | .exchange (.enqueue data) _ _, .exchange => some data
  | _, _ => none

/-- What a step receives: the position and the data of a `dequeue` that returns. -/
def receives (entry : System θ T × (θ × Move T)) : Option (ℕ × T) :=
  match entry.1.point entry.2.1, entry.2.2 with
  | .publish .dequeue pos data _, .store => some (pos.toNat, data)
  | _, _ => none

/-- All data that was sent, in the order of the positions. -/
def sent (history : List (System θ T × (θ × Move T))) : List T := history.reverse.filterMap sends

/-- All positions and data that were received, in the order of the returns. -/
def received (history : List (System θ T × (θ × Move T))) : List (ℕ × T) :=
  history.reverse.filterMap receives

end System

end Systemish.Spdlog
