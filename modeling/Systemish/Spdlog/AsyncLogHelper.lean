import Systemish.Spdlog.QueueProgress

/-!
# The asynchronous logger of spdlog

`async_log_helper` of `async_log_helper.h`, as `async_logger` and `logger` use it. Threads that log,
flush or destroy the logger push messages to the queue. One worker takes them out and hands them to
the sinks. The steps of all threads in the queue are those of `MpmcQueue`. What the worker has for
itself, the flags and the sinks, it changes between two calls of `dequeue`.
-/

namespace Systemish.Spdlog

open Foundation

/-! ## Messages -/

/-- `level::level_enum`. -/
inductive Level where
  | trace | debug | info | warn | err | critical | off
  deriving DecidableEq

namespace Level

/-- The number of the level. -/
def toNat : Level → ℕ
  | trace => 0
  | debug => 1
  | info => 2
  | warn => 3
  | err => 4
  | critical => 5
  | off => 6

/-- `should_log` of a logger or of a sink with this level. -/
def shouldLog (level msgLevel : Level) : Bool := level.toNat ≤ msgLevel.toNat

end Level

/-- `log_msg`, before the formatter writes to it. -/
structure LogMsg where
  loggerName : String
  level : Level
  time : ℕ
  threadId : ℕ
  raw : String
  deriving DecidableEq

inductive AsyncMsgType where
  | log | flush | terminate
  deriving DecidableEq

structure AsyncMsg where
  loggerName : String
  level : Level
  time : ℕ
  threadId : ℕ
  txt : String
  msgType : AsyncMsgType
  deriving DecidableEq

namespace AsyncMsg

/-- `async_msg(async_msg_type)`. -/
def ofType (msgType : AsyncMsgType) : AsyncMsg := ⟨"", .info, 0, 0, "", msgType⟩

/-- `async_msg(const details::log_msg&)`. -/
def ofLogMsg (msg : LogMsg) : AsyncMsg :=
  ⟨msg.loggerName, msg.level, msg.time, msg.threadId, msg.raw, .log⟩

/-- `fill_log_msg` into a fresh message. -/
def fillLogMsg (msg : AsyncMsg) : LogMsg :=
  ⟨msg.loggerName, msg.level, msg.time, msg.threadId, msg.txt⟩

@[simp]
theorem fillLogMsg_ofLogMsg (msg : LogMsg) : (ofLogMsg msg).fillLogMsg = msg := rfl

end AsyncMsg

/-! ## Sinks -/

/-- A call of `log` or of `flush` of a sink, or of the error handler. -/
inductive Event where
  | log (sink : ℕ) (msg : LogMsg) (formatted : String)
  | flush (sink : ℕ)
  | error
  deriving DecidableEq

/-- What a logger is made with. The formatter gives `none` if it throws. -/
structure Config where
  level : Level
  flushLevel : Level
  sinks : List Level
  formatter : LogMsg → Option String
  /-- `_flush_interval_ms` is not zero. -/
  periodic : Bool

/-- A loop over sinks, up to a call that throws. -/
def callSinks (thrown : Option ℕ) (event : ℕ → Event) : (sinks : List ℕ) → List Event × Bool
  | [] => ([], true)
  | sink :: sinks =>
    if thrown = some sink then ([], false)
    else
      let (events, done) := callSinks thrown event sinks
      (event sink :: events, done)

namespace Config

variable (config : Config)

/-- The sinks that take messages of a level. -/
def accepting (level : Level) : List ℕ :=
  (config.sinks.zipIdx.filter fun sink ↦ sink.1.shouldLog level).map Prod.snd

/-- Format a message and log it to the sinks. -/
def logToSinks (thrown : Option ℕ) (msg : LogMsg) : List Event × Bool :=
  match config.formatter msg with
  | none => ([], false)
  | some formatted => callSinks thrown (.log · msg formatted) (config.accepting msg.level)

/-- `logger::flush`. -/
def flushSinks (thrown : Option ℕ) : List Event × Bool :=
  callSinks thrown .flush (List.range config.sinks.length)

/-- `_should_flush_on`. -/
def shouldFlushOn (msg : LogMsg) : Bool :=
  config.flushLevel.toNat ≤ msg.level.toNat && msg.level ≠ .off

/-- `logger::_sink_it`, for a logger without a worker. -/
def sinkIt (thrown thrownFlush : Option ℕ) (msg : LogMsg) : List Event × Bool :=
  let (events, done) := config.logToSinks thrown msg
  if done && config.shouldFlushOn msg then
    let (flushes, done) := config.flushSinks thrownFlush
    (events ++ flushes, done)
  else (events, done)

/-- `logger::log`, for a logger without a worker. -/
def log (thrown thrownFlush : Option ℕ) (msg : LogMsg) : List Event :=
  if config.level.shouldLog msg.level then
    let (events, done) := config.sinkIt thrown thrownFlush msg
    if done then events else events ++ [.error]
  else []

end Config

/-! ## The worker -/

/-- What the worker has for itself. It is in `worker_loop` while it is active. -/
structure Worker where
  flushRequested : Bool
  terminateRequested : Bool
  active : Bool
  events : List Event

namespace Worker

variable (worker : Worker)

def start : Worker := ⟨false, false, true, []⟩

/-- `handle_flush_interval`. If a sink throws, the flush is still requested. -/
def handleFlushInterval (config : Config) (elapsed : Bool) (thrown : Option ℕ) : Worker × Bool :=
  if worker.flushRequested || (config.periodic && elapsed) then
    let (flushes, done) := config.flushSinks thrown
    ({ worker with
        events := worker.events ++ flushes
        flushRequested := if done then false else worker.flushRequested }, done)
  else (worker, true)

/-- `process_next_msg` after the call of `dequeue`, and `worker_loop` if it throws. -/
def processNextMsg (config : Config) (incoming : Option AsyncMsg) (elapsed : Bool)
    (thrown : Option ℕ) : Worker :=
  match incoming with
  | some msg =>
    match msg.msgType with
    | .flush => { worker with flushRequested := true }
    | .terminate => { worker with flushRequested := true, terminateRequested := true }
    | .log =>
      let (events, done) := config.logToSinks thrown msg.fillLogMsg
      { worker with events := worker.events ++ events ++ if done then [] else [.error] }
  | none =>
    let (worker, done) := worker.handleFlushInterval config elapsed thrown
    if done then { worker with active := !worker.terminateRequested }
    else { worker with events := worker.events ++ [.error] }

end Worker

/-! ## The threads that push -/

inductive AsyncOverflowPolicy where
  | blockRetry | discardLogMsg
  deriving DecidableEq

/-- What a thread has to do: `push_msg`, before or in a call of `enqueue`, for the first time or
again, `wait_empty_q`, before one of the loads of `approx_size`, or `join` of the worker. -/
inductive Job where
  | push (msg : AsyncMsg) (retrying : Bool)
  | pushing (msg : AsyncMsg) (retrying : Bool)
  | loadFirst
  | loadLast (first : Word)
  | join
  deriving DecidableEq

/-- A call of `logger::log`, of `async_logger::flush` or of the destructor. -/
inductive Request where
  | log (msg : LogMsg)
  | flush
  | destroy
  deriving DecidableEq

/-- `logger::log`, `_sink_it` and `flush` of `async_logger`, and `~async_log_helper`. -/
def Request.jobs (config : Config) : Request → List Job
  | .log msg =>
    if config.level.shouldLog msg.level then
      .push (.ofLogMsg msg) false ::
        if config.shouldFlushOn msg then [.push (.ofType .flush) false] else []
    else []
  | .flush => [.push (.ofType .flush) false, .loadFirst]
  | .destroy => [.push (.ofType .terminate) false, .join]

/-- `approx_size`, from the two loads. -/
def approxSize (maxSize firstPos lastPos : Word) : Word :=
  if lastPos.toNat ≤ firstPos.toNat then 0
  else
    let size := lastPos - firstPos
    if size.toNat < maxSize.toNat then size else maxSize

/-! ## All together -/

/-- The logger and its threads. The worker is the thread `none` of the queue. A thread that has
written to `enqueue_pos_` loads nothing older than `won` from it. -/
structure AsyncLogHelper (θ : Type) where
  config : Config
  overflowPolicy : AsyncOverflowPolicy
  system : System (Option θ) AsyncMsg
  jobs : θ → List Job
  won : θ → Word
  worker : Worker
  /-- The worker is in a call of `dequeue`. -/
  popping : Bool

/-- What happens next. -/
inductive Input (θ : Type) where
  | request (thread : θ) (request : Request)
  | call (thread : θ)
  | move (thread : Option θ) (move : Move AsyncMsg)
  | finish (thread : θ)
  | loadFirst (thread : θ) (seen : Word)
  | loadLast (thread : θ) (seen : Word)
  | join (thread : θ)
  | pop
  | process (elapsed : Bool) (thrown : Option ℕ)
  deriving DecidableEq

def Move.isCall {T : Type} : Move T → Bool
  | .call _ => true
  | _ => false

namespace AsyncLogHelper

variable {θ : Type} [DecidableEq θ] (helper : AsyncLogHelper θ)

/-- At first no thread has called anything. -/
def start (θ : Type) (config : Config) (overflowPolicy : AsyncOverflowPolicy)
    (queue : Queue AsyncMsg) : AsyncLogHelper θ :=
  { config, overflowPolicy
    system := .start (Option θ) queue
    jobs := fun _ ↦ []
    won := fun _ ↦ 0
    worker := .start
    popping := false }

/-- The constructor. It throws if the one of the queue does. -/
def create (θ : Type) (config : Config) (queueSize : Word) (initial : ℕ → AsyncMsg)
    (overflowPolicy : AsyncOverflowPolicy) : Option (AsyncLogHelper θ) :=
  (Queue.create queueSize initial).map (start θ config overflowPolicy)

def setJobs (thread : θ) (jobs : List Job) : AsyncLogHelper θ :=
  { helper with jobs := Function.update helper.jobs thread jobs }

def setSystem (system : System (Option θ) AsyncMsg) : AsyncLogHelper θ := { helper with system }

def setWon (won : θ → Word) : AsyncLogHelper θ := { helper with won }

def setWorker (worker : Worker) (popping : Bool) : AsyncLogHelper θ :=
  { helper with worker, popping }

/-- A thread that wins a position has written to `enqueue_pos_`. -/
def wonAfter (thread : Option θ) (move : Move AsyncMsg) : θ → Word :=
  match thread, helper.system.point thread, move with
  | some thread, .exchange (.enqueue _) pos _, .exchange =>
    Function.update helper.won thread (pos + 1)
  | _, _, _ => helper.won

/-- One step, if it is possible. -/
def step (input : Input θ) : Option (AsyncLogHelper θ) :=
  match input with
  | .request thread request =>
    if helper.jobs thread = [] then
      some (helper.setJobs thread (request.jobs helper.config))
    else none
  | .call thread =>
    match helper.jobs thread with
    | .push msg retrying :: rest =>
      (helper.system.step (some thread, .call (.enqueue msg))).map fun system ↦
        (helper.setSystem system).setJobs thread (.pushing msg retrying :: rest)
    | _ => none
  | .move thread move =>
    if move.isCall then none
    else
      (helper.system.step (thread, move)).map fun system ↦
        (helper.setSystem system).setWon (helper.wonAfter thread move)
  | .finish thread =>
    match helper.jobs thread, helper.system.point (some thread) with
    | .pushing msg retrying :: rest, .idle (some (.enqueued result)) =>
      if !result && (retrying || helper.overflowPolicy ≠ .discardLogMsg) then
        some (helper.setJobs thread (.push msg true :: rest))
      else some (helper.setJobs thread rest)
    | _, _ => none
  | .loadFirst thread seen =>
    match helper.jobs thread with
    | .loadFirst :: rest =>
      if helper.system.queue.dequeuePos.values.contains seen then
        some (helper.setJobs thread (.loadLast seen :: rest))
      else none
    | _ => none
  | .loadLast thread seen =>
    match helper.jobs thread with
    | .loadLast first :: rest =>
      if helper.system.queue.enqueuePos.values.contains seen ∧
          (helper.won thread).toNat ≤ seen.toNat then
        if approxSize helper.system.queue.maxSize first seen = 0 then
          some (helper.setJobs thread rest)
        else some (helper.setJobs thread (.loadFirst :: rest))
      else none
    | _ => none
  | .join thread =>
    match helper.jobs thread with
    | .join :: rest =>
      if helper.worker.active then none else some (helper.setJobs thread rest)
    | _ => none
  | .pop =>
    if helper.worker.active && !helper.popping then
      (helper.system.step (none, .call .dequeue)).map fun system ↦
        (helper.setSystem system).setWorker helper.worker true
    else none
  | .process elapsed thrown =>
    match helper.popping, helper.system.point none with
    | true, .idle (some (.dequeued incoming)) =>
      some (helper.setWorker
        (helper.worker.processNextMsg helper.config incoming elapsed thrown) false)
    | _, _ => none

/-- What a step can be. -/
inductive Steps : Input θ → AsyncLogHelper θ → Prop
  | request {thread : θ} {request : Request} (hjobs : helper.jobs thread = []) :
      Steps (.request thread request) (helper.setJobs thread (request.jobs helper.config))
  | call {thread : θ} {msg : AsyncMsg} {retrying : Bool} {rest : List Job}
      {system : System (Option θ) AsyncMsg}
      (hjobs : helper.jobs thread = .push msg retrying :: rest)
      (hsystem : helper.system.step (some thread, .call (.enqueue msg)) = some system) :
      Steps (.call thread)
        ((helper.setSystem system).setJobs thread (.pushing msg retrying :: rest))
  | move {thread : Option θ} {move : Move AsyncMsg} {system : System (Option θ) AsyncMsg}
      (hcall : move.isCall = false)
      (hsystem : helper.system.step (thread, move) = some system) :
      Steps (.move thread move) ((helper.setSystem system).setWon (helper.wonAfter thread move))
  | retry {thread : θ} {msg : AsyncMsg} {retrying : Bool} {rest : List Job}
      (hjobs : helper.jobs thread = .pushing msg retrying :: rest)
      (hpoint : helper.system.point (some thread) = .idle (some (.enqueued false))) :
      Steps (.finish thread) (helper.setJobs thread (.push msg true :: rest))
  | drop {thread : θ} {msg : AsyncMsg} {retrying : Bool} {rest : List Job}
      (hjobs : helper.jobs thread = .pushing msg retrying :: rest)
      (hpoint : helper.system.point (some thread) = .idle (some (.enqueued false)))
      (hpolicy : helper.overflowPolicy = .discardLogMsg) :
      Steps (.finish thread) (helper.setJobs thread rest)
  | finish {thread : θ} {msg : AsyncMsg} {retrying : Bool} {rest : List Job}
      (hjobs : helper.jobs thread = .pushing msg retrying :: rest)
      (hpoint : helper.system.point (some thread) = .idle (some (.enqueued true))) :
      Steps (.finish thread) (helper.setJobs thread rest)
  | loadFirst {thread : θ} {seen : Word} {rest : List Job}
      (hjobs : helper.jobs thread = .loadFirst :: rest)
      (hseen : seen ∈ helper.system.queue.dequeuePos.values) :
      Steps (.loadFirst thread seen) (helper.setJobs thread (.loadLast seen :: rest))
  | wait {thread : θ} {first seen : Word} {rest : List Job}
      (hjobs : helper.jobs thread = .loadLast first :: rest) :
      Steps (.loadLast thread seen) (helper.setJobs thread (.loadFirst :: rest))
  | waited {thread : θ} {first seen : Word} {rest : List Job}
      (hjobs : helper.jobs thread = .loadLast first :: rest)
      (hseen : (helper.won thread).toNat ≤ seen.toNat)
      (hsize : approxSize helper.system.queue.maxSize first seen = 0) :
      Steps (.loadLast thread seen) (helper.setJobs thread rest)
  | join {thread : θ} {rest : List Job} (hjobs : helper.jobs thread = .join :: rest)
      (hactive : helper.worker.active = false) :
      Steps (.join thread) (helper.setJobs thread rest)
  | pop {system : System (Option θ) AsyncMsg} (hactive : helper.worker.active = true)
      (hpopping : helper.popping = false)
      (hsystem : helper.system.step (none, .call .dequeue) = some system) :
      Steps .pop ((helper.setSystem system).setWorker helper.worker true)
  | process {elapsed : Bool} {thrown : Option ℕ} {incoming : Option AsyncMsg}
      (hpopping : helper.popping = true)
      (hpoint : helper.system.point none = .idle (some (.dequeued incoming))) :
      Steps (.process elapsed thrown) (helper.setWorker
        (helper.worker.processNextMsg helper.config incoming elapsed thrown) false)

theorem steps_of_step {input : Input θ} {after : AsyncLogHelper θ}
    (h : helper.step input = some after) : helper.Steps input after := by
  unfold step at h
  cases input with
  | request thread request =>
    dsimp only at h
    split_ifs at h with hjobs
    obtain rfl := Option.some.inj h
    exact .request hjobs
  | call thread =>
    dsimp only at h
    split at h
    · next hjobs =>
      obtain ⟨system, hsystem, rfl⟩ := Option.map_eq_some_iff.mp h
      exact .call hjobs hsystem
    · exact absurd h.symm (Option.some_ne_none _)
  | move thread move =>
    dsimp only at h
    split_ifs at h with hcall
    obtain ⟨system, hsystem, rfl⟩ := Option.map_eq_some_iff.mp h
    exact .move (Bool.not_eq_true _ ▸ hcall) hsystem
  | finish thread =>
    dsimp only at h
    split at h
    · next msg retrying rest result hjobs hpoint =>
      split_ifs at h with hretry
      · obtain rfl := Option.some.inj h
        obtain rfl : result = false := by simpa using (Bool.and_eq_true_iff.mp hretry).1
        exact .retry hjobs hpoint
      · obtain rfl := Option.some.inj h
        cases result with
        | true => exact .finish hjobs hpoint
        | false =>
          apply Steps.drop hjobs hpoint
          by_contra hpolicy
          exact hretry (by simp [hpolicy])
    · exact absurd h.symm (Option.some_ne_none _)
  | loadFirst thread seen =>
    dsimp only at h
    split at h
    · next hjobs =>
      split_ifs at h with hseen
      obtain rfl := Option.some.inj h
      exact .loadFirst hjobs (List.contains_iff_mem.mp hseen)
    · exact absurd h.symm (Option.some_ne_none _)
  | loadLast thread seen =>
    dsimp only at h
    split at h
    · next hjobs =>
      split_ifs at h with hseen hsize
      · obtain rfl := Option.some.inj h
        exact .waited hjobs hseen.2 hsize
      · obtain rfl := Option.some.inj h
        exact .wait hjobs
    · exact absurd h.symm (Option.some_ne_none _)
  | join thread =>
    dsimp only at h
    split at h
    · next hjobs =>
      split_ifs at h with hactive
      obtain rfl := Option.some.inj h
      exact .join hjobs (Bool.not_eq_true _ ▸ hactive)
    · exact absurd h.symm (Option.some_ne_none _)
  | pop =>
    dsimp only at h
    split_ifs at h with hactive
    obtain ⟨system, hsystem, rfl⟩ := Option.map_eq_some_iff.mp h
    obtain ⟨hactive, hpopping⟩ := Bool.and_eq_true_iff.mp hactive
    exact .pop hactive (by simpa using hpopping) hsystem
  | process elapsed thrown =>
    dsimp only at h
    split at h
    · next incoming hpopping hpoint =>
      obtain rfl := Option.some.inj h
      exact .process hpopping hpoint
    · exact absurd h.symm (Option.some_ne_none _)

end AsyncLogHelper

end Systemish.Spdlog
