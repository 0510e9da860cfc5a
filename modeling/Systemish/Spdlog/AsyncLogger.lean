import Systemish.Spdlog.AsyncDelivery

/-!
# The asynchronous logger for its users

When a flush returns, the worker has taken out all messages that the thread has sent, but it may not
have handled the last of them. A logger that one thread uses and destroys has called its sinks with
the same messages, in the same order, as a logger without a worker.
-/

namespace Systemish.Spdlog

open Foundation

/-! ## Positions and what threads know of them -/

section Queue

variable {θ T : Type} [DecidableEq θ] {system after : System θ T} {thread : θ} {move : Move T}

theorem exists_exchange (hstep : system.step (thread, move) = some after) {data : T}
    (hsends : System.sends (system, thread, move) = some data) :
    ∃ accesses, system.point thread =
      .exchange (.enqueue data) system.queue.enqueuePos.current accesses ∧ move = .exchange := by
  obtain ⟨⟨queue', point'⟩, hqueue, -⟩ := Option.map_eq_some_iff.mp hstep
  unfold System.sends at hsends
  dsimp only at hsends
  generalize system.point thread = point at hqueue hsends
  cases Queue.steps_of_step _ hqueue with
  | @claim op pos accesses hcurrent =>
    cases op with
    | enqueue other =>
      obtain rfl := Option.some.inj hsends
      obtain rfl : system.queue.enqueuePos.current = pos := hcurrent
      exact ⟨accesses, rfl, rfl⟩
    | dequeue => exact absurd hsends.symm (Option.some_ne_none _)
  | @retry op pos seen accesses hseen =>
    cases op <;> exact absurd hsends.symm (Option.some_ne_none _)
  | _ => exact absurd hsends.symm (Option.some_ne_none _)

theorem dequeuePos_le_of_step (hbound : system.queue.dequeuePos.current.toNat + 1 < 2 ^ 64)
    (hstep : system.step (thread, move) = some after) :
    system.queue.dequeuePos.current.toNat ≤ after.queue.dequeuePos.current.toNat := by
  by_cases hcall : (system.point thread).call = some .dequeue
  · obtain ⟨⟨queue', point'⟩, hqueue, rfl⟩ := Option.map_eq_some_iff.mp hstep
    rw [System.queue_put]
    generalize system.point thread = point at hqueue hcall
    cases Queue.steps_of_step _ hqueue with
    | @claim op pos accesses hcurrent =>
      obtain rfl := Option.some.inj hcall
      obtain rfl : system.queue.dequeuePos.current = pos := hcurrent
      change _ ≤ (system.queue.dequeuePos.current + 1).toNat
      rw [toNat_add_one hbound]
      exact Nat.le_succ _
    | _ => exact le_rfl
  · rw [(taken_eq_of_step hstep hcall).1]

theorem maxSize_of_step (hstep : system.step (thread, move) = some after) :
    after.queue.maxSize = system.queue.maxSize := by
  obtain ⟨⟨queue', point'⟩, hqueue, rfl⟩ := Option.map_eq_some_iff.mp hstep
  rw [System.queue_put]
  generalize system.point thread = point at hqueue
  cases Queue.steps_of_step _ hqueue with
  | @claim op pos accesses hcurrent => cases op <;> rfl
  | _ => rfl

end Queue

theorem le_of_approxSize {maxSize first last : Word} (hmax : maxSize ≠ 0)
    (h : approxSize maxSize first last = 0) : last.toNat ≤ first.toNat := by
  by_contra hlt
  rw [approxSize, if_neg hlt] at h
  dsimp only at h
  split_ifs at h with hsize
  · rw [sub_eq_zero] at h
    exact hlt (h ▸ le_rfl)
  · exact hmax h

namespace AsyncLogHelper

variable {θ : Type} [DecidableEq θ] {helper after : AsyncLogHelper θ} {input : Input θ}
  {history : List (AsyncLogHelper θ × Input θ)} {thread other : θ} {jobs : List Job}
  {config : Config} {overflowPolicy : AsyncOverflowPolicy} {queue : Queue AsyncMsg}
  {queueSize : Word}

/-- A thread knows that its messages have positions, and what it has loaded of `dequeue_pos_` is not
ahead. -/
structure Waits (history : List (AsyncLogHelper θ × Input θ)) (helper : AsyncLogHelper θ) :
    Prop where
  won : ∀ thread i msg, (sentLog (queueHistory history))[i]? = some (some thread, msg) →
    i < (helper.won thread).toNat
  first : ∀ thread first, .loadLast first ∈ helper.jobs thread →
    first.toNat ≤ helper.system.queue.dequeuePos.current.toNat

theorem wonAfter_of_none {actor : Option θ} {move : Move AsyncMsg}
    (h : System.sends (helper.system, actor, move) = none) :
    helper.wonAfter actor move = helper.won := by
  unfold wonAfter
  split
  · next hpoint => simp [System.sends, hpoint] at h
  · rfl

theorem wonAfter_exchange {pos : Word} {accesses : ℕ} {msg : AsyncMsg}
    (hpoint : helper.system.point (some thread) = .exchange (.enqueue msg) pos accesses) :
    helper.wonAfter (some thread) .exchange = Function.update helper.won thread (pos + 1) := by
  simp [wonAfter, hpoint]

omit [DecidableEq θ] in
theorem sends_call {T : Type} {system : System θ T} {op : Operation T} :
    System.sends (system, thread, .call op) = none := by
  unfold System.sends
  split
  · next heq => exact absurd heq (by simp)
  · rfl

namespace Waits

/-- The positions after a step of the queue. -/
theorem won_of_step (h : Waits history helper) {actor : Option θ} {move : Move AsyncMsg}
    {system : System (Option θ) AsyncMsg} (hroles : Roles helper)
    (hlength : (sentLog (queueHistory history)).length =
      helper.system.queue.enqueuePos.current.toNat)
    (hbound : helper.system.queue.enqueuePos.current.toNat + 1 < 2 ^ 64)
    (hsystem : helper.system.step (actor, move) = some system) (thread : θ) (i : ℕ)
    (msg : AsyncMsg)
    (hsent : (sentLog ((helper.system, actor, move) :: queueHistory history))[i]? =
      some (some thread, msg)) : i < (helper.wonAfter actor move thread).toNat := by
  rw [sentLog_cons] at hsent
  cases hsends : System.sends (helper.system, actor, move) with
  | none =>
    rw [wonAfter_of_none hsends]
    rw [hsends, Option.map_none, Option.toList_none, List.append_nil] at hsent
    exact h.won thread i msg hsent
  | some data =>
    obtain ⟨accesses, hpoint, rfl⟩ := exists_exchange hsystem hsends
    cases actor with
    | none => exact absurd (hroles.worker _ (congrArg Point.call hpoint)).2 (by simp)
    | some actor =>
      rw [wonAfter_exchange hpoint]
      have hlt := (List.getElem?_eq_some_iff.mp hsent).1
      rw [hsends, List.length_append, hlength] at hlt
      rcases eq_or_ne thread actor with rfl | hne
      · rw [Function.update_self, toNat_add_one hbound]
        exact hlt
      · rw [Function.update_of_ne hne]
        -- the new position is not of this thread
        apply h.won thread i msg
        rw [hsends] at hsent
        by_cases hold : i < (sentLog (queueHistory history)).length
        · rwa [List.getElem?_append_left hold] at hsent
        · have hi : i = (sentLog (queueHistory history)).length := by
            simp only [Option.map_some, Option.toList_some, List.length_singleton] at hlt
            omega
          rw [hi, List.getElem?_append_right le_rfl] at hsent
          simp [hne.symm] at hsent

/-- A thread goes to other jobs. -/
theorem setJobs (h : Waits history helper) (hentry : queueEntry (helper, input) = none)
    (hjobs : ∀ first, .loadLast first ∈ jobs →
      first.toNat ≤ helper.system.queue.dequeuePos.current.toNat) :
    Waits ((helper, input) :: history) (helper.setJobs thread jobs) := by
  constructor
  · rw [queueHistory_cons, hentry]
    exact h.won
  · intro other first hfirst
    rcases eq_or_ne other thread with rfl | hne
    · rw [jobs_setJobs_self] at hfirst
      exact hjobs first hfirst
    · rw [jobs_setJobs_of_ne hne] at hfirst
      exact h.first other first hfirst

theorem step (h : Waits history helper) (hroles : Roles helper)
    (hlength : (sentLog (queueHistory history)).length =
      helper.system.queue.enqueuePos.current.toNat)
    (hbound : helper.system.queue.enqueuePos.current.toNat + 1 < 2 ^ 64)
    (htaken : helper.system.queue.dequeuePos.current.toNat + 1 < 2 ^ 64)
    (hvalues : ∀ pos ∈ helper.system.queue.dequeuePos.values,
      pos.toNat ≤ helper.system.queue.dequeuePos.current.toNat)
    (hsteps : helper.Steps input after) : Waits ((helper, input) :: history) after := by
  have hrest {thread : θ} {job : Job} {rest : List Job}
      (hjobs : helper.jobs thread = job :: rest) (first : Word) (hfirst : .loadLast first ∈ rest) :
      first.toNat ≤ helper.system.queue.dequeuePos.current.toNat :=
    h.first thread first (by rw [hjobs]; exact List.mem_cons_of_mem _ hfirst)
  cases hsteps with
  | @request thread request hjobs =>
    refine h.setJobs rfl fun first hfirst ↦ ?_
    simpa using Request.mem_jobs hfirst
  | @call thread msg retrying rest system hjobs hsystem =>
    constructor
    · rw [queueHistory_cons, queueEntry_call hjobs]
      intro other i sent hsent
      have hlt := h.won_of_step hroles hlength hbound hsystem other i sent hsent
      rwa [wonAfter_of_none sends_call] at hlt
    · intro other first hfirst
      refine le_trans ?_ (dequeuePos_le_of_step htaken hsystem)
      rcases eq_or_ne other thread with rfl | hne
      · rw [jobs_setJobs_self] at hfirst
        exact hrest hjobs first (by simpa using hfirst)
      · rw [jobs_setJobs_of_ne hne] at hfirst
        exact h.first other first hfirst
  | @move actor move system hcall hsystem =>
    exact ⟨h.won_of_step hroles hlength hbound hsystem, fun other first hfirst ↦
      (h.first other first hfirst).trans (dequeuePos_le_of_step htaken hsystem)⟩
  | retry hjobs hpoint =>
    exact h.setJobs rfl fun first hfirst ↦ hrest hjobs first (by simpa using hfirst)
  | drop hjobs hpoint hpolicy => exact h.setJobs rfl (hrest hjobs)
  | finish hjobs hpoint => exact h.setJobs rfl (hrest hjobs)
  | @loadFirst thread seen rest hjobs hseen =>
    refine h.setJobs rfl fun first hfirst ↦ ?_
    rcases List.mem_cons.mp hfirst with heq | hfirst
    · exact Job.loadLast.inj heq ▸ hvalues seen hseen
    · exact hrest hjobs first hfirst
  | wait hjobs => exact h.setJobs rfl fun first hfirst ↦ hrest hjobs first (by simpa using hfirst)
  | waited hjobs hseen hsize => exact h.setJobs rfl (hrest hjobs)
  | join hjobs hactive => exact h.setJobs rfl (hrest hjobs)
  | @pop system hactive hpopping hsystem =>
    constructor
    · intro other i sent hsent
      have hlt := h.won_of_step hroles hlength hbound hsystem other i sent hsent
      rwa [wonAfter_of_none sends_call] at hlt
    · exact fun other first hfirst ↦
        (h.first other first hfirst).trans (dequeuePos_le_of_step htaken hsystem)
  | process hpopping hpoint => exact ⟨h.won, h.first⟩

end Waits

section Run

variable {initial : ℕ → AsyncMsg} (hcreate : Queue.create queueSize initial = some queue)
  (hrun : Run step (Bounded queueSize) (start θ config overflowPolicy queue) history helper)

include hcreate hrun

theorem waits_of_run : Waits history helper := by
  induction hrun with
  | start => exact ⟨fun _ _ _ hsent ↦ absurd hsent (by simp [queueHistory, sentLog]),
      fun _ _ hfirst ↦ absurd hfirst List.not_mem_nil⟩
  | @next history helper after input hrun hallowed hstep ih =>
    have hintact := intact_of_run hcreate hrun
    obtain ⟨ring, hrep, -⟩ := exists_ring hcreate (run_queue hrun)
    have hlength : (sentLog (queueHistory history)).length =
        helper.system.queue.enqueuePos.current.toNat := by
      rw [← hintact.length_sent, ← map_sentLog, List.length_map]
    have hle := hintact.dequeue_le
    have hsize := (create_eq_some hcreate).1
    rw [Bounded] at hallowed
    refine ih.step (roles_of_run hrun) hlength (by omega) (by omega) (fun pos hpos ↦ ?_)
      (steps_of_step _ hstep)
    rw [hrep.counts.dequeuePos]
    exact hrep.counts.dequeue_le pos hpos

theorem maxSize_ne_zero : helper.system.queue.maxSize ≠ 0 := by
  have hmax : helper.system.queue.maxSize = queue.maxSize := by
    apply (run_queue hrun).invariant fun system ↦ system.queue.maxSize = queue.maxSize
    · rfl
    · exact fun _ _ _ h _ hstep ↦ (maxSize_of_step hstep).trans h
  obtain ⟨hsize, -, rfl⟩ := create_eq_some hcreate
  rw [hmax]
  rintro rfl
  exact absurd hsize (by decide)

end Run

/-- When a flush returns, the worker has taken out all messages that the thread has sent, so all of
them are handled but for the one that was taken out last. -/
theorem handled_of_flush {initial : ℕ → AsyncMsg} {created : AsyncLogHelper θ}
    (hcreate : create θ config queueSize initial overflowPolicy = some created)
    (hrun : Run step (Bounded queueSize) created history helper)
    {first seen : Word} {rest : List Job} (hjobs : helper.jobs thread = .loadLast first :: rest)
    (hstep : helper.step (.loadLast thread seen) = some after)
    (hreturned : after.jobs thread = rest) {i : ℕ} {msg : AsyncMsg}
    (hsent : (sentLog (queueHistory history))[i]? = some (some thread, msg)) :
    i < helper.system.queue.dequeuePos.current.toNat ∧ i ≤ (handled history).length := by
  obtain ⟨queue, hqueue, rfl⟩ := Option.map_eq_some_iff.mp hcreate
  have hwaits := waits_of_run hqueue hrun
  have hwon := hwaits.won thread i msg hsent
  have hfirst := hwaits.first thread first (by rw [hjobs]; exact List.mem_cons_self)
  have hle := (handled_of_run hqueue hrun).2
  cases steps_of_step _ hstep with
  | @wait _ _ _ rest' hjobs' =>
    rw [jobs_setJobs_self] at hreturned
    have hlength := congrArg List.length (hjobs.symm.trans hjobs')
    rw [← hreturned] at hlength
    simp at hlength
  | @waited _ first' _ rest' hjobs' hseen hsize =>
    obtain ⟨hfirst', -⟩ := List.cons.inj (hjobs.symm.trans hjobs')
    rw [← Job.loadLast.inj hfirst'] at hsize
    have hlast := le_of_approxSize (maxSize_ne_zero hqueue hrun) hsize
    have hdequeued : i < helper.system.queue.dequeuePos.current.toNat := by omega
    exact ⟨hdequeued, by omega⟩

/-- A flush that returns before the worker has come to its message, and before any sink is
flushed. -/
theorem flush_returns_early : ∃ created history helper after,
    create Bool plainConfig 2 (fun _ ↦ .ofType .log) .blockRetry = some created ∧
      Run step (Bounded 2) created history helper ∧
      helper.jobs true = [.loadLast 2] ∧ helper.step (.loadLast true 2) = some after ∧
      after.jobs true = [] ∧ .flush 0 ∉ after.worker.events ∧ (handled history).length = 1 ∧
      (sentLog (queueHistory history))[1]? = some (some true, .ofType .flush) ∧
      1 < helper.system.queue.dequeuePos.current.toNat ∧ 1 ≤ (handled history).length := by
  obtain ⟨history, helper, hrun, hjobs, hlength, hsent, after, hstep, hreturned, hflush⟩ :=
    exists_run_of_follow Bool plainConfig .blockRetry twoCells 2
      ([.request true (.log plainMsg)] ++ pushInputs true ⟨0, 0⟩ ++ [.request true .flush] ++
        pushInputs true ⟨1, 0⟩ ++ popInputs 0 ⟨1, 1⟩ ++ [.pop, .move none (.load 1),
          .move none (.loadSequence ⟨2, 1⟩), .move none .exchange, .loadFirst true 2])
      (fun history helper ↦ helper.jobs true = [.loadLast 2] ∧ (handled history).length = 1 ∧
        (sentLog (queueHistory history))[1]? = some (some true, .ofType .flush) ∧
        ∃ after ∈ helper.step (.loadLast true 2), after.jobs true = [] ∧
          .flush 0 ∉ after.worker.events)
      (by decide +kernel)
  exact ⟨_, history, helper, after, rfl, hrun, hjobs, hstep, hreturned, hflush, hlength,
    hsent, handled_of_flush rfl hrun hjobs hstep hreturned hsent⟩

end AsyncLogHelper

/-! ## A logger without a worker -/

def Event.isLog : Event → Bool
  | .log _ _ _ => true
  | _ => false

theorem callSinks_none (event : ℕ → Event) (sinks : List ℕ) :
    callSinks none event sinks = (sinks.map event, true) := by
  induction sinks with
  | nil => rfl
  | cons sink sinks ih => simp [callSinks, ih]

namespace Config

variable {config : Config}

/-- The calls of `log` for a message, if nothing throws. -/
def logCalls (config : Config) (msg : LogMsg) : List Event :=
  (config.logToSinks none msg).1

variable (hformatter : ∀ msg, (config.formatter msg).isSome)

theorem flushSinks_none : config.flushSinks none = (config.flushes, true) := callSinks_none _ _

theorem filter_flushes : config.flushes.filter Event.isLog = [] := by
  simp [flushes, Event.isLog]

include hformatter

theorem logToSinks_none (msg : LogMsg) :
    config.logToSinks none msg = (config.logCalls msg, true) ∧
      (config.logCalls msg).filter Event.isLog = config.logCalls msg := by
  obtain ⟨formatted, hformatted⟩ := Option.isSome_iff_exists.mp (hformatter msg)
  have hcalls : config.logToSinks none msg =
      ((config.accepting msg.level).map (.log · msg formatted), true) := by
    rw [logToSinks, hformatted]
    exact callSinks_none _ _
  rw [logCalls, hcalls]
  exact ⟨rfl, by simp [Event.isLog]⟩

/-- What a logger without a worker logs to its sinks. -/
theorem filter_log (msg : LogMsg) :
    (config.log none none msg).filter Event.isLog =
      if config.level.shouldLog msg.level then config.logCalls msg else [] := by
  obtain ⟨hcalls, hfilter⟩ := logToSinks_none hformatter msg
  rw [Config.log, sinkIt, hcalls, flushSinks_none]
  by_cases hlevel : config.level.shouldLog msg.level
  · cases config.shouldFlushOn msg <;> simp [hlevel, hfilter, filter_flushes]
  · simp [hlevel]

end Config

/-- What a call does to the sinks of a logger without a worker. -/
def Request.plainEvents (config : Config) : Request → List Event
  | .log msg => config.log none none msg
  | .flush => (config.flushSinks none).1
  | .destroy => []

/-- The calls of `log` for a message that the worker handles. -/
def AsyncMsg.logCalls (config : Config) (msg : AsyncMsg) : List Event :=
  if msg.msgType = .log then config.logCalls msg.fillLogMsg else []

/-- The messages of a call stand for the same calls of `log`. -/
theorem Request.flatMap_messages {config : Config}
    (hformatter : ∀ msg, (config.formatter msg).isSome) (request : Request) :
    (request.messages config).flatMap (AsyncMsg.logCalls config) =
      (request.plainEvents config).filter Event.isLog := by
  cases request with
  | log msg =>
    rw [plainEvents, Config.filter_log hformatter, messages, jobs]
    by_cases hlevel : config.level.shouldLog msg.level
    · cases config.shouldFlushOn msg <;>
        simp [hlevel, Job.message, AsyncMsg.logCalls, AsyncMsg.ofLogMsg, AsyncMsg.ofType,
          AsyncMsg.fillLogMsg]
    · simp [hlevel]
  | flush =>
    rw [plainEvents, Config.flushSinks_none, Config.filter_flushes]
    simp [messages, jobs, Job.message, AsyncMsg.logCalls, AsyncMsg.ofType]
  | destroy => simp [plainEvents, messages, jobs, Job.message, AsyncMsg.logCalls, AsyncMsg.ofType]

/-- The calls of `log` in a step of the worker. -/
theorem Worker.filter_events {config : Config} (hformatter : ∀ msg, (config.formatter msg).isSome)
    (worker : Worker) (incoming : Option AsyncMsg) (elapsed : Bool) :
    (worker.processNextMsg config incoming elapsed none).events.filter Event.isLog =
      worker.events.filter Event.isLog ++
        incoming.toList.flatMap (AsyncMsg.logCalls config) := by
  cases incoming with
  | none =>
    rw [processNextMsg_none]
    split_ifs <;> simp [Config.filter_flushes, Config.flushSinks_none] at *
  | some msg =>
    cases htype : msg.msgType with
    | flush => simp [processNextMsg_flush htype, AsyncMsg.logCalls, htype]
    | terminate => simp [processNextMsg_terminate htype, AsyncMsg.logCalls, htype]
    | log =>
      obtain ⟨hcalls, hfilter⟩ := Config.logToSinks_none hformatter msg.fillLogMsg
      simp [processNextMsg_log htype, AsyncMsg.logCalls, htype, hcalls, hfilter]

namespace AsyncLogHelper

variable {θ : Type} [DecidableEq θ] {helper : AsyncLogHelper θ}
  {history : List (AsyncLogHelper θ × Input θ)} {thread other : θ}
  {config : Config} {overflowPolicy : AsyncOverflowPolicy} {queue : Queue AsyncMsg}
  {queueSize : Word}

/-- No sink throws in a step. -/
def isClean (entry : AsyncLogHelper θ × Input θ) : Bool :=
  match entry.2 with
  | .process _ (some _) => false
  | _ => true

section Run

variable
  (hrun : Run step (Bounded queueSize) (start θ config overflowPolicy queue) history helper)

include hrun

/-- The worker has called `log` for the messages that it has handled. -/
theorem filter_events_of_run (hformatter : ∀ msg, (config.formatter msg).isSome)
    (hclean : ∀ entry ∈ history, isClean entry = true) :
    helper.worker.events.filter Event.isLog =
      (handled history).flatMap (AsyncMsg.logCalls config) := by
  induction hrun with
  | start => rfl
  | @next history helper after input hrun hallowed hstep ih =>
    rw [List.forall_mem_cons] at hclean
    have hbefore := ih hclean.2
    rw [handled_cons, List.flatMap_append, ← hbefore]
    cases steps_of_step _ hstep with
    | @process elapsed thrown incoming hpopping hpoint =>
      obtain rfl : thrown = none := by
        cases thrown with
        | none => rfl
        | some sink => exact absurd hclean.1 Bool.false_ne_true
      rw [handles_process hpoint, ← (config_of_run hrun).1]
      exact Worker.filter_events ((config_of_run hrun).1 ▸ hformatter) _ _ _
    | _ => exact (List.append_nil _).symm

/-- If one thread uses the logger, it sends all messages. -/
theorem sent_eq_sentBy (honly : ∀ other ≠ thread, requests other history = []) :
    System.sent (queueHistory history) = sentBy (some thread) (queueHistory history) := by
  have hpushes := pushes_of_run hrun
  have hall : ∀ entry ∈ sentLog (queueHistory history),
      decide (entry.1 = some thread) = true := by
    rintro ⟨sender, msg⟩ hentry
    have hby := mem_sentBy hentry
    rw [decide_eq_true_iff]
    cases sender with
    | none =>
      rw [hpushes.worker] at hby
      exact absurd hby List.not_mem_nil
    | some other =>
      by_contra hne
      have hrequested := (hpushes.sublist other).subset (List.mem_append_left _ hby)
      rw [requested, honly other fun heq ↦ hne (congrArg some heq)] at hrequested
      exact absurd hrequested List.not_mem_nil
  rw [sentBy, List.filter_eq_self.mpr hall, map_sentLog]

end Run

/-- If one thread uses the logger and destroys it, the policy is to retry, and nothing throws, then
the sinks have got the same calls of `log` as from a logger without a worker. -/
theorem destroyed_logger_is_plain {initial : ℕ → AsyncMsg} {created : AsyncLogHelper θ}
    (hcreate : create θ config queueSize initial .blockRetry = some created)
    (hrun : Run step (Bounded queueSize) created history helper)
    (hformatter : ∀ msg, (config.formatter msg).isSome)
    (hclean : ∀ entry ∈ history, isClean entry = true)
    (honly : ∀ other ≠ thread, requests other history = []) {calls : List Request}
    (hcalls : requests thread history = calls ++ [.destroy]) (hfirst : .destroy ∉ calls)
    (hreturned : helper.jobs thread = []) :
    helper.worker.events.filter Event.isLog =
      (calls.flatMap (Request.plainEvents config)).filter Event.isLog := by
  obtain ⟨queue, hqueue, rfl⟩ := Option.map_eq_some_iff.mp hcreate
  have hdestroy : .destroy ∈ requests thread history := by simp [hcalls]
  have hactive := (join_of_run hrun hdestroy).resolve_left (by simp [hreturned])
  obtain ⟨msg, hmsg, htype⟩ := exists_terminate hrun hactive
  have hsent := sentBy_of_idle hrun rfl hreturned
  rw [requested, hcalls, List.flatMap_append, ← sent_eq_sentBy hrun honly] at hsent
  have hhandled := (handled_of_run hqueue hrun).1
  rw [hsent] at hhandled
  -- the worker has handled the message of the destructor, so it has handled all
  have hall : handled history =
      calls.flatMap (Request.messages config) ++ [.ofType .terminate] := by
    refine (List.prefix_concat_iff.mp hhandled).resolve_right fun hshort ↦ ?_
    obtain ⟨request, hrequest, hmem⟩ := List.mem_flatMap.mp (hshort.subset hmsg)
    exact Request.msgType_ne_terminate (ne_of_mem_of_not_mem hrequest hfirst) hmem htype
  rw [filter_events_of_run hrun hformatter hclean, hall, List.flatMap_append, List.flatMap_assoc,
    List.filter_flatMap, List.flatMap_congr fun request _ ↦
      Request.flatMap_messages hformatter request]
  exact List.append_nil _

theorem destroyed_logger_logs_message : ∃ created history helper,
    create Bool plainConfig 2 (fun _ ↦ .ofType .log) .blockRetry = some created ∧
      Run step (Bounded 2) created history helper ∧
      helper.worker.events.filter Event.isLog = [.log 0 plainMsg "text"] := by
  obtain ⟨history, helper, hrun, hclean, honly, hcalls, hreturned⟩ :=
    exists_run_of_follow Bool plainConfig .blockRetry twoCells 2
      ([.request true (.log plainMsg)] ++ pushInputs true ⟨0, 0⟩ ++ [.request true .destroy] ++
        pushInputs true ⟨1, 0⟩ ++ popInputs 0 ⟨1, 1⟩ ++ popInputs 1 ⟨2, 1⟩ ++
        emptyInputs 2 ⟨2, 2⟩ ++ [.join true])
      (fun history helper ↦ (∀ entry ∈ history, isClean entry = true) ∧
        (∀ other ≠ true, requests other history = []) ∧
        requests true history = [.log plainMsg] ++ [.destroy] ∧ helper.jobs true = [])
      (by decide +kernel)
  have hcreate : create Bool plainConfig 2 (fun _ ↦ .ofType .log) .blockRetry =
      some (start Bool plainConfig .blockRetry twoCells) := rfl
  exact ⟨_, history, helper, hcreate, hrun, destroyed_logger_is_plain hcreate hrun (fun _ ↦ rfl)
    hclean honly hcalls (by decide) hreturned⟩

end AsyncLogHelper

end Systemish.Spdlog
