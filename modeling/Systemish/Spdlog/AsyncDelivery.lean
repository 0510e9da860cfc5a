import Systemish.Spdlog.AsyncRuns

/-!
# What the asynchronous logger delivers

Each thread's messages get to the queue in the order of its calls. If the policy is to retry, all of
them do. The worker ends only after it has handled the message of the destructor, and then all
messages before it are handled and the sinks are flushed.
-/

namespace Systemish.Spdlog

open Foundation

/-! ## What the threads push -/

/-- What is pushed in a job. -/
def Job.message : Job → Option AsyncMsg
  | .push msg _ => some msg
  | .pushing msg _ => some msg
  | _ => none

/-- What a thread has still to send. -/
def unsent (point : Point AsyncMsg) : (jobs : List Job) → List AsyncMsg
  | .pushing msg _ :: rest => point.unsent msg ++ rest.filterMap Job.message
  | jobs => jobs.filterMap Job.message

theorem unsent_eq_filterMap {point : Point AsyncMsg} {jobs : List Job}
    (hjobs : ∀ job ∈ jobs, job.isPushing = false) :
    unsent point jobs = jobs.filterMap Job.message := by
  cases jobs with
  | nil => rfl
  | cons job rest =>
    have hjob := hjobs job List.mem_cons_self
    cases job with
    | pushing msg retrying => exact absurd hjob.symm Bool.false_ne_true
    | _ => rfl

/-- What a call is to push. -/
def Request.messages (config : Config) (request : Request) : List AsyncMsg :=
  (request.jobs config).filterMap Job.message

theorem Request.msgType_ne_terminate {request : Request} (hrequest : request ≠ .destroy)
    {config : Config} {msg : AsyncMsg} (hmsg : msg ∈ request.messages config) :
    msg.msgType ≠ .terminate := by
  cases request with
  | log logMsg =>
    rw [Request.messages, Request.jobs] at hmsg
    split_ifs at hmsg
    · obtain rfl | rfl : msg = .ofLogMsg logMsg ∨ msg = .ofType .flush := by
        simpa [Job.message] using hmsg
      all_goals simp [AsyncMsg.ofLogMsg, AsyncMsg.ofType]
    · obtain rfl : msg = .ofLogMsg logMsg := by simpa [Job.message] using hmsg
      simp [AsyncMsg.ofLogMsg]
    · exact absurd hmsg List.not_mem_nil
  | flush =>
    obtain rfl : msg = .ofType .flush := by
      simpa [Request.messages, Request.jobs, Job.message] using hmsg
    simp [AsyncMsg.ofType]
  | destroy => exact absurd rfl hrequest

/-! ## Calls of the sinks -/

theorem callSinks_fst {thrown : Option ℕ} {event : ℕ → Event} {sinks : List ℕ}
    (h : (callSinks thrown event sinks).2 = true) :
    (callSinks thrown event sinks).1 = sinks.map event := by
  induction sinks with
  | nil => rfl
  | cons sink sinks ih =>
    rw [callSinks] at h ⊢
    split_ifs at h ⊢ with hthrown
    exact congrArg (event sink :: ·) (ih h)

/-- A flush of all sinks. -/
def Config.flushes (config : Config) : List Event :=
  (List.range config.sinks.length).map .flush

/-- A flush that no sink disturbs. -/
theorem Config.flushSinks_fst {config : Config} {thrown : Option ℕ}
    (h : (config.flushSinks thrown).2 = true) : (config.flushSinks thrown).1 = config.flushes :=
  callSinks_fst h

namespace Worker

variable {worker : Worker} {config : Config} {msg : AsyncMsg} {elapsed : Bool} {thrown : Option ℕ}

theorem processNextMsg_flush (h : msg.msgType = .flush) :
    worker.processNextMsg config (some msg) elapsed thrown =
      { worker with flushRequested := true } := by
  simp [processNextMsg, h]

theorem processNextMsg_terminate (h : msg.msgType = .terminate) :
    worker.processNextMsg config (some msg) elapsed thrown =
      { worker with flushRequested := true, terminateRequested := true } := by
  simp [processNextMsg, h]

theorem processNextMsg_log (h : msg.msgType = .log) :
    worker.processNextMsg config (some msg) elapsed thrown =
      { worker with
        events := worker.events ++ (config.logToSinks thrown msg.fillLogMsg).1 ++
          if (config.logToSinks thrown msg.fillLogMsg).2 then [] else [.error] } := by
  simp [processNextMsg, h]

/-- What the worker does when it finds the queue empty. -/
theorem processNextMsg_none :
    worker.processNextMsg config none elapsed thrown =
      if worker.flushRequested || (config.periodic && elapsed) then
        if (config.flushSinks thrown).2 then
          { worker with
            events := worker.events ++ config.flushes
            flushRequested := false
            active := !worker.terminateRequested }
        else { worker with events := worker.events ++ (config.flushSinks thrown).1 ++ [.error] }
      else { worker with active := !worker.terminateRequested } := by
  rw [processNextMsg, handleFlushInterval]
  split_ifs with hflush hdone
  · simp [hdone, Config.flushSinks_fst hdone]
  · simp [hdone]
  · rfl

end Worker

namespace AsyncLogHelper

variable {θ : Type} [DecidableEq θ] {helper after : AsyncLogHelper θ} {input : Input θ}
  {history : List (AsyncLogHelper θ × Input θ)} {thread other : θ} {jobs : List Job}
  {config : Config} {overflowPolicy : AsyncOverflowPolicy} {queue : Queue AsyncMsg}
  {queueSize : Word}

/-- The call that a thread begins in a step. -/
def beginsBy (thread : θ) (entry : AsyncLogHelper θ × Input θ) : Option Request :=
  match entry.2 with
  | .request other request => if other = thread then some request else none
  | _ => none

/-- The calls of a thread, in order. -/
def requests (thread : θ) (history : List (AsyncLogHelper θ × Input θ)) : List Request :=
  history.reverse.filterMap (beginsBy thread)

/-- What the calls of a thread are to push. -/
def requested (config : Config) (thread : θ) (history : List (AsyncLogHelper θ × Input θ)) :
    List AsyncMsg := (requests thread history).flatMap (Request.messages config)

theorem requested_cons (entry : AsyncLogHelper θ × Input θ) :
    requested config thread (entry :: history) = requested config thread history ++
      (beginsBy thread entry).toList.flatMap (Request.messages config) := by
  rw [requested, requests, filterMap_reverse_cons, List.flatMap_append]
  rfl

/-- What a thread sends in a step. -/
def sentIn (thread : θ) (entry : AsyncLogHelper θ × Input θ) : List AsyncMsg :=
  match queueEntry entry with
  | some entry => if entry.2.1 = some thread then (System.sends entry).toList else []
  | none => []

theorem sentBy_queueHistory_cons (entry : AsyncLogHelper θ × Input θ) :
    sentBy (some thread) (queueHistory (entry :: history)) =
      sentBy (some thread) (queueHistory history) ++ sentIn thread entry := by
  rw [queueHistory_cons, sentIn]
  cases queueEntry entry with
  | none => exact (List.append_nil _).symm
  | some entry => exact sentBy_cons entry

/-- What a thread has still to send. -/
def unsentBy (helper : AsyncLogHelper θ) (thread : θ) : List AsyncMsg :=
  unsent (helper.system.point (some thread)) (helper.jobs thread)

/-- In a step, a thread sends from what it had to send and what its call adds. Only the policy to
discard lets go of anything. -/
def Balanced (helper : AsyncLogHelper θ) (input : Input θ) (after : AsyncLogHelper θ)
    (thread : θ) : Prop :=
  (sentIn thread (helper, input) ++ after.unsentBy thread).Sublist (helper.unsentBy thread ++
      (beginsBy thread (helper, input)).toList.flatMap (Request.messages helper.config)) ∧
    (helper.overflowPolicy = .blockRetry → sentIn thread (helper, input) ++ after.unsentBy thread =
      helper.unsentBy thread ++
        (beginsBy thread (helper, input)).toList.flatMap (Request.messages helper.config))

theorem Balanced.of_eq (h : sentIn thread (helper, input) ++ after.unsentBy thread =
    helper.unsentBy thread ++
      (beginsBy thread (helper, input)).toList.flatMap (Request.messages helper.config)) :
    Balanced helper input after thread :=
  ⟨h ▸ List.Sublist.refl _, fun _ ↦ h⟩

/-- A step in which a thread does nothing. -/
theorem Balanced.of_ne (hsent : sentIn thread (helper, input) = [])
    (hbegins : beginsBy thread (helper, input) = none)
    (hpoint : after.system.point (some thread) = helper.system.point (some thread))
    (hjobs : after.jobs thread = helper.jobs thread) : Balanced helper input after thread := by
  apply Balanced.of_eq
  rw [hsent, hbegins, unsentBy, unsentBy, hpoint, hjobs]
  simp

theorem sentIn_eq_nil (h : queueEntry (helper, input) = none) :
    sentIn thread (helper, input) = [] := by
  rw [sentIn, h]

/-- A step in which a thread goes to other jobs with the same messages. -/
theorem Balanced.of_setJobs (hentry : queueEntry (helper, input) = none)
    (hbegins : beginsBy thread (helper, input) = none)
    (hunsent : unsent (helper.system.point (some other)) jobs =
      unsent (helper.system.point (some other)) (helper.jobs other)) :
    Balanced helper input (helper.setJobs other jobs) thread := by
  rcases eq_or_ne thread other with rfl | hne
  · apply Balanced.of_eq
    rw [sentIn_eq_nil hentry, hbegins, unsentBy, jobs_setJobs_self]
    simpa [unsentBy] using hunsent
  · exact .of_ne (sentIn_eq_nil hentry) hbegins rfl (jobs_setJobs_of_ne hne)

omit [DecidableEq θ] in
theorem unsent_next (hroles : Roles helper) {job : Job} {rest : List Job}
    (hjobs : helper.jobs thread = job :: rest) (hjob : job.message = none)
    (hpushing : job.isPushing = false) :
    unsent (helper.system.point (some thread)) rest =
      unsent (helper.system.point (some thread)) (helper.jobs thread) := by
  have hrest := hroles.rest hjobs
  rw [hjobs, unsent_eq_filterMap hrest, unsent_eq_filterMap, List.filterMap_cons_none hjob]
  exact List.forall_mem_cons.mpr ⟨hpushing, hrest⟩

/-- A step of a thread in `enqueue`. -/
theorem Balanced.of_move (hroles : Roles helper) {system : System (Option θ) AsyncMsg}
    {actor : Option θ} {move : Move AsyncMsg} {won : θ → Word} (hcall : move.isCall = false)
    (hsystem : helper.system.step (actor, move) = some system) :
    Balanced helper (.move actor move) ((helper.setSystem system).setWon won) thread := by
  rcases eq_or_ne (some thread) actor with rfl | hne
  · obtain ⟨op, hop⟩ := exists_call hcall hsystem
    obtain ⟨msg, retrying, rest, hjobs, rfl⟩ := hroles.producer thread op hop
    have hunsent := unsent_eq hsystem hop
    apply Balanced.of_eq
    have hsent : sentIn thread (helper, .move (some thread) move) =
        (System.sends (helper.system, some thread, move)).toList := if_pos rfl
    have hbefore : helper.unsentBy thread = (helper.system.point (some thread)).unsent msg ++
        rest.filterMap Job.message := by rw [unsentBy, hjobs]; rfl
    have hafter : ((helper.setSystem system).setWon won).unsentBy thread =
        (system.point (some thread)).unsent msg ++ rest.filterMap Job.message := by
      change unsent _ (helper.jobs thread) = _
      rw [hjobs]
      rfl
    rw [hsent, hbefore, hafter, hunsent]
    simp [beginsBy]
  · exact .of_ne (if_neg hne.symm) rfl (point_of_ne hsystem hne) rfl

theorem balanced_of_steps (hroles : Roles helper) (hsteps : helper.Steps input after) :
    Balanced helper input after thread := by
  cases hsteps with
  | @request actor request hjobs =>
    rcases eq_or_ne thread actor with rfl | hne
    · apply Balanced.of_eq
      have hbegins : beginsBy thread (helper, .request thread request) = some request := if_pos rfl
      rw [sentIn_eq_nil rfl, hbegins, unsentBy, unsentBy, hjobs, jobs_setJobs_self,
        unsent_eq_filterMap fun _ ↦ Request.isPushing_of_mem_jobs]
      simp [unsent, Request.messages]
    · exact .of_ne rfl (if_neg hne.symm) rfl (jobs_setJobs_of_ne hne)
  | @call actor msg retrying rest system hjobs hsystem =>
    have hentry := queueEntry_call hjobs
    obtain ⟨⟨last, hidle⟩, hpoint, -⟩ := point_of_call hsystem
    rcases eq_or_ne thread actor with rfl | hne
    · apply Balanced.of_eq
      have hsent : sentIn thread (helper, .call thread) = [] := by
        rw [sentIn, hentry]
        simp [System.sends, hidle]
      have hafter : ((helper.setSystem system).setJobs thread
          (.pushing msg retrying :: rest)).unsentBy thread =
            msg :: rest.filterMap Job.message := by
        rw [unsentBy, jobs_setJobs_self]
        change (system.point (some thread)).unsent msg ++ _ = _
        rw [hpoint]
        rfl
      rw [hsent, hafter, unsentBy, hjobs]
      simp [beginsBy, unsent, Job.message]
    · have hsent : sentIn thread (helper, .call actor) = [] := by
        rw [sentIn, hentry]
        simp [hne.symm]
      exact .of_ne hsent rfl (point_of_ne hsystem (by simpa using hne)) (jobs_setJobs_of_ne hne)
  | move hcall hsystem => exact .of_move hroles hcall hsystem
  | retry hjobs hpoint =>
    apply Balanced.of_setJobs rfl rfl
    rw [hjobs, hpoint]
    rfl
  | @drop actor msg retrying rest hjobs hpoint hpolicy =>
    rcases eq_or_ne thread actor with rfl | hne
    · refine ⟨?_, fun hretry ↦ absurd (hpolicy.symm.trans hretry) (by simp)⟩
      rw [sentIn_eq_nil rfl, unsentBy, unsentBy, jobs_setJobs_self, hjobs,
        unsent_eq_filterMap (hroles.rest hjobs)]
      exact (List.sublist_append_right _ _).trans (List.sublist_append_left _ _)
    · exact .of_ne rfl rfl rfl (jobs_setJobs_of_ne hne)
  | finish hjobs hpoint =>
    apply Balanced.of_setJobs rfl rfl
    rw [hjobs, hpoint, unsent_eq_filterMap (hroles.rest hjobs)]
    rfl
  | loadFirst hjobs hseen =>
    apply Balanced.of_setJobs rfl rfl
    rw [hjobs]
    rfl
  | wait hjobs =>
    apply Balanced.of_setJobs rfl rfl
    rw [hjobs]
    rfl
  | waited hjobs hseen hsize => exact .of_setJobs rfl rfl (unsent_next hroles hjobs rfl rfl)
  | join hjobs hactive => exact .of_setJobs rfl rfl (unsent_next hroles hjobs rfl rfl)
  | pop hactive hpopping hsystem => exact .of_ne rfl rfl (point_of_ne hsystem (by simp)) rfl
  | process hpopping hpoint => exact .of_ne rfl rfl rfl rfl

/-- What the threads have sent of what their calls were to push. -/
structure Pushes (config : Config) (history : List (AsyncLogHelper θ × Input θ))
    (helper : AsyncLogHelper θ) : Prop where
  sublist : ∀ thread, (sentBy (some thread) (queueHistory history) ++
    helper.unsentBy thread).Sublist (requested config thread history)
  all : helper.overflowPolicy = .blockRetry → ∀ thread,
    sentBy (some thread) (queueHistory history) ++ helper.unsentBy thread =
      requested config thread history
  worker : sentBy none (queueHistory history) = []

theorem Pushes.step (h : Pushes config history helper) (hconfig : helper.config = config)
    (hroles : Roles helper) (hsteps : helper.Steps input after)
    (hpolicy : after.overflowPolicy = helper.overflowPolicy) :
    Pushes config ((helper, input) :: history) after := by
  refine ⟨fun thread ↦ ?_, fun hretry thread ↦ ?_, ?_⟩
  · have hbalanced : Balanced helper input after thread := balanced_of_steps hroles hsteps
    rw [Balanced, hconfig] at hbalanced
    rw [sentBy_queueHistory_cons, requested_cons, List.append_assoc]
    refine (hbalanced.1.append_left _).trans ?_
    rw [← List.append_assoc]
    exact (h.sublist thread).append_right _
  · have hbalanced : Balanced helper input after thread := balanced_of_steps hroles hsteps
    rw [Balanced, hconfig] at hbalanced
    rw [sentBy_queueHistory_cons, requested_cons, List.append_assoc,
      hbalanced.2 (hpolicy ▸ hretry), ← List.append_assoc, h.all (hpolicy ▸ hretry)]
  · rw [queueHistory_cons]
    rcases system_step hsteps with ⟨hentry, -⟩ | ⟨actor, move, hentry, hsystem⟩
    · rw [hentry]
      exact h.worker
    · rw [hentry]
      change sentBy none ((helper.system, actor, move) :: queueHistory history) = []
      rw [sentBy_cons, h.worker]
      split_ifs with hactor
      · obtain rfl : actor = none := hactor
        have hsends := sends_eq_none hsystem fun data hcall ↦
          absurd (hroles.worker _ hcall).2 (by simp)
        rw [hsends]
        rfl
      · rfl

theorem config_eq (hsteps : helper.Steps input after) :
    after.config = helper.config ∧ after.overflowPolicy = helper.overflowPolicy := by
  cases hsteps <;> exact ⟨rfl, rfl⟩

section Run

variable
  (hrun : Run step (Bounded queueSize) (start θ config overflowPolicy queue) history helper)

include hrun

theorem config_of_run :
    helper.config = config ∧ helper.overflowPolicy = overflowPolicy := by
  apply hrun.invariant fun helper ↦
    helper.config = config ∧ helper.overflowPolicy = overflowPolicy
  · exact ⟨rfl, rfl⟩
  · intro helper input after h _ hstep
    have hsame := config_eq (steps_of_step _ hstep)
    exact ⟨hsame.1.trans h.1, hsame.2.trans h.2⟩

theorem pushes_of_run : Pushes config history helper := by
  induction hrun with
  | start => exact ⟨fun _ ↦ List.Sublist.refl _, fun _ _ ↦ rfl, rfl⟩
  | next hrun hallowed hstep ih =>
    have hsteps := steps_of_step _ hstep
    exact ih.step (config_of_run hrun).1 (roles_of_run hrun) hsteps (config_eq hsteps).2

/-- If the policy is to retry, a thread that is through with its calls has sent all. -/
theorem sentBy_of_idle (hpolicy : overflowPolicy = .blockRetry) (hidle : helper.jobs thread = []) :
    sentBy (some thread) (queueHistory history) = requested config thread history := by
  have hunsent : helper.unsentBy thread = [] := by
    rw [unsentBy, hidle]
    rfl
  have hall := (pushes_of_run hrun).all ((config_of_run hrun).2.trans hpolicy) thread
  rwa [hunsent, List.append_nil] at hall

/-- Who sent what was asked to push it. -/
theorem exists_requested {msg : AsyncMsg}
    (hmsg : msg ∈ System.sent (queueHistory history)) :
    ∃ thread, msg ∈ requested config thread history := by
  have hpushes := pushes_of_run hrun
  rw [← map_sentLog] at hmsg
  obtain ⟨⟨sender, msg⟩, hentry, rfl⟩ := List.mem_map.mp hmsg
  have hby := mem_sentBy hentry
  cases sender with
  | none =>
    rw [hpushes.worker] at hby
    exact absurd hby List.not_mem_nil
  | some thread =>
    exact ⟨thread, (hpushes.sublist thread).subset (List.mem_append_left _ hby)⟩

end Run

/-! ## How the worker ends -/

/-- The worker ends after it was asked to, with a flush of all sinks. -/
structure Flags (config : Config) (history : List (AsyncLogHelper θ × Input θ)) (worker : Worker) :
    Prop where
  terminate : worker.terminateRequested = true →
    ∃ msg ∈ handled history, msg.msgType = .terminate
  flush : worker.terminateRequested = true → worker.active = true → worker.flushRequested = true
  exited : worker.active = false →
    worker.terminateRequested = true ∧ config.flushes <:+ worker.events

namespace Flags

omit [DecidableEq θ] in
/-- A message is handled. -/
theorem of_message {worker : Worker} {msg : AsyncMsg} {entry : AsyncLogHelper θ × Input θ}
    (h : Flags config history worker) (hactive : worker.active = true)
    (hhandles : handles entry = some msg) (elapsed : Bool) (thrown : Option ℕ) :
    Flags config (entry :: history)
      (worker.processNextMsg config (some msg) elapsed thrown) := by
  have hmem : msg ∈ handled (entry :: history) := by simp [handled_cons, hhandles]
  have hkeep (hold : worker.terminateRequested = true) :
      ∃ msg ∈ handled (entry :: history), msg.msgType = .terminate := by
    obtain ⟨old, hold, htype⟩ := h.terminate hold
    exact ⟨old, by rw [handled_cons]; exact List.mem_append_left _ hold, htype⟩
  have hexited {worker' : Worker} (hsame : worker'.active = worker.active)
      (hexited : worker'.active = false) :
      worker'.terminateRequested = true ∧ config.flushes <:+ worker'.events :=
    absurd (hactive.symm.trans (hsame.symm.trans hexited)) (by simp)
  cases htype : msg.msgType with
  | flush =>
    rw [Worker.processNextMsg_flush htype]
    exact ⟨hkeep, fun _ _ ↦ rfl, hexited rfl⟩
  | terminate =>
    rw [Worker.processNextMsg_terminate htype]
    exact ⟨fun _ ↦ ⟨msg, hmem, htype⟩, fun _ _ ↦ rfl, hexited rfl⟩
  | log =>
    rw [Worker.processNextMsg_log htype]
    exact ⟨hkeep, h.flush, hexited rfl⟩

omit [DecidableEq θ] in
/-- The queue is found empty. -/
theorem of_empty {worker : Worker} {elapsed : Bool} {thrown : Option ℕ}
    {entry : AsyncLogHelper θ × Input θ} (h : Flags config history worker)
    (hactive : worker.active = true) (hhandles : handles entry = none) :
    Flags config (entry :: history) (worker.processNextMsg config none elapsed thrown) := by
  have hterminate := h.terminate
  rw [← handled_cons_none hhandles] at hterminate
  have hrequested (hexited : (!worker.terminateRequested) = false) :
      worker.terminateRequested = true := by simpa using hexited
  rw [Worker.processNextMsg_none]
  split_ifs with hflush hdone
  · refine ⟨hterminate, fun hold hactive ↦ ?_, fun hexited ↦ ⟨hrequested hexited, ?_⟩⟩
    · exact absurd hold (by simpa using hactive)
    · exact List.suffix_append _ _
  · exact ⟨hterminate, h.flush, fun hexited ↦ absurd (hactive.symm.trans hexited) (by simp)⟩
  · -- a request to end is a request to flush, so the worker does not end here
    have hnot (hold : worker.terminateRequested = true) : False :=
      hflush (by simp [h.flush hold hactive])
    exact ⟨hterminate, fun hold ↦ (hnot hold).elim,
      fun hexited ↦ (hnot (hrequested hexited)).elim⟩

omit [DecidableEq θ] in
/-- A step that leaves the worker as it is. -/
theorem stay {worker : Worker} {entry : AsyncLogHelper θ × Input θ}
    (h : Flags config history worker) (hhandles : handles entry = none) :
    Flags config (entry :: history) worker :=
  ⟨by rw [handled_cons_none hhandles]; exact h.terminate, h.flush, h.exited⟩

theorem step (h : Flags config history helper.worker) (hroles : Roles helper)
    (hconfig : helper.config = config) (hsteps : helper.Steps input after) :
    Flags config ((helper, input) :: history) after.worker := by
  cases hsteps with
  | @process elapsed thrown incoming hpopping hpoint =>
    have hactive := hroles.active hpopping
    subst hconfig
    cases incoming with
    | none => exact h.of_empty hactive (handles_process hpoint)
    | some msg => exact h.of_message hactive (handles_process hpoint) elapsed thrown
  | _ => exact h.stay rfl

end Flags

/-- A worker that has ended does nothing any more. -/
theorem active_of_steps (hroles : Roles helper) (hsteps : helper.Steps input after)
    (hactive : helper.worker.active = false) : after.worker.active = false := by
  cases hsteps with
  | process hpopping hpoint => exact absurd ((hroles.active hpopping).symm.trans hactive) (by simp)
  | _ => exact hactive

/-- A thread that has to join waits for the end of the worker. -/
theorem join_of_steps (hsteps : helper.Steps input after) (hjoin : .join ∈ helper.jobs thread) :
    .join ∈ after.jobs thread ∨ after.worker.active = false := by
  have hset {actor : θ} {jobs : List Job} (hjobs : .join ∈ helper.jobs actor → .join ∈ jobs) :
      .join ∈ (helper.setJobs actor jobs).jobs thread := by
    rcases eq_or_ne thread actor with rfl | hne
    · rw [jobs_setJobs_self]
      exact hjobs hjoin
    · rwa [jobs_setJobs_of_ne hne]
  cases hsteps with
  | request hjobs => exact .inl (hset fun h ↦ absurd (hjobs ▸ h) List.not_mem_nil)
  | call hjobs hsystem => exact .inl (hset fun h ↦ by simpa [hjobs] using h)
  | retry hjobs hpoint => exact .inl (hset fun h ↦ by simpa [hjobs] using h)
  | drop hjobs hpoint hpolicy => exact .inl (hset fun h ↦ by simpa [hjobs] using h)
  | finish hjobs hpoint => exact .inl (hset fun h ↦ by simpa [hjobs] using h)
  | loadFirst hjobs hseen => exact .inl (hset fun h ↦ by simpa [hjobs] using h)
  | wait hjobs => exact .inl (hset fun h ↦ by simpa [hjobs] using h)
  | waited hjobs hseen hsize => exact .inl (hset fun h ↦ by simpa [hjobs] using h)
  | join hjobs hactive => exact .inr hactive
  | _ => exact .inl hjoin

section Run

variable
  (hrun : Run step (Bounded queueSize) (start θ config overflowPolicy queue) history helper)

include hrun

theorem flags_of_run : Flags config history helper.worker := by
  induction hrun with
  | start =>
    exact ⟨fun h ↦ absurd h Bool.false_ne_true, fun h ↦ absurd h Bool.false_ne_true,
      fun h ↦ absurd h.symm Bool.false_ne_true⟩
  | next hrun hallowed hstep ih =>
    exact ih.step (roles_of_run hrun) (config_of_run hrun).1 (steps_of_step _ hstep)

/-- A destructor waits for the end of the worker. -/
theorem join_of_run (hdestroy : .destroy ∈ requests thread history) :
    .join ∈ helper.jobs thread ∨ helper.worker.active = false := by
  induction hrun with
  | start => exact absurd hdestroy List.not_mem_nil
  | @next history helper after input hrun hallowed hstep ih =>
    have hsteps := steps_of_step _ hstep
    rw [requests, filterMap_reverse_cons, List.mem_append] at hdestroy
    rcases hdestroy with hold | hnew
    · rcases ih hold with hjoin | hactive
      · exact join_of_steps hsteps hjoin
      · exact .inr (active_of_steps (roles_of_run hrun) hsteps hactive)
    · left
      have hbegins := Option.mem_toList.mp hnew
      cases hsteps with
      | @request actor request hjobs =>
        obtain ⟨rfl, rfl⟩ : actor = thread ∧ request = .destroy := by
          simpa [beginsBy] using hbegins
        rw [jobs_setJobs_self]
        exact List.mem_cons_of_mem _ List.mem_cons_self
      | _ => exact absurd hbegins (Option.not_mem_none _)

omit hrun [DecidableEq θ] in
theorem sent_prefix (later earlier : List (AsyncLogHelper θ × Input θ)) :
    System.sent (queueHistory earlier) <+: System.sent (queueHistory (later ++ earlier)) := by
  rw [queueHistory, queueHistory, System.sent, System.sent, List.filterMap_append,
    List.reverse_append, List.filterMap_append]
  exact List.prefix_append _ _

/-- Without a call of the destructor, nothing asks the worker to end. -/
theorem ne_terminate_of_sent (hfirst : ∀ thread, .destroy ∉ requests thread history)
    {msg : AsyncMsg} (hmsg : msg ∈ System.sent (queueHistory history)) :
    msg.msgType ≠ .terminate := by
  obtain ⟨thread, hrequested⟩ := exists_requested hrun hmsg
  obtain ⟨request, hrequest, hmsg⟩ := List.mem_flatMap.mp hrequested
  apply Request.msgType_ne_terminate _ hmsg
  rintro rfl
  exact hfirst thread hrequest

/-- Where the worker has ended, it has handled a message that asked it to. -/
theorem exists_terminate (hactive : helper.worker.active = false) :
    ∃ msg ∈ handled history, msg.msgType = .terminate :=
  (flags_of_run hrun).terminate ((flags_of_run hrun).exited hactive).1

end Run

/-! ## Results -/

/-- The messages of a thread are sent in the order of its calls, and the worker handles all messages
in the order in which they are sent, with at most one that is taken out and not yet handled. If the
policy is to retry, a thread that is through with its calls has sent all its messages. -/
theorem messages_in_order {initial : ℕ → AsyncMsg} {created : AsyncLogHelper θ}
    (hcreate : create θ config queueSize initial overflowPolicy = some created)
    (hrun : Run step (Bounded queueSize) created history helper) :
    handled history <+: System.sent (queueHistory history) ∧
      helper.system.queue.dequeuePos.current.toNat ≤ (handled history).length + 1 ∧
      (∀ thread, (sentBy (some thread) (queueHistory history)).Sublist
        (requested config thread history)) ∧
      (overflowPolicy = .blockRetry → ∀ thread, helper.jobs thread = [] →
        sentBy (some thread) (queueHistory history) = requested config thread history) := by
  obtain ⟨queue, hqueue, rfl⟩ := Option.map_eq_some_iff.mp hcreate
  have hpushes := pushes_of_run hrun
  obtain ⟨hhandled, hle⟩ := handled_of_run hqueue hrun
  refine ⟨hhandled, hle, fun thread ↦ ?_, fun hpolicy thread ↦ sentBy_of_idle hrun hpolicy⟩
  exact (List.sublist_append_left _ _).trans (hpushes.sublist thread)

theorem exists_run_of_follow (θ : Type) [DecidableEq θ] (config : Config)
    (overflowPolicy : AsyncOverflowPolicy) (queue : Queue AsyncMsg) (queueSize : Word)
    (inputs : List (Input θ))
    (goal : List (AsyncLogHelper θ × Input θ) → AsyncLogHelper θ → Prop)
    (h : ∃ result ∈ follow step [] (start θ config overflowPolicy queue) inputs,
      (∀ entry ∈ result.1, Bounded queueSize entry.1 entry.2) ∧ goal result.1 result.2) :
    ∃ history helper,
      Run step (Bounded queueSize) (start θ config overflowPolicy queue) history helper ∧
        goal history helper :=
  Run.exists_of_follow inputs goal h

/-- One sink, and a formatter that adds nothing. -/
def plainConfig : Config := ⟨.info, .off, [.trace], fun msg ↦ some msg.raw, false⟩

def plainMsg : LogMsg := ⟨"logger", .warn, 0, 0, "text"⟩

def twoCells : Queue AsyncMsg :=
  ⟨2, fun i ↦ ⟨⟨⟨BitVec.ofNat 64 i, 0⟩, []⟩, .ofType .log, 0⟩, 1, ⟨0, []⟩, ⟨0, []⟩⟩

/-- `push_msg` without other threads. -/
def pushInputs (thread : Bool) (seen : Stamped) : List (Input Bool) :=
  [.call thread, .move (some thread) (.load seen.value), .move (some thread) (.loadSequence seen),
    .move (some thread) .exchange, .move (some thread) (.access (.ofType .log)),
    .move (some thread) .store, .finish thread]

/-- `process_next_msg` with a message. -/
def popInputs (pos : Word) (seen : Stamped) : List (Input Bool) :=
  [.pop, .move none (.load pos), .move none (.loadSequence seen), .move none .exchange,
    .move none (.access (.ofType .log)), .move none .store, .process false none]

/-- `process_next_msg` without a message. -/
def emptyInputs (pos : Word) (seen : Stamped) : List (Input Bool) :=
  [.pop, .move none (.load pos), .move none (.loadSequence seen), .process false none]

theorem messages_in_order_of_two_threads : ∃ created history helper,
    create Bool plainConfig 2 (fun _ ↦ .ofType .log) .blockRetry = some created ∧
      Run step (Bounded 2) created history helper ∧
      handled history = [.ofLogMsg plainMsg] ∧
      handled history <+: System.sent (queueHistory history) ∧
      sentBy (some true) (queueHistory history) =
        requested plainConfig true history := by
  obtain ⟨history, helper, hrun, hidle, hhandled⟩ :=
    exists_run_of_follow Bool plainConfig .blockRetry twoCells 2
      ([.request false (.log plainMsg), .request true (.log plainMsg)] ++ pushInputs false ⟨0, 0⟩ ++
        pushInputs true ⟨1, 0⟩ ++ popInputs 0 ⟨1, 1⟩)
      (fun history helper ↦ helper.jobs true = [] ∧ handled history = [.ofLogMsg plainMsg])
      (by decide +kernel)
  have h := messages_in_order rfl hrun
  exact ⟨_, history, helper, rfl, hrun, hhandled, h.1, h.2.2.2 rfl true hidle⟩

/-- A destructor does not return as long as no message that asks the worker to end has got a
position in the queue. -/
theorem join_waits_of_not_sent {initial : ℕ → AsyncMsg} {created : AsyncLogHelper θ}
    (hcreate : create θ config queueSize initial overflowPolicy = some created)
    (hrun : Run step (Bounded queueSize) created history helper)
    (hnone : ∀ msg ∈ System.sent (queueHistory history), msg.msgType ≠ .terminate)
    (hdestroy : .destroy ∈ requests thread history) :
    .join ∈ helper.jobs thread ∧ helper.worker.active = true := by
  obtain ⟨queue, hqueue, rfl⟩ := Option.map_eq_some_iff.mp hcreate
  have hactive : helper.worker.active = true := by
    by_contra hnot
    obtain ⟨msg, hmsg, htype⟩ := exists_terminate hrun (by simpa using hnot)
    exact hnone msg ((handled_of_run hqueue hrun).1.subset hmsg) htype
  refine ⟨(join_of_run hrun hdestroy).resolve_right ?_, hactive⟩
  simp [hactive]

/-- If the policy is to discard and the queue is full, the message of the destructor is dropped.
Then it waits for a worker that has nothing to do. -/
theorem join_waits_of_full_queue : ∃ created history helper,
    create Bool plainConfig 2 (fun _ ↦ .ofType .log) .discardLogMsg = some created ∧
      Run step (Bounded 2) created history helper ∧
      helper.jobs true = [.join] ∧ helper.jobs false = [] ∧
      handled history = System.sent (queueHistory history) ∧
      .join ∈ helper.jobs true ∧ helper.worker.active = true := by
  obtain ⟨history, helper, hrun, hjoin, hidle, hhandled, hnone, hdestroy⟩ :=
    exists_run_of_follow Bool plainConfig .discardLogMsg twoCells 2
      ([.request false (.log plainMsg)] ++ pushInputs false ⟨0, 0⟩ ++
        [.request false (.log plainMsg)] ++ pushInputs false ⟨1, 0⟩ ++
        [.request true .destroy, .call true, .move (some true) (.load 2),
          .move (some true) (.loadSequence ⟨1, 1⟩), .finish true] ++
        popInputs 0 ⟨1, 1⟩ ++ popInputs 1 ⟨2, 1⟩ ++ emptyInputs 2 ⟨2, 2⟩)
      (fun history helper ↦ helper.jobs true = [.join] ∧ helper.jobs false = [] ∧
        handled history = System.sent (queueHistory history) ∧
        (∀ msg ∈ System.sent (queueHistory history), msg.msgType ≠ .terminate) ∧
        .destroy ∈ requests true history)
      (by decide +kernel)
  exact ⟨_, history, helper, rfl, hrun, hjoin, hidle, hhandled,
    join_waits_of_not_sent rfl hrun hnone hdestroy⟩

/-- When the destructor returns, the worker has handled all messages that were sent before the call,
and its last calls flush all sinks. If the policy is to retry, these are all messages that the
threads had to push, if they were through with their calls. -/
theorem destroy_delivers {initial : ℕ → AsyncMsg} {created : AsyncLogHelper θ}
    (hcreate : create θ config queueSize initial overflowPolicy = some created)
    (hrun : Run step (Bounded queueSize) created history helper)
    {later earlier : List (AsyncLogHelper θ × Input θ)} {before : AsyncLogHelper θ}
    (hhistory : history = later ++ (before, .request thread .destroy) :: earlier)
    (hfirst : ∀ other, .destroy ∉ requests other earlier)
    (hreturned : .join ∉ helper.jobs thread) :
    System.sent (queueHistory earlier) <+: handled history ∧
      config.flushes <:+ helper.worker.events ∧
      (overflowPolicy = .blockRetry → ∀ other, before.jobs other = [] →
        (requested config other earlier).Sublist (handled history)) := by
  obtain ⟨queue, hqueue, rfl⟩ := Option.map_eq_some_iff.mp hcreate
  subst hhistory
  have hbefore := hrun.before
  have hdestroy : .destroy ∈
      requests thread (later ++ (before, .request thread .destroy) :: earlier) :=
    List.mem_filterMap.mpr ⟨(before, .request thread .destroy), by simp, if_pos rfl⟩
  have hactive := (join_of_run hrun hdestroy).resolve_left hreturned
  obtain ⟨msg, hmsg, htype⟩ := exists_terminate hrun hactive
  have hhandled := (handled_of_run hqueue hrun).1
  have hsent := sent_prefix later ((before, .request thread .destroy) :: earlier)
  have hdelivered : System.sent (queueHistory earlier) <+:
      handled (later ++ (before, .request thread .destroy) :: earlier) := by
    refine (List.prefix_or_prefix_of_prefix hsent hhandled).resolve_right fun hshort ↦ ?_
    exact ne_terminate_of_sent hbefore hfirst (hshort.subset hmsg) htype
  refine ⟨hdelivered, ((flags_of_run hrun).exited hactive).2, fun hpolicy other hidle ↦ ?_⟩
  rw [← sentBy_of_idle hbefore hpolicy hidle]
  exact (sentBy_sublist _).trans hdelivered.sublist

theorem destroy_delivers_message : ∃ created history helper later before earlier,
    create Bool plainConfig 2 (fun _ ↦ .ofType .log) .blockRetry = some created ∧
      Run step (Bounded 2) created history helper ∧
      history = later ++ (before, .request true .destroy) :: earlier ∧
      requested plainConfig false earlier = [.ofLogMsg plainMsg] ∧
      (requested plainConfig false earlier).Sublist (handled history) := by
  obtain ⟨history, helper, hrun, hreturned, hsplit⟩ :=
    exists_run_of_follow Bool plainConfig .blockRetry twoCells 2
      ([.request false (.log plainMsg)] ++ pushInputs false ⟨0, 0⟩ ++ [.request true .destroy] ++
        pushInputs true ⟨1, 0⟩ ++ popInputs 0 ⟨1, 1⟩ ++ popInputs 1 ⟨2, 1⟩ ++
        emptyInputs 2 ⟨2, 2⟩ ++ [.join true])
      (fun history helper ↦ .join ∉ helper.jobs true ∧
        ∃ entry ∈ history[26]?, entry.2 = .request true .destroy ∧
          entry.1.jobs false = [] ∧
          requested plainConfig false (history.drop 27) = [.ofLogMsg plainMsg] ∧
          ∀ other, .destroy ∉ requests other (history.drop 27))
      (by decide +kernel)
  obtain ⟨⟨before, input⟩, hentry, hinput, hidle, hrequested, hfirst⟩ := hsplit
  obtain rfl : input = .request true .destroy := hinput
  have hhistory : history =
      history.take 26 ++ (before, .request true .destroy) :: history.drop 27 := by
    obtain ⟨hlt, hget⟩ := List.getElem?_eq_some_iff.mp hentry
    rw [← hget, ← List.drop_eq_getElem_cons hlt, List.take_append_drop]
  have h := destroy_delivers rfl hrun hhistory hfirst hreturned
  exact ⟨_, history, helper, _, before, _, rfl, hrun, hhistory, hrequested,
    h.2.2 rfl false hidle⟩

end AsyncLogHelper

end Systemish.Spdlog
