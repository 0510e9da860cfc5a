import Systemish.Spdlog.AsyncLogHelper

/-!
# Runs of the asynchronous logger

A run of the logger is a run of its queue in which one thread, the worker, takes out what the others
put in. So the worker gets the messages in the order of their positions, one after the other, and
each message that a thread pushes comes to a position once.
-/

namespace Systemish.Spdlog

open Foundation

/-! ## Threads that only put in, and one that takes out -/

section Calls

variable {θ T : Type} [DecidableEq θ] {system after : System θ T} {thread other consumer : θ}
  {move : Move T} {data : T} {history : List (System θ T × (θ × Move T))}

/-- The call that a thread is in. -/
def Point.call : Point T → Option (Operation T)
  | .load op => some op
  | .sequence op _ => some op
  | .exchange op _ _ => some op
  | .access op _ _ => some op
  | .publish op _ _ _ => some op
  | _ => none

/-- An `enqueue` has won a position. -/
def Point.settled : Point T → Bool
  | .access _ _ _ => true
  | .publish _ _ _ _ => true
  | .raced => true
  | .idle (some (.enqueued true)) => true
  | _ => false

/-- What an `enqueue` has still to send. -/
def Point.unsent (point : Point T) (data : T) : List T := if point.settled then [] else [data]

theorem point_of_ne (hstep : system.step (thread, move) = some after) (hne : other ≠ thread) :
    after.point other = system.point other := by
  obtain ⟨⟨queue', point'⟩, -, rfl⟩ := Option.map_eq_some_iff.mp hstep
  exact System.point_put_of_ne _ hne _ _

/-- A call begins outside of calls. -/
theorem point_of_call {op : Operation T} (hstep : system.step (thread, .call op) = some after) :
    (∃ last, system.point thread = .idle last) ∧ after.point thread = .load op ∧
      after.queue = system.queue := by
  obtain ⟨⟨queue', point'⟩, hqueue, rfl⟩ := Option.map_eq_some_iff.mp hstep
  rw [System.point_put_self, System.queue_put]
  generalize system.point thread = point at hqueue
  cases Queue.steps_of_step _ hqueue with
  | call last op => exact ⟨⟨last, rfl⟩, rfl, rfl⟩

/-- A thread stays in a call until the call ends. -/
theorem call_of_step (hcall : move.isCall = false)
    (hstep : system.step (thread, move) = some after) {op : Operation T}
    (hop : (after.point thread).call = some op) : (system.point thread).call = some op := by
  obtain ⟨⟨queue', point'⟩, hqueue, rfl⟩ := Option.map_eq_some_iff.mp hstep
  rw [System.point_put_self] at hop
  generalize system.point thread = point at hqueue
  cases Queue.steps_of_step _ hqueue with
  | call last op => exact absurd hcall (by simp [Move.isCall])
  | failed hseen hneg => exact absurd hop.symm (Option.some_ne_none _)
  | race haccesses => exact absurd hop.symm (Option.some_ne_none _)
  | publish => exact absurd hop.symm (Option.some_ne_none _)
  | _ => exact hop

/-- A step of a thread that does not take anything out. -/
theorem taken_eq_of_step (hstep : system.step (thread, move) = some after)
    (hcall : (system.point thread).call ≠ some .dequeue) :
    after.queue.dequeuePos = system.queue.dequeuePos ∧
      System.receives (system, thread, move) = none := by
  obtain ⟨⟨queue', point'⟩, hqueue, rfl⟩ := Option.map_eq_some_iff.mp hstep
  rw [System.queue_put]
  unfold System.receives
  dsimp only
  generalize system.point thread = point at hqueue hcall
  cases Queue.steps_of_step _ hqueue with
  | @claim op pos accesses hcurrent =>
    cases op with
    | enqueue data => exact ⟨rfl, rfl⟩
    | dequeue => exact absurd rfl hcall
  | @access op pos accesses left haccesses => cases op <;> exact ⟨rfl, rfl⟩
  | @publish op pos data accesses =>
    cases op with
    | enqueue data => exact ⟨rfl, rfl⟩
    | dequeue => exact absurd rfl hcall
  | _ => exact ⟨rfl, rfl⟩

/-- A step of a thread that does not put anything in. -/
theorem sends_eq_none (hstep : system.step (thread, move) = some after)
    (hcall : ∀ data, (system.point thread).call ≠ some (.enqueue data)) :
    System.sends (system, thread, move) = none := by
  obtain ⟨⟨queue', point'⟩, hqueue, rfl⟩ := Option.map_eq_some_iff.mp hstep
  unfold System.sends
  dsimp only
  generalize system.point thread = point at hqueue hcall
  cases Queue.steps_of_step _ hqueue with
  | @claim op pos accesses hcurrent =>
    cases op with
    | enqueue data => exact absurd rfl (hcall data)
    | dequeue => rfl
  | @retry op pos seen accesses hseen => cases op <;> rfl
  | _ => rfl

/-- An `enqueue` sends its data once, when it wins its position. -/
theorem unsent_eq (hstep : system.step (thread, move) = some after)
    (hcall : (system.point thread).call = some (.enqueue data)) :
    (system.point thread).unsent data =
      (System.sends (system, thread, move)).toList ++ (after.point thread).unsent data := by
  obtain ⟨⟨queue', point'⟩, hqueue, rfl⟩ := Option.map_eq_some_iff.mp hstep
  rw [System.point_put_self]
  unfold System.sends
  dsimp only
  generalize system.point thread = point at hqueue hcall
  cases Queue.steps_of_step _ hqueue with
  | call last op => exact absurd hcall.symm (Option.some_ne_none _)
  | _ =>
    obtain rfl := Option.some.inj hcall
    rfl

theorem exists_call (hcall : move.isCall = false)
    (hstep : system.step (thread, move) = some after) :
    ∃ op, (system.point thread).call = some op := by
  obtain ⟨⟨queue', point'⟩, hqueue, -⟩ := Option.map_eq_some_iff.mp hstep
  generalize system.point thread = point at hqueue
  cases Queue.steps_of_step _ hqueue with
  | call last op => exact absurd hcall (by simp [Move.isCall])
  | _ => exact ⟨_, rfl⟩

/-- What a `dequeue` has returned. -/
def Point.incoming : Point T → List T
  | .idle (some (.dequeued data)) => data.toList
  | _ => []

theorem Point.incoming_of_call {point : Point T} {op : Operation T} (h : point.call = some op) :
    point.incoming = [] := by
  cases point with
  | idle last => exact absurd h.symm (Option.some_ne_none _)
  | _ => rfl

theorem Point.length_incoming_le (point : Point T) : point.incoming.length ≤ 1 := by
  unfold Point.incoming
  split
  · next data => cases data <;> simp
  · exact Nat.zero_le _

theorem Point.incoming_of_ticket {point : Point T} {ticket : ℕ} (h : point.ticket = some ticket) :
    point.incoming = [] := by
  cases point with
  | idle last => exact absurd h.symm (Option.some_ne_none _)
  | _ => rfl

/-- What is received at the positions from the first on is the beginning of what was sent. -/
theorem snd_prefix_of_range {received : List (ℕ × T)} {sent : List T} {k : ℕ}
    (hfst : received.map Prod.fst = List.range k)
    (hdata : ∀ entry ∈ received, sent[entry.1]? = some entry.2) :
    received.map Prod.snd <+: sent := by
  rw [List.prefix_iff_getElem?]
  intro i hi
  have hlt : i < received.length := by simpa using hi
  have hat := hdata _ (List.getElem_mem hlt)
  have hindex : received[i].1 = i := by
    have heq : (received.map Prod.fst)[i]? = (List.range k)[i]? := by rw [hfst]
    have hk : k = received.length := by simpa using (congrArg List.length hfst).symm
    simpa [hk, hlt] using heq
  rw [hindex] at hat
  simpa using hat

/-- A `dequeue` returns what it receives. -/
theorem incoming_eq (hstep : system.step (thread, move) = some after)
    (hcall : (system.point thread).call = some .dequeue) :
    (after.point thread).incoming =
      (System.receives (system, thread, move)).toList.map Prod.snd := by
  obtain ⟨⟨queue', point'⟩, hqueue, rfl⟩ := Option.map_eq_some_iff.mp hstep
  rw [System.point_put_self]
  unfold System.receives
  dsimp only
  generalize system.point thread = point at hqueue hcall
  cases Queue.steps_of_step _ hqueue with
  | call last op => exact absurd hcall.symm (Option.some_ne_none _)
  | _ =>
    obtain rfl := Option.some.inj hcall
    rfl

/-- One thread takes out the positions one after the other. -/
structure Ordered (consumer : θ) (history : List (System θ T × (θ × Move T)))
    (system : System θ T) : Prop where
  free : (system.point consumer).ticket = none →
    (System.received history).map Prod.fst = List.range system.queue.dequeuePos.current.toNat
  held : ∀ ticket, (system.point consumer).ticket = some ticket →
    system.queue.dequeuePos.current.toNat = ticket + 1 ∧
      (System.received history).map Prod.fst = List.range ticket

omit [DecidableEq θ] in
theorem received_cons (entry : System θ T × (θ × Move T)) :
    System.received (entry :: history) =
      System.received history ++ (System.receives entry).toList := filterMap_reverse_cons ..

/-- A step of another thread. -/
theorem Ordered.of_other (h : Ordered consumer history system)
    (hstep : system.step (thread, move) = some after) (hne : thread ≠ consumer)
    (hcall : (system.point thread).call ≠ some .dequeue) :
    Ordered consumer ((system, thread, move) :: history) after := by
  obtain ⟨hpos, hreceives⟩ := taken_eq_of_step hstep hcall
  have hpoint := point_of_ne hstep hne.symm
  constructor
  · rw [hpoint, hpos, received_cons, hreceives, Option.toList_none, List.append_nil]
    exact h.free
  · rw [hpoint, hpos, received_cons, hreceives, Option.toList_none, List.append_nil]
    exact h.held

/-- A step of the thread that takes out. -/
theorem Ordered.of_consumer (h : Ordered consumer history system)
    (hbound : system.queue.dequeuePos.current.toNat + 1 < 2 ^ 64)
    (hstep : system.step (consumer, move) = some after)
    (hcall : ∀ data, (system.point consumer).call ≠ some (.enqueue data))
    (hraced : after.point consumer ≠ .raced) :
    Ordered consumer ((system, consumer, move) :: history) after := by
  obtain ⟨⟨queue', point'⟩, hqueue, rfl⟩ := Option.map_eq_some_iff.mp hstep
  rw [System.point_put_self] at hraced
  obtain ⟨hfree, hheld⟩ := h
  constructor
  all_goals
    rw [received_cons, System.point_put_self, System.queue_put]
    unfold System.receives
    dsimp only
    generalize system.point consumer = point at hqueue hcall hfree hheld
  · intro hnone
    cases Queue.steps_of_step _ hqueue with
    | claim hcurrent => exact absurd hnone (Option.some_ne_none _)
    | access haccesses => exact absurd hnone (Option.some_ne_none _)
    | race haccesses => exact absurd rfl hraced
    | @publish op pos data accesses =>
      cases op with
      | enqueue data => exact absurd rfl (hcall data)
      | dequeue =>
        obtain ⟨hpos, hreceived⟩ := hheld _ rfl
        change _ = List.range system.queue.dequeuePos.current.toNat
        rw [List.map_append, hreceived, hpos, List.range_succ]
        rfl
    | @retry op pos seen accesses hseen => cases op <;> simpa using hfree rfl
    | _ => simpa using hfree rfl
  · intro ticket hticket
    cases Queue.steps_of_step _ hqueue with
    | @claim op pos accesses hcurrent =>
      cases op with
      | enqueue data => exact absurd rfl (hcall data)
      | dequeue =>
        obtain rfl := Option.some.inj hticket
        have hcount : system.queue.dequeuePos.current = pos := hcurrent
        have hfree := hfree rfl
        rw [hcount] at hbound hfree
        exact ⟨toNat_add_one hbound, by simpa using hfree⟩
    | @access op pos accesses left haccesses =>
      cases op with
      | enqueue data => exact absurd rfl (hcall data)
      | dequeue =>
        change system.queue.dequeuePos.current.toNat = ticket + 1 ∧ _
        simpa using hheld ticket hticket
    | _ => exact absurd hticket.symm (Option.some_ne_none _)

/-- What was sent, with the threads that sent it. -/
def sentLog (history : List (System θ T × (θ × Move T))) : List (θ × T) :=
  history.reverse.filterMap fun entry ↦ (System.sends entry).map (entry.2.1, ·)

def sentBy (thread : θ) (history : List (System θ T × (θ × Move T))) : List T :=
  ((sentLog history).filter fun entry ↦ entry.1 = thread).map Prod.snd

omit [DecidableEq θ] in
theorem map_sentLog : (sentLog history).map Prod.snd = System.sent history := by
  rw [sentLog, System.sent, List.map_filterMap]
  congr 1
  funext entry
  rw [Option.map_map]
  exact Option.map_id'

theorem sentBy_sublist (thread : θ) : (sentBy thread history).Sublist (System.sent history) := by
  rw [← map_sentLog]
  exact List.filter_sublist.map _

omit [DecidableEq θ] in
theorem sentLog_cons (entry : System θ T × (θ × Move T)) :
    sentLog (entry :: history) =
      sentLog history ++ ((System.sends entry).map (entry.2.1, ·)).toList :=
  filterMap_reverse_cons ..

theorem mem_sentBy (hentry : (thread, data) ∈ sentLog history) : data ∈ sentBy thread history :=
  List.mem_map.mpr ⟨_, List.mem_filter.mpr ⟨hentry, decide_eq_true rfl⟩, rfl⟩

theorem sentBy_cons (entry : System θ T × (θ × Move T)) :
    sentBy thread (entry :: history) = sentBy thread history ++
      if entry.2.1 = thread then (System.sends entry).toList else [] := by
  rw [sentBy, sentLog_cons, List.filter_append, List.map_append]
  congr 1
  cases System.sends entry with
  | none => simp
  | some data => by_cases heq : entry.2.1 = thread <;> simp [heq]

end Calls

/-- In a call of `enqueue`. -/
def Job.isPushing : Job → Bool
  | .pushing _ _ => true
  | _ => false

theorem Request.mem_jobs {request : Request} {config : Config} {job : Job}
    (hjob : job ∈ request.jobs config) :
    (∃ msg, job = .push msg false) ∨ job = .loadFirst ∨ job = .join := by
  cases request with
  | log msg =>
    simp only [Request.jobs] at hjob
    split_ifs at hjob <;> simp at hjob
    · rcases hjob with rfl | rfl <;> exact .inl ⟨_, rfl⟩
    · exact .inl ⟨_, hjob⟩
  | flush =>
    rcases List.mem_cons.mp hjob with rfl | hjob
    · exact .inl ⟨_, rfl⟩
    · exact .inr (.inl (List.mem_singleton.mp hjob))
  | destroy =>
    rcases List.mem_cons.mp hjob with rfl | hjob
    · exact .inl ⟨_, rfl⟩
    · exact .inr (.inr (List.mem_singleton.mp hjob))

theorem Request.isPushing_of_mem_jobs {request : Request} {config : Config} {job : Job}
    (hjob : job ∈ request.jobs config) : job.isPushing = false := by
  rcases Request.mem_jobs hjob with ⟨msg, rfl⟩ | rfl | rfl <;> rfl

/-! ## The run of the queue -/

namespace AsyncLogHelper

variable {θ : Type} [DecidableEq θ] {helper after : AsyncLogHelper θ} {input : Input θ}
  {history : List (AsyncLogHelper θ × Input θ)} {thread other : θ} {jobs : List Job}

@[simp]
theorem jobs_setJobs_self : (helper.setJobs thread jobs).jobs thread = jobs :=
  Function.update_self ..

@[simp]
theorem system_setJobs : (helper.setJobs thread jobs).system = helper.system := rfl

theorem jobs_setJobs_of_ne (hne : other ≠ thread) :
    (helper.setJobs thread jobs).jobs other = helper.jobs other := Function.update_of_ne hne ..

/-- The step of the queue in a step. -/
def queueEntry (entry : AsyncLogHelper θ × Input θ) :
    Option (System (Option θ) AsyncMsg × (Option θ × Move AsyncMsg)) :=
  match entry.2 with
  | .call thread =>
    match entry.1.jobs thread with
    | .push msg _ :: _ => some (entry.1.system, (some thread, .call (.enqueue msg)))
    | _ => none
  | .move thread move => some (entry.1.system, (thread, move))
  | .pop => some (entry.1.system, (none, .call .dequeue))
  | _ => none

/-- The history of the queue in a history. -/
def queueHistory (history : List (AsyncLogHelper θ × Input θ)) :
    List (System (Option θ) AsyncMsg × (Option θ × Move AsyncMsg)) := history.filterMap queueEntry

omit [DecidableEq θ] in
theorem queueEntry_call {msg : AsyncMsg} {retrying : Bool} {rest : List Job}
    (hjobs : helper.jobs thread = .push msg retrying :: rest) :
    queueEntry (helper, .call thread) =
      some (helper.system, (some thread, .call (.enqueue msg))) := by
  simp [queueEntry, hjobs]

omit [DecidableEq θ] in
theorem queueHistory_cons (entry : AsyncLogHelper θ × Input θ) :
    queueHistory (entry :: history) = (queueEntry entry).toList ++ queueHistory history := by
  rw [queueHistory, List.filterMap_cons]
  cases queueEntry entry <;> rfl

/-- A step is a step of the queue, or it leaves the queue and its threads as they are. -/
theorem system_step (hsteps : helper.Steps input after) :
    queueEntry (helper, input) = none ∧ after.system = helper.system ∨
      ∃ thread move, queueEntry (helper, input) = some (helper.system, (thread, move)) ∧
        helper.system.step (thread, move) = some after.system := by
  cases hsteps with
  | call hjobs hsystem => exact .inr ⟨_, _, queueEntry_call hjobs, hsystem⟩
  | move hcall hsystem => exact .inr ⟨_, _, rfl, hsystem⟩
  | pop hactive hpopping hsystem => exact .inr ⟨_, _, rfl, hsystem⟩
  | _ => exact .inl ⟨rfl, rfl⟩

/-- Fewer positions than `2 ^ 63` are used. -/
def Bounded (queueSize : Word) (helper : AsyncLogHelper θ) (_ : Input θ) : Prop :=
  helper.system.queue.enqueuePos.current.toNat + queueSize.toNat < 2 ^ 63

instance (queueSize : Word) (helper : AsyncLogHelper θ) (input : Input θ) :
    Decidable (Bounded queueSize helper input) := inferInstanceAs (Decidable (_ < _))

variable {config : Config} {overflowPolicy : AsyncOverflowPolicy} {queue : Queue AsyncMsg}
  {queueSize : Word}

/-- A run of the logger is a run of its queue. -/
theorem run_queue
    (hrun : Run step (Bounded queueSize) (start θ config overflowPolicy queue) history helper) :
    Run System.step (Spdlog.Bounded queueSize) (.start (Option θ) queue) (queueHistory history)
      helper.system := by
  induction hrun with
  | start => exact .start
  | next hrun hallowed hstep ih =>
    rw [queueHistory_cons]
    rcases system_step (steps_of_step _ hstep) with ⟨hentry, hsame⟩ | ⟨thread, move, hentry, hmove⟩
    · rw [hentry, hsame]
      exact ih
    · rw [hentry]
      exact ih.next hallowed hmove

/-! ## Who calls what -/

/-- Only the worker takes out, and the others put in what they have to push. -/
structure Roles (helper : AsyncLogHelper θ) : Prop where
  producer : ∀ thread op, (helper.system.point (some thread)).call = some op →
    ∃ msg retrying rest, helper.jobs thread = .pushing msg retrying :: rest ∧ op = .enqueue msg
  tail : ∀ thread, ∀ job ∈ (helper.jobs thread).tail, job.isPushing = false
  worker : ∀ op, (helper.system.point none).call = some op → helper.popping = true ∧ op = .dequeue
  active : helper.popping = true → helper.worker.active = true

namespace Roles

theorem setJobs (h : Roles helper) (hcall : (helper.system.point (some thread)).call = none)
    (htail : ∀ job ∈ jobs.tail, job.isPushing = false) : Roles (helper.setJobs thread jobs) := by
  refine ⟨fun other op hop ↦ ?_, fun other ↦ ?_, h.worker, h.active⟩ <;>
    rcases eq_or_ne other thread with rfl | hne
  · exact absurd (hop.symm.trans hcall) (Option.some_ne_none _)
  · rw [jobs_setJobs_of_ne hne]
    exact h.producer other op hop
  · rwa [jobs_setJobs_self]
  · rw [jobs_setJobs_of_ne hne]
    exact h.tail other

omit [DecidableEq θ] in
theorem rest (h : Roles helper) {job : Job} {rest : List Job}
    (hjobs : helper.jobs thread = job :: rest) : ∀ other ∈ rest, other.isPushing = false := by
  have htail := h.tail thread
  rwa [hjobs] at htail

/-- A thread goes on with the jobs behind the first. -/
theorem next (h : Roles helper) (hcall : (helper.system.point (some thread)).call = none)
    {job : Job} {rest : List Job} (hjobs : helper.jobs thread = job :: rest) :
    Roles (helper.setJobs thread rest) :=
  h.setJobs hcall fun other hother ↦ h.rest hjobs other (List.mem_of_mem_tail hother)

omit [DecidableEq θ] in
theorem call_eq_none (h : Roles helper) {job : Job} {rest : List Job}
    (hjobs : helper.jobs thread = job :: rest) (hjob : job.isPushing = false) :
    (helper.system.point (some thread)).call = none := by
  rw [Option.eq_none_iff_forall_ne_some]
  intro op hop
  obtain ⟨msg, retrying, rest', hpushing, -⟩ := h.producer thread op hop
  rw [(List.cons.inj (hjobs.symm.trans hpushing)).1] at hjob
  exact absurd hjob.symm Bool.false_ne_true

theorem step (h : Roles helper) (hsteps : helper.Steps input after) : Roles after := by
  cases hsteps with
  | @request thread request hjobs =>
    apply h.setJobs
    · rw [Option.eq_none_iff_forall_ne_some]
      intro op hop
      obtain ⟨msg, retrying, rest, hpushing, -⟩ := h.producer thread op hop
      exact List.cons_ne_nil _ _ (hpushing.symm.trans hjobs)
    · exact fun job hjob ↦ Request.isPushing_of_mem_jobs (List.mem_of_mem_tail hjob)
  | @call thread msg retrying rest system hjobs hsystem =>
    have hpoint := (point_of_call hsystem).2.1
    refine ⟨fun other op hop ↦ ?_, fun other ↦ ?_, fun op hop ↦ ?_, h.active⟩
    · change (system.point (some other)).call = some op at hop
      rcases eq_or_ne other thread with rfl | hne
      · rw [hpoint] at hop
        exact ⟨msg, retrying, rest, jobs_setJobs_self, (Option.some.inj hop).symm⟩
      · rw [point_of_ne hsystem (by simpa using hne)] at hop
        rw [jobs_setJobs_of_ne hne]
        exact h.producer other op hop
    · rcases eq_or_ne other thread with rfl | hne
      · rw [jobs_setJobs_self]
        exact h.rest hjobs
      · rw [jobs_setJobs_of_ne hne]
        exact h.tail other
    · change (system.point none).call = some op at hop
      rw [point_of_ne hsystem (by simp)] at hop
      exact h.worker op hop
  | @move thread move system hcall hsystem =>
    have hkeep {other : Option θ} {op : Operation AsyncMsg}
        (hop : (system.point other).call = some op) :
        (helper.system.point other).call = some op := by
      rcases eq_or_ne other thread with rfl | hne
      · exact call_of_step hcall hsystem hop
      · rwa [point_of_ne hsystem hne] at hop
    exact ⟨fun other op hop ↦ h.producer other op (hkeep hop), h.tail,
      fun op hop ↦ h.worker op (hkeep hop), h.active⟩
  | retry hjobs hpoint => exact h.setJobs (congrArg Point.call hpoint) (h.rest hjobs)
  | drop hjobs hpoint hpolicy => exact h.next (congrArg Point.call hpoint) hjobs
  | finish hjobs hpoint => exact h.next (congrArg Point.call hpoint) hjobs
  | loadFirst hjobs hseen => exact h.setJobs (h.call_eq_none hjobs rfl) (h.rest hjobs)
  | wait hjobs => exact h.setJobs (h.call_eq_none hjobs rfl) (h.rest hjobs)
  | waited hjobs hseen hsize => exact h.next (h.call_eq_none hjobs rfl) hjobs
  | join hjobs hactive => exact h.next (h.call_eq_none hjobs rfl) hjobs
  | @pop system hactive hpopping hsystem =>
    refine ⟨fun other op hop ↦ ?_, h.tail, fun op hop ↦ ⟨rfl, ?_⟩, fun _ ↦ hactive⟩
    · change (system.point (some other)).call = some op at hop
      rw [point_of_ne hsystem (by simp)] at hop
      exact h.producer other op hop
    · change (system.point none).call = some op at hop
      rw [(point_of_call hsystem).2.1] at hop
      exact (Option.some.inj hop).symm
  | process hpopping hpoint =>
    refine ⟨h.producer, h.tail, fun op hop ↦ ?_, fun hpopping ↦ absurd hpopping Bool.false_ne_true⟩
    exact absurd (hop.symm.trans (congrArg Point.call hpoint)) (Option.some_ne_none _)

end Roles

theorem roles_of_run
    (hrun : Run step (Bounded queueSize) (start θ config overflowPolicy queue) history helper) :
    Roles helper := by
  apply hrun.invariant Roles
  · exact ⟨fun _ _ hop ↦ absurd hop.symm (Option.some_ne_none _),
      fun _ _ hjob ↦ absurd hjob List.not_mem_nil,
      fun _ hop ↦ absurd hop.symm (Option.some_ne_none _),
      fun hpopping ↦ absurd hpopping Bool.false_ne_true⟩
  · exact fun _ _ _ h _ hstep ↦ h.step (steps_of_step _ hstep)

/-! ## What the worker gets -/

/-- The message that `process_next_msg` handles in a step. -/
def handles (entry : AsyncLogHelper θ × Input θ) : Option AsyncMsg :=
  match entry.2, entry.1.system.point none with
  | .process _ _, .idle (some (.dequeued incoming)) => incoming
  | _, _ => none

/-- All messages that were handled, in order. -/
def handled (history : List (AsyncLogHelper θ × Input θ)) : List AsyncMsg :=
  history.reverse.filterMap handles

/-- The message that the worker has taken out and not handled. -/
def pending (helper : AsyncLogHelper θ) : List AsyncMsg :=
  if helper.popping then (helper.system.point none).incoming else []

omit [DecidableEq θ] in
theorem handles_process {incoming : Option AsyncMsg} {elapsed : Bool} {thrown : Option ℕ}
    (hpoint : helper.system.point none = .idle (some (.dequeued incoming))) :
    handles (helper, .process elapsed thrown) = incoming := by
  simp [handles, hpoint]

omit [DecidableEq θ] in
theorem handled_cons (entry : AsyncLogHelper θ × Input θ) :
    handled (entry :: history) = handled history ++ (handles entry).toList :=
  filterMap_reverse_cons ..

omit [DecidableEq θ] in
theorem handled_cons_none {entry : AsyncLogHelper θ × Input θ} (h : handles entry = none) :
    handled (entry :: history) = handled history := by
  rw [handled_cons, h]
  exact List.append_nil _

/-- The worker gets the positions in order, and handles what it gets. -/
structure Handles (history : List (AsyncLogHelper θ × Input θ)) (helper : AsyncLogHelper θ) :
    Prop where
  ordered : Ordered none (queueHistory history) helper.system
  received : (System.received (queueHistory history)).map Prod.snd =
    handled history ++ helper.pending

namespace Handles

omit [DecidableEq θ] in
/-- A step that leaves the queue and the worker as they are. -/
theorem stay (h : Handles history helper) (hentry : queueEntry (helper, input) = none)
    (hhandles : handles (helper, input) = none) (hsystem : after.system = helper.system)
    (hpopping : after.popping = helper.popping) :
    Handles ((helper, input) :: history) after := by
  have hpending : after.pending = helper.pending := by rw [pending, pending, hsystem, hpopping]
  constructor
  · rw [queueHistory_cons, hentry, hsystem]
    exact h.ordered
  · rw [queueHistory_cons, hentry, handled_cons_none hhandles, hpending]
    exact h.received

/-- A step of another thread in the queue. -/
theorem of_producer (h : Handles history helper) {move : Move AsyncMsg}
    (hentry : queueEntry (helper, input) = some (helper.system, (some thread, move)))
    (hhandles : handles (helper, input) = none)
    (hsystem : helper.system.step (some thread, move) = some after.system)
    (hpopping : after.popping = helper.popping)
    (hcall : (helper.system.point (some thread)).call ≠ some .dequeue) :
    Handles ((helper, input) :: history) after := by
  have hpending : after.pending = helper.pending := by
    rw [pending, pending, hpopping, point_of_ne hsystem (by simp)]
  have hordered := h.ordered.of_other hsystem (by simp) hcall
  constructor
  · rw [queueHistory_cons, hentry]
    exact hordered
  · rw [queueHistory_cons, hentry, handled_cons_none hhandles, hpending, ← h.received]
    change (System.received ((helper.system, some thread, move) :: queueHistory history)).map _ = _
    rw [received_cons, (taken_eq_of_step hsystem hcall).2, Option.toList_none, List.append_nil]

/-- A step of the worker in `dequeue`. -/
theorem of_worker {system : System (Option θ) AsyncMsg} {move : Move AsyncMsg} {won : θ → Word}
    (h : Handles history helper) (hroles : Roles helper)
    (hbound : helper.system.queue.dequeuePos.current.toNat + 1 < 2 ^ 64)
    (hraced : system.point none ≠ .raced) (hcall : move.isCall = false)
    (hsystem : helper.system.step (none, move) = some system) :
    Handles ((helper, .move none move) :: history) ((helper.setSystem system).setWon won) := by
  obtain ⟨op, hop⟩ := exists_call hcall hsystem
  obtain ⟨hpopping, rfl⟩ := hroles.worker op hop
  refine ⟨h.ordered.of_consumer hbound hsystem (by simp [hop]) hraced, ?_⟩
  have hbefore : helper.pending = [] := by
    rw [pending, Point.incoming_of_call hop, ite_self]
  have hafter : ((helper.setSystem system).setWon won).pending =
      (System.receives (helper.system, none, move)).toList.map Prod.snd :=
    (if_pos hpopping).trans (incoming_eq hsystem hop)
  rw [queueHistory_cons, handled_cons, hafter]
  change (System.received ((helper.system, none, move) :: queueHistory history)).map Prod.snd =
    (handled history ++ []) ++ _
  rw [received_cons, List.map_append, h.received, hbefore]

theorem step (h : Handles history helper) (hroles : Roles helper)
    (hbound : helper.system.queue.dequeuePos.current.toNat + 1 < 2 ^ 64)
    (hraced : after.system.point none ≠ .raced) (hsteps : helper.Steps input after) :
    Handles ((helper, input) :: history) after := by
  cases hsteps with
  | call hjobs hsystem =>
    obtain ⟨⟨last, hpoint⟩, -⟩ := point_of_call hsystem
    exact h.of_producer (queueEntry_call hjobs) rfl hsystem rfl (by simp [hpoint, Point.call])
  | @move thread move system hcall hsystem =>
    cases thread with
    | none => exact h.of_worker hroles hbound hraced hcall hsystem
    | some thread =>
      obtain ⟨op, hop⟩ := exists_call hcall hsystem
      obtain ⟨msg, retrying, rest, -, rfl⟩ := hroles.producer thread op hop
      exact h.of_producer rfl rfl hsystem rfl (by simp [hop])
  | @pop system hactive hpopping hsystem =>
    obtain ⟨⟨last, hpoint⟩, hload, -⟩ := point_of_call hsystem
    have hcall : (helper.system.point none).call = none := congrArg Point.call hpoint
    have hordered := h.ordered.of_consumer hbound hsystem (by simp [hcall]) hraced
    refine ⟨hordered, ?_⟩
    have hbefore : helper.pending = [] := if_neg (by simp [hpopping])
    have hafter : ((helper.setSystem system).setWorker helper.worker true).pending = [] :=
      congrArg Point.incoming hload
    have hreceives := (taken_eq_of_step hsystem (by simp [hcall])).2
    rw [hafter, queueHistory_cons, handled_cons]
    change (System.received ((helper.system, none, _) :: queueHistory history)).map Prod.snd =
      (handled history ++ []) ++ []
    rw [received_cons, hreceives, List.append_nil, ← hbefore, ← h.received]
    simp
  | @process elapsed thrown incoming hpopping hpoint =>
    refine ⟨h.ordered, ?_⟩
    have hbefore : helper.pending = incoming.toList := by
      rw [pending, hpopping, hpoint]
      rfl
    rw [handled_cons, handles_process hpoint, ← hbefore, ← h.received]
    exact (List.append_nil _).symm
  | _ => exact h.stay rfl rfl rfl rfl

end Handles

section Run

variable {initial : ℕ → AsyncMsg} (hcreate : Queue.create queueSize initial = some queue)
  (hrun : Run step (Bounded queueSize) (start θ config overflowPolicy queue) history helper)

include hcreate hrun

/-- The queue of the logger is intact. -/
theorem intact_of_run : Intact queueSize.toNat (queueHistory history) helper.system := by
  obtain ⟨ring, hrep, hlogged⟩ := exists_ring hcreate (run_queue hrun)
  exact hrep.intact hlogged

theorem handles_of_run : Handles history helper := by
  induction hrun with
  | start =>
    have hintact := intact_of_run hcreate (.start : Run step (Bounded queueSize)
      (start θ config overflowPolicy queue) [] _)
    have hempty : (start θ config overflowPolicy queue).system.queue.dequeuePos.current.toNat = 0 :=
      Nat.eq_zero_of_le_zero (hintact.dequeue_le.trans hintact.length_sent.symm.le)
    refine ⟨⟨fun _ ↦ ?_, fun ticket hticket ↦ ?_⟩, rfl⟩
    · rw [hempty]
      rfl
    · exact absurd hticket.symm (Option.some_ne_none _)
  | next hrun hallowed hstep ih =>
    have hintact := intact_of_run hcreate hrun
    have hafter := intact_of_run hcreate (hrun.next hallowed hstep)
    have hle := hintact.dequeue_le
    rw [Bounded] at hallowed
    exact ih.step (roles_of_run hrun) (by omega) (hafter.not_raced none) (steps_of_step _ hstep)

/-- The worker has handled the first messages, and at most one that was taken out is left. -/
theorem handled_of_run : handled history <+: System.sent (queueHistory history) ∧
    helper.system.queue.dequeuePos.current.toNat ≤ (handled history).length + 1 := by
  have hintact := intact_of_run hcreate hrun
  obtain ⟨⟨hfree, hheld⟩, hreceived⟩ := handles_of_run hcreate hrun
  have hdata := fun entry hentry ↦ (hintact.received entry hentry).2
  have hlength := congrArg List.length hreceived
  rw [List.length_map, List.length_append] at hlength
  cases hticket : (helper.system.point none).ticket with
  | none =>
    have hle : helper.pending.length ≤ 1 := by
      rw [pending]
      split_ifs
      · exact Point.length_incoming_le _
      · exact Nat.zero_le _
    have hcount := congrArg List.length (hfree hticket)
    rw [List.length_map, List.length_range] at hcount
    refine ⟨?_, by omega⟩
    exact (List.prefix_append _ _).trans (hreceived ▸ snd_prefix_of_range (hfree hticket) hdata)
  | some ticket =>
    obtain ⟨hpos, hrange⟩ := hheld ticket hticket
    have hnone : helper.pending = [] := by
      rw [pending, Point.incoming_of_ticket hticket, ite_self]
    have hcount := congrArg List.length hrange
    rw [List.length_map, List.length_range] at hcount
    rw [hnone, List.length_nil] at hlength
    refine ⟨?_, by omega⟩
    exact (List.prefix_append _ _).trans (hreceived ▸ snd_prefix_of_range hrange hdata)

end Run

end AsyncLogHelper

end Systemish.Spdlog
