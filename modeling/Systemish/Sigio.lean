import Systemish.Foundation.Run

/-!
# A server driven by `SIGIO`

`io_handler` of `sigio/server.cc`, which receives one datagram per signal, and the
kernel's side of it: the receive queue of the socket and the pending signal. `SIGIO` is
a standard signal, so a second instance is merged with one that is pending, and it is
blocked while the handler runs. A datagram is its size here.
-/

namespace Systemish.Sigio

open Foundation

def maxBufLen : ℕ := 100

/-- Where the handler is. -/
inductive Handler where
  | notRunning
  /-- In front of `recvfrom`. -/
  | entered
  /-- `recvfrom` has taken a datagram off the queue. -/
  | received (size : ℕ)
  /-- After `exit(-1)`. -/
  | exited
  /-- After a write behind the end of `buf` or an overflow of `counter`. -/
  | undefined
  deriving DecidableEq

def Handler.isRunning : Handler → Bool
  | .notRunning => false
  | .entered => true
  | .received _ => true
  | .exited => false
  | .undefined => false

/-- `arrived` has the datagrams that have come so far. -/
structure Server where
  queue : List ℕ
  pending : Bool
  handler : Handler
  counter : ℕ
  arrived : List ℕ

inductive Event where
  /-- A datagram arrives. -/
  | arrive (size : ℕ)
  /-- The pending signal is delivered. -/
  | deliver
  | recvfrom
  /-- The rest of the handler. -/
  | finish

namespace Server

def start : Server := ⟨[], false, .notRunning, 0, []⟩

/-- `recvfrom` on a socket that does not block. It gives at most `MAXBUFLEN` bytes. -/
def recvfrom (server : Server) : Server :=
  match server.queue with
  | [] => { server with handler := .exited }
  | size :: queue => { server with queue := queue, handler := .received (min size maxBufLen) }

/-- `buf[recv_bytes] = 0` and `counter++`. -/
def finish (server : Server) (recvBytes : ℕ) : Server :=
  if maxBufLen ≤ recvBytes ∨ 2 ^ 31 ≤ server.counter + 1 then
    { server with handler := .undefined }
  else { server with handler := .notRunning, counter := server.counter + 1 }

def step (server : Server) : Event → Option Server
  | .arrive size =>
    some { server with
      queue := server.queue ++ [size], pending := true, arrived := server.arrived ++ [size] }
  | .deliver =>
    if server.pending = true ∧ server.handler = .notRunning then
      some { server with pending := false, handler := .entered }
    else none
  | .recvfrom => if server.handler = .entered then some server.recvfrom else none
  | .finish =>
    match server.handler with
    | .received recvBytes => some (server.finish recvBytes)
    | _ => none

/-- What a step comes to. -/
inductive Steps (server : Server) : Event → Server → Prop
  | arrive (size : ℕ) :
      Steps server (.arrive size) { server with
        queue := server.queue ++ [size], pending := true, arrived := server.arrived ++ [size] }
  | deliver (hpending : server.pending = true) (hhandler : server.handler = .notRunning) :
      Steps server .deliver { server with pending := false, handler := .entered }
  | recvfrom (hhandler : server.handler = .entered) : Steps server .recvfrom server.recvfrom
  | finish {recvBytes : ℕ} (hhandler : server.handler = .received recvBytes) :
      Steps server .finish (server.finish recvBytes)

theorem steps_of_step {server after : Server} {event : Event}
    (hstep : server.step event = some after) : Steps server event after := by
  cases event with
  | arrive size =>
    obtain rfl := Option.some.inj hstep
    exact .arrive size
  | deliver =>
    rw [step] at hstep
    split at hstep
    · next hready =>
      obtain rfl := Option.some.inj hstep
      exact .deliver hready.1 hready.2
    · exact absurd hstep (Option.some_ne_none after).symm
  | recvfrom =>
    rw [step] at hstep
    split at hstep
    · next hhandler =>
      obtain rfl := Option.some.inj hstep
      exact .recvfrom hhandler
    · exact absurd hstep (Option.some_ne_none after).symm
  | finish =>
    rw [step] at hstep
    split at hstep
    · next recvBytes hhandler =>
      obtain rfl := Option.some.inj hstep
      exact .finish hhandler
    · exact absurd hstep (Option.some_ne_none after).symm

end Server

/-- All interleavings of arrivals, deliveries and the steps of the handler. -/
abbrev IsRun : List (Server × Event) → Server → Prop :=
  Run Server.step (fun _ _ ↦ True) Server.start

/-- A datagram arrives while the signal is pending already. -/
def Merged (server : Server) (event : Event) : Prop :=
  server.pending = true ∧ ∃ size, event = .arrive size

/-- Nothing waits, and every datagram was counted. -/
def Server.Served (server : Server) : Prop :=
  server.queue = [] ∧ server.counter = server.arrived.length

/-! ## One signal, one datagram -/

/-- The signals that will each take a datagram: the pending one, and the one whose handler is in
front of `recvfrom`. -/
def Server.due (server : Server) : ℕ :=
  server.pending.toNat + (if server.handler = .entered then 1 else 0)

/-- `inHand` is the datagram that the handler has taken and not counted, if there is one. -/
def Handler.Holds (inHand : List ℕ) (counter : ℕ) : Handler → Prop
  | .notRunning => inHand = []
  | .entered => inHand = []
  | .received recvBytes => ∃ size, inHand = [size] ∧ recvBytes = min size maxBufLen
  | .exited => False
  | .undefined => ∃ size, inHand = [size] ∧ (maxBufLen ≤ size ∨ 2 ^ 31 ≤ counter + 1)

/-- `merged` is how many datagrams have no signal of their own. They are in the queue beside those
whose signals are due. -/
structure Accounted (merged : ℕ) (server : Server) : Prop where
  queue_length : server.queue.length = merged + server.due
  arrivals : ∃ counted inHand, server.arrived = counted ++ inHand ++ server.queue ∧
    counted.length = server.counter ∧ (∀ size ∈ counted, size < maxBufLen) ∧
    server.handler.Holds inHand server.counter
  counter_lt : server.counter < 2 ^ 31

theorem accounted_start : Accounted 0 Server.start where
  queue_length := rfl
  arrivals := ⟨[], [], rfl, rfl, fun _ h ↦ absurd h List.not_mem_nil, rfl⟩
  counter_lt := Nat.two_pow_pos 31

variable {merged : ℕ} {server after : Server}

namespace Accounted

/-- An arrival brings its own signal, unless one is pending. -/
theorem arrive (h : Accounted merged server) (size : ℕ) :
    Accounted (server.pending.toNat + merged) { server with
      queue := server.queue ++ [size], pending := true, arrived := server.arrived ++ [size] } := by
  obtain ⟨counted, inHand, harrived, hrest⟩ := h.arrivals
  refine ⟨?_, ⟨counted, inHand, ?_, hrest⟩, h.counter_lt⟩
  · have hlength := h.queue_length
    simp only [Server.due, List.length_append, List.length_singleton, Bool.toNat_true] at hlength ⊢
    omega
  · rw [harrived, List.append_assoc _ server.queue]

theorem deliver (h : Accounted merged server) (hpending : server.pending = true)
    (hhandler : server.handler = .notRunning) :
    Accounted merged { server with pending := false, handler := .entered } := by
  obtain ⟨counted, inHand, harrived, hcounted, hsizes, hholds⟩ := h.arrivals
  rw [hhandler] at hholds
  refine ⟨?_, ⟨counted, inHand, harrived, hcounted, hsizes, hholds⟩, h.counter_lt⟩
  rw [h.queue_length, Server.due, hpending, hhandler]
  rfl

/-- There is a datagram for the handler. -/
theorem recvfrom (h : Accounted merged server) (hhandler : server.handler = .entered) :
    Accounted merged server.recvfrom := by
  obtain ⟨counted, inHand, harrived, hcounted, hsizes, hholds⟩ := h.arrivals
  have hlength := h.queue_length
  rw [hhandler] at hholds
  rw [Server.due, if_pos hhandler] at hlength
  rw [Server.recvfrom]
  split
  · next hqueue =>
    rw [hqueue] at hlength
    exact absurd hlength (Nat.succ_ne_zero _).symm
  · next size queue hqueue =>
    rw [hqueue] at harrived hlength
    refine ⟨Nat.succ.inj hlength, ⟨counted, [size], ?_, hcounted, hsizes, size, rfl, rfl⟩,
      h.counter_lt⟩
    rw [harrived, hholds, List.append_nil, List.append_cons]

theorem finish (h : Accounted merged server) {recvBytes : ℕ}
    (hhandler : server.handler = .received recvBytes) :
    Accounted merged (server.finish recvBytes) := by
  obtain ⟨counted, inHand, harrived, hcounted, hsizes, hholds⟩ := h.arrivals
  have hlength := h.queue_length
  rw [hhandler] at hholds
  obtain ⟨size, rfl, rfl⟩ := hholds
  have hdue : server.due = server.pending.toNat := by
    rw [Server.due, hhandler]
    rfl
  rw [hdue] at hlength
  rw [Server.finish]
  split
  · next hundefined =>
    refine ⟨hlength, ⟨counted, [size], harrived, hcounted, hsizes, size, rfl, ?_⟩, h.counter_lt⟩
    exact hundefined.imp_left fun hle ↦ hle.trans (min_le_left _ _)
  · next hdefined =>
    obtain ⟨hsize, hcounter⟩ := not_or.mp hdefined
    refine ⟨hlength, ⟨counted ++ [size], [], ?_, ?_, ?_, rfl⟩, Nat.not_le.mp hcounter⟩
    · rw [harrived, List.append_nil]
    · rw [List.length_append, hcounted, List.length_singleton]
    · intro other hother
      rcases List.mem_append.mp hother with hold | hnew
      · exact hsizes other hold
      · rw [List.mem_singleton.mp hnew]
        exact (min_lt_iff.mp (Nat.not_le.mp hsize)).resolve_right (lt_irrefl _)

end Accounted

/-- One if a datagram has to share the signal that is pending. -/
def mergedBy (server : Server) : Event → ℕ
  | .arrive _ => server.pending.toNat
  | .deliver => 0
  | .recvfrom => 0
  | .finish => 0

def mergedIn (history : List (Server × Event)) : ℕ :=
  (history.map fun entry ↦ mergedBy entry.1 entry.2).sum

theorem Accounted.step (h : Accounted merged server) {event : Event}
    (hstep : server.step event = some after) :
    Accounted (mergedBy server event + merged) after := by
  cases Server.steps_of_step hstep with
  | arrive size => exact h.arrive size
  | deliver hpending hhandler =>
    rw [mergedBy, Nat.zero_add]
    exact h.deliver hpending hhandler
  | recvfrom hhandler =>
    rw [mergedBy, Nat.zero_add]
    exact h.recvfrom hhandler
  | finish hhandler =>
    rw [mergedBy, Nat.zero_add]
    exact h.finish hhandler

variable {history : List (Server × Event)} {final : Server}

theorem accounted_of_run (hrun : IsRun history final) : Accounted (mergedIn history) final :=
  hrun.invariant_history (fun history server ↦ Accounted (mergedIn history) server)
    accounted_start fun _ _ _ _ h _ hstep ↦ h.step hstep

theorem mergedBy_eq_zero_iff {event : Event} :
    mergedBy server event = 0 ↔ ¬ Merged server event := by
  cases event with
  | arrive size => simp [mergedBy, Merged]
  | deliver => simp [mergedBy, Merged]
  | recvfrom => simp [mergedBy, Merged]
  | finish => simp [mergedBy, Merged]

theorem mergedIn_eq_zero_iff :
    mergedIn history = 0 ↔ ∀ entry ∈ history, ¬ Merged entry.1 entry.2 := by
  rw [mergedIn, List.sum_eq_zero_iff, List.forall_mem_map]
  exact forall₂_congr fun entry _ ↦ mergedBy_eq_zero_iff

namespace Accounted

theorem served_iff_of_notRunning (h : Accounted merged server) (hpending : server.pending = false)
    (hhandler : server.handler = .notRunning) :
    server.Served ↔ merged = 0 ∧ (∀ size ∈ server.arrived, size < maxBufLen) ∧
      server.arrived.length < 2 ^ 31 := by
  obtain ⟨counted, inHand, harrived, hcounted, hsizes, hholds⟩ := h.arrivals
  have hlength : server.queue.length = merged := by
    rw [h.queue_length, Server.due, hpending, hhandler]
    rfl
  rw [hhandler] at hholds
  rw [hholds, List.append_nil] at harrived
  constructor
  · rintro ⟨hqueue, hcounter⟩
    rw [hqueue] at hlength
    rw [hqueue, List.append_nil] at harrived
    refine ⟨hlength.symm, harrived ▸ hsizes, ?_⟩
    rw [← hcounter]
    exact h.counter_lt
  · rintro ⟨rfl, -, -⟩
    have hqueue := List.length_eq_zero_iff.mp hlength
    refine ⟨hqueue, ?_⟩
    rw [harrived, hqueue, List.append_nil, hcounted]

/-- The handler never counts the datagram that it has in hand. -/
theorem served_iff_of_undefined (h : Accounted merged server)
    (hhandler : server.handler = .undefined) :
    server.Served ↔ merged = 0 ∧ (∀ size ∈ server.arrived, size < maxBufLen) ∧
      server.arrived.length < 2 ^ 31 := by
  obtain ⟨counted, inHand, harrived, hcounted, -, hholds⟩ := h.arrivals
  rw [hhandler] at hholds
  obtain ⟨size, rfl, hundefined⟩ := hholds
  have hcount : server.arrived.length = server.counter + 1 + server.queue.length := by
    rw [harrived, List.length_append, List.length_append, hcounted, List.length_singleton]
  apply iff_of_false
  · rintro ⟨-, hserved⟩
    omega
  · rintro ⟨-, hsmall, hfew⟩
    have hmem : size ∈ server.arrived := by
      rw [harrived]
      exact List.mem_append_left _ (List.mem_append_right _ (List.mem_singleton_self size))
    rcases hundefined with hlarge | hmany
    · exact absurd (hsmall size hmem) (Nat.not_lt.mpr hlarge)
    · omega

end Accounted

/-- With no signal pending and the handler not running, every datagram has been processed, if and
only if no datagram arrived while a signal was pending, each of them leaves room in `buf` for the
terminating zero, and `counter` can count them. -/
theorem served_iff (hrun : IsRun history final) (hpending : final.pending = false)
    (hhandler : final.handler.isRunning = false) :
    final.Served ↔ (∀ entry ∈ history, ¬ Merged entry.1 entry.2) ∧
      (∀ size ∈ final.arrived, size < maxBufLen) ∧ final.arrived.length < 2 ^ 31 := by
  have haccounted := accounted_of_run hrun
  rw [← mergedIn_eq_zero_iff]
  cases hcase : final.handler with
  | notRunning => exact haccounted.served_iff_of_notRunning hpending hcase
  | entered => exact absurd hhandler (by rw [hcase]; exact Bool.noConfusion)
  | received recvBytes => exact absurd hhandler (by rw [hcase]; exact Bool.noConfusion)
  | exited =>
    -- `recvfrom` always finds a datagram
    obtain ⟨counted, inHand, -, -, -, hholds⟩ := haccounted.arrivals
    rw [hcase] at hholds
    exact hholds.elim
  | undefined => exact haccounted.served_iff_of_undefined hcase

/-- A second datagram arrives while the handler runs for the first one, and a third one after that:
there is a signal for each. -/
theorem served_after_three :
    ∃ history final, IsRun history final ∧ final.pending = false ∧
      final.handler.isRunning = false ∧ final.arrived = [5, 7, 9] ∧ final.Served ∧
      ∀ entry ∈ history, ¬ Merged entry.1 entry.2 := by
  have hstart : IsRun [] Server.start := .start
  have hrun := hstart.of_follow [.arrive 5, .deliver, .arrive 7, .recvfrom, .finish, .deliver,
    .recvfrom, .finish, .arrive 9, .deliver, .recvfrom, .finish] rfl
  have hclean := (served_iff hrun rfl rfl).mp ⟨rfl, rfl⟩
  exact ⟨_, _, hrun, rfl, rfl, rfl, ⟨rfl, rfl⟩, hclean.1⟩

/-- Two datagrams arrive before the signal is delivered: one of them is left in the queue. -/
theorem burst_leaves_datagram :
    ∃ history final, IsRun history final ∧ final.pending = false ∧
      final.handler.isRunning = false ∧ final.arrived = [5, 5] ∧ final.queue = [5] ∧
      final.counter = 1 := by
  have hstart : IsRun [] Server.start := .start
  have hrun := hstart.of_follow [.arrive 5, .arrive 5, .deliver, .recvfrom, .finish] rfl
  exact ⟨_, _, hrun, rfl, rfl, rfl, rfl, rfl⟩

/-! ## The buffer -/

/-- The indices at which a step of the handler writes `buf`. `memset` belongs to the entry of the
handler, and `recvfrom` writes what it returns. -/
def Server.writes (server : Server) : Event → List ℕ
  | .arrive _ => []
  | .deliver => List.range maxBufLen
  | .recvfrom =>
    match server.queue with
    | [] => []
    | size :: _ => List.range (min size maxBufLen)
  | .finish =>
    match server.handler with
    | .received recvBytes => [recvBytes]
    | _ => []

/-- The handler takes the fatal branch behind `recvfrom`. -/
def FindsNothing (server : Server) (event : Event) : Prop :=
  event = .recvfrom ∧ server.queue = []

def Sound (server : Server) (event : Event) : Prop :=
  ¬ FindsNothing server event ∧ ∀ index ∈ server.writes event, index < maxBufLen

def Event.isFinish : Event → Bool
  | .arrive _ => false
  | .deliver => false
  | .recvfrom => false
  | .finish => true

/-- How many datagrams the handler has ended with a zero. -/
def terminatedIn (history : List (Server × Event)) : ℕ :=
  history.countP fun entry ↦ entry.2.isFinish

/-- The same, from the state: the last of them may have stopped the server. -/
def Server.terminated (server : Server) : ℕ :=
  server.counter + (if server.handler = .undefined then 1 else 0)

def Server.Fits (server : Server) : Prop :=
  ∀ size ∈ server.arrived.take server.terminated, size < maxBufLen

theorem terminatedIn_cons (entry : Server × Event) :
    terminatedIn (entry :: history) = terminatedIn history + entry.2.isFinish.toNat := by
  rw [terminatedIn, terminatedIn, List.countP_cons, Bool.toNat]
  cases entry.2.isFinish <;> rfl

theorem not_findsNothing {event : Event} (hevent : event ≠ .recvfrom) :
    ¬ FindsNothing server event :=
  fun h ↦ hevent h.1

namespace Accounted

/-- What the handler has ended is part of what has arrived. -/
theorem terminated_le (h : Accounted merged server) :
    server.terminated ≤ server.arrived.length := by
  obtain ⟨counted, inHand, harrived, hcounted, -, hholds⟩ := h.arrivals
  rw [Server.terminated, harrived, List.length_append, List.length_append, hcounted]
  split
  · next hhandler =>
    rw [hhandler] at hholds
    obtain ⟨size, rfl, -⟩ := hholds
    rw [List.length_singleton]
    omega
  · omega

theorem fits_of_defined (h : Accounted merged server) (hhandler : server.handler ≠ .undefined) :
    server.Fits := by
  obtain ⟨counted, inHand, harrived, hcounted, hsizes, -⟩ := h.arrivals
  rw [Server.Fits, Server.terminated, if_neg hhandler, harrived, List.append_assoc, ← hcounted,
    Nat.add_zero, List.take_left]
  exact hsizes

theorem sound_deliver : Sound server .deliver := by
  refine ⟨not_findsNothing Event.noConfusion, fun index hindex ↦ ?_⟩
  exact List.mem_range.mp hindex

/-- The queue has the datagram of the handler's signal. -/
theorem sound_recvfrom (h : Accounted merged server) (hhandler : server.handler = .entered) :
    Sound server .recvfrom := by
  have hlength := h.queue_length
  rw [Server.due, if_pos hhandler] at hlength
  cases hqueue : server.queue with
  | nil =>
    rw [hqueue] at hlength
    exact absurd hlength (Nat.succ_ne_zero _).symm
  | cons size queue =>
    constructor
    · rintro ⟨-, hempty⟩
      exact List.cons_ne_nil _ _ (hqueue.symm.trans hempty)
    · intro index hindex
      rw [Server.writes, hqueue] at hindex
      exact (List.mem_range.mp hindex).trans_le (min_le_right _ _)

theorem sound_finish_iff {recvBytes : ℕ} (hhandler : server.handler = .received recvBytes) :
    Sound server .finish ↔ recvBytes < maxBufLen := by
  rw [Sound, and_iff_right (not_findsNothing Event.noConfusion), Server.writes, hhandler]
  exact List.forall_mem_singleton

/-- The terminating zero is the only write that may miss `buf`. -/
theorem fits_finish_iff (h : Accounted merged server) {recvBytes : ℕ}
    (hhandler : server.handler = .received recvBytes) :
    (server.finish recvBytes).Fits ↔ recvBytes < maxBufLen := by
  obtain ⟨counted, inHand, harrived, hcounted, hsizes, hholds⟩ := h.arrivals
  rw [hhandler] at hholds
  obtain ⟨size, rfl, rfl⟩ := hholds
  have hterminated : (server.finish (min size maxBufLen)).terminated = server.counter + 1 := by
    rw [Server.finish]
    split <;> rfl
  have hsame : (server.finish (min size maxBufLen)).arrived = server.arrived := by
    rw [Server.finish]
    split <;> rfl
  have htake : server.arrived.take (server.counter + 1) = counted ++ [size] := by
    rw [harrived, ← hcounted]
    exact List.take_left' (List.length_append.trans rfl)
  rw [Server.Fits, hterminated, hsame, htake, List.forall_mem_append,
    and_iff_right hsizes, List.forall_mem_singleton, min_lt_iff, or_iff_left (lt_irrefl _)]

/-- A step is sound if and only if no zero lies behind `buf` afterwards. -/
theorem fits_step_iff (h : Accounted merged server) {event : Event}
    (hstep : server.step event = some after) :
    after.Fits ↔ server.Fits ∧ Sound server event := by
  have hafter := h.step hstep
  cases Server.steps_of_step hstep with
  | arrive size =>
    have hsound : Sound server (.arrive size) :=
      ⟨not_findsNothing Event.noConfusion, fun _ hindex ↦ absurd hindex List.not_mem_nil⟩
    rw [and_iff_left hsound]
    change (∀ s ∈ (server.arrived ++ [size]).take server.terminated, s < maxBufLen) ↔ _
    rw [List.take_append_of_le_length h.terminated_le]
    exact Iff.rfl
  | deliver _ hhandler =>
    have hdefined : server.handler ≠ .undefined := by
      rw [hhandler]
      exact Handler.noConfusion
    exact iff_of_true (hafter.fits_of_defined Handler.noConfusion)
      ⟨h.fits_of_defined hdefined, sound_deliver⟩
  | recvfrom hhandler =>
    have hdefined : server.handler ≠ .undefined := by
      rw [hhandler]
      exact Handler.noConfusion
    have hreceived : server.recvfrom.handler ≠ .undefined := by
      rw [Server.recvfrom]
      split <;> exact Handler.noConfusion
    exact iff_of_true (hafter.fits_of_defined hreceived)
      ⟨h.fits_of_defined hdefined, h.sound_recvfrom hhandler⟩
  | finish hhandler =>
    have hdefined : server.handler ≠ .undefined := by
      rw [hhandler]
      exact Handler.noConfusion
    rw [h.fits_finish_iff hhandler, sound_finish_iff hhandler,
      and_iff_right (h.fits_of_defined hdefined)]

end Accounted

theorem terminated_step {event : Event} (hstep : server.step event = some after) :
    after.terminated = server.terminated + event.isFinish.toNat := by
  cases Server.steps_of_step hstep with
  | arrive size => rfl
  | deliver _ hhandler =>
    rw [Server.terminated, Server.terminated, hhandler]
    rfl
  | recvfrom hhandler =>
    rw [Server.terminated, Server.terminated, hhandler, Server.recvfrom]
    split <;> rfl
  | finish hhandler =>
    rw [Server.terminated, Server.terminated, hhandler, Server.finish]
    split <;> rfl

theorem terminatedIn_of_run (hrun : IsRun history final) :
    terminatedIn history = final.terminated :=
  hrun.invariant_history (fun history server ↦ terminatedIn history = server.terminated) rfl
    fun history state event after h _ hstep ↦ by
      rw [terminatedIn_cons, terminated_step hstep, h]

theorem Accounted.not_findsNothing_of_step (h : Accounted merged server) {event : Event}
    (hstep : server.step event = some after) : ¬ FindsNothing server event := by
  rintro ⟨rfl, hempty⟩
  cases Server.steps_of_step hstep with
  | recvfrom hhandler => exact (h.sound_recvfrom hhandler).1 ⟨rfl, hempty⟩

/-- No handler finds the queue empty. -/
theorem not_findsNothing_of_run (hrun : IsRun history final) :
    ∀ entry ∈ history, ¬ FindsNothing entry.1 entry.2 := by
  have hinvariant := hrun.invariant_history
    (fun history server ↦ (∃ merged, Accounted merged server) ∧
      ∀ entry ∈ history, ¬ FindsNothing entry.1 entry.2)
    ⟨⟨0, accounted_start⟩, fun _ h ↦ absurd h List.not_mem_nil⟩
    fun _ _ _ _ h _ hstep ↦ by
      obtain ⟨⟨merged, haccounted⟩, hbefore⟩ := h
      exact ⟨⟨_, haccounted.step hstep⟩,
        List.forall_mem_cons.mpr ⟨haccounted.not_findsNothing_of_step hstep, hbefore⟩⟩
  exact hinvariant.2

/-- In every run the handler finds a datagram at each `recvfrom`. It writes `buf` only below
`MAXBUFLEN`, if and only if each datagram that it has ended with a zero is shorter than the
buffer. Datagrams are taken in the order of their arrival. -/
theorem sound_iff (hrun : IsRun history final) :
    (∀ entry ∈ history, ¬ FindsNothing entry.1 entry.2) ∧
      ((∀ entry ∈ history, Sound entry.1 entry.2) ↔
        ∀ size ∈ final.arrived.take (terminatedIn history), size < maxBufLen) := by
  have hfits : _ ∧ (final.Fits ↔ ∀ entry ∈ history, Sound entry.1 entry.2) :=
    hrun.iff_forall_clean (fun server ↦ ∃ merged, Accounted merged server)
      ⟨0, accounted_start⟩ (fun _ _ _ h _ hstep ↦ ⟨_, h.choose_spec.step hstep⟩)
      (fun _ h ↦ absurd h List.not_mem_nil)
      (fun _ _ _ h _ hstep ↦ h.choose_spec.fits_step_iff hstep)
  refine ⟨not_findsNothing_of_run hrun, ?_⟩
  rw [← hfits.2, terminatedIn_of_run hrun]
  exact Iff.rfl

/-- The third datagram fills the buffer, but it stays in the queue. -/
theorem sound_short_datagrams :
    ∃ history final, IsRun history final ∧ final.arrived = [5, 99, 100] ∧
      terminatedIn history = 2 ∧ ∀ entry ∈ history, Sound entry.1 entry.2 := by
  have hstart : IsRun [] Server.start := .start
  have hrun := hstart.of_follow [.arrive 5, .deliver, .recvfrom, .finish, .arrive 99, .arrive 100,
    .deliver, .recvfrom, .finish] rfl
  exact ⟨_, _, hrun, rfl, rfl, (sound_iff hrun).2.mpr (by decide)⟩

/-- A datagram of `MAXBUFLEN` bytes: the zero is written at `buf[MAXBUFLEN]`. -/
theorem zero_behind_buffer :
    ∃ history final, IsRun history final ∧ final.arrived = [100] ∧
      ∃ entry ∈ history, 100 ∈ entry.1.writes entry.2 ∧ ¬ 100 < maxBufLen := by
  have hstart : IsRun [] Server.start := .start
  have hrun := hstart.of_follow [.arrive 100, .deliver, .recvfrom, .finish] rfl
  exact ⟨_, _, hrun, rfl, _, List.mem_cons_self, by decide, by decide⟩

end Systemish.Sigio
