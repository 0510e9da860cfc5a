import Systemish.Foundation.Run
import Systemish.RawEth.Receiver

/-!
# Sender, network and receivers

The sender and any number of receiver threads, with the packets between them. The NIC
hands a packet to the queue whose flow rule is its port, may drop packets and keeps
the order of the packets of one queue. All interleavings of the programs' steps with
arrivals and losses are runs.
-/

namespace Systemish.RawEth

open Foundation

variable {threads : ℕ}

/-- The steps of a receiver thread. -/
inductive Action where
  | attach
  | poll
  | print
  | check
  | repost

def Receiver.act (receiver : Receiver) (threadId : ℕ) : Action → Option Receiver
  | .attach => receiver.attach
  | .poll => receiver.poll
  | .print => receiver.print
  | .check => receiver.check threadId
  | .repost => receiver.repost

theorem Receiver.InStep.act {threadId : ℕ} {receiver after : Receiver} {action : Action}
    (h : receiver.InStep threadId) (hact : receiver.act threadId action = some after) :
    after.InStep threadId ∧ after.stream = receiver.stream := by
  cases action with
  | attach => exact h.attach hact
  | poll => exact h.poll hact
  | print => exact h.print hact
  | check => exact h.check hact
  | repost => exact h.repost hact

/-- `wire` has the packets that are sent and not delivered or lost, the oldest one first. -/
structure Network (threads : ℕ) where
  sender : Sender threads
  wire : List Packet
  receivers : Fin threads → Receiver

inductive Event (threads : ℕ) where
  | fill (target : Fin threads)
  | post (errno : Errno)
  | reap (found : Bool)
  | act (thread : Fin threads) (action : Action)
  /-- The oldest packet to a queue arrives. -/
  | deliver (thread : Fin threads)
  /-- A packet is lost. -/
  | drop (index : ℕ)

namespace Network

/-- At the start the rings have anything in them. -/
def start (rings : Fin threads → Slot → Packet) : Network threads where
  sender := Sender.start threads
  wire := []
  receivers thread := Receiver.start (rings thread)

/-- The packets that the flow rule of a thread matches. -/
def isFor (thread : Fin threads) (packet : Packet) : Bool := packet.dstPort = portOf thread

def setReceiver (net : Network threads) (thread : Fin threads) (receiver : Receiver) :
    Network threads :=
  { net with receivers := Function.update net.receivers thread receiver }

def step (net : Network threads) : Event threads → Option (Network threads)
  | .fill target =>
    if net.sender.location = .filling then some { net with sender := net.sender.fill target }
    else none
  | .post errno =>
    if net.sender.location = .posting then
      some { net with
        sender := (net.sender.post errno).1, wire := net.wire ++ (net.sender.post errno).2 }
    else none
  | .reap found =>
    match net.sender.location with
    | .checking ret => some { net with sender := net.sender.reap ret found }
    | _ => none
  | .act thread action =>
    ((net.receivers thread).act thread action).map (net.setReceiver thread)
  | .deliver thread =>
    match net.wire.find? (isFor thread) with
    | none => none
    | some packet =>
      ((net.receivers thread).receive packet).map
        ({ net with wire := net.wire.eraseP (isFor thread) }.setReceiver thread)
  | .drop index => some { net with wire := net.wire.eraseIdx index }

/-- Runs of the sender, the network and the receivers. -/
abbrev IsRun (rings : Fin threads → Slot → Packet) :
    List (Network threads × Event threads) → Network threads → Prop :=
  Run step (fun _ _ ↦ True) (start rings)

end Network

/-! ## Sequence numbers -/

/-- Numbers that a 64-bit counter gives out, in order: the remainders of numbers that increase up to
`bound`. -/
def Numbered (bound : ℕ) (numbers : List ℕ) : Prop :=
  ∃ counts : List ℕ, counts.Pairwise (· < ·) ∧ (∀ count ∈ counts, count < bound) ∧
    numbers = counts.map (· % 2 ^ 64)

namespace Numbered

variable {bound : ℕ} {numbers numbers' : List ℕ}

theorem nil : Numbered bound [] := ⟨[], .nil, fun _ h ↦ absurd h List.not_mem_nil, rfl⟩

theorem sublist (h : Numbered bound numbers) (hsub : numbers'.Sublist numbers) :
    Numbered bound numbers' := by
  obtain ⟨counts, hpairwise, hlt, rfl⟩ := h
  obtain ⟨counts', hsub', rfl⟩ := List.sublist_map_iff.mp hsub
  exact ⟨counts', hpairwise.sublist hsub', fun count hcount ↦ hlt count (hsub'.subset hcount), rfl⟩

/-- The counter gives out one more number. -/
theorem concat (h : Numbered bound numbers) :
    Numbered (bound + 1) (numbers ++ [bound % 2 ^ 64]) := by
  obtain ⟨counts, hpairwise, hlt, rfl⟩ := h
  refine ⟨counts ++ [bound], ?_, ?_, ?_⟩
  · apply List.pairwise_append.mpr
    refine ⟨hpairwise, List.pairwise_singleton _ _, fun count hcount other hother ↦ ?_⟩
    rw [List.mem_singleton.mp hother]
    exact hlt count hcount
  · intro count hcount
    rcases List.mem_append.mp hcount with hold | hnew
    · exact (hlt count hold).trans (Nat.lt_succ_self bound)
    · rw [List.mem_singleton.mp hnew]
      exact Nat.lt_succ_self bound
  · rw [List.map_append, List.map_singleton]

/-- As long as the counter has not wrapped, its numbers increase. -/
theorem pairwise_lt (h : Numbered bound numbers) (hbound : bound ≤ 2 ^ 64) :
    numbers.Pairwise (· < ·) := by
  obtain ⟨counts, hpairwise, hlt, rfl⟩ := h
  have hcounts : counts.map (· % 2 ^ 64) = counts := by
    calc
      counts.map (· % 2 ^ 64) = counts.map id :=
        List.map_congr_left fun count hcount ↦
          Nat.mod_eq_of_lt (Nat.lt_of_lt_of_le (hlt count hcount) hbound)
      _ = counts := List.map_id _
  rwa [hcounts]

end Numbered

/-! ## Packets under way -/

theorem portOf_inj {t u : ℕ} (ht : kBaseDstPort + t < 2 ^ 16) (hu : kBaseDstPort + u < 2 ^ 16)
    (h : portOf t = portOf u) : t = u := by
  rw [portOf, portOf, Nat.mod_eq_of_lt ht, Nat.mod_eq_of_lt hu] at h
  exact Nat.add_left_cancel (htons_inj ht hu h)

/-- The first match of a list comes first in the list of all matches. -/
theorem filter_eq_cons_of_find? {α : Type} {p : α → Bool} {xs : List α} {x : α}
    (h : xs.find? p = some x) : xs.filter p = x :: (xs.eraseP p).filter p := by
  induction xs with
  | nil => exact absurd h (Option.some_ne_none x).symm
  | cons y ys ih =>
    rw [List.find?_cons] at h
    by_cases hy : p y = true
    · simp only [hy] at h
      obtain rfl := Option.some.inj h
      rw [List.filter_cons_of_pos hy, List.eraseP_cons_of_pos hy]
    · simp only [hy] at h
      rw [List.filter_cons_of_neg hy, List.eraseP_cons_of_neg hy, List.filter_cons_of_neg hy, ih h]

namespace Network

/-- The packet that is filled in and not posted yet. -/
def filled (net : Network threads) : List Packet :=
  if net.sender.location = .posting then [net.sender.packet] else []

/-- The packets that no receive queue has got yet. -/
def transit (net : Network threads) : List Packet := net.wire ++ net.filled

/-- The packets to a thread, in order: those that it has seen come first. -/
def packetsTo (net : Network threads) (thread : Fin threads) : List Packet :=
  (net.receivers thread).stream ++ net.transit.filter (isFor thread)

/-- `taken` is how many sequence numbers the sender has taken for each thread. -/
structure Orderly (taken : Fin threads → ℕ) (net : Network threads) : Prop where
  inStep : ∀ thread, (net.receivers thread).InStep thread
  seqNum : ∀ thread, net.sender.seqNum thread = taken thread % 2 ^ 64
  addressed : ∀ packet ∈ net.transit, ∃ thread : Fin threads,
    packet.dstPort = portOf thread ∧ packet.receiverThread = thread
  numbered : ∀ thread, Numbered (taken thread) ((net.packetsTo thread).map Packet.seqNum)

variable {taken : Fin threads → ℕ} {net after : Network threads}

theorem orderly_start (rings : Fin threads → Slot → Packet) :
    Orderly (fun _ ↦ 0) (start rings) where
  inStep thread := Receiver.inStep_start thread (rings thread)
  seqNum _ := rfl
  addressed _ h := absurd h List.not_mem_nil
  numbered _ := Numbered.nil

namespace Orderly

/-- Packets under way can get lost. -/
theorem of_sublist (h : Orderly taken net) (hreceivers : after.receivers = net.receivers)
    (hseqNum : after.sender.seqNum = net.sender.seqNum)
    (htransit : after.transit.Sublist net.transit) : Orderly taken after where
  inStep := by
    rw [hreceivers]
    exact h.inStep
  seqNum := by
    rw [hseqNum]
    exact h.seqNum
  addressed packet hpacket := h.addressed packet (htransit.subset hpacket)
  numbered thread := by
    apply (h.numbered thread).sublist
    rw [packetsTo, packetsTo, hreceivers]
    exact ((htransit.filter _).append_left _).map _

theorem post (h : Orderly taken net) {errno : Errno}
    (hstep : net.step (.post errno) = some after) : Orderly taken after := by
  rw [step] at hstep
  split at hstep
  · next hlocation =>
    obtain rfl := Option.some.inj hstep
    have htransit : net.transit = net.wire ++ [net.sender.packet] := by
      rw [transit, filled, if_pos hlocation]
    rw [Sender.post]
    split
    · refine h.of_sublist ?_ ?_ ?_
      · rfl
      · rfl
      · rw [htransit]
        simp [transit, filled]
    · refine h.of_sublist ?_ ?_ ?_
      · rfl
      · rfl
      · rw [htransit, transit, List.append_nil]
        exact List.Sublist.append_left (List.nil_sublist _) _
  · exact absurd hstep (Option.some_ne_none after).symm

theorem reap (h : Orderly taken net) {found : Bool}
    (hstep : net.step (.reap found) = some after) : Orderly taken after := by
  rw [step] at hstep
  split at hstep
  · next ret hlocation =>
    obtain rfl := Option.some.inj hstep
    rw [Sender.reap]
    split
    · refine h.of_sublist ?_ ?_ ?_
      · rfl
      · rfl
      · exact List.Sublist.append_left (List.nil_sublist _) _
    · refine h.of_sublist ?_ ?_ ?_
      · rfl
      · rfl
      · exact List.Sublist.append_left (List.nil_sublist _) _
  · exact absurd hstep (Option.some_ne_none after).symm

theorem drop (h : Orderly taken net) {index : ℕ}
    (hstep : net.step (.drop index) = some after) : Orderly taken after := by
  obtain rfl := Option.some.inj hstep
  exact h.of_sublist rfl rfl ((List.eraseIdx_sublist _ _).append_right _)

theorem fill (hports : ∀ thread : Fin threads, kBaseDstPort + thread < 2 ^ 16)
    (h : Orderly taken net) {target : Fin threads}
    (hstep : net.step (.fill target) = some after) :
    Orderly (Function.update taken target (taken target + 1)) after := by
  rw [step] at hstep
  split at hstep
  · next hlocation =>
    obtain rfl := Option.some.inj hstep
    have hbefore : net.transit = net.wire := by
      rw [transit, filled, hlocation]
      exact List.append_nil _
    have htransit : ({ net with sender := net.sender.fill target } : Network threads).transit =
        net.transit ++ [⟨portOf target, target, net.sender.seqNum target⟩] := by
      rw [hbefore]
      rfl
    refine ⟨h.inStep, fun thread ↦ ?_, fun packet hpacket ↦ ?_, fun thread ↦ ?_⟩
    · change Function.update net.sender.seqNum target _ thread = _
      by_cases hthread : thread = target
      · subst hthread
        rw [Function.update_self, Function.update_self, h.seqNum, Nat.mod_add_mod]
      · rw [Function.update_of_ne hthread, Function.update_of_ne hthread, h.seqNum]
    · rw [htransit] at hpacket
      rcases List.mem_append.mp hpacket with hold | hnew
      · exact h.addressed packet hold
      · rw [List.mem_singleton.mp hnew]
        exact ⟨target, rfl, rfl⟩
    · rw [packetsTo, htransit, List.filter_append, ← List.append_assoc, List.map_append]
      by_cases hthread : thread = target
      · subst hthread
        have hnumbered := (h.numbered thread).concat
        rw [Function.update_self]
        rw [← h.seqNum] at hnumbered
        simpa [isFor, packetsTo] using hnumbered
      · have hport : ¬ portOf target = portOf thread := fun heq ↦
          hthread (Fin.ext (portOf_inj (hports thread) (hports target) heq.symm))
        have hnumbered := h.numbered thread
        rw [Function.update_of_ne hthread]
        simpa [isFor, packetsTo, hport] using hnumbered
  · exact absurd hstep (Option.some_ne_none after).symm

/-- A thread gets on, and packets under way go to it or get lost. -/
theorem setReceiver (h : Orderly taken net) {thread : Fin threads} {receiver : Receiver}
    {wire : List Packet} (hinStep : receiver.InStep thread) (hwire : wire.Sublist net.wire)
    (hpackets : receiver.stream ++ (wire ++ net.filled).filter (isFor thread) =
      net.packetsTo thread) :
    Orderly taken ({ net with wire := wire }.setReceiver thread receiver) := by
  have hfewer : (wire ++ net.filled).Sublist net.transit := hwire.append_right _
  refine ⟨fun other ↦ ?_, h.seqNum, fun other hother ↦ ?_, fun other ↦ ?_⟩
  · change (Function.update net.receivers thread receiver other).InStep other
    by_cases heq : other = thread
    · subst heq
      rw [Function.update_self]
      exact hinStep
    · rw [Function.update_of_ne heq]
      exact h.inStep other
  · exact h.addressed other (hfewer.subset hother)
  · change Numbered _ (((Function.update net.receivers thread receiver other).stream ++
      (wire ++ net.filled).filter (isFor other)).map Packet.seqNum)
    by_cases heq : other = thread
    · subst heq
      rw [Function.update_self, hpackets]
      exact h.numbered other
    · rw [Function.update_of_ne heq]
      apply (h.numbered other).sublist
      exact ((hfewer.filter _).append_left _).map _

theorem deliver (hports : ∀ thread : Fin threads, kBaseDstPort + thread < 2 ^ 16)
    (h : Orderly taken net) {thread : Fin threads}
    (hstep : net.step (.deliver thread) = some after) : Orderly taken after := by
  rw [step] at hstep
  split at hstep
  · exact absurd hstep (Option.some_ne_none after).symm
  · next packet hfound =>
    obtain ⟨receiver, hreceive, rfl⟩ := Option.map_eq_some_iff.mp hstep
    have hmem : packet ∈ net.transit :=
      List.mem_append_left _ (List.mem_of_find?_eq_some hfound)
    have hmatch := List.find?_some hfound
    have hpacket : packet.receiverThread = thread := by
      obtain ⟨other, hother, htarget⟩ := h.addressed packet hmem
      rw [htarget]
      exact portOf_inj (hports other) (hports thread)
        (hother.symm.trans (of_decide_eq_true hmatch))
    obtain ⟨hinStep, hstream⟩ := (h.inStep thread).receive hpacket hreceive
    apply h.setReceiver hinStep List.eraseP_sublist
    rw [hstream, packetsTo, transit, List.filter_append, List.filter_append,
      filter_eq_cons_of_find? hfound, List.append_assoc]
    rfl

theorem act (h : Orderly taken net) {thread : Fin threads} {action : Action}
    (hstep : net.step (.act thread action) = some after) : Orderly taken after := by
  obtain ⟨receiver, hact, rfl⟩ := Option.map_eq_some_iff.mp hstep
  obtain ⟨hinStep, hstream⟩ := (h.inStep thread).act hact
  apply h.setReceiver hinStep (List.Sublist.refl _)
  rw [hstream]
  rfl

end Orderly

/-- How many sequence numbers a step takes for a thread. -/
def numbersTaken (event : Event threads) (thread : Fin threads) : ℕ :=
  match event with
  | .fill target => if thread = target then 1 else 0
  | _ => 0

/-- How many sequence numbers have been taken for a thread. -/
def takenIn (history : List (Network threads × Event threads)) (thread : Fin threads) : ℕ :=
  (history.map fun entry ↦ numbersTaken entry.2 thread).sum

/-- One step of any kind. -/
theorem Orderly.step (hports : ∀ thread : Fin threads, kBaseDstPort + thread < 2 ^ 16)
    (h : Orderly taken net) {event : Event threads} (hstep : net.step event = some after) :
    Orderly (fun thread ↦ numbersTaken event thread + taken thread) after := by
  cases event with
  | fill target =>
    have htaken : (fun thread ↦ numbersTaken (.fill target) thread + taken thread) =
        Function.update taken target (taken target + 1) := by
      funext thread
      by_cases hthread : thread = target
      · subst hthread
        rw [numbersTaken, if_pos rfl, Function.update_self, Nat.add_comm]
      · rw [numbersTaken, if_neg hthread, Function.update_of_ne hthread, Nat.zero_add]
    rw [htaken]
    exact h.fill hports hstep
  | post errno =>
    simp only [numbersTaken, Nat.zero_add]
    exact h.post hstep
  | reap found =>
    simp only [numbersTaken, Nat.zero_add]
    exact h.reap hstep
  | act thread action =>
    simp only [numbersTaken, Nat.zero_add]
    exact h.act hstep
  | deliver thread =>
    simp only [numbersTaken, Nat.zero_add]
    exact h.deliver hports hstep
  | drop index =>
    simp only [numbersTaken, Nat.zero_add]
    exact h.drop hstep

variable {rings : Fin threads → Slot → Packet} {history : List (Network threads × Event threads)}

theorem orderly_of_run (hports : ∀ thread : Fin threads, kBaseDstPort + thread < 2 ^ 16)
    (hrun : IsRun rings history net) : Orderly (takenIn history) net :=
  hrun.invariant_history (fun history net ↦ Orderly (takenIn history) net) (orderly_start rings)
    fun _ _ _ _ horderly _ hstep ↦ horderly.step hports hstep

/-- Each packet that a thread looks at is that of its completion and one to this thread, the
sequence numbers that it sees increase as long as the sender's counter has not wrapped, no buffer is
posted twice, and a buffer that is held is not posted and keeps its packet. -/
theorem receivers_in_step (hports : ∀ thread : Fin threads, kBaseDstPort + thread < 2 ^ 16)
    (hrun : IsRun rings history net) (thread : Fin threads) :
    (∀ completion, (net.receivers thread).location = .polled completion ∨
        (net.receivers thread).location = .printed completion ∨
        (net.receivers thread).location = .checked completion →
      (net.receivers thread).buf = completion.packet ∧ completion.packet.receiverThread = thread) ∧
    (net.receivers thread).location ≠ .failed ∧
    (takenIn history thread ≤ 2 ^ 64 →
      ((net.receivers thread).seen.map Packet.seqNum).Pairwise (· < ·)) ∧
    (net.receivers thread).posted.Nodup ∧
    ∀ completion ∈ (net.receivers thread).held,
      completion.slot ∉ (net.receivers thread).posted ∧
        (net.receivers thread).ring completion.slot = completion.packet := by
  have horderly := orderly_of_run hports hrun
  have hinStep := horderly.inStep thread
  have hnodup := hinStep.nodup
  refine ⟨?_, hinStep.not_failed, ?_, (List.nodup_append.mp hnodup).2.1, ?_⟩
  · rintro completion (hlocation | hlocation | hlocation)
    · exact hinStep.current_eq (by rw [hlocation]; rfl) (by rw [hlocation]; rfl)
    · exact hinStep.current_eq (by rw [hlocation]; rfl) (by rw [hlocation]; rfl)
    · exact hinStep.current_eq (by rw [hlocation]; rfl) (by rw [hlocation]; rfl)
  · intro htaken
    have hseen : (net.receivers thread).seen.Sublist (net.packetsTo thread) :=
      (List.sublist_append_left _ _).trans (List.sublist_append_left _ _)
    exact ((horderly.numbered thread).sublist (hseen.map _)).pairwise_lt htaken
  · intro completion hheld
    refine ⟨fun hposted ↦ ?_, hinStep.contents completion hheld⟩
    exact (List.nodup_append.mp hnodup).2.2 _ (List.mem_map_of_mem hheld) _ hposted rfl

/-! ## Runs with one receiver -/

/-- After some run. -/
def Reachable (rings : Fin threads → Slot → Packet) (net : Network threads) : Prop :=
  ∃ history, IsRun rings history net

theorem Reachable.next (h : Reachable rings net) (event : Event threads)
    (hstep : net.step event = some after) : Reachable rings after := by
  obtain ⟨history, hrun⟩ := h
  exact ⟨_, hrun.next trivial hstep⟩

theorem Reachable.act {thread : Fin threads} {receiver receiver' : Receiver}
    (h : Reachable rings (net.setReceiver thread receiver)) (action : Action)
    (hact : receiver.act thread action = some receiver') :
    Reachable rings (net.setReceiver thread receiver') := by
  apply h.next (.act thread action)
  have hself : (net.setReceiver thread receiver).receivers thread = receiver :=
    Function.update_self _ _ _
  have htwice : (net.setReceiver thread receiver).setReceiver thread receiver' =
      net.setReceiver thread receiver' := by
    rw [setReceiver, setReceiver, setReceiver, Function.update_idem]
  rw [step, hself, hact, Option.map_some, htwice]

/-- A turn of the sender with room in its send queue. -/
theorem Reachable.send (h : Reachable rings net) (hlocation : net.sender.location = .filling)
    (hroom : net.sender.outstanding < kSQDepth) (target : Fin threads) :
    Reachable rings { net with
      sender := (net.sender.turn ⟨target, .noMemory, true⟩).1
      wire := net.wire ++ [net.sender.packetFor target] } := by
  have hfill := h.next (.fill target) (by rw [step, if_pos hlocation])
  have hpost : Reachable rings { net with
      sender := { net.sender.fill target with
        location := .checking 0, outstanding := net.sender.outstanding + 1 }
      wire := net.wire ++ [net.sender.packetFor target] } := by
    apply hfill.next (.post .noMemory)
    simp [step, Sender.post, Sender.fill, Sender.packetFor, hroom]
  apply hpost.next (.reap true)
  simp [step, turn_eq, Sender.reap, Sender.fill, Sender.packetFor, hroom]

/-- A packet on its way to a thread that waits for it. -/
theorem Reachable.receive (h : Reachable rings net) {thread : Fin threads} {packet : Packet}
    (hwire : net.wire = [packet]) (hport : packet.dstPort = portOf thread)
    (hthread : packet.receiverThread = thread)
    (hpolling : (net.receivers thread).location = .polling)
    (hcompletions : (net.receivers thread).completions = []) {rest : List Slot}
    (hposted : (net.receivers thread).posted = (net.receivers thread).ringHead :: rest) :
    Reachable rings ({ net with wire := [] }.setReceiver thread
      { net.receivers thread with
        ring := Function.update (net.receivers thread).ring (net.receivers thread).ringHead packet
        ringHead := (net.receivers thread).ringHead + 1
        posted := rest ++ [(net.receivers thread).ringHead]
        seen := (net.receivers thread).seen ++ [packet] }) := by
  generalize hreceiver : net.receivers thread = receiver at *
  have hdeliver : Reachable rings ({ net with wire := [] }.setReceiver thread
      { receiver with
        ring := Function.update receiver.ring receiver.ringHead packet
        posted := rest
        completions := [⟨receiver.ringHead, packet⟩] }) := by
    apply h.next (.deliver thread)
    simp [step, hwire, isFor, hport, hreceiver, Receiver.receive, hposted, hcompletions]
  have hpoll : Reachable rings ({ net with wire := [] }.setReceiver thread
      { receiver with
        location := .polled ⟨receiver.ringHead, packet⟩
        ring := Function.update receiver.ring receiver.ringHead packet
        posted := rest
        completions := [] }) := by
    apply hdeliver.act .poll
    simp [Receiver.act, Receiver.poll, hpolling]
  have hprint : Reachable rings ({ net with wire := [] }.setReceiver thread
      { receiver with
        location := .printed ⟨receiver.ringHead, packet⟩
        ring := Function.update receiver.ring receiver.ringHead packet
        posted := rest
        completions := []
        seen := receiver.seen ++ [packet] }) := by
    apply hpoll.act .print
    simp [Receiver.act, Receiver.print, Receiver.buf]
  have hcheck : Reachable rings ({ net with wire := [] }.setReceiver thread
      { receiver with
        location := .checked ⟨receiver.ringHead, packet⟩
        ring := Function.update receiver.ring receiver.ringHead packet
        posted := rest
        completions := []
        seen := receiver.seen ++ [packet] }) := by
    apply hprint.act .check
    simp [Receiver.act, Receiver.check, Receiver.buf, hthread]
  apply hcheck.act .repost
  simp [Receiver.act, Receiver.repost, hpolling, hcompletions]

/-- One receiver thread, which waits, and nothing under way, after `count` packets. -/
structure Idle (count : ℕ) (net : Network 1) : Prop where
  location : net.sender.location = .filling
  outstanding : net.sender.outstanding = 0
  seqNum : net.sender.seqNum 0 = count % 2 ^ 64
  wire : net.wire = []
  polling : (net.receivers 0).location = .polling
  completions : (net.receivers 0).completions = []
  posted : (net.receivers 0).posted = ringSlots (net.receivers 0).ringHead kRQDepth
  seen : (net.receivers 0).seen.map Packet.seqNum = (List.range count).map (· % 2 ^ 64)

/-- One more packet is sent and received. -/
theorem exists_idle_succ {rings : Fin 1 → Slot → Packet} {net : Network 1} {count : ℕ}
    (h : Reachable rings net) (hidle : Idle count net) :
    ∃ after, Reachable rings after ∧ Idle (count + 1) after := by
  have hroom : net.sender.outstanding < kSQDepth := hidle.outstanding ▸ Nat.succ_pos 511
  have hslots := ringSlots_succ_eq_cons (net.receivers 0).ringHead 511
  have hwire : net.wire ++ [net.sender.packetFor 0] = [net.sender.packetFor 0] := by
    rw [hidle.wire, List.nil_append]
  have hreceived := (h.send hidle.location hroom 0).receive hwire rfl rfl hidle.polling
    hidle.completions (hidle.posted.trans hslots)
  refine ⟨_, hreceived, ?_, ?_, ?_, rfl, hidle.polling, hidle.completions, ?_, ?_⟩
  · change (net.sender.turn _).1.location = _
    rw [turn_eq]
  · change (net.sender.turn _).1.outstanding = _
    rw [turn_outstanding, hidle.outstanding]
    rfl
  · change (net.sender.turn _).1.seqNum 0 = _
    rw [turn_seqNum, Function.update_self, hidle.seqNum, Nat.mod_add_mod]
  · exact (ringSlots_rotate hslots.symm).2
  · change ((net.receivers 0).seen ++ [net.sender.packetFor 0]).map Packet.seqNum = _
    rw [List.map_append, hidle.seen, List.range_succ, List.map_append, List.map_singleton,
      List.map_singleton, Sender.packetFor, hidle.seqNum]

/-- The thread attaches its buffers. -/
theorem reachable_attaching (rings : Fin 1 → Slot → Packet) {i : ℕ} (h : i ≤ kRQDepth) :
    Reachable rings ((start rings).setReceiver 0 { Receiver.start (rings 0) with
      location := .attaching i, posted := ringSlots 0 i }) := by
  induction i with
  | zero =>
    have hstart : (start rings).setReceiver 0 (Receiver.start (rings 0)) = start rings := by
      rw [setReceiver]
      congr
      exact Function.update_eq_self _ _
    change Reachable rings ((start rings).setReceiver 0 (Receiver.start (rings 0)))
    rw [hstart]
    exact ⟨[], Run.start⟩
  | succ i ih =>
    apply (ih (Nat.le_of_succ_le h)).act .attach
    have hslot : (⟨i, h⟩ : Slot) = 0 + Fin.ofNat kRQDepth i := by
      rw [zero_add]
      exact Fin.ext (Nat.mod_eq_of_lt h).symm
    have hi : i < kRQDepth := h
    simp only [Receiver.act, Receiver.attach, hi, dif_pos, ringSlots_succ, hslot]

theorem exists_idle (rings : Fin 1 → Slot → Packet) (count : ℕ) :
    ∃ net, Reachable rings net ∧ Idle count net := by
  induction count with
  | zero =>
    have hattached : Reachable rings ((start rings).setReceiver 0 { Receiver.start (rings 0) with
        location := .polling, posted := ringSlots 0 kRQDepth }) := by
      apply (reachable_attaching rings le_rfl).act .attach
      simp only [Receiver.act, Receiver.attach, lt_irrefl, not_false_eq_true, dif_neg]
    refine ⟨_, hattached, rfl, rfl, rfl, rfl, rfl, rfl, ?_, rfl⟩
    simp only [setReceiver, Function.update_self, Receiver.start]
  | succ count ih =>
    obtain ⟨net, hreachable, hidle⟩ := ih
    exact exists_idle_succ hreachable hidle

/-- The NIC has delivered two packets and the thread has printed them. -/
theorem receivers_in_step_two_packets :
    ∃ history net, IsRun (fun _ _ ↦ formatPacket : Fin 1 → Slot → Packet) history net ∧
      (net.receivers 0).seen.map Packet.seqNum = [0, 1] ∧
      (net.receivers 0).location ≠ .failed ∧ (net.receivers 0).posted.Nodup := by
  obtain ⟨net, ⟨history, hrun⟩, hidle⟩ := exists_idle (fun _ _ ↦ formatPacket) 2
  have hinStep := receivers_in_step (by decide) hrun 0
  exact ⟨history, net, hrun, hidle.seen, hinStep.2.1, hinStep.2.2.2.1⟩

/-- The numbers below a modulus, and one more. -/
theorem not_pairwise_lt_of_wrap {modulus : ℕ} (h : 0 < modulus) :
    ¬ ((List.range (modulus + 1)).map (· % modulus)).Pairwise (· < ·) := by
  intro hpairwise
  rw [List.range_succ, List.map_append, List.map_singleton, Nat.mod_self] at hpairwise
  have hzero : 0 ∈ (List.range modulus).map (· % modulus) :=
    List.mem_map.mpr ⟨0, List.mem_range.mpr h, Nat.zero_mod modulus⟩
  have hlt := (List.pairwise_append.mp hpairwise).2.2 0 hzero 0 (List.mem_singleton_self 0)
  exact lt_irrefl 0 hlt

/-- After enough packets to one thread the sequence numbers that it sees start again. -/
theorem seqNums_wrap :
    ∃ history net, IsRun (fun _ _ ↦ formatPacket : Fin 1 → Slot → Packet) history net ∧
      ¬ ((net.receivers 0).seen.map Packet.seqNum).Pairwise (· < ·) := by
  obtain ⟨net, ⟨history, hrun⟩, hidle⟩ := exists_idle (fun _ _ ↦ formatPacket) (2 ^ 64 + 1)
  refine ⟨history, net, hrun, ?_⟩
  rw [hidle.seen]
  exact not_pairwise_lt_of_wrap (Nat.two_pow_pos 64)

end Network

end Systemish.RawEth
