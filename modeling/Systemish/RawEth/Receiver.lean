import Systemish.Foundation.Ring
import Systemish.RawEth.Sender

/-!
# A raw Ethernet receiver thread

`thread_func` of `receiver.cc` together with its receive queue. A work request carries
no buffer id: the thread finds the buffer of a completion by counting round the ring.
A completion of the model knows its slot and its packet, for the statements; the code
sees neither.
-/

namespace Systemish.RawEth

open Foundation

def kRQDepth : ℕ := 512

instance : NeZero kRQDepth := ⟨Nat.succ_ne_zero 511⟩

/-- A buffer of the ring, by its index. -/
abbrev Slot := Fin kRQDepth

/-- A receive request that the NIC has completed. -/
structure Completion where
  slot : Slot
  packet : Packet

/-- Where a receiver thread is. -/
inductive ReceiverLocation where
  /-- In the loop that attaches the buffers, with this many attached. -/
  | attaching (i : ℕ)
  | polling
  /-- With a completion, in front of the `printf`. -/
  | polled (completion : Completion)
  /-- In front of the assertion. -/
  | printed (completion : Completion)
  /-- In front of `ibv_post_recv`. -/
  | checked (completion : Completion)
  /-- The assertion has failed. -/
  | failed

/-- A receiver thread with its queues, the oldest entries first. `seen` has the packets of the
messages that it has printed. -/
structure Receiver where
  location : ReceiverLocation
  ring : Slot → Packet
  ringHead : Slot
  posted : List Slot
  completions : List Completion
  seen : List Packet

namespace Receiver

/-- After the ring is allocated. -/
def start (ring : Slot → Packet) : Receiver where
  location := .attaching 0
  ring := ring
  ringHead := 0
  posted := []
  completions := []
  seen := []

/-- One turn of the loop that attaches the buffers, or its end. -/
def attach (receiver : Receiver) : Option Receiver :=
  match receiver.location with
  | .attaching i =>
    if h : i < kRQDepth then
      some { receiver with
        location := .attaching (i + 1), posted := receiver.posted ++ [⟨i, h⟩] }
    else some { receiver with location := .polling }
  | _ => none

/-- `ibv_poll_cq`, for one completion. -/
def poll (receiver : Receiver) : Option Receiver :=
  match receiver.location with
  | .polling =>
    match receiver.completions with
    | [] => some receiver
    | completion :: completions =>
      some { receiver with location := .polled completion, completions := completions }
  | _ => none

/-- The buffer that the thread looks at. -/
def buf (receiver : Receiver) : Packet := receiver.ring receiver.ringHead

/-- The `printf`. -/
def print (receiver : Receiver) : Option Receiver :=
  match receiver.location with
  | .polled completion =>
    some { receiver with
      location := .printed completion, seen := receiver.seen ++ [receiver.buf] }
  | _ => none

/-- `assert(data_hdr->receiver_thread == thread_id)`. -/
def check (receiver : Receiver) (threadId : ℕ) : Option Receiver :=
  match receiver.location with
  | .printed completion =>
    if receiver.buf.receiverThread = threadId then
      some { receiver with location := .checked completion }
    else some { receiver with location := .failed }
  | _ => none

/-- `ibv_post_recv`, and the step round the ring. -/
def repost (receiver : Receiver) : Option Receiver :=
  match receiver.location with
  | .checked _ =>
    some { receiver with
      location := .polling
      posted := receiver.posted ++ [receiver.ringHead]
      ringHead := receiver.ringHead + 1 }
  | _ => none

/-- The NIC writes a packet into the oldest posted buffer and completes the request. -/
def receive (receiver : Receiver) (packet : Packet) : Option Receiver :=
  match receiver.posted with
  | [] => none
  | slot :: posted =>
    some { receiver with
      ring := Function.update receiver.ring slot packet
      posted := posted
      completions := receiver.completions ++ [⟨slot, packet⟩] }

end Receiver

/-! ## The ring and the queues are in step -/

/-- The completion that the thread is busy with. -/
def ReceiverLocation.current : ReceiverLocation → List Completion
  | .attaching _ => []
  | .polling => []
  | .polled completion => [completion]
  | .printed completion => [completion]
  | .checked completion => [completion]
  | .failed => []

/-- The completion whose message is not printed yet. -/
def ReceiverLocation.unprinted : ReceiverLocation → List Completion
  | .attaching _ => []
  | .polling => []
  | .polled completion => [completion]
  | .printed _ => []
  | .checked _ => []
  | .failed => []

/-- The number of buffers attached. -/
def ReceiverLocation.attached : ReceiverLocation → ℕ
  | .attaching i => i
  | .polling => kRQDepth
  | .polled _ => kRQDepth
  | .printed _ => kRQDepth
  | .checked _ => kRQDepth
  | .failed => kRQDepth

namespace Receiver

/-- The requests that are completed and whose buffers are not posted again. -/
def held (receiver : Receiver) : List Completion :=
  receiver.location.current ++ receiver.completions

/-- The packets that the thread has printed or will print, in order. -/
def stream (receiver : Receiver) : List Packet :=
  receiver.seen ++ (receiver.location.unprinted ++ receiver.completions).map Completion.packet

/-- The buffers that are held and those that are posted are, in this order, the slots of the ring
from `ring_head` on, and each buffer that is held has the packet of its completion in it, which is
one to this thread. -/
structure InStep (threadId : ℕ) (receiver : Receiver) : Prop where
  slots : receiver.held.map Completion.slot ++ receiver.posted =
    ringSlots receiver.ringHead receiver.location.attached
  attached_le : receiver.location.attached ≤ kRQDepth
  ringHead_eq : ∀ i, receiver.location = .attaching i → receiver.ringHead = 0
  contents : ∀ completion ∈ receiver.held, receiver.ring completion.slot = completion.packet
  addressed : ∀ completion ∈ receiver.held, completion.packet.receiverThread = threadId
  not_failed : receiver.location ≠ .failed

variable {threadId : ℕ} {receiver after : Receiver}

theorem inStep_start (threadId : ℕ) (ring : Slot → Packet) : InStep threadId (start ring) where
  slots := rfl
  attached_le := Nat.zero_le _
  ringHead_eq _ _ := rfl
  contents _ h := absurd h List.not_mem_nil
  addressed _ h := absurd h List.not_mem_nil
  not_failed := ReceiverLocation.noConfusion

namespace InStep

theorem nodup (h : InStep threadId receiver) :
    (receiver.held.map Completion.slot ++ receiver.posted).Nodup := by
  rw [h.slots]
  exact ringSlots_nodup _ h.attached_le

/-- The buffer that the thread looks at is the one of its completion. -/
theorem current_eq (h : InStep threadId receiver) {completion : Completion}
    (hcurrent : receiver.location.current = [completion])
    (hattached : receiver.location.attached = kRQDepth) :
    receiver.buf = completion.packet ∧ completion.packet.receiverThread = threadId := by
  have hmem : completion ∈ receiver.held := by
    rw [held, hcurrent]
    exact List.mem_cons_self
  have hslots := h.slots
  rw [held, hcurrent, hattached, List.singleton_append, List.map_cons, List.cons_append] at hslots
  refine ⟨?_, h.addressed completion hmem⟩
  rw [buf, ← (ringSlots_rotate hslots).1, h.contents completion hmem]

/-- A step that leaves the ring, the posted buffers and the held ones as they are. -/
theorem congr (h : InStep threadId receiver) (hheld : after.held = receiver.held)
    (hposted : after.posted = receiver.posted) (hring : after.ring = receiver.ring)
    (hhead : after.ringHead = receiver.ringHead)
    (hattached : after.location.attached = receiver.location.attached)
    (hattaching : ∀ i, after.location ≠ .attaching i) (hfailed : after.location ≠ .failed) :
    InStep threadId after where
  slots := by rw [hheld, hposted, hhead, hattached, h.slots]
  attached_le := hattached ▸ h.attached_le
  ringHead_eq i hi := absurd hi (hattaching i)
  contents := by
    rw [hheld, hring]
    exact h.contents
  addressed := by
    rw [hheld]
    exact h.addressed
  not_failed := hfailed

theorem attach (h : InStep threadId receiver) (hstep : receiver.attach = some after) :
    InStep threadId after ∧ after.stream = receiver.stream := by
  rw [Receiver.attach] at hstep
  split at hstep
  · next i hlocation =>
    have hhead := h.ringHead_eq i hlocation
    have hheld : receiver.held = receiver.completions := by
      rw [held, hlocation, ReceiverLocation.current, List.nil_append]
    have hstream : receiver.stream =
        receiver.seen ++ receiver.completions.map Completion.packet := by
      rw [stream, hlocation, ReceiverLocation.unprinted, List.nil_append]
    have hslots := h.slots
    rw [hheld, hlocation] at hslots
    split at hstep
    · next hi =>
      obtain rfl := Option.some.inj hstep
      have hnew : (⟨i, hi⟩ : Slot) = receiver.ringHead + Fin.ofNat kRQDepth i := by
        rw [hhead, zero_add]
        exact Fin.ext (Nat.mod_eq_of_lt hi).symm
      refine ⟨⟨?_, hi, fun _ _ ↦ hhead, ?_, ?_, ReceiverLocation.noConfusion⟩, hstream.symm⟩
      · change receiver.completions.map Completion.slot ++ (receiver.posted ++ [⟨i, hi⟩]) =
          ringSlots receiver.ringHead (i + 1)
        rw [← List.append_assoc, hslots, hnew, ringSlots_succ]
        rfl
      · exact hheld ▸ h.contents
      · exact hheld ▸ h.addressed
    · next hi =>
      obtain rfl := Option.some.inj hstep
      have hfull : i = kRQDepth := by
        have hle := h.attached_le
        rw [hlocation] at hle
        exact Nat.le_antisymm hle (Nat.not_lt.mp hi)
      refine ⟨h.congr ?_ rfl rfl rfl ?_ ?_ ReceiverLocation.noConfusion, hstream.symm⟩
      · exact hheld.symm
      · rw [hlocation, hfull]
        rfl
      · exact fun _ ↦ ReceiverLocation.noConfusion
  · exact absurd hstep (Option.some_ne_none after).symm

theorem poll (h : InStep threadId receiver) (hstep : receiver.poll = some after) :
    InStep threadId after ∧ after.stream = receiver.stream := by
  rw [Receiver.poll] at hstep
  split at hstep
  · next hlocation =>
    split at hstep
    · obtain rfl := Option.some.inj hstep
      exact ⟨h, rfl⟩
    · next completion completions hcompletions =>
      obtain rfl := Option.some.inj hstep
      refine ⟨h.congr ?_ rfl rfl rfl ?_ ?_ ReceiverLocation.noConfusion, ?_⟩
      · rw [held, held, hlocation, hcompletions]
        rfl
      · rw [hlocation]
        rfl
      · exact fun _ ↦ ReceiverLocation.noConfusion
      · rw [stream, stream, hlocation, hcompletions]
        rfl
  · exact absurd hstep (Option.some_ne_none after).symm

theorem print (h : InStep threadId receiver) (hstep : receiver.print = some after) :
    InStep threadId after ∧ after.stream = receiver.stream := by
  rw [Receiver.print] at hstep
  split at hstep
  · next completion hlocation =>
    obtain rfl := Option.some.inj hstep
    have hcurrent : receiver.location.current = [completion] := by
      rw [hlocation]
      rfl
    have hbuf := (h.current_eq hcurrent (by rw [hlocation]; rfl)).1
    refine ⟨h.congr ?_ rfl rfl rfl ?_ ?_ ReceiverLocation.noConfusion, ?_⟩
    · rw [held, held, hlocation]
      rfl
    · rw [hlocation]
      rfl
    · exact fun _ ↦ ReceiverLocation.noConfusion
    · rw [stream, stream, hlocation, hbuf, List.append_assoc]
      rfl
  · exact absurd hstep (Option.some_ne_none after).symm

theorem check (h : InStep threadId receiver) (hstep : receiver.check threadId = some after) :
    InStep threadId after ∧ after.stream = receiver.stream := by
  rw [Receiver.check] at hstep
  split at hstep
  · next completion hlocation =>
    have hcurrent : receiver.location.current = [completion] := by
      rw [hlocation]
      rfl
    obtain ⟨hbuf, hthread⟩ := h.current_eq hcurrent (by rw [hlocation]; rfl)
    rw [hbuf, if_pos hthread] at hstep
    obtain rfl := Option.some.inj hstep
    refine ⟨h.congr ?_ rfl rfl rfl ?_ ?_ ReceiverLocation.noConfusion, ?_⟩
    · rw [held, held, hlocation]
      rfl
    · rw [hlocation]
      rfl
    · exact fun _ ↦ ReceiverLocation.noConfusion
    · rw [stream, stream, hlocation]
      rfl
  · exact absurd hstep (Option.some_ne_none after).symm

theorem repost (h : InStep threadId receiver) (hstep : receiver.repost = some after) :
    InStep threadId after ∧ after.stream = receiver.stream := by
  rw [Receiver.repost] at hstep
  split at hstep
  · next completion hlocation =>
    obtain rfl := Option.some.inj hstep
    have hheld : receiver.held = completion :: receiver.completions := by
      rw [held, hlocation]
      rfl
    have hslots := h.slots
    rw [hheld, hlocation, List.map_cons, List.cons_append] at hslots
    obtain ⟨hslot, hround⟩ := ringSlots_rotate hslots
    have hrest : ∀ other ∈ receiver.completions, other ∈ receiver.held := by
      intro other hother
      rw [hheld]
      exact List.mem_cons_of_mem _ hother
    refine ⟨⟨?_, le_rfl, ?_, ?_, ?_, ReceiverLocation.noConfusion⟩, ?_⟩
    · rw [hslot, List.append_assoc] at hround
      exact hround
    · exact fun _ ↦ ReceiverLocation.noConfusion
    · exact fun other hother ↦ h.contents other (hrest other hother)
    · exact fun other hother ↦ h.addressed other (hrest other hother)
    · rw [stream, stream, hlocation]
      rfl
  · exact absurd hstep (Option.some_ne_none after).symm

theorem receive (h : InStep threadId receiver) {packet : Packet}
    (hpacket : packet.receiverThread = threadId) (hstep : receiver.receive packet = some after) :
    InStep threadId after ∧ after.stream = receiver.stream ++ [packet] := by
  rw [Receiver.receive] at hstep
  split at hstep
  · exact absurd hstep (Option.some_ne_none after).symm
  · next slot posted hposted =>
    obtain rfl := Option.some.inj hstep
    have hnodup := h.nodup
    have hslots := h.slots
    rw [hposted] at hnodup hslots
    -- the buffer written is not one of those that are held
    have hfree : ∀ completion ∈ receiver.held, completion.slot ≠ slot := by
      intro completion hmem heq
      have hdisjoint := (List.nodup_append.mp hnodup).2.2
      exact hdisjoint _ (List.mem_map_of_mem hmem) _ List.mem_cons_self heq
    refine ⟨⟨?_, h.attached_le, h.ringHead_eq, ?_, ?_, h.not_failed⟩, ?_⟩
    · rw [held, ← List.append_assoc, List.map_append, List.append_assoc]
      exact hslots
    · intro completion hmem
      rw [held, ← List.append_assoc] at hmem
      rcases List.mem_append.mp hmem with hold | hnew
      · exact (Function.update_of_ne (hfree completion hold) _ _).trans
          (h.contents completion hold)
      · rw [List.mem_singleton.mp hnew]
        exact Function.update_self _ _ _
    · intro completion hmem
      rw [held, ← List.append_assoc] at hmem
      rcases List.mem_append.mp hmem with hold | hnew
      · exact h.addressed completion hold
      · rw [List.mem_singleton.mp hnew]
        exact hpacket
    · rw [stream, stream, ← List.append_assoc, List.map_append, ← List.append_assoc]
      rfl

end InStep

end Receiver

end Systemish.RawEth
