import Systemish.Spdlog.MpmcQueue

/-!
# The queue as a ring with tickets

A position of the queue is a ticket: `enqueue_pos_` and `dequeue_pos_` count the tickets that were
drawn and taken, and `sequence_` of a cell says whose turn it is. A thread that has seen its turn
and then wins its position holds the ticket alone, though what it has seen may be old.
-/

namespace Systemish.Spdlog

open Foundation

variable {T : Type} {n : ℕ}

namespace Operation

/-- The phase of a position before the access of the data. -/
def accessing : Operation T → Phase
  | .enqueue _ => .writing
  | .dequeue => .reading

/-- The phase of a position after the access of the data. -/
def accessed : Operation T → Phase
  | .enqueue _ => .written
  | .dequeue => .read

/-- The phase of a position after the call. -/
def finished : Operation T → Phase
  | .enqueue _ => .published
  | .dequeue => .released

/-- How many positions were won by such calls. -/
def count (op : Operation T) (ring : TicketRing T) : ℕ :=
  match op with
  | .enqueue _ => ring.sent.length
  | .dequeue => ring.taken

/-- An `enqueue` carries what was sent at the position. -/
def Carries (op : Operation T) (sent : List T) (ticket : ℕ) : Prop :=
  match op with
  | .enqueue data => sent[ticket]? = some data
  | .dequeue => True

end Operation

/-- The position that a thread holds. -/
def Point.ticket : Point T → Option ℕ
  | .access _ pos _ => some pos.toNat
  | .publish _ pos _ _ => some pos.toNat
  | _ => none

/-- The counters are the numbers of tickets. -/
structure Counts (n : ℕ) (ring : TicketRing T) (queue : Queue T) : Prop where
  index : ∀ pos, queue.index pos = pos.toNat % n
  mask : queue.bufferMask.toNat + 1 = n
  enqueuePos : queue.enqueuePos.current.toNat = ring.sent.length
  dequeuePos : queue.dequeuePos.current.toNat = ring.taken
  enqueue_le : ∀ pos ∈ queue.enqueuePos.values, pos.toNat ≤ ring.sent.length
  dequeue_le : ∀ pos ∈ queue.dequeuePos.values, pos.toNat ≤ ring.taken

/-- A value that `sequence_` has had gave the turn to the producer of a ticket or to its consumer.
If the access of the data is still to come, its stamp tells of all accesses so far. -/
def Explained (n : ℕ) (ring : TicketRing T) (cell : Cell T) (i : ℕ) (seen : Stamped) : Prop :=
  ∃ ticket, ticket % n = i ∧
    (seen.value.toNat = ticket ∧ ring.Open n ticket ∧
        (ring.phase ticket = .fresh ∨ ring.phase ticket = .writing →
          seen.accesses = cell.accesses) ∨
      seen.value.toNat = ticket + 1 ∧ (ring.phase ticket).Ready ∧
        (ring.phase ticket = .published ∨ ring.phase ticket = .reading →
          seen.accesses = cell.accesses))

/-- The value of a ticket is in its cell. -/
def InCell (phase : Phase) : Prop := phase = .written ∨ phase = .published ∨ phase = .reading

/-- What the cells hold. -/
structure Cells (n : ℕ) (ring : TicketRing T) (queue : Queue T) : Prop where
  turn : ∀ ticket, ring.Open n ticket → ring.phase ticket ≠ .released →
    (queue.buffer (ticket % n)).sequence.current.value.toNat = (ring.phase ticket).turn n ticket
  explained : ∀ i < n, ∀ seen ∈ (queue.buffer i).sequence.values,
    Explained n ring (queue.buffer i) i seen
  data : ∀ ticket, InCell (ring.phase ticket) →
    ring.sent[ticket]? = some (queue.buffer (ticket % n)).data

/-- What is true where a thread is. -/
def PointHolds (n : ℕ) (ring : TicketRing T) (queue : Queue T) : Point T → Prop
  | .idle _ => True
  | .load _ => True
  | .sequence op pos => pos.toNat ≤ op.count ring
  | .exchange op pos accesses => pos.toNat ≤ op.count ring ∧
      ⟨op.expected pos, accesses⟩ ∈ (queue.buffer (pos.toNat % n)).sequence.values
  | .access op pos accesses => ring.phase pos.toNat = op.accessing ∧
      op.Carries ring.sent pos.toNat ∧ (queue.buffer (pos.toNat % n)).accesses = accesses
  | .publish op pos data accesses => ring.phase pos.toNat = op.accessed ∧
      ring.sent[pos.toNat]? = some data ∧ (queue.buffer (pos.toNat % n)).accesses = accesses
  | .raced => False

/-! ## One ticket moves on -/

/-- A ticket enters a phase. Only its cell changes, and its atomic keeps what it has had. -/
structure Moves (n : ℕ) (ring ring' : TicketRing T) (queue queue' : Queue T) (ticket : ℕ)
    (phase : Phase) : Prop where
  isOpen : ring.Open n ticket
  not_released : ring.phase ticket ≠ .released
  phase_eq : ∀ other, ring'.phase other = if other = ticket then phase else ring.phase other
  sent : ring.sent <+: ring'.sent
  taken : ring.taken ≤ ring'.taken
  buffer : ∀ i, i ≠ ticket % n → queue'.buffer i = queue.buffer i
  values : ∀ seen ∈ (queue.buffer (ticket % n)).sequence.values,
    seen ∈ (queue'.buffer (ticket % n)).sequence.values

namespace Moves

variable {ring ring' : TicketRing T} {queue queue' : Queue T} {ticket other : ℕ} {phase : Phase}

/-- A ticket enters a phase as its cell is written to. -/
theorem of_update {cell : Cell T} (hopen : ring.Open n ticket)
    (hreleased : ring.phase ticket ≠ .released)
    (hvalues : ∀ seen ∈ (queue.buffer (ticket % n)).sequence.values, seen ∈ cell.sequence.values) :
    Moves n ring (ring.enter ticket phase) queue (queue.update (ticket % n) cell) ticket phase where
  isOpen := hopen
  not_released := hreleased
  phase_eq _ := TicketRing.phase_enter ..
  sent := List.prefix_rfl
  taken := le_rfl
  buffer _ hi := queue.buffer_update_of_ne hi cell
  values seen hseen := by
    rw [Queue.buffer_update_self]
    exact hvalues seen hseen

theorem phase_self (h : Moves n ring ring' queue queue' ticket phase) :
    ring'.phase ticket = phase := by
  rw [h.phase_eq, if_pos rfl]

theorem phase_of_ne (h : Moves n ring ring' queue queue' ticket phase) (hne : other ≠ ticket) :
    ring'.phase other = ring.phase other := by
  rw [h.phase_eq, if_neg hne]

theorem sent_eq {value : T} (h : Moves n ring ring' queue queue' ticket phase)
    (hvalue : ring.sent[other]? = some value) : ring'.sent[other]? = some value := by
  obtain ⟨rest, hrest⟩ := h.sent
  rw [← hrest, List.getElem?_append_left (List.getElem?_eq_some_iff.mp hvalue).1]
  exact hvalue

theorem released (h : Moves n ring ring' queue queue' ticket phase)
    (hreleased : ring.phase other = .released) : ring'.phase other = .released := by
  rw [h.phase_of_ne]
  · exact hreleased
  · rintro rfl
    exact h.not_released hreleased

theorem open_of_open (h : Moves n ring ring' queue queue' ticket phase)
    (hopen : ring.Open n other) : ring'.Open n other := fun hle ↦ h.released (hopen hle)

/-- No other ticket for the slot is at work. -/
theorem slot_ne (h : Moves n ring ring' queue queue' ticket phase) (hvalid : ring.Valid n)
    (hn : 0 < n) (hopen : ring.Open n other) (hphase : ring.phase other ≠ .released)
    (hne : other ≠ ticket) : other % n ≠ ticket % n := fun hslot ↦
  hne (hvalid.eq_of_isOpen hn h.isOpen hopen h.not_released hphase hslot)

/-- A value that the cell of the ticket has had stays explained. -/
theorem explained (h : Moves n ring ring' queue queue' ticket phase) (hvalid : ring.Valid n)
    (hn : 0 < n) {seen : Stamped}
    (hseen : Explained n ring (queue.buffer (ticket % n)) (ticket % n) seen)
    (hfirst : phase = .fresh ∨ phase = .writing → ring.phase ticket = .fresh ∧
      (queue'.buffer (ticket % n)).accesses = (queue.buffer (ticket % n)).accesses)
    (hready : (ring.phase ticket).Ready → phase.Ready)
    (hsecond : phase = .published ∨ phase = .reading → (ring.phase ticket).Ready →
      ring.phase ticket = .published ∧
        (queue'.buffer (ticket % n)).accesses = (queue.buffer (ticket % n)).accesses) :
    Explained n ring' (queue'.buffer (ticket % n)) (ticket % n) seen := by
  obtain ⟨other, hslot, hother⟩ := hseen
  refine ⟨other, hslot, ?_⟩
  by_cases heq : other = ticket
  · subst heq
    rw [h.phase_self]
    refine hother.imp ?_ ?_
    · rintro ⟨hvalue, hopen, hstamp⟩
      refine ⟨hvalue, h.open_of_open hopen, fun hphase ↦ ?_⟩
      obtain ⟨hfresh, haccesses⟩ := hfirst hphase
      rw [haccesses]
      exact hstamp (.inl hfresh)
    · rintro ⟨hvalue, hold, hstamp⟩
      refine ⟨hvalue, hready hold, fun hphase ↦ ?_⟩
      obtain ⟨hpublished, haccesses⟩ := hsecond hphase hold
      rw [haccesses]
      exact hstamp (.inl hpublished)
  · rw [h.phase_of_ne heq]
    refine hother.imp ?_ ?_
    · rintro ⟨hvalue, hopen, -⟩
      refine ⟨hvalue, h.open_of_open hopen, fun hphase ↦ ?_⟩
      have hreleased : ring.phase other ≠ .released := by
        rcases hphase with hphase | hphase <;> simp [hphase]
      exact absurd hslot (h.slot_ne hvalid hn hopen hreleased heq)
    · rintro ⟨hvalue, hold, -⟩
      refine ⟨hvalue, hold, fun hphase ↦ ?_⟩
      have hreleased : ring.phase other ≠ .released := by
        rcases hphase with hphase | hphase <;> simp [hphase]
      have hopen := hvalid.isOpen other (by rcases hphase with hphase | hphase <;> simp [hphase])
      exact absurd hslot (h.slot_ne hvalid hn hopen hreleased heq)

theorem cells (h : Moves n ring ring' queue queue' ticket phase) (hvalid : ring.Valid n)
    (hn : 0 < n) (hcells : Cells n ring queue)
    (hturn : (queue'.buffer (ticket % n)).sequence.current.value.toNat = phase.turn n ticket)
    (hexplained : ∀ seen ∈ (queue'.buffer (ticket % n)).sequence.values,
      Explained n ring' (queue'.buffer (ticket % n)) (ticket % n) seen)
    (hdata : InCell phase → ring'.sent[ticket]? = some (queue'.buffer (ticket % n)).data) :
    Cells n ring' queue' where
  turn other hopen hphase := by
    by_cases heq : other = ticket
    · subst heq
      rw [hturn, h.phase_self]
    · rw [h.phase_of_ne heq] at hphase ⊢
      by_cases hopen' : ring.Open n other
      · rw [h.buffer _ (h.slot_ne hvalid hn hopen' hphase heq)]
        exact hcells.turn other hopen' hphase
      · -- the ticket has just opened the way for the one a round later
        have hfresh : ring.phase other = .fresh := by
          by_contra hne
          exact hopen' (hvalid.isOpen other hne)
        rw [TicketRing.Open, Classical.not_imp] at hopen'
        obtain ⟨hle, hnot⟩ := hopen'
        have hreleased := hopen hle
        rw [h.phase_eq] at hreleased
        split_ifs at hreleased with hticket
        · subst hreleased
          have hslot : other % n = ticket % n := by
            rw [Nat.mod_eq_sub_mod hle, hticket]
          rw [hslot, hturn, hfresh, Phase.turn, Phase.turn, ← hticket, Nat.sub_add_cancel hle]
        · exact absurd hreleased hnot
  explained i hi seen hseen := by
    by_cases heq : i = ticket % n
    · subst heq
      exact hexplained seen hseen
    · rw [h.buffer i heq] at hseen ⊢
      obtain ⟨other, hslot, hother⟩ := hcells.explained i hi seen hseen
      refine ⟨other, hslot, ?_⟩
      have hne : other ≠ ticket := by
        rintro rfl
        exact heq hslot.symm
      rw [h.phase_of_ne hne]
      exact hother.imp_left fun ⟨hvalue, hopen, hstamp⟩ ↦ ⟨hvalue, h.open_of_open hopen, hstamp⟩
  data other hcell := by
    by_cases heq : other = ticket
    · subst heq
      exact hdata (h.phase_self ▸ hcell)
    · rw [h.phase_of_ne heq] at hcell
      have hphases : ring.phase other ≠ .released ∧ ring.phase other ≠ .fresh := by
        rcases hcell with hphase | hphase | hphase <;> simp [hphase]
      have hopen := hvalid.isOpen other hphases.2
      rw [h.buffer _ (h.slot_ne hvalid hn hopen hphases.1 heq)]
      exact h.sent_eq (hcells.data other hcell)

/-- Threads that do not hold the ticket do not notice. -/
theorem pointHolds (h : Moves n ring ring' queue queue' ticket phase) (hvalid : ring.Valid n)
    (hn : 0 < n) {point : Point T} (hpoint : PointHolds n ring queue point)
    (hticket : point.ticket ≠ some ticket) : PointHolds n ring' queue' point := by
  have hcount (op : Operation T) : op.count ring ≤ op.count ring' := by
    cases op with
    | enqueue data => exact h.sent.length_le
    | dequeue => exact h.taken
  cases point with
  | idle last => trivial
  | load op => trivial
  | raced => exact hpoint
  | sequence op pos => exact le_trans hpoint (hcount op)
  | exchange op pos accesses =>
    refine ⟨hpoint.1.trans (hcount op), ?_⟩
    by_cases heq : pos.toNat % n = ticket % n
    · rw [heq]
      exact h.values _ (heq ▸ hpoint.2)
    · rw [h.buffer _ heq]
      exact hpoint.2
  | access op pos accesses =>
    obtain ⟨hphase, hcarries, haccesses⟩ := hpoint
    have hne : pos.toNat ≠ ticket := fun heq ↦ hticket (congrArg some heq)
    have hphases : ring.phase pos.toNat ≠ .released ∧ ring.phase pos.toNat ≠ .fresh := by
      cases op <;> simp [hphase, Operation.accessing]
    have hslot := h.slot_ne hvalid hn (hvalid.isOpen _ hphases.2) hphases.1 hne
    refine ⟨(h.phase_of_ne hne).trans hphase, ?_, ?_⟩
    · cases op with
      | enqueue data => exact h.sent_eq hcarries
      | dequeue => trivial
    · rw [h.buffer _ hslot]
      exact haccesses
  | publish op pos data accesses =>
    obtain ⟨hphase, hdata, haccesses⟩ := hpoint
    have hne : pos.toNat ≠ ticket := fun heq ↦ hticket (congrArg some heq)
    have hphases : ring.phase pos.toNat ≠ .released ∧ ring.phase pos.toNat ≠ .fresh := by
      cases op <;> simp [hphase, Operation.accessed]
    have hslot := h.slot_ne hvalid hn (hvalid.isOpen _ hphases.2) hphases.1 hne
    refine ⟨(h.phase_of_ne hne).trans hphase, h.sent_eq hdata, ?_⟩
    rw [h.buffer _ hslot]
    exact haccesses

end Moves

end Systemish.Spdlog
