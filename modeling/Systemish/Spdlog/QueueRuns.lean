import Systemish.Spdlog.QueueTickets

/-!
# Runs of the queue

Every step of a thread leaves the tickets as they are or moves one ticket on. So the queue is never
overfull, no data is lost, duplicated or torn, and data comes out in the order of the positions at
which it went in. The positions are assumed to stay below `2 ^ 63`.
-/

namespace Systemish.Spdlog

open Foundation

variable {T : Type} {n : ℕ} {ring : TicketRing T} {queue : Queue T} {op : Operation T}
  {pos : Word} {accesses : ℕ}

/-! ## Steps of a thread that holds a position -/

theorem toNat_add_one (h : pos.toNat + 1 < 2 ^ 64) : (pos + 1).toNat = pos.toNat + 1 :=
  BitVec.toNat_add_of_lt (y := 1) h

theorem succ_mod_ne (hn : 2 ≤ n) (k : ℕ) : (k + 1) % n ≠ k % n := by
  intro h
  have hdvd : n ∣ k + 1 - k := (Nat.modEq_iff_dvd' (Nat.le_succ k)).mp h.symm
  rw [Nat.add_sub_cancel_left, Nat.dvd_one] at hdvd
  omega

/-- The next value of `sequence_` is the turn of the phase after the call. -/
theorem Counts.toNat_next (h : Counts n ring queue) (hpos : pos.toNat + n < 2 ^ 64) (hn : 2 ≤ n)
    (op : Operation T) :
    (op.next queue.bufferMask pos).toNat = op.finished.turn n pos.toNat := by
  have hmask := h.mask
  cases op with
  | enqueue data => exact toNat_add_one (by omega)
  | dequeue =>
    have hadd : (pos + queue.bufferMask).toNat = pos.toNat + queue.bufferMask.toNat :=
      BitVec.toNat_add_of_lt (by omega)
    change (pos + queue.bufferMask + 1).toNat = pos.toNat + n
    rw [toNat_add_one (by omega), hadd]
    omega

/-- The state after a step that moves a ticket on. -/
structure Advanced (n : ℕ) (ring ring' : TicketRing T) (queue queue' : Queue T) (ticket : ℕ)
    (before phase : Phase) (point : Point T) : Prop where
  phase_eq : ring.phase ticket = before
  moves : Moves n ring ring' queue queue' ticket phase
  valid : ring'.Valid n
  counts : Counts n ring' queue'
  cells : Cells n ring' queue'
  point : PointHolds n ring' queue' point

section Threads

variable (hvalid : ring.Valid n) (hcounts : Counts n ring queue) (hcells : Cells n ring queue)
  (hn : 2 ≤ n) (hbound : ring.sent.length + n < 2 ^ 63)

include hcells hn in
/-- A producer that has seen its turn may draw its ticket, though what it saw may be old. -/
theorem open_of_seen {data : T}
    (hpoint : PointHolds n ring queue (.exchange (.enqueue data) pos accesses)) :
    ring.Open n pos.toNat ∧
      (ring.phase pos.toNat = .fresh ∨ ring.phase pos.toNat = .writing →
        accesses = (queue.buffer (pos.toNat % n)).accesses) := by
  obtain ⟨ticket, hslot, ⟨hvalue, h⟩ | ⟨hvalue, -⟩⟩ :=
    hcells.explained (pos.toNat % n) (Nat.mod_lt _ (by omega)) _ hpoint.2
  · change pos.toNat = ticket at hvalue
    rw [hvalue] at h ⊢
    exact h
  · change pos.toNat = ticket + 1 at hvalue
    rw [hvalue] at hslot
    exact absurd hslot.symm (succ_mod_ne hn ticket)

include hvalid hcells hn hbound in
/-- A consumer that has seen its turn finds the ticket ready. -/
theorem ready_of_seen
    (hpoint : PointHolds n ring queue (.exchange .dequeue pos accesses)) :
    (ring.phase pos.toNat).Ready ∧
      (ring.phase pos.toNat = .published ∨ ring.phase pos.toNat = .reading →
        accesses = (queue.buffer (pos.toNat % n)).accesses) := by
  have hle : pos.toNat ≤ ring.sent.length := hpoint.1.trans hvalid.taken_le
  have hexpected : (pos + 1).toNat = pos.toNat + 1 := toNat_add_one (by omega)
  obtain ⟨ticket, hslot, ⟨hvalue, -⟩ | ⟨hvalue, h⟩⟩ :=
    hcells.explained (pos.toNat % n) (Nat.mod_lt _ (by omega)) _ hpoint.2
  · change (pos + 1).toNat = ticket at hvalue
    rw [← hvalue, hexpected] at hslot
    exact absurd hslot (succ_mod_ne hn _)
  · change (pos + 1).toNat = ticket + 1 at hvalue
    obtain rfl : pos.toNat = ticket := by omega
    exact h

include hvalid hcounts hcells hn hbound

/-- An `enqueue` that wins a position draws its ticket. -/
theorem advanced_enqueue {data : T}
    (hpoint : PointHolds n ring queue (.exchange (.enqueue data) pos accesses))
    (hcurrent : queue.enqueuePos.current = pos) :
    Advanced n ring (ring.draw data) queue (queue.claim (.enqueue data) pos) pos.toNat .fresh
      .writing (.access (.enqueue data) pos accesses) := by
  have hpos : pos.toNat = ring.sent.length := by rw [← hcurrent, hcounts.enqueuePos]
  have hfresh : ring.phase pos.toNat = .fresh := (hvalid.fresh_iff _).mpr hpos.ge
  obtain ⟨hopen, haccesses⟩ := open_of_seen hcells hn hpoint
  have hnext : (pos + 1).toNat = ring.sent.length + 1 := by
    rw [toNat_add_one (by omega), hpos]
  have hmoves : Moves n ring (ring.draw data) queue (queue.claim (.enqueue data) pos) pos.toNat
      .writing :=
    { isOpen := hopen
      not_released := by simp [hfresh]
      phase_eq := fun other ↦ by rw [TicketRing.phase_draw, hpos]
      sent := List.prefix_append _ _
      taken := le_rfl
      buffer := fun _ _ ↦ rfl
      values := fun _ hseen ↦ hseen }
  have hturn := hcells.turn _ hopen (by simp [hfresh])
  rw [hfresh] at hturn
  refine ⟨hfresh, hmoves, ?_, ?_, ?_, hmoves.phase_self, ?_, (haccesses (.inl hfresh)).symm⟩
  · exact hvalid.step (.draw data (hpos ▸ hopen))
  · refine ⟨hcounts.index, hcounts.mask, ?_, hcounts.dequeuePos, ?_, hcounts.dequeue_le⟩
    · rw [TicketRing.length_draw]
      exact hnext
    · intro other hother
      rw [TicketRing.length_draw]
      rcases List.mem_cons.mp hother with rfl | hold
      · exact hnext.le
      · exact (hcounts.enqueue_le other hold).trans (Nat.le_succ _)
  · apply hmoves.cells hvalid (by omega) hcells hturn
    · intro seen hseen
      apply hmoves.explained hvalid (by omega)
        (hcells.explained _ (Nat.mod_lt _ (by omega)) seen hseen)
      · exact fun _ ↦ ⟨hfresh, rfl⟩
      · simp [hfresh, Phase.Ready, Phase.Taken]
      · simp
    · simp [InCell]
  · change (ring.sent ++ [data])[pos.toNat]? = some data
    rw [hpos, List.getElem?_concat_length]

/-- A `dequeue` that wins a position takes its ticket. -/
theorem advanced_dequeue
    (hpoint : PointHolds n ring queue (.exchange .dequeue pos accesses))
    (hcurrent : queue.dequeuePos.current = pos) :
    Advanced n ring ring.take queue (queue.claim .dequeue pos) pos.toNat .published .reading
      (.access .dequeue pos accesses) := by
  have hpos : pos.toNat = ring.taken := by rw [← hcurrent, hcounts.dequeuePos]
  have hle := hvalid.taken_le
  obtain ⟨hready, haccesses⟩ := ready_of_seen hvalid hcells hn hbound hpoint
  have hpublished : ring.phase pos.toNat = .published :=
    hready.resolve_right fun htaken ↦ ((hvalid.taken_iff _).mp htaken).ne hpos
  have hopen := hvalid.isOpen pos.toNat (by simp [hpublished])
  have hnext : (pos + 1).toNat = ring.taken + 1 := by
    rw [toNat_add_one (by omega), hpos]
  have hmoves : Moves n ring ring.take queue (queue.claim .dequeue pos) pos.toNat .reading :=
    { isOpen := hopen
      not_released := by simp [hpublished]
      phase_eq := fun other ↦ by rw [TicketRing.phase_take, hpos]
      sent := List.prefix_rfl
      taken := Nat.le_succ _
      buffer := fun _ _ ↦ rfl
      values := fun _ hseen ↦ hseen }
  have hturn := hcells.turn _ hopen (by simp [hpublished])
  rw [hpublished] at hturn
  refine ⟨hpublished, hmoves, ?_, ?_, ?_, hmoves.phase_self, trivial,
    (haccesses (.inl hpublished)).symm⟩
  · exact hvalid.step (.take (hpos ▸ hpublished))
  · refine ⟨hcounts.index, hcounts.mask, hcounts.enqueuePos, hnext, hcounts.enqueue_le, ?_⟩
    intro other hother
    rcases List.mem_cons.mp hother with rfl | hold
    · exact hnext.le
    · exact (hcounts.dequeue_le other hold).trans (Nat.le_succ _)
  · apply hmoves.cells hvalid (by omega) hcells hturn
    · intro seen hseen
      apply hmoves.explained hvalid (by omega)
        (hcells.explained _ (Nat.mod_lt _ (by omega)) seen hseen)
      · simp
      · simp [Phase.Ready, Phase.Taken]
      · exact fun _ _ ↦ ⟨hpublished, rfl⟩
    · exact fun _ ↦ hcells.data _ (.inr (.inl hpublished))

omit hbound in
/-- A thread that accesses the data moves its ticket on. -/
theorem advanced_access (hpoint : PointHolds n ring queue (.access op pos accesses)) (left : T) :
    Advanced n ring (ring.enter pos.toNat op.accessed) queue (queue.access op pos left).1 pos.toNat
      op.accessing op.accessed (.publish op pos (queue.access op pos left).2 (accesses + 1)) := by
  obtain ⟨hphase, hcarries, haccesses⟩ := hpoint
  have hphases : ring.phase pos.toNat ≠ .released ∧ ring.phase pos.toNat ≠ .fresh := by
    cases op <;> simp [hphase, Operation.accessing]
  have hopen := hvalid.isOpen _ hphases.2
  have hturn := hcells.turn _ hopen hphases.1
  have hmoved : ring.sent[pos.toNat]? =
      some (op.moved (queue.buffer (pos.toNat % n)).data left).2 := by
    cases op with
    | enqueue data => exact hcarries
    | dequeue => exact hcells.data _ (.inr (.inr hphase))
  rw [Queue.access, hcounts.index]
  have hmoves : Moves n ring (ring.enter pos.toNat op.accessed) queue
      (queue.update (pos.toNat % n) ⟨(queue.buffer (pos.toNat % n)).sequence,
        (op.moved (queue.buffer (pos.toNat % n)).data left).1,
        (queue.buffer (pos.toNat % n)).accesses + 1⟩) pos.toNat op.accessed :=
    .of_update hopen hphases.1 fun _ hseen ↦ hseen
  refine ⟨hphase, hmoves, ?_, ?_, ?_, hmoves.phase_self, hmoved, ?_⟩
  · cases op with
    | enqueue data => exact hvalid.step (.write hphase)
    | dequeue => exact hvalid.step (.read hphase)
  · exact ⟨hcounts.index, hcounts.mask, hcounts.enqueuePos, hcounts.dequeuePos, hcounts.enqueue_le,
      hcounts.dequeue_le⟩
  · apply hmoves.cells hvalid (by omega) hcells
    · rw [Queue.buffer_update_self, hturn, hphase]
      cases op <;> rfl
    · intro seen hseen
      rw [Queue.buffer_update_self] at hseen
      apply hmoves.explained hvalid (by omega)
        (hcells.explained _ (Nat.mod_lt _ (by omega)) seen hseen)
      · cases op <;> simp [Operation.accessed]
      · rw [hphase]
        cases op <;> simp [Operation.accessing, Operation.accessed, Phase.Ready, Phase.Taken]
      · cases op <;> simp [Operation.accessed]
    · intro hcell
      rw [Queue.buffer_update_self]
      cases op with
      | enqueue data => exact hcarries
      | dequeue => simp [InCell, Operation.accessed] at hcell
  · rw [Queue.buffer_update_self, haccesses]

/-- The store at the end of a call moves the ticket on. -/
theorem advanced_publish {data : T}
    (hpoint : PointHolds n ring queue (.publish op pos data accesses)) :
    Advanced n ring (ring.enter pos.toNat op.finished) queue (queue.publish op pos accesses)
      pos.toNat op.accessed op.finished (.idle (some (op.succeeded data))) := by
  obtain ⟨hphase, hdata, haccesses⟩ := hpoint
  have hphases : ring.phase pos.toNat ≠ .released ∧ ring.phase pos.toNat ≠ .fresh := by
    cases op <;> simp [hphase, Operation.accessed]
  have hopen := hvalid.isOpen _ hphases.2
  have hlt : pos.toNat < ring.sent.length := (List.getElem?_eq_some_iff.mp hdata).1
  have hnext : (op.next queue.bufferMask pos).toNat = op.finished.turn n pos.toNat :=
    hcounts.toNat_next (by omega) hn op
  rw [Queue.publish, hcounts.index]
  have hmoves : Moves n ring (ring.enter pos.toNat op.finished) queue
      (queue.update (pos.toNat % n) { queue.buffer (pos.toNat % n) with
        sequence := (queue.buffer (pos.toNat % n)).sequence.store
          ⟨op.next queue.bufferMask pos, accesses⟩ }) pos.toNat op.finished :=
    .of_update hopen hphases.1 fun _ hseen ↦ List.mem_cons_of_mem _ hseen
  refine ⟨hphase, hmoves, ?_, ?_, ?_, trivial⟩
  · cases op with
    | enqueue data => exact hvalid.step (.publish hphase)
    | dequeue => exact hvalid.step (.release hphase)
  · exact ⟨hcounts.index, hcounts.mask, hcounts.enqueuePos, hcounts.dequeuePos, hcounts.enqueue_le,
      hcounts.dequeue_le⟩
  · apply hmoves.cells hvalid (by omega) hcells
    · rw [Queue.buffer_update_self]
      exact hnext
    · intro seen hseen
      rw [Queue.buffer_update_self] at hseen
      rcases List.mem_cons.mp hseen with rfl | hold
      · rw [Queue.buffer_update_self]
        cases op with
        | enqueue data =>
          refine ⟨pos.toNat, rfl, .inr ⟨hnext, ?_, fun _ ↦ haccesses.symm⟩⟩
          exact .inl hmoves.phase_self
        | dequeue =>
          refine ⟨pos.toNat + n, Nat.add_mod_right _ _, .inl ⟨hnext, fun _ ↦ ?_,
            fun _ ↦ haccesses.symm⟩⟩
          rw [Nat.add_sub_cancel]
          exact hmoves.phase_self
      · apply hmoves.explained hvalid (by omega)
          (hcells.explained _ (Nat.mod_lt _ (by omega)) seen hold)
        · cases op <;> simp [Operation.finished]
        · cases op <;> simp [Operation.finished, Phase.Ready, Phase.Taken]
        · rw [hphase]
          cases op <;> simp [Operation.finished, Operation.accessed, Phase.Ready, Phase.Taken]
    · intro hcell
      rw [Queue.buffer_update_self]
      cases op with
      | enqueue data => exact hcells.data _ (.inl hphase)
      | dequeue => simp [InCell, Operation.finished] at hcell

end Threads

/-! ## Steps of the system -/

/-- A thread holds the ticket. -/
def Held (phase : Phase) : Prop :=
  phase = .writing ∨ phase = .written ∨ phase = .reading ∨ phase = .read

theorem PointHolds.held {point : Point T} {ticket : ℕ} (h : PointHolds n ring queue point)
    (hticket : point.ticket = some ticket) : Held (ring.phase ticket) := by
  cases point with
  | access op pos accesses =>
    obtain rfl := Option.some.inj hticket
    rw [h.1]
    cases op <;> simp [Held, Operation.accessing]
  | publish op pos data accesses =>
    obtain rfl := Option.some.inj hticket
    rw [h.1]
    cases op <;> simp [Held, Operation.accessed]
  | _ => exact absurd hticket.symm (Option.some_ne_none _)

variable {θ : Type} [DecidableEq θ]

/-- The tickets tell what the system has in its memory. -/
structure Represents (n : ℕ) (ring : TicketRing T) (system : System θ T) : Prop where
  valid : ring.Valid n
  counts : Counts n ring system.queue
  cells : Cells n ring system.queue
  points : ∀ thread, PointHolds n ring system.queue (system.point thread)
  unique : ∀ thread thread' ticket, (system.point thread).ticket = some ticket →
    (system.point thread').ticket = some ticket → thread = thread'
  held : ∀ ticket, Held (ring.phase ticket) →
    ∃ thread, (system.point thread).ticket = some ticket

namespace Represents

variable {system : System θ T} {thread : θ} {point : Point T}

/-- A thread that holds no ticket takes a step and holds none. -/
theorem stay (h : Represents n ring system) (hold : (system.point thread).ticket = none)
    (hnew : point.ticket = none) (hpoint : PointHolds n ring system.queue point) :
    Represents n ring (system.put thread system.queue point) := by
  have hticket (other : θ) :
      ((system.put thread system.queue point).point other).ticket =
        (system.point other).ticket := by
    by_cases heq : other = thread
    · rw [heq, System.point_put_self, hnew, hold]
    · rw [System.point_put_of_ne _ heq]
  refine ⟨h.valid, h.counts, h.cells, fun other ↦ ?_, ?_, ?_⟩
  · by_cases heq : other = thread
    · rw [heq, System.point_put_self]
      exact hpoint
    · rw [System.point_put_of_ne _ heq]
      exact h.points other
  · simpa only [hticket] using h.unique
  · simpa only [hticket] using h.held

/-- A thread moves its ticket on. -/
theorem advance {ring' : TicketRing T} {queue' : Queue T} {ticket : ℕ} {before phase : Phase}
    (h : Represents n ring system) (hn : 2 ≤ n)
    (hadvanced : Advanced n ring ring' system.queue queue' ticket before phase point)
    (hold : ∀ other, (system.point thread).ticket = some other → other = ticket)
    (hothers : ∀ other, other ≠ thread → (system.point other).ticket ≠ some ticket)
    (hnew : ∀ other, point.ticket = some other ↔ Held phase ∧ other = ticket) :
    Represents n ring' (system.put thread queue' point) := by
  refine ⟨hadvanced.valid, hadvanced.counts, hadvanced.cells, fun other ↦ ?_,
    fun first second held hfirst hsecond ↦ ?_, fun other hheld ↦ ?_⟩
  · by_cases heq : other = thread
    · rw [heq, System.point_put_self]
      exact hadvanced.point
    · rw [System.point_put_of_ne _ heq]
      exact hadvanced.moves.pointHolds h.valid (by omega) (h.points other) (hothers other heq)
  · -- only the thread itself can have got the ticket
    have hself (other : θ) (hother : ((system.put thread queue' point).point other).ticket =
        some held) : other = thread ∧ held = ticket ∨
          held ≠ ticket ∧ (system.point other).ticket = some held := by
      by_cases heq : other = thread
      · rw [heq, System.point_put_self] at hother
        exact .inl ⟨heq, ((hnew held).mp hother).2⟩
      · rw [System.point_put_of_ne _ heq] at hother
        refine .inr ⟨?_, hother⟩
        rintro rfl
        exact hothers other heq hother
    rcases hself first hfirst with ⟨rfl, hticket⟩ | ⟨hne, hfirst'⟩
    · rcases hself second hsecond with ⟨rfl, -⟩ | ⟨hne, -⟩
      · rfl
      · exact absurd hticket hne
    · rcases hself second hsecond with ⟨-, hticket⟩ | ⟨-, hsecond'⟩
      · exact absurd hticket hne
      · exact h.unique first second held hfirst' hsecond'
  · by_cases heq : other = ticket
    · subst heq
      rw [hadvanced.moves.phase_self] at hheld
      refine ⟨thread, ?_⟩
      rw [System.point_put_self]
      exact (hnew other).mpr ⟨hheld, rfl⟩
    · rw [hadvanced.moves.phase_of_ne heq] at hheld
      obtain ⟨owner, howner⟩ := h.held other hheld
      have hne : owner ≠ thread := by
        rintro rfl
        exact heq (hold other howner)
      refine ⟨owner, ?_⟩
      rw [System.point_put_of_ne _ hne]
      exact howner

omit [DecidableEq θ] in
/-- What a load of a counter returns is no later position. -/
theorem pos_le (h : Represents n ring system) {seen : Word}
    (hseen : seen ∈ (op.counter system.queue).values) : seen.toNat ≤ op.count ring := by
  cases op with
  | enqueue data => exact h.counts.enqueue_le seen hseen
  | dequeue => exact h.counts.dequeue_le seen hseen

end Represents

/-- What a step sends and receives, from the tickets. -/
structure Records (ring ring' : TicketRing T) (sends : Option T) (receives : Option (ℕ × T)) :
    Prop where
  sent : ring'.sent = ring.sent ++ sends.toList
  released : ∀ ticket, ring'.phase ticket = .released ↔
    ring.phase ticket = .released ∨ receives.map Prod.fst = some ticket
  received : ∀ entry ∈ receives,
    ring.phase entry.1 = .read ∧ ring.sent[entry.1]? = some entry.2

theorem Records.refl (ring : TicketRing T) : Records ring ring none none where
  sent := (List.append_nil _).symm
  released _ := by simp
  received _ h := absurd h (Option.not_mem_none _)

theorem Moves.records {ring' : TicketRing T} {queue' : Queue T} {ticket : ℕ} {phase : Phase}
    {sends : Option T} (h : Moves n ring ring' queue queue' ticket phase)
    (hsent : ring'.sent = ring.sent ++ sends.toList) (hphase : phase ≠ .released) :
    Records ring ring' sends none where
  sent := hsent
  released other := by
    rw [h.phase_eq]
    split_ifs with heq
    · subst heq
      simp [hphase, h.not_released]
    · simp
  received _ h := absurd h (Option.not_mem_none _)

namespace Represents

variable {system after : System θ T} {thread : θ} {move : Move T}

theorem step (h : Represents n ring system) (hn : 2 ≤ n)
    (hbound : ring.sent.length + n < 2 ^ 63)
    (hstep : system.step (thread, move) = some after) :
    ∃ ring', Represents n ring' after ∧
      Records ring ring' (System.sends (system, thread, move))
        (System.receives (system, thread, move)) := by
  obtain ⟨⟨queue', point'⟩, hqueue, rfl⟩ := Option.map_eq_some_iff.mp hstep
  have hsteps := Queue.steps_of_step _ hqueue
  have hholds := h.points thread
  unfold System.sends System.receives
  dsimp only at hsteps ⊢
  generalize hpoint : system.point thread = point at hsteps hholds
  have hticket : (system.point thread).ticket = point.ticket := congrArg Point.ticket hpoint
  cases hsteps with
  | call last op => exact ⟨ring, h.stay hticket rfl trivial, .refl ring⟩
  | load hseen => exact ⟨ring, h.stay hticket rfl (h.pos_le hseen), .refl ring⟩
  | ready hseen hvalue =>
    refine ⟨ring, h.stay hticket rfl ⟨hholds, ?_⟩, .refl ring⟩
    rw [← h.counts.index, ← hvalue]
    exact hseen
  | failed hseen hneg => exact ⟨ring, h.stay hticket rfl trivial, .refl ring⟩
  | late => exact ⟨ring, h.stay hticket rfl trivial, .refl ring⟩
  | @retry op _ _ _ hseen =>
    refine ⟨ring, h.stay hticket rfl (h.pos_le hseen), ?_⟩
    cases op <;> exact .refl ring
  | race haccesses =>
    have hcell := hholds.2.2
    rw [← h.counts.index] at hcell
    exact absurd hcell haccesses
  | @claim op pos accesses hcurrent =>
    have hfree {before : Phase} (hphase : ring.phase pos.toNat = before) (hheld : ¬ Held before)
        (other : θ) : (system.point other).ticket ≠ some pos.toNat := by
      intro hother
      have hheld' := (h.points other).held hother
      rw [hphase] at hheld'
      exact hheld hheld'
    have hnone (other : ℕ) (hother : (system.point thread).ticket = some other) :
        other = pos.toNat := absurd (hother.symm.trans hticket) (Option.some_ne_none _)
    cases op with
    | enqueue data =>
      have hadvanced := advanced_enqueue h.valid h.counts h.cells hn hbound hholds hcurrent
      refine ⟨_, h.advance hn hadvanced hnone (fun other _ ↦ ?_) fun other ↦ ?_,
        hadvanced.moves.records rfl (by simp)⟩
      · exact hfree hadvanced.phase_eq (by simp [Held]) other
      · simp [Point.ticket, Held, eq_comm]
    | dequeue =>
      have hadvanced := advanced_dequeue h.valid h.counts h.cells hn hbound hholds hcurrent
      refine ⟨_, h.advance hn hadvanced hnone (fun other _ ↦ ?_) fun other ↦ ?_,
        hadvanced.moves.records (List.append_nil _).symm (by simp)⟩
      · exact hfree hadvanced.phase_eq (by simp [Held]) other
      · simp [Point.ticket, Held, eq_comm]
  | @access op pos accesses left _ =>
    have hadvanced := advanced_access h.valid h.counts h.cells hn hholds left
    refine ⟨_, h.advance hn hadvanced (fun other hother ↦ ?_) (fun other hne hother ↦ ?_)
      fun other ↦ ?_, ?_⟩
    · exact Option.some.inj (hother.symm.trans hticket)
    · exact hne (h.unique other thread _ hother hticket)
    · cases op <;> simp [Point.ticket, Held, Operation.accessed, eq_comm]
    · have hphase : op.accessed ≠ .released := by cases op <;> simp [Operation.accessed]
      cases op <;> exact hadvanced.moves.records (List.append_nil _).symm hphase
  | @publish op pos data accesses =>
    have hadvanced := advanced_publish h.valid h.counts h.cells hn hbound hholds
    refine ⟨_, h.advance hn hadvanced (fun other hother ↦ ?_) (fun other hne hother ↦ ?_)
      fun other ↦ ?_, ?_⟩
    · exact Option.some.inj (hother.symm.trans hticket)
    · exact hne (h.unique other thread _ hother hticket)
    · cases op <;> simp [Point.ticket, Held, Operation.finished]
    · cases op with
      | enqueue data =>
        exact hadvanced.moves.records (List.append_nil _).symm (by simp [Operation.finished])
      | dequeue =>
        refine ⟨(List.append_nil _).symm, fun other ↦ ?_, ?_⟩
        · rw [hadvanced.moves.phase_eq]
          split_ifs with heq
          · simp [heq, Operation.finished]
          · simp [eq_comm, heq]
        · rintro _ ⟨⟩
          exact ⟨hadvanced.phase_eq, hholds.2.1⟩

end Represents

/-! ## Runs -/

section Start

variable {bufferSize : Word} {initial : ℕ → T}

theorem toNat_sub_one (h : 2 ≤ bufferSize.toNat) :
    (bufferSize - 1).toNat = bufferSize.toNat - 1 := by
  apply BitVec.toNat_sub_of_le
  rw [BitVec.le_def]
  exact (by decide : (1 : Word).toNat ≤ 2).trans h

/-- The constructor succeeds for the powers of two from two on. -/
theorem create_eq_some (hcreate : Queue.create bufferSize initial = some queue) :
    2 ≤ bufferSize.toNat ∧ (∃ exponent, bufferSize.toNat = 2 ^ exponent) ∧
      queue = { maxSize := bufferSize
                buffer := fun i ↦ ⟨⟨⟨BitVec.ofNat 64 i, 0⟩, []⟩, initial i, 0⟩
                bufferMask := bufferSize - 1
                enqueuePos := ⟨0, []⟩
                dequeuePos := ⟨0, []⟩ } := by
  rw [Queue.create] at hcreate
  split_ifs at hcreate with hsize
  have hand : bufferSize.toNat &&& (bufferSize.toNat - 1) = 0 := by
    have htoNat := congrArg BitVec.toNat hsize.2
    rwa [BitVec.toNat_and, toNat_sub_one hsize.1] at htoNat
  exact ⟨hsize.1, (Nat.and_sub_one_eq_zero_iff_isPowerOfTwo (by omega)).mp hand,
    (Option.some.inj hcreate).symm⟩

omit [DecidableEq θ] in
theorem represents_start (hcreate : Queue.create bufferSize initial = some queue) :
    Represents bufferSize.toNat .start (System.start θ queue) := by
  obtain ⟨hsize, ⟨exponent, hexponent⟩, rfl⟩ := create_eq_some hcreate
  have hlt := bufferSize.isLt
  have hmask := toNat_sub_one hsize
  have hopen (ticket : ℕ) (h : (TicketRing.start : TicketRing T).Open bufferSize.toNat ticket) :
      ticket < bufferSize.toNat := by
    by_contra hge
    exact absurd (h (not_lt.mp hge)) nofun
  refine ⟨TicketRing.valid_start, ?_, ?_, fun _ ↦ trivial, nofun, ?_⟩
  · refine ⟨fun pos ↦ ?_, ?_, rfl, rfl, ?_, ?_⟩
    · change (pos &&& (bufferSize - 1)).toNat = _
      rw [BitVec.toNat_and, hmask, hexponent, Nat.and_two_pow_sub_one_eq_mod]
    · change (bufferSize - 1).toNat + 1 = _
      omega
    · simp [System.start, Atomic.values]
    · simp [System.start, Atomic.values]
  · refine ⟨fun ticket h _ ↦ ?_, fun i hi seen hseen ↦ ?_, fun ticket hcell ↦ ?_⟩
    · have hticket := hopen ticket h
      change (BitVec.ofNat 64 (ticket % bufferSize.toNat)).toNat = ticket
      rw [Nat.mod_eq_of_lt hticket, BitVec.toNat_ofNat, Nat.mod_eq_of_lt (by omega)]
    · obtain rfl : seen = ⟨BitVec.ofNat 64 i, 0⟩ := by
        simpa [System.start, Atomic.values] using hseen
      refine ⟨i, Nat.mod_eq_of_lt hi, .inl ⟨?_, fun hle ↦ absurd hi (not_lt.mpr hle), fun _ ↦ rfl⟩⟩
      change (BitVec.ofNat 64 i).toNat = i
      rw [BitVec.toNat_ofNat, Nat.mod_eq_of_lt (by omega)]
    · simp [InCell, TicketRing.start] at hcell
  · simp [Held, TicketRing.start]

/-- What was sent and received in a run, from the tickets. -/
structure Logged (history : List (System θ T × (θ × Move T))) (ring : TicketRing T) : Prop where
  sent : ring.sent = System.sent history
  received : ∀ entry ∈ System.received history,
    ring.phase entry.1 = .released ∧ ring.sent[entry.1]? = some entry.2
  nodup : ((System.received history).map Prod.fst).Nodup
  released : ∀ ticket, ring.phase ticket = .released →
    ticket ∈ (System.received history).map Prod.fst

theorem filterMap_reverse_cons {α β : Type} (f : α → Option β) (a : α) (as : List α) :
    (a :: as).reverse.filterMap f = as.reverse.filterMap f ++ (f a).toList := by
  rw [List.reverse_cons, List.filterMap_append]
  cases h : f a with
  | none => simp [h]
  | some b => simp [h]

omit [DecidableEq θ] in
theorem Logged.step {history : List (System θ T × (θ × Move T))} {ring' : TicketRing T}
    {entry : System θ T × (θ × Move T)} (h : Logged history ring)
    (hrecords : Records ring ring' (System.sends entry) (System.receives entry)) :
    Logged (entry :: history) ring' := by
  have hsent : System.sent (entry :: history) =
      System.sent history ++ (System.sends entry).toList := filterMap_reverse_cons ..
  have hreceived : System.received (entry :: history) =
      System.received history ++ (System.receives entry).toList := filterMap_reverse_cons ..
  have hkeep {ticket : ℕ} {value : T} (hvalue : ring.sent[ticket]? = some value) :
      ring'.sent[ticket]? = some value := by
    rw [hrecords.sent, List.getElem?_append_left (List.getElem?_eq_some_iff.mp hvalue).1]
    exact hvalue
  constructor
  · rw [hrecords.sent, hsent, h.sent]
  · intro item hitem
    rw [hreceived] at hitem
    rcases List.mem_append.mp hitem with hold | hnew
    · obtain ⟨hphase, hvalue⟩ := h.received item hold
      exact ⟨(hrecords.released _).mpr (.inl hphase), hkeep hvalue⟩
    · have hitem' := Option.mem_toList.mp hnew
      refine ⟨(hrecords.released _).mpr (.inr ?_), hkeep (hrecords.received item hitem').2⟩
      rw [Option.mem_def.mp hitem', Option.map_some]
  · rw [hreceived, List.map_append]
    cases hnew : System.receives entry with
    | none => simpa using h.nodup
    | some item =>
      apply List.nodup_append_comm.mp
      refine List.nodup_cons.mpr ⟨fun hmem ↦ ?_, h.nodup⟩
      -- a ticket that is received now was not released before
      obtain ⟨old, hold, heq⟩ := List.mem_map.mp hmem
      have hphase := (h.received old hold).1
      rw [heq, (hrecords.received item hnew).1] at hphase
      exact absurd hphase nofun
  · intro ticket hphase
    rw [hreceived, List.map_append]
    rcases (hrecords.released ticket).mp hphase with hold | hnew
    · exact List.mem_append_left _ (h.released ticket hold)
    · apply List.mem_append_right
      obtain ⟨item, hitem, rfl⟩ := Option.map_eq_some_iff.mp hnew
      rw [hitem]
      exact List.mem_singleton_self _

variable {history : List (System θ T × (θ × Move T))} {system : System θ T}

/-- Fewer positions than `2 ^ 63` are used. -/
def Bounded (bufferSize : Word) (system : System θ T) (_ : θ × Move T) : Prop :=
  system.queue.enqueuePos.current.toNat + bufferSize.toNat < 2 ^ 63

instance (bufferSize : Word) (system : System θ T) (input : θ × Move T) :
    Decidable (Bounded bufferSize system input) := inferInstanceAs (Decidable (_ < _))

theorem exists_ring (hcreate : Queue.create bufferSize initial = some queue)
    (hrun : Run System.step (Bounded bufferSize) (System.start θ queue) history system) :
    ∃ ring, Represents bufferSize.toNat ring system ∧ Logged history ring := by
  apply hrun.invariant_history
    (fun history system ↦ ∃ ring, Represents bufferSize.toNat ring system ∧ Logged history ring)
  · refine ⟨.start, represents_start hcreate, rfl, ?_, List.nodup_nil, nofun⟩
    simp [System.received]
  · rintro history system input after ⟨ring, hrep, hlogged⟩ hbounded hstep
    have hn := (create_eq_some hcreate).1
    rw [Bounded, hrep.counts.enqueuePos] at hbounded
    obtain ⟨ring', hrep', hrecords⟩ := hrep.step hn hbounded hstep
    exact ⟨ring', hrep', hlogged.step hrecords⟩

end Start

/-- What is true of the queue and of what its threads have sent and received. -/
structure Intact (n : ℕ) (history : List (System θ T × (θ × Move T))) (system : System θ T) :
    Prop where
  /-- Each position below `enqueue_pos_` belongs to one `enqueue`. -/
  length_sent : (System.sent history).length = system.queue.enqueuePos.current.toNat
  dequeue_le : system.queue.dequeuePos.current.toNat ≤ system.queue.enqueuePos.current.toNat
  /-- The queue is never overfull. -/
  enqueue_le : system.queue.enqueuePos.current.toNat ≤ system.queue.dequeuePos.current.toNat + n
  not_raced : ∀ thread, system.point thread ≠ .raced
  /-- What is received at a position was sent there. -/
  received : ∀ entry ∈ System.received history,
    entry.1 < system.queue.dequeuePos.current.toNat ∧
      (System.sent history)[entry.1]? = some entry.2
  /-- No position is received twice. -/
  nodup : ((System.received history).map Prod.fst).Nodup
  /-- Nothing is lost. -/
  quiet : (∀ thread, (system.point thread).ticket = none) →
    (∀ ticket < system.queue.dequeuePos.current.toNat,
      ticket ∈ (System.received history).map Prod.fst) ∧
    ∀ ticket, system.queue.dequeuePos.current.toNat ≤ ticket →
      ticket < system.queue.enqueuePos.current.toNat →
      (System.sent history)[ticket]? = some (system.queue.buffer (ticket % n)).data

section Quiet

omit [DecidableEq θ]

variable {system : System θ T} (h : Represents n ring system)
  (hquiet : ∀ thread, (system.point thread).ticket = none)

include h hquiet

theorem Represents.not_held (ticket : ℕ) : ¬ Held (ring.phase ticket) := by
  intro hheld
  obtain ⟨thread, hthread⟩ := h.held ticket hheld
  exact absurd (hthread.symm.trans (hquiet thread)) (Option.some_ne_none _)

theorem Represents.released_of_lt_taken {ticket : ℕ} (hlt : ticket < ring.taken) :
    ring.phase ticket = .released := by
  have hheld := h.not_held hquiet ticket
  rcases (h.valid.taken_iff ticket).mpr hlt with hphase | hphase | hphase
  · exact absurd (.inr (.inr (.inl hphase))) hheld
  · exact absurd (.inr (.inr (.inr hphase))) hheld
  · exact hphase

theorem Represents.published_of_le {ticket : ℕ} (hle : ring.taken ≤ ticket)
    (hlt : ticket < ring.sent.length) : ring.phase ticket = .published := by
  have hheld := h.not_held hquiet ticket
  have hfresh := mt (h.valid.fresh_iff ticket).mp (not_le.mpr hlt)
  have htaken := mt (h.valid.taken_iff ticket).mp (not_lt.mpr hle)
  cases hphase : ring.phase ticket <;> simp_all [Held, Phase.Taken]

end Quiet

omit [DecidableEq θ] in
theorem Represents.intact {history : List (System θ T × (θ × Move T))} {system : System θ T}
    (h : Represents n ring system) (hlogged : Logged history ring) : Intact n history system := by
  have hsent := hlogged.sent
  refine ⟨?_, ?_, ?_, fun thread hraced ↦ ?_, fun entry hentry ↦ ?_, hlogged.nodup, fun hquiet ↦ ?_⟩
  · rw [h.counts.enqueuePos, hsent]
  · rw [h.counts.enqueuePos, h.counts.dequeuePos]
    exact h.valid.taken_le
  · rw [h.counts.enqueuePos, h.counts.dequeuePos]
    exact h.valid.length_le
  · have hpoint := h.points thread
    rw [hraced] at hpoint
    exact hpoint
  · obtain ⟨hphase, hvalue⟩ := hlogged.received entry hentry
    rw [h.counts.dequeuePos, ← hsent]
    exact ⟨h.valid.released_lt hphase, hvalue⟩
  · rw [h.counts.enqueuePos, h.counts.dequeuePos, ← hsent]
    refine ⟨fun ticket hlt ↦ hlogged.released ticket (h.released_of_lt_taken hquiet hlt),
      fun ticket hle hlt ↦ h.cells.data ticket (.inr (.inl ?_))⟩
    exact h.published_of_le hquiet hle hlt

end Systemish.Spdlog
