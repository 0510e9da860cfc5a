import Systemish.Spdlog.QueueRuns

/-!
# When calls of the queue fail and when they succeed

A call that sees the current value of `sequence_` fails only if the queue is full or empty, or if a
thread that holds a position has not got to its end. A call that is not disturbed by other threads
behaves as on a plain bounded queue.
-/

namespace Systemish.Spdlog

open Foundation

variable {T : Type} {n : ℕ} {ring : TicketRing T} {queue : Queue T}

/-! ## The current value of `sequence_` -/

theorem turn_le (n : ℕ) (phase : Phase) (ticket : ℕ) (hphase : phase ≠ .released) :
    ticket ≤ phase.turn n ticket ∧ phase.turn n ticket ≤ ticket + 1 := by
  cases phase <;> simp_all [Phase.turn]

section Current

variable (hvalid : ring.Valid n) (hcells : Cells n ring queue) (hn : 2 ≤ n)

include hvalid hcells hn

/-- The ticket that has the slot, and where `sequence_` stands. -/
theorem exists_current (ticket : ℕ) :
    ∃ owner, owner % n = ticket % n ∧ ring.Open n owner ∧ ring.phase owner ≠ .released ∧
      (queue.buffer (ticket % n)).sequence.current.value.toNat =
        (ring.phase owner).turn n owner := by
  obtain ⟨owner, hslot, hopen, hphase⟩ := hvalid.exists_isOpen (Nat.mod_lt ticket (by omega))
  have hturn := hcells.turn owner hopen hphase
  rw [hslot] at hturn
  exact ⟨owner, hslot, hopen, hphase, hturn⟩

theorem current_le (ticket : ℕ) :
    (queue.buffer (ticket % n)).sequence.current.value.toNat ≤ ring.sent.length + n := by
  obtain ⟨owner, -, hopen, hphase, hturn⟩ := exists_current hvalid hcells hn ticket
  have hlt := hvalid.lt_of_isOpen hopen
  have hle := (turn_le n (ring.phase owner) owner hphase).2
  have htaken := hvalid.taken_le
  omega

/-- A slot that is beyond a ticket is a round beyond it. -/
theorem lt_current_of_released {ticket : ℕ} (hreleased : ring.phase ticket = .released) :
    ticket < (queue.buffer (ticket % n)).sequence.current.value.toNat := by
  obtain ⟨owner, hslot, hopen, hphase, hturn⟩ := exists_current hvalid hcells hn ticket
  have hle := (turn_le n (ring.phase owner) owner hphase).1
  rcases lt_trichotomy owner ticket with hlt | rfl | hgt
  · have hopen' := hvalid.isOpen ticket (by simp [hreleased])
    exact absurd (hvalid.released_of_lt (by omega) hopen' hlt hslot) hphase
  · exact absurd hreleased hphase
  · omega

theorem le_current {ticket : ℕ} (hopen : ring.Open n ticket) :
    ticket ≤ (queue.buffer (ticket % n)).sequence.current.value.toNat := by
  by_cases hreleased : ring.phase ticket = .released
  · exact (lt_current_of_released hvalid hcells hn hreleased).le
  · rw [hcells.turn ticket hopen hreleased]
    exact (turn_le n _ ticket hreleased).1

theorem lt_current {ticket : ℕ} (hready : (ring.phase ticket).Ready) :
    ticket < (queue.buffer (ticket % n)).sequence.current.value.toNat := by
  by_cases hreleased : ring.phase ticket = .released
  · exact lt_current_of_released hvalid hcells hn hreleased
  · have hopen := hvalid.isOpen ticket (by
      intro hfresh
      simp [hfresh, Phase.Ready, Phase.Taken] at hready)
    rw [hcells.turn ticket hopen hreleased]
    cases hphase : ring.phase ticket <;> simp_all [Phase.Ready, Phase.Taken, Phase.turn]

end Current

/-- The sign of the difference of two positions. -/
theorem toInt_sub_neg_iff {a b : Word} (ha : a.toNat < 2 ^ 63) (hb : b.toNat < 2 ^ 63) :
    (a - b).toInt < 0 ↔ a.toNat < b.toNat := by
  rw [BitVec.toInt_sub, BitVec.toInt_eq_toNat_of_lt (by omega),
    BitVec.toInt_eq_toNat_of_lt (by omega), Int.bmod_eq_of_le (by omega) (by omega)]
  omega

theorem Counts.counter (h : Counts n ring queue) (op : Operation T) :
    (op.counter queue).current.toNat = op.count ring := by
  cases op with
  | enqueue data => exact h.enqueuePos
  | dequeue => exact h.dequeuePos

/-! ## Calls that fail -/

/-- The call in which a thread has won a position and has not got to the end. -/
def Point.operation : Point T → Option (Operation T × ℕ)
  | .access op pos _ => some (op, pos.toNat)
  | .publish op pos _ _ => some (op, pos.toNat)
  | _ => none

variable {θ : Type}

/-- The queue is full or empty, or the thread that is to make place or to bring data has not got to
the end of its call. -/
def System.Blocked (n : ℕ) (system : System θ T) : Operation T → Prop
  | .enqueue _ =>
    system.queue.enqueuePos.current.toNat = system.queue.dequeuePos.current.toNat + n ∨
      ∃ thread ticket, (system.point thread).operation = some (.dequeue, ticket) ∧
        system.queue.enqueuePos.current.toNat = ticket + n
  | .dequeue =>
    system.queue.enqueuePos.current.toNat = system.queue.dequeuePos.current.toNat ∨
      ∃ thread data, (system.point thread).operation =
        some (.enqueue data, system.queue.dequeuePos.current.toNat)

namespace Represents

variable {system : System θ T} {pos : Word} {op : Operation T}

theorem phase_of_operation (h : Represents n ring system) {thread : θ} {ticket : ℕ}
    (hop : (system.point thread).operation = some (op, ticket)) :
    ring.phase ticket = op.accessing ∨ ring.phase ticket = op.accessed := by
  have hpoint := h.points thread
  cases hat : system.point thread with
  | access op' pos accesses =>
    rw [hat] at hpoint hop
    obtain ⟨rfl, rfl⟩ := Prod.mk.inj (Option.some.inj hop)
    exact .inl hpoint.1
  | publish op' pos data accesses =>
    rw [hat] at hpoint hop
    obtain ⟨rfl, rfl⟩ := Prod.mk.inj (Option.some.inj hop)
    exact .inr hpoint.1
  | _ =>
    rw [hat] at hop
    exact absurd hop.symm (Option.some_ne_none _)

theorem exists_operation (h : Represents n ring system) {ticket : ℕ}
    (hheld : Held (ring.phase ticket)) :
    ∃ thread op, (system.point thread).operation = some (op, ticket) := by
  obtain ⟨thread, hthread⟩ := h.held ticket hheld
  refine ⟨thread, ?_⟩
  cases hat : system.point thread <;> simp_all [Point.ticket, Point.operation]

/-- The sign of the difference that a call computes from the current value of `sequence_`. -/
theorem toInt_sub_neg_iff (h : Represents n ring system) (hn : 2 ≤ n)
    (hbound : ring.sent.length + n < 2 ^ 63) (hpos : pos.toNat ≤ op.count ring) :
    ((system.queue.buffer (pos.toNat % n)).sequence.current.value - op.expected pos).toInt < 0 ↔
      (system.queue.buffer (pos.toNat % n)).sequence.current.value.toNat <
        (op.expected pos).toNat := by
  have hcurrent := current_le h.valid h.cells hn pos.toNat
  have hcount : op.count ring ≤ ring.sent.length := by
    cases op with
    | enqueue data => exact le_rfl
    | dequeue => exact h.valid.taken_le
  apply Spdlog.toInt_sub_neg_iff (by omega)
  cases op with
  | enqueue data => exact (by omega : pos.toNat < 2 ^ 63)
  | dequeue =>
    rw [Operation.expected, toNat_add_one (by omega)]
    omega

/-- What a negative difference says, if the value of `sequence_` is the current one. -/
theorem blocked (h : Represents n ring system) (hn : 2 ≤ n)
    (hbound : ring.sent.length + n < 2 ^ 63) (hpos : pos.toNat ≤ op.count ring)
    (hneg : ((system.queue.buffer (pos.toNat % n)).sequence.current.value - op.expected pos).toInt <
      0) : system.Blocked n op := by
  have htaken := h.valid.taken_le
  have hlength := h.valid.length_le
  have hlt := (h.toInt_sub_neg_iff hn hbound hpos).mp hneg
  cases op with
  | enqueue data =>
    have hclosed : ¬ ring.Open n pos.toNat := fun hopen ↦
      absurd (le_current h.valid h.cells hn hopen) (not_le.mpr hlt)
    have hfresh : ring.phase pos.toNat = .fresh := by
      by_contra hne
      exact hclosed (h.valid.isOpen _ hne)
    have heq : pos.toNat = ring.sent.length := le_antisymm hpos ((h.valid.fresh_iff _).mp hfresh)
    rw [TicketRing.Open, Classical.not_imp] at hclosed
    obtain ⟨hle, hnot⟩ := hclosed
    rw [System.Blocked, h.counts.enqueuePos, h.counts.dequeuePos]
    by_cases hfull : ring.taken ≤ pos.toNat - n
    · exact .inl (by omega)
    · -- the ticket one round before was taken, and it is not released
      have hphase := (h.valid.taken_iff _).mpr (not_le.mp hfull)
      have hheld : ring.phase (pos.toNat - n) = .reading ∨ ring.phase (pos.toNat - n) = .read :=
        hphase.imp_right fun hrest ↦ hrest.resolve_right hnot
      obtain ⟨thread, op, hop⟩ := h.exists_operation (.inr (.inr hheld))
      have hat := h.phase_of_operation hop
      cases op with
      | enqueue other =>
        rcases hheld with hheld | hheld <;>
          simp [hheld, Operation.accessing, Operation.accessed] at hat
      | dequeue => exact .inr ⟨thread, _, hop, by omega⟩
  | dequeue =>
    have hle : pos.toNat ≤ ring.taken := hpos
    rw [Operation.expected, toNat_add_one (by omega)] at hlt
    have hnot : ¬ (ring.phase pos.toNat).Ready := fun hready ↦
      absurd (lt_current h.valid h.cells hn hready) (by omega)
    have heq : pos.toNat = ring.taken := by
      refine le_antisymm hle (not_lt.mp fun hless ↦ hnot (.inr ?_))
      exact (h.valid.taken_iff _).mpr hless
    rw [System.Blocked, h.counts.enqueuePos, h.counts.dequeuePos]
    by_cases hfresh : ring.phase pos.toNat = .fresh
    · have hle := (h.valid.fresh_iff _).mp hfresh
      exact .inl (by omega)
    · have hheld : ring.phase pos.toNat = .writing ∨ ring.phase pos.toNat = .written := by
        cases hphase : ring.phase pos.toNat <;> simp_all [Phase.Ready, Phase.Taken]
      obtain ⟨thread, op, hop⟩ := h.exists_operation (hheld.imp_right .inl)
      have hat := h.phase_of_operation hop
      cases op with
      | enqueue data => exact .inr ⟨thread, data, heq ▸ hop⟩
      | dequeue =>
        rcases hheld with hheld | hheld <;>
          simp [hheld, Operation.accessing, Operation.accessed] at hat

/-- While a call is blocked, `sequence_` has not come to its turn. -/
theorem lt_expected (h : Represents n ring system) (hn : 2 ≤ n)
    (hbound : ring.sent.length + n < 2 ^ 63) (hpos : pos.toNat = op.count ring)
    (hblocked : system.Blocked n op) :
    (system.queue.buffer (pos.toNat % n)).sequence.current.value.toNat <
      (op.expected pos).toNat := by
  have htaken := h.valid.taken_le
  have hbefore {ticket : ℕ} (hfresh : ring.phase ticket ≠ .fresh)
      (hreleased : ring.phase ticket ≠ .released) :
      (system.queue.buffer (ticket % n)).sequence.current.value.toNat =
        (ring.phase ticket).turn n ticket := h.cells.turn _ (h.valid.isOpen _ hfresh) hreleased
  cases op with
  | enqueue data =>
    change pos.toNat = ring.sent.length at hpos
    rw [System.Blocked, h.counts.enqueuePos, h.counts.dequeuePos] at hblocked
    -- the slot is still with the ticket one round before
    obtain ⟨ticket, hround, hfresh, hreleased⟩ : ∃ ticket, ring.sent.length = ticket + n ∧
        ring.phase ticket ≠ .fresh ∧ ring.phase ticket ≠ .released := by
      rcases hblocked with hfull | ⟨thread, ticket, hop, hround⟩
      · have hnot := mt (h.valid.taken_iff ring.taken).mp (lt_irrefl _)
        refine ⟨ring.taken, hfull, mt (h.valid.fresh_iff _).mp (by omega), fun hreleased ↦ ?_⟩
        exact hnot (.inr (.inr hreleased))
      · have hphase := h.phase_of_operation hop
        refine ⟨ticket, hround, ?_, ?_⟩ <;> rcases hphase with hphase | hphase <;>
          simp [hphase, Operation.accessing, Operation.accessed]
    have hle := (turn_le n _ ticket hreleased).2
    rw [Operation.expected, hpos, hround, Nat.add_mod_right, hbefore hfresh hreleased]
    omega
  | dequeue =>
    change pos.toNat = ring.taken at hpos
    rw [System.Blocked, h.counts.enqueuePos, h.counts.dequeuePos] at hblocked
    rw [Operation.expected, toNat_add_one (by omega), hpos]
    rcases hblocked with hempty | ⟨thread, data, hop⟩
    · have hfresh := (h.valid.fresh_iff ring.taken).mpr hempty.le
      obtain ⟨owner, hslot, hopen, hphase, hturn⟩ := exists_current h.valid h.cells hn ring.taken
      rw [hturn]
      have hle := (turn_le n _ owner hphase).2
      rcases lt_trichotomy owner ring.taken with hlt | heq | hgt
      · omega
      · rw [heq, hfresh]
        exact Nat.lt_succ_self _
      · have hreleased := h.valid.released_of_lt (by omega) hopen hgt hslot.symm
        simp [hfresh] at hreleased
    · have hphase := h.phase_of_operation hop
      rw [hbefore]
      all_goals rcases hphase with hphase | hphase <;>
        simp [hphase, Operation.accessing, Operation.accessed, Phase.turn]

end Represents

/-! ## Calls that are not disturbed -/

/-- Several steps of a thread that is alone with the queue. -/
def Queue.steps (queue : Queue T) (point : Point T) (moves : List (Move T)) :
    Option (Queue T × Point T) :=
  moves.foldlM (fun state move ↦ state.1.step state.2 move) (queue, point)

/-- The moves of a call that sees current values and whose exchange does not fail. -/
def Queue.undisturbed (queue : Queue T) (op : Operation T) (left : T) : List (Move T) :=
  let pos := (op.counter queue).current
  let seen := (queue.buffer (queue.index pos)).sequence.current
  if seen.value = op.expected pos then
    [.call op, .load pos, .loadSequence seen, .exchange, .access left, .store]
  else [.call op, .load pos, .loadSequence seen]

/-- What a call returns on a plain queue with `n` places. -/
def plainOutcome (n : ℕ) (sent : List T) (taken : ℕ) : Operation T → Outcome T
  | .enqueue _ => .enqueued (sent.length < taken + n)
  | .dequeue => .dequeued sent[taken]?

theorem Queue.steps_cons (queue : Queue T) (point : Point T) (move : Move T)
    (moves : List (Move T)) :
    queue.steps point (move :: moves) =
      (queue.step point move).bind fun state ↦ state.1.steps state.2 moves := rfl

theorem Queue.index_claim (queue : Queue T) (op : Operation T) (pos other : Word) :
    (queue.claim op pos).index other = queue.index other := by
  cases op <;> rfl

section Undisturbed

variable {op : Operation T} {pos : Word} {last : Option (Outcome T)} {left : T}

/-- A call that finds its turn. -/
theorem Queue.steps_ready (hpos : (op.counter queue).current = pos) {seen : Stamped}
    (hseen : (queue.buffer (queue.index pos)).sequence.current = seen)
    (hvalue : seen.value = op.expected pos)
    (haccesses : ((queue.claim op pos).buffer (queue.index pos)).accesses = seen.accesses) :
    queue.steps (.idle last)
        [.call op, .load pos, .loadSequence seen, .exchange, .access left, .store] =
      some (((queue.claim op pos).access op pos left).1.publish op pos (seen.accesses + 1),
        .idle (some (op.succeeded ((queue.claim op pos).access op pos left).2))) := by
  have hload : pos ∈ (op.counter queue).values := hpos ▸ List.mem_cons_self
  have hsequence : seen ∈ (queue.buffer (queue.index pos)).sequence.values :=
    hseen ▸ List.mem_cons_self
  have hzero : (seen.value - op.expected pos).toInt = 0 := by
    rw [hvalue, sub_self]
    rfl
  simp only [steps_cons, step, Option.bind_some, if_pos hload, if_pos hsequence, if_pos hzero,
    if_pos hpos, index_claim, if_pos haccesses]
  rfl

theorem Queue.step_failed {seen : Stamped}
    (hseen : seen ∈ (queue.buffer (queue.index pos)).sequence.values)
    (hneg : (seen.value - op.expected pos).toInt < 0) :
    queue.step (.sequence op pos) (.loadSequence seen) =
      some (queue, .idle (some op.failed)) := by
  simp only [step, if_pos hseen, if_neg hneg.ne, if_pos hneg]

/-- A call that finds that it is not its turn. -/
theorem Queue.steps_failed (hpos : (op.counter queue).current = pos) {seen : Stamped}
    (hseen : (queue.buffer (queue.index pos)).sequence.current = seen)
    (hneg : (seen.value - op.expected pos).toInt < 0) :
    queue.steps (.idle last) [.call op, .load pos, .loadSequence seen] =
      some (queue, .idle (some op.failed)) := by
  have hload : pos ∈ (op.counter queue).values := hpos ▸ List.mem_cons_self
  have hsequence : seen ∈ (queue.buffer (queue.index pos)).sequence.values :=
    hseen ▸ List.mem_cons_self
  have hcalled : queue.step (.idle last) (.call op) = some (queue, .load op) := rfl
  have hloaded : queue.step (.load op) (.load pos) = some (queue, .sequence op pos) := if_pos hload
  simp only [steps_cons, hcalled, hloaded, step_failed hsequence hneg, Option.bind_some]
  rfl

end Undisturbed

namespace Represents

variable {system : System θ T} {op : Operation T} (h : Represents n ring system) (hn : 2 ≤ n)
  (hquiet : ∀ thread, (system.point thread).ticket = none)

include h hquiet hn

/-- Where `sequence_` stands for the next `enqueue`. -/
theorem current_enqueue :
    if ring.sent.length < ring.taken + n then
      (system.queue.buffer (ring.sent.length % n)).sequence.current.value.toNat = ring.sent.length
    else
      (system.queue.buffer (ring.sent.length % n)).sequence.current.value.toNat <
        ring.sent.length := by
  split_ifs with hlt
  · have hopen : ring.Open n ring.sent.length := fun hle ↦
      h.released_of_lt_taken hquiet (by omega)
    have hfresh := (h.valid.fresh_iff _).mpr (le_refl ring.sent.length)
    have hturn := h.cells.turn _ hopen (by simp [hfresh])
    rw [hfresh] at hturn
    exact hturn
  · have hfull : ring.sent.length = ring.taken + n :=
      le_antisymm h.valid.length_le (not_lt.mp hlt)
    have hphase := h.published_of_le hquiet le_rfl (by omega)
    have hturn := h.cells.turn ring.taken (h.valid.isOpen _ (by simp [hphase])) (by simp [hphase])
    rw [hphase] at hturn
    rw [hfull, Nat.add_mod_right, hturn]
    exact Nat.add_lt_add_left (by omega) _

/-- Where `sequence_` stands for the next `dequeue`. -/
theorem current_dequeue :
    (system.queue.buffer (ring.taken % n)).sequence.current.value.toNat =
      if ring.taken < ring.sent.length then ring.taken + 1 else ring.taken := by
  split_ifs with hlt
  · have hphase := h.published_of_le hquiet le_rfl hlt
    have hturn := h.cells.turn ring.taken (h.valid.isOpen _ (by simp [hphase])) (by simp [hphase])
    rwa [hphase] at hturn
  · have hfresh := (h.valid.fresh_iff _).mpr (not_lt.mp hlt)
    have hopen : ring.Open n ring.taken := fun hle ↦
      h.released_of_lt_taken hquiet (by omega)
    have hturn := h.cells.turn _ hopen (by simp [hfresh])
    rwa [hfresh] at hturn

/-- Whether the next call finds its turn. -/
theorem current_eq_iff (hbound : ring.sent.length + n < 2 ^ 63) {pos : Word}
    (hpos : pos.toNat = op.count ring) :
    ((system.queue.buffer (pos.toNat % n)).sequence.current.value = op.expected pos ↔
        plainOutcome n ring.sent ring.taken op ≠ op.failed) ∧
      ((system.queue.buffer (pos.toNat % n)).sequence.current.value ≠ op.expected pos →
        (system.queue.buffer (pos.toNat % n)).sequence.current.value.toNat <
          (op.expected pos).toNat) := by
  have htaken := h.valid.taken_le
  simp only [ne_eq, ← BitVec.toNat_inj]
  cases op with
  | enqueue data =>
    have hcurrent := h.current_enqueue hn hquiet
    change pos.toNat = ring.sent.length at hpos
    rw [← hpos] at hcurrent
    rw [Operation.expected]
    split_ifs at hcurrent with hlt
    · simp [hcurrent, plainOutcome, Operation.failed, ← hpos, hlt]
    · simp [hcurrent, hcurrent.ne, plainOutcome, Operation.failed, ← hpos, hlt]
  | dequeue =>
    have hcurrent := h.current_dequeue hn hquiet
    change pos.toNat = ring.taken at hpos
    rw [← hpos] at hcurrent
    rw [Operation.expected, toNat_add_one (by omega), hcurrent]
    split_ifs with hlt
    · simp [plainOutcome, Operation.failed, ← hpos, hlt]
    · simp [plainOutcome, Operation.failed, ← hpos, not_lt.mp hlt]

/-- If no thread holds a position, a call that is not disturbed returns what it returns on a plain
queue. -/
theorem undisturbed (hbound : ring.sent.length + n < 2 ^ 63) (op : Operation T) (left : T)
    (last : Option (Outcome T)) :
    ∃ queue', system.queue.steps (.idle last) (system.queue.undisturbed op left) =
      some (queue', .idle (some (plainOutcome n ring.sent ring.taken op))) := by
  have hindex := h.counts.index (op.counter system.queue).current
  have hpos := h.counts.counter op
  have hcurrent := h.current_eq_iff hn hquiet hbound hpos
  have hneg := h.toInt_sub_neg_iff hn hbound hpos.le
  rw [← hindex] at hneg hcurrent
  rw [Queue.undisturbed]
  split_ifs with hvalue
  · have hholds : PointHolds n ring system.queue (.exchange op (op.counter system.queue).current
        (system.queue.buffer (system.queue.index
          (op.counter system.queue).current)).sequence.current.accesses) := by
      refine ⟨hpos.le, ?_⟩
      rw [← hvalue, ← hindex]
      exact List.mem_cons_self
    have hsucceeds := hcurrent.1.mp hvalue
    cases op with
    | enqueue data =>
      have hadvanced := advanced_enqueue h.valid h.counts h.cells hn hbound hholds rfl
      have haccesses := hadvanced.point.2.2
      rw [← hindex] at haccesses
      have houtcome : plainOutcome n ring.sent ring.taken (.enqueue data) = .enqueued true := by
        simpa [plainOutcome, Operation.failed] using hsucceeds
      rw [houtcome]
      exact ⟨_, Queue.steps_ready rfl rfl hvalue haccesses⟩
    | dequeue =>
      have hadvanced := advanced_dequeue h.valid h.counts h.cells hn hbound hholds rfl
      have haccesses := hadvanced.point.2.2
      rw [← hindex] at haccesses
      have hdata := (advanced_access hadvanced.valid hadvanced.counts hadvanced.cells hn
        hadvanced.point left).point.2.1
      rw [hpos] at hdata
      have houtcome : plainOutcome n ring.sent ring.taken .dequeue = .dequeued (some _) :=
        congrArg Outcome.dequeued hdata
      rw [houtcome]
      exact ⟨_, Queue.steps_ready rfl rfl hvalue haccesses⟩
  · have hfails := not_not.mp (mt hcurrent.1.mpr hvalue)
    rw [hfails]
    exact ⟨_, Queue.steps_failed rfl rfl (hneg.mpr (hcurrent.2 hvalue))⟩

end Represents

/-! ## Results -/

section Results

variable [DecidableEq θ] {bufferSize : Word} {initial : ℕ → T}
  {history : List (System θ T × (θ × Move T))} {system after : System θ T} {thread : θ}

theorem System.put_put (system : System θ T) (thread : θ) (queue queue' : Queue T)
    (point point' : Point T) :
    (system.put thread queue point).put thread queue' point' = system.put thread queue' point' := by
  simp [System.put]

/-- Steps of one thread of the system are steps of the thread alone with the queue. -/
theorem System.foldlM_step (system : System θ T) (thread : θ) (moves : List (Move T)) :
    moves.foldlM (fun system move ↦ system.step (thread, move)) system =
      (system.queue.steps (system.point thread) moves).map fun (queue, point) ↦
        system.put thread queue point := by
  induction moves generalizing system with
  | nil => simp [Queue.steps, System.put]
  | cons move moves ih =>
    rw [List.foldlM_cons, Queue.steps_cons, System.step]
    cases system.queue.step (system.point thread) move with
    | none => rfl
    | some state =>
      change moves.foldlM _ (system.put thread state.1 state.2) = _
      rw [ih, System.queue_put, System.point_put_self]
      simp only [System.put_put]
      rfl

theorem exists_run_of_follow (bufferSize : Word) (queue : Queue T) (inputs : List (θ × Move T))
    (goal : List (System θ T × (θ × Move T)) → System θ T → Prop)
    (h : ∃ result ∈ follow System.step [] (System.start θ queue) inputs,
      (∀ entry ∈ result.1, Bounded bufferSize entry.1 entry.2) ∧ goal result.1 result.2) :
    ∃ history system, Run System.step (Bounded bufferSize) (System.start θ queue) history system ∧
      goal history system :=
  Run.exists_of_follow inputs goal h

/-- In every run, however the steps of the threads follow one another and however old the values
are that they load, there is no data race, the queue is never overfull, what is received at a
position is what was sent there, no position is received twice, and nothing is lost. -/
theorem queue_intact_of_run (hcreate : Queue.create bufferSize initial = some queue)
    (hrun : Run System.step (Bounded bufferSize) (System.start θ queue) history system) :
    Intact bufferSize.toNat history system := by
  obtain ⟨ring, hrep, hlogged⟩ := exists_ring hcreate hrun
  exact hrep.intact hlogged

def twoPlaces : Queue ℕ :=
  ⟨2, fun i ↦ ⟨⟨⟨BitVec.ofNat 64 i, 0⟩, []⟩, 0, 0⟩, 1, ⟨0, []⟩, ⟨0, []⟩⟩

/-- Two threads that win positions `0` and `1`, the second after it lost the first. -/
def contendedMoves : List (Bool × Move ℕ) :=
  [(false, .call (.enqueue 7)), (true, .call (.enqueue 8)), (false, .load 0), (true, .load 0),
    (false, .loadSequence ⟨0, 0⟩), (true, .loadSequence ⟨0, 0⟩), (false, .exchange),
    (true, .fail 1), (true, .loadSequence ⟨1, 0⟩), (true, .exchange), (true, .access 0),
    (true, .store)]

/-- The first gets to its end, and the second takes what it sent. -/
def takenMoves : List (Bool × Move ℕ) :=
  contendedMoves ++ [(false, .access 0), (false, .store), (true, .call .dequeue), (true, .load 0),
    (true, .loadSequence ⟨1, 1⟩), (true, .exchange), (true, .access 0), (true, .store)]

theorem queue_intact_of_taken : ∃ queue history system,
    Queue.create 2 (fun _ ↦ 0) = some queue ∧
      Run System.step (Bounded 2) (System.start Bool queue) history system ∧
      System.sent history = [7, 8] ∧ System.received history = [(0, 7)] ∧
      Intact 2 history system := by
  obtain ⟨history, system, hrun, hsent, hreceived⟩ :=
    exists_run_of_follow 2 twoPlaces takenMoves
    (fun history _ ↦ System.sent history = [7, 8] ∧ System.received history = [(0, 7)])
    (by decide +kernel)
  exact ⟨twoPlaces, history, system, rfl, hrun, hsent, hreceived, queue_intact_of_run rfl hrun⟩

/-- A call that sees the current value of `sequence_` fails only if the queue is full or empty, or
if the thread that is to make place or to bring data has not got to the end of its call. If it also
saw the current value of the counter, it fails exactly then. -/
theorem fails_iff_blocked (hcreate : Queue.create bufferSize initial = some queue)
    (hrun : Run System.step (Bounded bufferSize) (System.start θ queue) history system)
    (hbound : system.queue.enqueuePos.current.toNat + bufferSize.toNat < 2 ^ 63)
    {op : Operation T} {pos : Word} (hpoint : system.point thread = .sequence op pos)
    (hstep : system.step (thread, .loadSequence
      (system.queue.buffer (system.queue.index pos)).sequence.current) = some after) :
    (after.point thread = .idle (some op.failed) → system.Blocked bufferSize.toNat op) ∧
      ((op.counter system.queue).current = pos → system.Blocked bufferSize.toNat op →
        after.point thread = .idle (some op.failed)) := by
  obtain ⟨ring, hrep, -⟩ := exists_ring hcreate hrun
  have hn := (create_eq_some hcreate).1
  rw [hrep.counts.enqueuePos] at hbound
  have hpos := hrep.points thread
  rw [hpoint] at hpos
  rw [System.step] at hstep
  obtain ⟨⟨queue', point'⟩, hqueue, rfl⟩ := Option.map_eq_some_iff.mp hstep
  rw [hpoint] at hqueue
  rw [System.point_put_self]
  constructor
  · rintro rfl
    cases Queue.steps_of_step _ hqueue with
    | failed hseen hneg =>
      rw [hrep.counts.index] at hneg
      exact hrep.blocked hn hbound hpos hneg
  · intro hcurrent hblocked
    have hcount := hrep.counts.counter op
    rw [hcurrent] at hcount
    have hneg := (hrep.toInt_sub_neg_iff hn hbound hpos).mpr
      (hrep.lt_expected hn hbound hcount hblocked)
    rw [← hrep.counts.index] at hneg
    rw [Queue.step_failed List.mem_cons_self hneg] at hqueue
    exact (Prod.mk.inj (Option.some.inj hqueue)).2.symm

/-- A thread that has put `8` into the queue finds nothing there while the call before it is not at
its end. -/
theorem dequeue_blocked_after_enqueue : ∃ queue history system after,
    Queue.create 2 (fun _ ↦ 0) = some queue ∧
      Run System.step (Bounded 2) (System.start Bool queue) history system ∧
      system.point true = .sequence .dequeue 0 ∧ System.sent history = [7, 8] ∧
      system.step (true, .loadSequence
        (system.queue.buffer (system.queue.index 0)).sequence.current) = some after ∧
      after.point true = .idle (some (.dequeued none)) ∧ system.Blocked 2 .dequeue := by
  obtain ⟨history, system, hrun, hpoint, hsent, hbound, after, hstep, hafter⟩ :=
    exists_run_of_follow 2 twoPlaces
      (contendedMoves ++ [(true, .call .dequeue), (true, .load 0)])
      (fun history system ↦ system.point true = .sequence .dequeue 0 ∧
        System.sent history = [7, 8] ∧ system.queue.enqueuePos.current.toNat + 2 < 2 ^ 63 ∧
        ∃ after ∈ system.step (true, .loadSequence
          (system.queue.buffer (system.queue.index 0)).sequence.current),
          after.point true = .idle (some (.dequeued none)))
      (by decide +kernel)
  exact ⟨twoPlaces, history, system, after, rfl, hrun, hpoint, hsent, hstep, hafter,
    (fails_iff_blocked rfl hrun hbound hpoint hstep).1 hafter⟩

/-- In every state in which no thread holds a position, a call that other threads do not disturb
returns what it returns on a plain queue with the places of the buffer. -/
theorem undisturbed_call_is_plain (hcreate : Queue.create bufferSize initial = some queue)
    (hrun : Run System.step (Bounded bufferSize) (System.start θ queue) history system)
    (hbound : system.queue.enqueuePos.current.toNat + bufferSize.toNat < 2 ^ 63)
    (hquiet : ∀ thread, (system.point thread).ticket = none)
    {last : Option (Outcome T)} (hidle : system.point thread = .idle last) (op : Operation T)
    (left : T) :
    ∃ after,
      (system.queue.undisturbed op left).foldlM (fun system move ↦ system.step (thread, move))
        system = some after ∧
      after.point thread = .idle (some (plainOutcome bufferSize.toNat (System.sent history)
        system.queue.dequeuePos.current.toNat op)) := by
  obtain ⟨ring, hrep, hlogged⟩ := exists_ring hcreate hrun
  have hn := (create_eq_some hcreate).1
  rw [hrep.counts.enqueuePos] at hbound
  obtain ⟨queue', hsteps⟩ := hrep.undisturbed hn hquiet hbound op left last
  rw [System.foldlM_step, hidle, hsteps, ← hlogged.sent, hrep.counts.dequeuePos]
  exact ⟨_, rfl, System.point_put_self ..⟩

theorem undisturbed_dequeue_after_taken : ∃ queue history system after,
    Queue.create 2 (fun _ ↦ 0) = some queue ∧
      Run System.step (Bounded 2) (System.start Bool queue) history system ∧
      (system.queue.undisturbed .dequeue 0).foldlM
        (fun system move ↦ system.step (false, move)) system = some after ∧
      after.point false = .idle (some (.dequeued (some 8))) := by
  obtain ⟨history, system, hrun, hbound, hquiet, hidle, hout⟩ :=
    exists_run_of_follow 2 twoPlaces takenMoves
      (fun history system ↦ system.queue.enqueuePos.current.toNat + 2 < 2 ^ 63 ∧
        (∀ thread, (system.point thread).ticket = none) ∧
        system.point false = .idle (some (.enqueued true)) ∧
        plainOutcome 2 (System.sent history) system.queue.dequeuePos.current.toNat .dequeue =
          .dequeued (some 8))
      (by decide +kernel)
  obtain ⟨after, hafter, hpoint⟩ :=
    undisturbed_call_is_plain rfl hrun hbound hquiet hidle .dequeue 0
  exact ⟨twoPlaces, history, system, after, rfl, hrun, hafter, hpoint.trans (by rw [← hout]; rfl)⟩

end Results

end Systemish.Spdlog
