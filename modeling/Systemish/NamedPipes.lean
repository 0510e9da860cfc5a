import Systemish.Foundation.Run

/-!
# A named pipe without blocking

The writer and the reader of `named-pipes.c` as two processes that share a pipe. The
writer does not look at what `open` and `write` return: where the pipe has no room, or
was not opened because there was no reader yet, the value is gone.
-/

namespace Systemish.NamedPipes

open Foundation

/-- `MAX`, which `int` counters reach, and the number of `int`s that the pipe has room for. -/
structure Setup where
  max : ℕ
  capacity : ℕ
  max_lt : max < 2 ^ 31

inductive Writer where
  | opening
  /-- In the loop. `opened` says whether `open` has succeeded. -/
  | writing (opened : Bool) (i : ℕ)
  | closed
  /-- By `SIGPIPE`. -/
  | killed (i : ℕ)
  deriving DecidableEq

inductive Reader where
  | opening
  | reading (i : ℕ)
  /-- It has printed `Fail`. -/
  | failed
  | closed
  deriving DecidableEq

/-- `received` has all that the reader got. -/
structure State where
  writer : Writer
  reader : Reader
  pipe : List ℕ
  received : List ℕ
  deriving DecidableEq

inductive Process where
  | writer
  | reader

variable (setup : Setup)

def start : State := ⟨.opening, .opening, [], []⟩

/-- The reader has the pipe open. -/
def Reader.isOpen : Reader → Bool
  | .opening => false
  | .reading _ => true
  | .failed => false
  | .closed => false

/-- The next step of the writer. -/
def State.stepWriter (state : State) : Option State :=
  match state.writer with
  | .opening => some { state with writer := .writing state.reader.isOpen 0 }
  | .writing opened i =>
    if i < setup.max then
      -- a bad descriptor
      if opened = false then some { state with writer := .writing opened (i + 1) }
      else if state.reader.isOpen = false then some { state with writer := .killed i }
      else if state.pipe.length < setup.capacity then
        some { state with writer := .writing opened (i + 1), pipe := state.pipe ++ [i] }
      else some { state with writer := .writing opened (i + 1) }
    else some { state with writer := .closed }
  | .closed => none
  | .killed _ => none

/-- The next step of the reader. It tries again if there is nothing to read. -/
def State.stepReader (state : State) : Option State :=
  match state.reader with
  | .opening => some { state with reader := .reading 0 }
  | .reading i =>
    if i < setup.max then
      match state.pipe with
      | [] => some state
      | num :: pipe =>
        some { state with
          reader := if num ≠ i then .failed else .reading (i + 1)
          pipe := pipe
          received := state.received ++ [num] }
    else some { state with reader := .closed }
  | .failed => none
  | .closed => none

def State.step (state : State) : Process → Option State
  | .writer => state.stepWriter setup
  | .reader => state.stepReader setup

/-- All interleavings of the two processes. -/
abbrev IsRun : List (State × Process) → State → Prop :=
  Run (State.step setup) (fun _ _ ↦ True) start

/-- The number of values that the writer is through with. -/
def Writer.written : Writer → ℕ
  | .opening => 0
  | .writing _ i => i
  | .closed => setup.max
  | .killed i => i

/-- What the reader has got and what is in the pipe are the values of the writer in order: none is
lost, none comes twice, and the reader has not failed. -/
def Intact (state : State) : Prop :=
  state.received ++ state.pipe = List.range (state.writer.written setup) ∧
    state.reader ≠ .failed

/-- A write that fails: the pipe is not open, or it has no room. -/
def Refused (state : State) (process : Process) : Prop :=
  process = .writer ∧ ∃ opened i, state.writer = .writing opened i ∧ i < setup.max ∧
    (opened = false ∨ setup.capacity ≤ state.pipe.length)

/-! ## Steps -/

variable {setup} {state after : State}

/-- All that the two processes can do. -/
inductive Moves (setup : Setup) (state : State) : Process → State → Prop
  | openWriter (hwriter : state.writer = .opening) :
      Moves setup state .writer { state with writer := .writing state.reader.isOpen 0 }
  | refused {opened : Bool} {i : ℕ} (hwriter : state.writer = .writing opened i)
      (hi : i < setup.max) (hrefused : opened = false ∨ setup.capacity ≤ state.pipe.length) :
      Moves setup state .writer { state with writer := .writing opened (i + 1) }
  | killed {i : ℕ} (hwriter : state.writer = .writing true i) (hi : i < setup.max)
      (hreader : state.reader.isOpen = false) :
      Moves setup state .writer { state with writer := .killed i }
  | write {i : ℕ} (hwriter : state.writer = .writing true i) (hi : i < setup.max)
      (hroom : state.pipe.length < setup.capacity) :
      Moves setup state .writer
        { state with writer := .writing true (i + 1), pipe := state.pipe ++ [i] }
  | closeWriter {opened : Bool} {i : ℕ} (hwriter : state.writer = .writing opened i)
      (hi : ¬ i < setup.max) : Moves setup state .writer { state with writer := .closed }
  | openReader (hreader : state.reader = .opening) :
      Moves setup state .reader { state with reader := .reading 0 }
  | retry : Moves setup state .reader state
  | receive {i num : ℕ} {pipe : List ℕ} (hreader : state.reader = .reading i)
      (hpipe : state.pipe = num :: pipe) :
      Moves setup state .reader
        { state with
          reader := if num ≠ i then .failed else .reading (i + 1)
          pipe := pipe
          received := state.received ++ [num] }
  | closeReader {i : ℕ} (hreader : state.reader = .reading i) (hi : ¬ i < setup.max) :
      Moves setup state .reader { state with reader := .closed }

theorem moves_of_stepWriter (hstep : state.stepWriter setup = some after) :
    Moves setup state .writer after := by
  rw [State.stepWriter] at hstep
  split at hstep
  · next hwriter =>
    obtain rfl := Option.some.inj hstep
    exact .openWriter hwriter
  · next opened i hwriter =>
    by_cases hi : i < setup.max
    · rw [if_pos hi] at hstep
      cases opened with
      | false =>
        obtain rfl := Option.some.inj hstep
        exact .refused hwriter hi (.inl rfl)
      | true =>
        rw [if_neg Bool.noConfusion] at hstep
        by_cases hreader : state.reader.isOpen = false
        · rw [if_pos hreader] at hstep
          obtain rfl := Option.some.inj hstep
          exact .killed hwriter hi hreader
        · rw [if_neg hreader] at hstep
          by_cases hroom : state.pipe.length < setup.capacity
          · rw [if_pos hroom] at hstep
            obtain rfl := Option.some.inj hstep
            exact .write hwriter hi hroom
          · rw [if_neg hroom] at hstep
            obtain rfl := Option.some.inj hstep
            exact .refused hwriter hi (.inr (Nat.not_lt.mp hroom))
    · rw [if_neg hi] at hstep
      obtain rfl := Option.some.inj hstep
      exact .closeWriter hwriter hi
  · exact absurd hstep (Option.some_ne_none after).symm
  · exact absurd hstep (Option.some_ne_none after).symm

theorem moves_of_stepReader (hstep : state.stepReader setup = some after) :
    Moves setup state .reader after := by
  rw [State.stepReader] at hstep
  split at hstep
  · next hreader =>
    obtain rfl := Option.some.inj hstep
    exact .openReader hreader
  · next i hreader =>
    by_cases hi : i < setup.max
    · rw [if_pos hi] at hstep
      split at hstep
      · obtain rfl := Option.some.inj hstep
        exact .retry
      · next num pipe hpipe =>
        obtain rfl := Option.some.inj hstep
        exact .receive hreader hpipe
    · rw [if_neg hi] at hstep
      obtain rfl := Option.some.inj hstep
      exact .closeReader hreader hi
  · exact absurd hstep (Option.some_ne_none after).symm
  · exact absurd hstep (Option.some_ne_none after).symm

theorem moves_of_step {process : Process} (hstep : state.step setup process = some after) :
    Moves setup state process after := by
  cases process with
  | writer => exact moves_of_stepWriter hstep
  | reader => exact moves_of_stepReader hstep

/-! ## The counters -/

/-- The counters agree with what was sent and received. -/
structure Consistent (setup : Setup) (state : State) : Prop where
  length_le : (state.received ++ state.pipe).length ≤ state.writer.written setup
  written_le : state.writer.written setup ≤ setup.max
  reading : ∀ i, state.reader = .reading i → state.received.length = i
  closed : state.reader = .closed → setup.max ≤ state.received.length
  unopened : state.reader = .opening → state.received = [] ∧ ∀ i, state.writer ≠ .writing true i

theorem consistent_start : Consistent setup start where
  length_le := le_rfl
  written_le := Nat.zero_le _
  reading _ := Reader.noConfusion
  closed := Reader.noConfusion
  unopened _ := ⟨rfl, fun _ ↦ Writer.noConfusion⟩

/-- A step of the writer. -/
theorem Consistent.ofWriter (h : Consistent setup state) {writer : Writer} {pipe : List ℕ}
    (hlength : (state.received ++ pipe).length ≤ writer.written setup)
    (hle : writer.written setup ≤ setup.max)
    (hunopened : state.reader = .opening → ∀ i, writer ≠ .writing true i) :
    Consistent setup { state with writer := writer, pipe := pipe } where
  length_le := hlength
  written_le := hle
  reading := h.reading
  closed := h.closed
  unopened hreader := ⟨(h.unopened hreader).1, hunopened hreader⟩

/-- The reader still has the pipe open, or it has failed, when the writer is in its loop. -/
theorem Consistent.failed_of_not_isOpen (h : Consistent setup state) {i : ℕ}
    (hwriter : state.writer = .writing true i) (hi : i < setup.max)
    (hreader : state.reader.isOpen = false) : state.reader = .failed := by
  cases hcase : state.reader with
  | opening => exact absurd hwriter ((h.unopened hcase).2 i)
  | reading j => exact absurd hreader (by rw [hcase]; exact Bool.noConfusion)
  | failed => rfl
  | closed =>
    have hlength := h.length_le
    have hmax := h.closed hcase
    rw [hwriter, List.length_append] at hlength
    exact absurd (hmax.trans ((Nat.le_add_right _ _).trans hlength)) (Nat.not_le.mpr hi)

theorem Consistent.step (h : Consistent setup state) {process : Process}
    (hmoves : Moves setup state process after) : Consistent setup after := by
  have hlength := h.length_le
  have hwritten := h.written_le
  cases hmoves with
  | openWriter hwriter =>
    rw [hwriter] at hlength
    refine h.ofWriter hlength (Nat.zero_le _) fun hreader i ↦ ?_
    rw [hreader]
    exact fun heq ↦ Bool.noConfusion (Writer.writing.inj heq).1
  | @refused opened i hwriter hi hrefused =>
    rw [hwriter] at hlength
    refine h.ofWriter (Nat.le_succ_of_le hlength) hi fun hreader j heq ↦ ?_
    rw [(Writer.writing.inj heq).1] at hwriter
    exact (h.unopened hreader).2 i hwriter
  | killed hwriter hi hreader =>
    rw [hwriter] at hlength
    exact h.ofWriter hlength (Nat.le_of_lt hi) fun _ _ ↦ Writer.noConfusion
  | @write i hwriter hi hroom =>
    rw [hwriter] at hlength
    refine h.ofWriter ?_ hi fun hreader ↦ absurd hwriter ((h.unopened hreader).2 i)
    rw [← List.append_assoc, List.length_append]
    exact Nat.succ_le_succ hlength
  | closeWriter hwriter hi =>
    rw [hwriter] at hlength hwritten
    exact h.ofWriter (hlength.trans hwritten) le_rfl fun _ _ ↦ Writer.noConfusion
  | openReader hreader =>
    refine ⟨hlength, hwritten, fun i hi ↦ ?_, Reader.noConfusion, Reader.noConfusion⟩
    rw [(h.unopened hreader).1, ← Reader.reading.inj hi]
    rfl
  | retry => exact h
  | @receive i num pipe hreader hpipe =>
    have hreceived : (state.received ++ [num]).length = i + 1 := by
      rw [List.length_append, h.reading i hreader, List.length_singleton]
    rw [hpipe, List.append_cons] at hlength
    by_cases hnum : num = i
    · rw [if_neg (not_not.mpr hnum)]
      refine ⟨hlength, hwritten, fun j hj ↦ ?_, Reader.noConfusion, Reader.noConfusion⟩
      rw [hreceived, Reader.reading.inj hj]
    · rw [if_pos hnum]
      exact ⟨hlength, hwritten, fun _ ↦ Reader.noConfusion, Reader.noConfusion,
        Reader.noConfusion⟩
  | @closeReader i hreader hi =>
    refine ⟨hlength, hwritten, fun _ ↦ Reader.noConfusion, fun _ ↦ ?_, Reader.noConfusion⟩
    rw [h.reading i hreader]
    exact Nat.not_lt.mp hi

/-! ## Values in order -/

/-- A write that is refused loses its value for good. -/
theorem not_intact_of_refused (h : Consistent setup state) {opened : Bool} {i : ℕ}
    (hwriter : state.writer = .writing opened i) :
    ¬ Intact setup { state with writer := .writing opened (i + 1) } := by
  intro hintact
  have hlength := h.length_le
  rw [hintact.1, List.length_range, hwriter] at hlength
  exact Nat.not_succ_le_self i hlength

/-- In order, the next value is the one that the reader waits for. -/
theorem eq_of_intact (h : Consistent setup state) (hintact : Intact setup state) {i num : ℕ}
    {pipe : List ℕ} (hreader : state.reader = .reading i) (hpipe : state.pipe = num :: pipe) :
    num = i := by
  have hat : (state.received ++ state.pipe)[i]? = some num := by
    rw [hpipe, ← h.reading i hreader, List.getElem?_append_right le_rfl, Nat.sub_self]
    rfl
  rw [hintact.1] at hat
  obtain ⟨hlt, heq⟩ := List.getElem?_eq_some_iff.mp hat
  rw [← heq, List.getElem_range]

theorem not_refused_of_reader : ¬ Refused setup state .reader := fun h ↦ Process.noConfusion h.1

/-- A step of the writer that writes nothing loses nothing either if it does not count a value. -/
theorem intact_writer_iff {writer : Writer}
    (hwritten : writer.written setup = state.writer.written setup)
    (hrefused : ¬ Refused setup state .writer) :
    Intact setup { state with writer := writer } ↔
      Intact setup state ∧ ¬ Refused setup state .writer := by
  rw [and_iff_left hrefused, Intact, Intact, hwritten]

theorem intact_write_iff {i : ℕ} (hwriter : state.writer = .writing true i) :
    Intact setup { state with writer := .writing true (i + 1), pipe := state.pipe ++ [i] } ↔
      Intact setup state := by
  rw [Intact, Intact, hwriter]
  apply and_congr_left'
  change _ ++ (_ ++ [i]) = List.range (i + 1) ↔ _ = List.range i
  rw [List.range_succ, ← List.append_assoc]
  exact List.append_left_inj [i]

/-- In an intact state the reader finds the value that it expects. -/
theorem intact_receive_iff (h : Consistent setup state) {i num : ℕ} {pipe : List ℕ}
    (hreader : state.reader = .reading i) (hpipe : state.pipe = num :: pipe) :
    Intact setup
        { state with
          reader := if num ≠ i then .failed else .reading (i + 1)
          pipe := pipe
          received := state.received ++ [num] } ↔
      Intact setup state := by
  constructor
  · intro hintact
    refine ⟨?_, by rw [hreader]; exact Reader.noConfusion⟩
    rw [hpipe, List.append_cons]
    exact hintact.1
  · intro hintact
    have hnum := eq_of_intact h hintact hreader hpipe
    have hvalues := hintact.1
    rw [hpipe, List.append_cons] at hvalues
    rw [if_neg (not_not.mpr hnum)]
    exact ⟨hvalues, Reader.noConfusion⟩

theorem intact_step_iff (h : Consistent setup state) {process : Process}
    (hmoves : Moves setup state process after) :
    Intact setup after ↔ Intact setup state ∧ ¬ Refused setup state process := by
  cases hmoves with
  | openWriter hwriter =>
    apply intact_writer_iff
    · rw [hwriter]
      rfl
    · rintro ⟨-, opened, i, hwriting, -⟩
      exact Writer.noConfusion (hwriter.symm.trans hwriting)
  | @refused opened i hwriter hi hrefused =>
    exact iff_of_false (not_intact_of_refused h hwriter)
      fun hclean ↦ hclean.2 ⟨rfl, opened, i, hwriter, hi, hrefused⟩
  | killed hwriter hi hreader =>
    have hfailed := h.failed_of_not_isOpen hwriter hi hreader
    exact iff_of_false (fun hintact ↦ hintact.2 hfailed) fun hclean ↦ hclean.1.2 hfailed
  | @write i hwriter hi hroom =>
    have hclean : ¬ Refused setup state .writer := by
      rintro ⟨-, opened, j, hwriting, -, hrefused⟩
      obtain ⟨rfl, -⟩ := Writer.writing.inj (hwriter.symm.trans hwriting)
      exact hrefused.elim Bool.noConfusion (Nat.not_le.mpr hroom)
    rw [and_iff_left hclean]
    exact intact_write_iff hwriter
  | @closeWriter opened i hwriter hi =>
    have hmax : i = setup.max := by
      have hwritten := h.written_le
      rw [hwriter] at hwritten
      exact Nat.le_antisymm hwritten (Nat.not_lt.mp hi)
    apply intact_writer_iff
    · rw [hwriter]
      exact hmax.symm
    · rintro ⟨-, opened', j, hwriting, hj, -⟩
      obtain ⟨-, rfl⟩ := Writer.writing.inj (hwriter.symm.trans hwriting)
      exact hi hj
  | openReader hreader =>
    rw [and_iff_left not_refused_of_reader, Intact, Intact, hreader]
    simp
  | retry => rw [and_iff_left not_refused_of_reader]
  | receive hreader hpipe =>
    rw [and_iff_left not_refused_of_reader]
    exact intact_receive_iff h hreader hpipe
  | closeReader hreader hi =>
    rw [and_iff_left not_refused_of_reader, Intact, Intact, hreader]
    simp

/-- The reader gets all values in order, in a run of any length, if and only if no write of the run
was refused. -/
theorem intact_iff {history : List (State × Process)} {final : State}
    (hrun : IsRun setup history final) :
    Intact setup final ↔ ∀ entry ∈ history, ¬ Refused setup entry.1 entry.2 :=
  (hrun.iff_forall_clean (Consistent setup) consistent_start
    (fun _ _ _ h _ hstep ↦ h.step (moves_of_step hstep)) ⟨rfl, Reader.noConfusion⟩
    fun _ _ _ h _ hstep ↦ intact_step_iff h (moves_of_step hstep)).2

/-- Three values through a pipe that has room for one. -/
def narrow : Setup := ⟨3, 1, by decide⟩

/-- The first value arrives. -/
theorem narrow_intact :
    ∃ history final, IsRun narrow history final ∧ final.received = [0] ∧ Intact narrow final ∧
      ∀ entry ∈ history, ¬ Refused narrow entry.1 entry.2 := by
  have hstart : IsRun narrow [] start := .start
  have hrun := hstart.of_follow [.reader, .writer, .writer, .reader] rfl
  have hintact := (intact_iff hrun).mp ⟨rfl, Reader.noConfusion⟩
  exact ⟨_, _, hrun, rfl, ⟨rfl, Reader.noConfusion⟩, hintact⟩

/-- The writer goes on to 2 although there was no room for 1. -/
theorem narrow_fails :
    ∃ history final, IsRun narrow history final ∧ final.received = [0, 2] ∧
      final.reader = .failed := by
  have hstart : IsRun narrow [] start := .start
  have hrun := hstart.of_follow
    [.reader, .writer, .writer, .writer, .reader, .writer, .reader] rfl
  exact ⟨_, _, hrun, rfl, rfl⟩

end Systemish.NamedPipes
