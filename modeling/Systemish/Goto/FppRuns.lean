import Systemish.Foundation.Interleaving
import Systemish.Goto.Fpp

/-!
# Runs of the batched goto machine

Whatever the lanes do, as long as each of them alone comes to `end` after
finitely many switches, the machine runs every lane through its own program, in
order and once, and returns as soon as all lanes are done. Lanes that are done
keep being visited, so the number of dispatches is bounded by the switches that
are left together with the way to the next lane that is not done.
-/

namespace Systemish.Goto

open Foundation

variable {batch : BatchSize} {Label σ α : Type} {program : Program batch Label σ α}

/-! ## One dispatch -/

namespace Machine

/-- What the machine records when a lane has come to `target`. -/
def arrive (machine : Machine batch Label σ α) (target : Target Label) :
    Machine batch Label σ α :=
  { machine with
    batchRips := Function.update machine.batchRips machine.I (some target)
    iMask := match target with
      | .label _ => machine.iMask
      | .endBlock => fppSet machine.iMask machine.I }

/-- All lanes are done. -/
def AllDone (machine : Machine batch Label σ α) : Prop :=
  ∀ lane, machine.batchRips lane = some .endBlock

/-- Switch to the next lane, or return if the mask is full. -/
def switch (machine : Machine batch Label σ α) : Outcome batch Label σ α :=
  if machine.iMask = (1 <<< batch.size) - 1 then .returned machine
  else .running { machine with I := batch.next machine.I }

theorem endBlock_eq (machine : Machine batch Label σ α) :
    machine.endBlock = (machine.arrive .endBlock).switch := rfl

end Machine

/-- The mask of `batch.size` bits is full when all of them are set. -/
theorem mask_eq_iff {mask : ℕ} (h : mask < 2 ^ batch.size) :
    mask = (1 <<< batch.size) - 1 ↔ ∀ lane : Fin batch.size, mask.testBit lane = true := by
  rw [Nat.one_shiftLeft]
  constructor
  · intro hmask lane
    rw [hmask, Nat.testBit_two_pow_sub_one]
    exact decide_eq_true lane.isLt
  · intro hbits
    apply Nat.eq_of_testBit_eq
    intro i
    rw [Nat.testBit_two_pow_sub_one]
    by_cases hi : i < batch.size
    · rw [hbits ⟨i, hi⟩, decide_eq_true hi]
    · have hpow : 2 ^ batch.size ≤ 2 ^ i := Nat.pow_le_pow_right Nat.two_pos (not_lt.mp hi)
      rw [Nat.testBit_lt_two_pow (h.trans_le hpow), decide_eq_false hi]

theorem testBit_fppSet (mask i j : ℕ) :
    (fppSet mask i).testBit j = (mask.testBit j || decide (i = j)) := by
  rw [fppSet, Nat.testBit_or, Nat.one_shiftLeft, Nat.testBit_two_pow]

theorem fppSet_lt {mask i n : ℕ} (hmask : mask < 2 ^ n) (hi : i < n) : fppSet mask i < 2 ^ n := by
  apply Nat.or_lt_two_pow hmask
  rw [Nat.one_shiftLeft]
  exact Nat.pow_lt_pow_right Nat.one_lt_two hi

/-! ## Program order -/

/-- The segments of one lane in the order of its program, and where they lead. -/
inductive LanePath (program : Program batch Label σ α) (lane : Fin batch.size) (locals : σ) :
    List (Event batch Label α) → Target Label → σ → Prop
  | start : LanePath program lane locals [] (.label program.entry) locals
  | segment {events : List (Event batch Label α)} {label : Label} {target : Target Label}
      {current after : σ} {acc acc' : α}
      (hpath : LanePath program lane locals events (.label label) current)
      (hsegment : program.segment lane label current acc = some (after, acc', target)) :
      LanePath program lane locals (events ++ [⟨lane, label, acc, acc'⟩]) target after

/-- The accumulator goes from each segment to the next one that is executed. -/
inductive AccPath (acc : α) : List (Event batch Label α) → α → Prop
  | start : AccPath acc [] acc
  | segment {events : List (Event batch Label α)} {current after : α} (lane : Fin batch.size)
      (label : Label) (hpath : AccPath acc events current) :
      AccPath acc (events ++ [⟨lane, label, current, after⟩]) after

/-- Every lane has executed the first segments of its program, is to be resumed at the label that
it saved last, and has its bit in the mask set exactly if that is the label `end`. -/
structure Scheduled (program : Program batch Label σ α) (locals : Fin batch.size → σ) (acc : α)
    (machine : Machine batch Label σ α) : Prop where
  lanes : ∀ lane, ∃ target, machine.batchRips lane = some target ∧
    LanePath program lane (locals lane) (machine.log.filter fun event ↦ event.lane = lane) target
      (machine.locals lane)
  accPath : AccPath acc machine.log machine.acc
  done : ∀ lane : Fin batch.size,
    machine.iMask.testBit lane = true ↔ machine.batchRips lane = some .endBlock
  mask : machine.iMask < 2 ^ batch.size

theorem Scheduled.start (program : Program batch Label σ α) (locals : Fin batch.size → σ)
    (acc : α) : Scheduled program locals acc (Machine.start program locals acc) where
  lanes _ := ⟨_, rfl, .start⟩
  accPath := .start
  done _ := by simp [Machine.start]
  mask := Nat.two_pow_pos _

variable {locals : Fin batch.size → σ} {acc : α} {machine : Machine batch Label σ α}

theorem Scheduled.setI (h : Scheduled program locals acc machine) (I : Fin batch.size) :
    Scheduled program locals acc { machine with I := I } :=
  ⟨h.lanes, h.accPath, h.done, h.mask⟩

/-- The mask is full exactly if all lanes are done. -/
theorem Scheduled.mask_eq_iff (h : Scheduled program locals acc machine) :
    machine.iMask = (1 <<< batch.size) - 1 ↔ machine.AllDone := by
  rw [Goto.mask_eq_iff h.mask]
  exact forall_congr' h.done

/-- Coming to a target keeps the bits of the mask in step with `batch_rips`. -/
theorem arrive_done {target : Target Label}
    (hdone : ∀ lane : Fin batch.size,
      machine.iMask.testBit lane = true ↔ machine.batchRips lane = some .endBlock)
    (hI : machine.batchRips machine.I = some .endBlock → target = .endBlock)
    (lane : Fin batch.size) :
    (machine.arrive target).iMask.testBit lane = true ↔
      (machine.arrive target).batchRips lane = some .endBlock := by
  by_cases hlane : lane = machine.I
  · subst hlane
    cases target with
    | label label =>
      have hopen : machine.batchRips machine.I ≠ some .endBlock := fun h ↦ nomatch hI h
      simp [Machine.arrive, hdone, hopen]
    | endBlock => simp [Machine.arrive, testBit_fppSet]
  · have hne : machine.I.val ≠ lane.val := fun h ↦ hlane (Fin.ext h.symm)
    cases target with
    | label label => simp [Machine.arrive, Function.update_of_ne hlane, hdone]
    | endBlock => simp [Machine.arrive, Function.update_of_ne hlane, testBit_fppSet, hne, hdone]

theorem arrive_mask (machine : Machine batch Label σ α) (h : machine.iMask < 2 ^ batch.size)
    (target : Target Label) : (machine.arrive target).iMask < 2 ^ batch.size := by
  cases target with
  | label label => exact h
  | endBlock => exact fppSet_lt h machine.I.isLt

/-- Executing a segment moves its lane on by one segment and leaves the others where they are. -/
theorem Scheduled.segment (h : Scheduled program locals acc machine) {label : Label}
    {target : Target Label} {after : σ} {acc' : α}
    (hrip : machine.batchRips machine.I = some (.label label))
    (hsegment : program.segment machine.I label (machine.locals machine.I) machine.acc =
      some (after, acc', target)) :
    Scheduled program locals acc ((machine.execute label after acc').arrive target) where
  lanes lane := by
    by_cases hlane : lane = machine.I
    · subst hlane
      obtain ⟨current, hcurrent, hpath⟩ := h.lanes machine.I
      obtain rfl : current = .label label := by simpa using hcurrent.symm.trans hrip
      refine ⟨target, by simp [Machine.arrive, Machine.execute], ?_⟩
      have hnext := hpath.segment hsegment
      simpa [Machine.arrive, Machine.execute] using hnext
    · obtain ⟨current, hcurrent, hpath⟩ := h.lanes lane
      refine ⟨current, ?_, ?_⟩
      · simpa [Machine.arrive, Machine.execute, Function.update_of_ne hlane] using hcurrent
      · have hne : machine.I ≠ lane := Ne.symm hlane
        simpa [Machine.arrive, Machine.execute, Function.update_of_ne hlane, hne] using hpath
  accPath := h.accPath.segment machine.I label
  done := arrive_done h.done fun hend ↦ nomatch hend.symm.trans hrip
  mask := arrive_mask (machine.execute label after acc') h.mask target

/-! ## What one dispatch does -/

theorem Machine.switch_eq_returned (h : Scheduled program locals acc machine)
    (hdone : machine.AllDone) : machine.switch = .returned machine := by
  rw [Machine.switch, if_pos (h.mask_eq_iff.mpr hdone)]

theorem Machine.switch_eq_running (h : Scheduled program locals acc machine)
    (hopen : ¬ machine.AllDone) :
    machine.switch = .running { machine with I := batch.next machine.I } := by
  rw [Machine.switch, if_neg fun hmask ↦ hopen (h.mask_eq_iff.mp hmask)]

/-- A lane that is not done executes one segment. -/
theorem Scheduled.dispatch_segment (h : Scheduled program locals acc machine) {label : Label}
    {target : Target Label} {after : σ} {acc' : α}
    (hrip : machine.batchRips machine.I = some (.label label))
    (hsegment : program.segment machine.I label (machine.locals machine.I) machine.acc =
      some (after, acc', target)) :
    machine.dispatch program = ((machine.execute label after acc').arrive target).switch := by
  cases target with
  | label saved =>
    have hnext := h.segment hrip hsegment
    have hopen : ¬ ((machine.execute label after acc').arrive (.label saved)).AllDone := by
      intro hdone
      have hI := hdone machine.I
      simp [Machine.arrive, Machine.execute] at hI
    rw [Machine.switch_eq_running hnext hopen]
    simp only [Machine.dispatch, hrip, hsegment]
    rfl
  | endBlock =>
    simp only [Machine.dispatch, hrip, hsegment]
    rfl

/-- A lane that is done is passed over. -/
theorem Scheduled.dispatch_done (h : Scheduled program locals acc machine)
    (hrip : machine.batchRips machine.I = some .endBlock) :
    machine.dispatch program = machine.switch := by
  have hsame : machine.arrive .endBlock = machine := by
    have hbit := (h.done machine.I).mpr hrip
    have hmask : fppSet machine.iMask machine.I = machine.iMask := by
      apply Nat.eq_of_testBit_eq
      intro i
      rw [testBit_fppSet]
      by_cases hi : machine.I.val = i
      · rw [← hi, hbit, Bool.true_or]
      · rw [decide_eq_false hi, Bool.or_false]
    rw [Machine.arrive, ← hrip, Function.update_eq_self, hmask]
  simp only [Machine.dispatch, hrip, Machine.endBlock_eq, hsame]

/-! ## The whole run -/

/-- The machine runs through `count` further states in which some lane is not done, and then
returns with all lanes done. Every lane keeps to the order of its program throughout. -/
structure Serves (program : Program batch Label σ α) (locals : Fin batch.size → σ) (acc : α)
    (count : ℕ) (machine final : Machine batch Label σ α) : Prop where
  running : ∀ k ≤ count, ∃ middle, machine.dispatches program k = .running middle ∧
    Scheduled program locals acc middle ∧ ¬ middle.AllDone
  returned : machine.dispatches program (count + 1) = .returned final
  scheduled : Scheduled program locals acc final
  allDone : final.AllDone

theorem Serves.last {final : Machine batch Label σ α} (h : Scheduled program locals acc machine)
    (hopen : ¬ machine.AllDone) (hdispatch : machine.dispatch program = .returned final)
    (hfinal : Scheduled program locals acc final) (hdone : final.AllDone) :
    Serves program locals acc 0 machine final where
  running k hk := by
    obtain rfl := Nat.le_zero.mp hk
    exact ⟨machine, rfl, h, hopen⟩
  returned := by simp only [Machine.dispatches, hdispatch]
  scheduled := hfinal
  allDone := hdone

theorem Serves.cons {count : ℕ} {next final : Machine batch Label σ α}
    (h : Scheduled program locals acc machine) (hopen : ¬ machine.AllDone)
    (hdispatch : machine.dispatch program = .running next)
    (hserves : Serves program locals acc count next final) :
    Serves program locals acc (count + 1) machine final where
  running k hk := by
    cases k with
    | zero => exact ⟨machine, rfl, h, hopen⟩
    | succ k =>
      simp only [Machine.dispatches, hdispatch]
      exact hserves.running k (Nat.le_of_succ_le_succ hk)
  returned := by
    rw [Machine.dispatches, hdispatch]
    exact hserves.returned
  scheduled := hserves.scheduled
  allDone := hserves.allDone

/-- A run that has returned is not changed by more fuel. -/
theorem Machine.dispatches_returned {count fuel : ℕ} {final : Machine batch Label σ α}
    (h : machine.dispatches program count = .returned final) (hfuel : count ≤ fuel) :
    machine.dispatches program fuel = .returned final := by
  induction count generalizing machine fuel with
  | zero => exact nomatch h
  | succ count ih =>
    obtain ⟨fuel, rfl⟩ := Nat.exists_eq_succ_of_ne_zero (by omega : fuel ≠ 0)
    rw [Machine.dispatches] at h ⊢
    cases hdispatch : machine.dispatch program with
    | running next =>
      rw [hdispatch] at h
      exact ih h (Nat.le_of_succ_le_succ hfuel)
    | returned next =>
      rw [hdispatch] at h
      exact h
    | fault =>
      rw [hdispatch] at h
      exact nomatch h

/-- The lane comes to `end` after finitely many switches, whatever the accumulator is at each of
them. -/
inductive Halts (program : Program batch Label σ α) (lane : Fin batch.size) :
    Target Label → σ → Prop
  | endBlock (locals : σ) : Halts program lane .endBlock locals
  | label {label : Label} {locals : σ}
      (hdefined : ∀ acc, program.segment lane label locals acc ≠ none)
      (hnext : ∀ acc after acc' target,
        program.segment lane label locals acc = some (after, acc', target) →
          Halts program lane target after) :
      Halts program lane (.label label) locals

theorem Halts.of_segment {lane : Fin batch.size} {label : Label} {current : σ}
    (h : ∀ acc, ∃ after acc' target,
      program.segment lane label current acc = some (after, acc', target) ∧
        Halts program lane target after) : Halts program lane (.label label) current := by
  apply Halts.label
  · intro acc hnone
    obtain ⟨_, _, _, hsome, _⟩ := h acc
    exact nomatch hnone.symm.trans hsome
  · intro acc after acc' target hsegment
    obtain ⟨_, _, _, hsome, hhalts⟩ := h acc
    obtain ⟨rfl, rfl, rfl⟩ : _ = after ∧ _ = acc' ∧ _ = target := by
      simpa using hsome.symm.trans hsegment
    exact hhalts

/-- One segment of a lane, from `before` to `after`. -/
def Advances (program : Program batch Label σ α) (lane : Fin batch.size)
    (after before : Target Label × σ) : Prop :=
  ∃ label acc acc', before.1 = .label label ∧
    program.segment lane label before.2 acc = some (after.2, acc', after.1)

theorem Halts.accessible {lane : Fin batch.size} {target : Target Label} {current : σ}
    (h : Halts program lane target current) : Acc (Advances program lane) (target, current) := by
  induction h with
  | endBlock current =>
    apply Acc.intro
    rintro after ⟨label, _, _, hlabel, _⟩
    exact nomatch hlabel
  | @label label current _ _ ih =>
    apply Acc.intro
    rintro after ⟨label', acc, acc', hlabel, hsegment⟩
    obtain rfl : label = label' := by simpa using hlabel
    exact ih acc after.2 acc' after.1 hsegment

/-- Where the lanes are. -/
def Machine.view (machine : Machine batch Label σ α) (lane : Fin batch.size) : Target Label × σ :=
  ((machine.batchRips lane).getD .endBlock, machine.locals lane)

/-- Executing a segment is a step of one lane. -/
theorem Machine.stepAt_view {label : Label} {target : Target Label} {after : σ} {acc' : α}
    (hrip : machine.batchRips machine.I = some (.label label))
    (hsegment : program.segment machine.I label (machine.locals machine.I) machine.acc =
      some (after, acc', target)) :
    StepAt (Advances program) Finset.univ ((machine.execute label after acc').arrive target).view
      machine.view := by
  refine ⟨machine.I, Finset.mem_univ _, ⟨label, machine.acc, acc', ?_, ?_⟩, fun lane hlane ↦ ?_⟩
  · simp [Machine.view, hrip]
  · simpa [Machine.view, Machine.execute, Machine.arrive] using hsegment
  · simp [Machine.view, Machine.execute, Machine.arrive, Function.update_of_ne hlane]

theorem halts_of_segment {label : Label} {target : Target Label} {after : σ} {acc' : α}
    (hhalts : ∀ lane, Halts program lane (machine.view lane).1 (machine.view lane).2)
    (hrip : machine.batchRips machine.I = some (.label label))
    (hsegment : program.segment machine.I label (machine.locals machine.I) machine.acc =
      some (after, acc', target)) (lane : Fin batch.size) :
    Halts program lane (((machine.execute label after acc').arrive target).view lane).1
      (((machine.execute label after acc').arrive target).view lane).2 := by
  by_cases hlane : lane = machine.I
  · subst hlane
    have hmine := hhalts machine.I
    simp only [Machine.view, hrip, Option.getD_some] at hmine
    cases hmine with
    | label _ hnext =>
      simpa [Machine.view, Machine.execute, Machine.arrive] using hnext _ _ _ _ hsegment
  · simpa [Machine.view, Machine.execute, Machine.arrive, Function.update_of_ne hlane]
      using hhalts lane

/-- Serving a lane that is not done, once all states with fewer segments left are served. -/
theorem exists_serves_of_label (h : Scheduled program locals acc machine)
    (hhalts : ∀ lane, Halts program lane (machine.view lane).1 (machine.view lane).2)
    (hopen : ¬ machine.AllDone) {label : Label}
    (hrip : machine.batchRips machine.I = some (.label label))
    (ih : ∀ next : Machine batch Label σ α,
      StepAt (Advances program) Finset.univ next.view machine.view →
      Scheduled program locals acc next →
      (∀ lane, Halts program lane (next.view lane).1 (next.view lane).2) → ¬ next.AllDone →
      ∃ count final, Serves program locals acc count next final) :
    ∃ count final, Serves program locals acc count machine final := by
  have hmine := hhalts machine.I
  simp only [Machine.view, hrip, Option.getD_some] at hmine
  obtain ⟨⟨after, acc', target⟩, hsegment⟩ :
      ∃ result, program.segment machine.I label (machine.locals machine.I) machine.acc =
        some result := by
    cases hmine with
    | label hdefined _ => exact Option.ne_none_iff_exists'.mp (hdefined machine.acc)
  have hnext := h.segment hrip hsegment
  have hdispatch := h.dispatch_segment hrip hsegment
  by_cases hdone : ((machine.execute label after acc').arrive target).AllDone
  · rw [Machine.switch_eq_returned hnext hdone] at hdispatch
    exact ⟨0, _, .last h hopen hdispatch hnext hdone⟩
  · rw [Machine.switch_eq_running hnext hdone] at hdispatch
    obtain ⟨count, final, hserves⟩ := ih
      { (machine.execute label after acc').arrive target with I := batch.next machine.I }
      (Machine.stepAt_view hrip hsegment) (hnext.setI _) (halts_of_segment hhalts hrip hsegment)
      hdone
    exact ⟨count + 1, final, .cons h hopen hdispatch hserves⟩

theorem next_add_mod (I : Fin batch.size) (distance : ℕ) :
    ((batch.next I).val + distance) % batch.size = (I + (distance + 1)) % batch.size := by
  rw [batch.next_val, Nat.mod_add_mod, Nat.add_assoc, Nat.add_comm 1]

/-- Lanes that halt are served. The induction is on the segments that the lanes have left and,
within it, on the number of lanes up to one that is not done. -/
theorem exists_serves (h : Scheduled program locals acc machine)
    (hhalts : ∀ lane, Halts program lane (machine.view lane).1 (machine.view lane).2)
    (hopen : ¬ machine.AllDone) : ∃ count final, Serves program locals acc count machine final := by
  obtain ⟨view, hview⟩ : ∃ view, machine.view = view := ⟨_, rfl⟩
  have haccessible : Acc (StepAt (Advances program) Finset.univ) view := by
    rw [← hview]
    exact acc_stepAt Finset.univ fun lane ↦ (hhalts lane).accessible
  induction haccessible generalizing machine with
  | intro view _ ih =>
    obtain ⟨goal, hgoal⟩ := not_forall.mp hopen
    obtain ⟨distance, hdistance⟩ : ∃ distance, (machine.I + distance) % batch.size = goal := by
      refine ⟨goal + batch.size - machine.I, ?_⟩
      rw [Nat.add_sub_cancel' (by omega), Nat.add_mod_right, Nat.mod_eq_of_lt goal.isLt]
    induction distance generalizing machine with
    | zero =>
      rw [Nat.add_zero, Nat.mod_eq_of_lt machine.I.isLt] at hdistance
      obtain rfl : machine.I = goal := Fin.ext hdistance
      obtain ⟨target, hrip, _⟩ := h.lanes machine.I
      cases target with
      | endBlock => exact absurd hrip hgoal
      | label label =>
        exact exists_serves_of_label h hhalts hopen hrip fun next hstep hnext hhalts' hopen' ↦
          ih _ (hview ▸ hstep) hnext hhalts' hopen' rfl
    | succ distance ihdistance =>
      obtain ⟨target, hrip, _⟩ := h.lanes machine.I
      cases target with
      | endBlock =>
        have hdispatch := h.dispatch_done hrip
        rw [Machine.switch_eq_running h hopen] at hdispatch
        rw [← next_add_mod] at hdistance
        obtain ⟨count, final, hserves⟩ :=
          ihdistance (h.setI (batch.next machine.I)) hhalts hopen hview hgoal hdistance
        exact ⟨count + 1, final, .cons h hopen hdispatch hserves⟩
      | label label =>
        exact exists_serves_of_label h hhalts hopen hrip fun next hstep hnext hhalts' hopen' ↦
          ih _ (hview ▸ hstep) hnext hhalts' hopen' rfl

theorem exists_serves_start (acc : α)
    (hhalts : ∀ lane, Halts program lane (.label program.entry) (locals lane)) :
    ∃ count final,
      Serves program locals acc count (Machine.start program locals acc) final := by
  apply exists_serves (Scheduled.start program locals acc) hhalts
  intro hdone
  exact nomatch hdone ⟨0, batch.size_pos⟩

/-- The machine runs every lane through its own program, once and in order, each time from the
label that the lane saved last. Bit `i` of the mask says whether lane `i` has come to `end`, and
the machine returns after finitely many dispatches, exactly when all lanes have. -/
theorem machine_serves_every_lane (program : Program batch Label σ α)
    (locals : Fin batch.size → σ) (acc : α)
    (hhalts : ∀ lane, Halts program lane (.label program.entry) (locals lane)) :
    ∃ count final,
      (∀ k ≤ count, ∃ machine,
        (Machine.start program locals acc).dispatches program k = .running machine ∧
          Scheduled program locals acc machine ∧ ¬ machine.AllDone) ∧
      (Machine.start program locals acc).dispatches program (count + 1) = .returned final ∧
      Scheduled program locals acc final ∧ final.AllDone := by
  obtain ⟨count, final, hserves⟩ := exists_serves_start acc hhalts
  exact ⟨count, final, hserves.running, hserves.returned, hserves.scheduled, hserves.allDone⟩

/-- Lanes that switch as often as their local says and count themselves at the end. -/
def countdown (batch : BatchSize) : Program batch Unit ℕ ℕ where
  entry := ()
  segment _ _ left acc :=
    match left with
    | 0 => some (0, acc + 1, .endBlock)
    | left + 1 => some (left, acc, .label ())

theorem countdown_halts (batch : BatchSize) (lane : Fin batch.size) (left : ℕ) :
    Halts (countdown batch) lane (.label ()) left := by
  induction left with
  | zero => exact .of_segment fun acc ↦ ⟨0, acc + 1, .endBlock, rfl, .endBlock 0⟩
  | succ left ih => exact .of_segment fun acc ↦ ⟨left, acc, .label (), rfl, ih⟩

/-- Two lanes, one of which switches once. -/
theorem machine_serves_countdown :
    ∃ count, ∃ final : Machine ⟨2, 1, by decide⟩ Unit ℕ ℕ,
      (Machine.start (countdown ⟨2, 1, by decide⟩) Fin.val 0).dispatches
        (countdown ⟨2, 1, by decide⟩) (count + 1) = .returned final ∧ final.AllDone := by
  obtain ⟨count, final, _, hreturned, _, hdone⟩ :=
    machine_serves_every_lane (countdown ⟨2, 1, by decide⟩) Fin.val 0
      fun lane ↦ countdown_halts _ lane _
  exact ⟨count, final, hreturned, hdone⟩

/-! ## Accumulators -/

section Accumulator

variable [AddCommGroup α]

/-- What a segment adds to the accumulator. -/
def Event.added (event : Event batch Label α) : α := event.after - event.before

theorem AccPath.eq_add_sum {events : List (Event batch Label α)} {current : α}
    (h : AccPath acc events current) : current = acc + (events.map Event.added).sum := by
  induction h with
  | start => simp
  | segment lane label hpath ih =>
    rw [List.map_append, List.sum_append, ← add_assoc, ← ih]
    simp [Event.added]

/-- The segments of all lanes are the segments of the run. -/
theorem sum_added_eq_sum_lanes (events : List (Event batch Label α)) :
    (events.map Event.added).sum =
      ∑ lane, ((events.filter fun event ↦ event.lane = lane).map Event.added).sum := by
  induction events with
  | nil => simp
  | cons event rest ih =>
    have hcons (lane : Fin batch.size) :
        (((event :: rest).filter fun event ↦ event.lane = lane).map Event.added).sum =
          (if event.lane = lane then event.added else 0) +
            ((rest.filter fun event ↦ event.lane = lane).map Event.added).sum := by
      by_cases hlane : event.lane = lane <;> simp [hlane]
    simp only [hcons, Finset.sum_add_distrib, Finset.sum_ite_eq, Finset.mem_univ, if_true]
    rw [List.map_cons, List.sum_cons, ih]

/-- `rest` says what a lane will still add to the accumulator. -/
def Foretells (program : Program batch Label σ α)
    (rest : Fin batch.size → Target Label → σ → α) : Prop :=
  ∀ lane label current acc after acc' target,
    program.segment lane label current acc = some (after, acc', target) →
      acc' + rest lane target after = acc + rest lane (.label label) current

theorem LanePath.sum_added {rest : Fin batch.size → Target Label → σ → α}
    (hrest : Foretells program rest) {lane : Fin batch.size} {initial current : σ}
    {events : List (Event batch Label α)} {target : Target Label}
    (h : LanePath program lane initial events target current) :
    (events.map Event.added).sum + rest lane target current =
      rest lane (.label program.entry) initial := by
  induction h with
  | start => simp
  | @segment events label target current after acc acc' hpath hsegment ih =>
    have hstep := hrest lane label current acc after acc' target hsegment
    let event : Event batch Label α := ⟨lane, label, acc, acc'⟩
    calc ((events ++ [event]).map Event.added).sum + rest lane target after
        = (events.map Event.added).sum + (acc' + rest lane target after - acc) := by
          simp only [List.map_append, List.sum_append, List.map_cons, List.map_nil, List.sum_cons,
            List.sum_nil, Event.added, event]
          abel
      _ = (events.map Event.added).sum + rest lane (.label label) current := by
          rw [hstep, add_sub_cancel_left]
      _ = rest lane (.label program.entry) initial := ih

/-- In whatever order the lanes have run, the accumulator and what the lanes will still add come
to what the lanes have to add in all. -/
theorem Scheduled.acc_add_sum (h : Scheduled program locals acc machine)
    {rest : Fin batch.size → Target Label → σ → α} (hrest : Foretells program rest) :
    machine.acc + ∑ lane, rest lane (machine.view lane).1 (machine.view lane).2 =
      acc + ∑ lane, rest lane (.label program.entry) (locals lane) := by
  have hlane (lane : Fin batch.size) :
      ((machine.log.filter fun event ↦ event.lane = lane).map Event.added).sum +
        rest lane (machine.view lane).1 (machine.view lane).2 =
          rest lane (.label program.entry) (locals lane) := by
    obtain ⟨target, hrip, hpath⟩ := h.lanes lane
    simpa only [Machine.view, hrip, Option.getD_some] using hpath.sum_added hrest
  calc machine.acc + ∑ lane, rest lane (machine.view lane).1 (machine.view lane).2
      = acc + (∑ lane, ((machine.log.filter fun event ↦ event.lane = lane).map Event.added).sum +
          ∑ lane, rest lane (machine.view lane).1 (machine.view lane).2) := by
        rw [h.accPath.eq_add_sum, sum_added_eq_sum_lanes, add_assoc]
    _ = acc + ∑ lane, rest lane (.label program.entry) (locals lane) := by
        rw [← Finset.sum_add_distrib]
        simp only [hlane]

/-- Lanes that halt leave their sum in the accumulator, added to what it was. -/
theorem exists_returned_acc (acc : α) {rest : Fin batch.size → Target Label → σ → α}
    (hhalts : ∀ lane, Halts program lane (.label program.entry) (locals lane))
    (hrest : Foretells program rest) (hend : ∀ lane current, rest lane .endBlock current = 0) :
    ∃ count final,
      (Machine.start program locals acc).dispatches program (count + 1) = .returned final ∧
        final.acc = acc + ∑ lane, rest lane (.label program.entry) (locals lane) := by
  obtain ⟨count, final, hserves⟩ := exists_serves_start acc hhalts
  refine ⟨count, final, hserves.returned, ?_⟩
  have hsum := hserves.scheduled.acc_add_sum hrest
  simpa only [Machine.view, hserves.allDone _, Option.getD_some, hend, Finset.sum_const_zero,
    add_zero] using hsum

/-- A loop whose rounds add one value each, given enough fuel, adds the sum of the values. -/
theorem foldlM_finRange_of_fuel {n : ℕ} {body : ℕ → α → Fin n → Option α} {value : Fin n → α}
    (hbody : ∀ acc i, ∃ bound, ∀ fuel ≥ bound, body fuel acc i = some (acc + value i)) (acc : α) :
    ∃ bound, ∀ fuel ≥ bound,
      (List.finRange n).foldlM (body fuel) acc = some (acc + ∑ i, value i) := by
  have hlist (indices : List (Fin n)) (acc : α) : ∃ bound, ∀ fuel ≥ bound,
      indices.foldlM (body fuel) acc = some (acc + (indices.map value).sum) := by
    induction indices generalizing acc with
    | nil => exact ⟨0, fun fuel _ ↦ by simp⟩
    | cons i indices ih =>
      obtain ⟨first, hfirst⟩ := hbody acc i
      obtain ⟨others, hothers⟩ := ih (acc + value i)
      refine ⟨max first others, fun fuel hfuel ↦ ?_⟩
      rw [List.foldlM_cons, hfirst fuel ((le_max_left _ _).trans hfuel), Option.bind_eq_bind,
        Option.bind_some, hothers fuel ((le_max_right _ _).trans hfuel), List.map_cons,
        List.sum_cons, add_assoc]
  simpa only [Fin.sum_univ_def] using hlist (List.finRange n) acc

theorem foldlM_finRange {n : ℕ} {body : α → Fin n → Option α} {value : Fin n → α}
    (hbody : ∀ acc i, body acc i = some (acc + value i)) (acc : α) :
    (List.finRange n).foldlM body acc = some (acc + ∑ i, value i) := by
  obtain ⟨bound, hbound⟩ := @foldlM_finRange_of_fuel α _ n (fun _ ↦ body) value
    (fun acc i ↦ ⟨0, fun _ _ ↦ hbody acc i⟩) acc
  exact hbound bound le_rfl

end Accumulator

end Systemish.Goto
