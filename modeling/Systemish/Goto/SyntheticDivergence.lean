import Systemish.Foundation.ForLoop
import Systemish.Goto.FppRuns

/-!
# Pointer chasing with diverging lanes

Embedding of `synthetic-divergence/nogoto.c` and `synthetic-divergence/goto.c`.
Each packet starts at a bucket of the cache and hops from bucket to bucket, up to
`DEPTH` times or until the value it finds is divisible by 16. The two programs
have the same loop body; the second switches to the next packet before each hop.
Reading outside the cache or outside a bucket is a fault. The counter of the hops is
an `int`, and `DEPTH` is any number. The counter `j` of the slots is a natural number:
it is the `int` of the source as long as the slots of a bucket can be counted by one.
-/

namespace Systemish.Goto.SyntheticDivergence

open Foundation

/-- The `NUM_BS` buckets of the cache, each with its `slot_arr`. Slots hold indices of buckets. -/
structure Cache (numBs slotsPerBkt : ℕ) where
  slotArr : Fin numBs → Fin slotsPerBkt → CInt
  inRange : ∀ bucket slot, InRange numBs (slotArr bucket slot)

variable {numBs slotsPerBkt : ℕ}

/-- `cache[jumper].slot_arr`. -/
def Cache.bucket (cache : Cache numBs slotsPerBkt) (jumper : CInt) :
    Option (Fin slotsPerBkt → CInt) := readAt cache.slotArr jumper

/-- `arr[j]`. -/
def slot (arr : Fin slotsPerBkt → CInt) (j : ℕ) : Option CInt :=
  if h : j < slotsPerBkt then some (arr ⟨j, h⟩) else none

/-- `ABS(a - b)`. The macro does not put its argument in parentheses, so the second branch is
`-1 * a - b`. -/
def absDifference (a b : CInt) : CInt :=
  if (0 : CInt).slt (a - b) then a - b else -1 * a - b

/-- `ABS(a - b) % 8`. -/
def diff (a b : CInt) : CInt := (absDifference a b).srem 8

/-- The loop over the slots from `j` on, for `rounds` rounds: the best slot so far and its
`max_diff`. -/
def pickLoop (arr : Fin slotsPerBkt → CInt) (jumper : CInt) :
    (rounds j bestJ : ℕ) → (maxDiff : CInt) → Option (ℕ × CInt)
  | 0, _, bestJ, maxDiff => some (bestJ, maxDiff)
  | rounds + 1, j, bestJ, maxDiff => do
    let value ← slot arr j
    if maxDiff.slt (diff value jumper) then pickLoop arr jumper rounds (j + 1) j (diff value jumper)
    else pickLoop arr jumper rounds (j + 1) bestJ maxDiff

/-- The loop body up to the assignment of `jumper`: the value that `jumper` gets. -/
def hop (cache : Cache numBs slotsPerBkt) (jumper : CInt) : Option CInt := do
  let arr ← cache.bucket jumper
  let first ← slot arr 0
  let (bestJ, _) ← pickLoop arr jumper (slotsPerBkt - 1) 1 0 (diff first jumper)
  slot arr bestJ

/-- `jumper % 16 == 0`. -/
def leavesLoop (jumper : CInt) : Bool := jumper.srem 16 = 0

/-! ## The sequential program -/

/-- The loop over `i`, cut off after `fuel` tests of its condition. -/
def chase (cache : Cache numBs slotsPerBkt) (depth : ℕ) :
    (fuel : ℕ) → (i jumper : CInt) → Option CInt
  | 0, _, _ => none
  | fuel + 1, i, jumper =>
    if i.toInt < depth then do
      let jumper ← hop cache jumper
      if leavesLoop jumper then return jumper else chase cache depth fuel (i + 1) jumper
    else some jumper

/-- `process_pkts_in_batch` of `nogoto.c`. -/
def nogoto (batch : BatchSize) (fuel : ℕ) (cache : Cache numBs slotsPerBkt) (depth : ℕ)
    (pktLo : Fin batch.size → CInt) (sum : CInt) : Option CInt :=
  (List.finRange batch.size).foldlM
    (fun sum batchIndex ↦ do
      let jumper ← chase cache depth fuel 0 (pktLo batchIndex)
      return sum + jumper) sum

/-! ## The batched program -/

/-- The variables of a lane that outlive a switch. The others are assigned again before they are
read: `arr`, `best_j`, `j` and `max_diff` belong to one hop. -/
structure Locals where
  i : CInt
  jumper : CInt

/-- After the loop. -/
def finish (locals : Locals) (sum : CInt) : Option (Locals × CInt × Target BodyLabel) :=
  some (locals, sum + locals.jumper, .endBlock)

/-- The loop condition and the `FPP_PSS` behind it. -/
def loopHead (cache : Cache numBs slotsPerBkt) (depth : ℕ) (locals : Locals) (sum : CInt) :
    Option (Locals × CInt × Target BodyLabel) :=
  if locals.i.toInt < depth then do
    let _ ← cache.bucket locals.jumper
    return (locals, sum, .label .label1)
  else finish locals sum

/-- The code of one lane of `process_pkts_in_batch` of `goto.c`. -/
def program (batch : BatchSize) (cache : Cache numBs slotsPerBkt) (depth : ℕ)
    (pktLo : Fin batch.size → CInt) : Program batch BodyLabel Locals CInt where
  entry := .label0
  segment I label locals sum :=
    match label with
    | .label0 => loopHead cache depth ⟨0, pktLo I⟩ sum
    | .label1 => do
      let jumper ← hop cache locals.jumper
      if leavesLoop jumper then finish ⟨locals.i, jumper⟩ sum
      else loopHead cache depth ⟨locals.i + 1, jumper⟩ sum

/-! ## Accesses stay in range -/

section Range

variable {cache : Cache numBs slotsPerBkt} {jumper : CInt}

theorem Cache.exists_bucket (cache : Cache numBs slotsPerBkt) (h : InRange numBs jumper) :
    ∃ arr, cache.bucket jumper = some arr ∧ ∀ j, InRange numBs (arr j) := by
  obtain ⟨bucket, hbucket⟩ := exists_readAt cache.slotArr h
  exact ⟨cache.slotArr bucket, hbucket, cache.inRange bucket⟩

theorem slot_eq_some (arr : Fin slotsPerBkt → CInt) {j : ℕ} (h : j < slotsPerBkt) :
    slot arr j = some (arr ⟨j, h⟩) := dif_pos h

/-- The loop over the slots ends with a slot of the bucket. -/
theorem exists_pickLoop (arr : Fin slotsPerBkt → CInt) (jumper : CInt) (rounds : ℕ) :
    ∀ (j bestJ : ℕ) (maxDiff : CInt), j + rounds ≤ slotsPerBkt → bestJ < slotsPerBkt →
      ∃ best, pickLoop arr jumper rounds j bestJ maxDiff = some best ∧ best.1 < slotsPerBkt := by
  induction rounds with
  | zero =>
    intro j bestJ maxDiff _ hbest
    exact ⟨(bestJ, maxDiff), rfl, hbest⟩
  | succ rounds ih =>
    intro j bestJ maxDiff hj hbest
    have hlt : j < slotsPerBkt := by omega
    simp only [pickLoop, slot_eq_some arr hlt, Option.bind_eq_bind, Option.bind_some]
    split
    · exact ih (j + 1) j _ (by omega) hlt
    · exact ih (j + 1) bestJ _ (by omega) hbest

/-- A hop from a valid index leads to a valid index. -/
theorem exists_hop (hslots : 1 ≤ slotsPerBkt) (cache : Cache numBs slotsPerBkt)
    (h : InRange numBs jumper) : ∃ next, hop cache jumper = some next ∧ InRange numBs next := by
  obtain ⟨arr, hbucket, harr⟩ := cache.exists_bucket h
  obtain ⟨⟨bestJ, maxDiff⟩, hpick, hbest⟩ := exists_pickLoop arr jumper (slotsPerBkt - 1) 1 0
    (diff (arr ⟨0, hslots⟩) jumper) (by omega) hslots
  refine ⟨arr ⟨bestJ, hbest⟩, ?_, harr _⟩
  simp only [hop, hbucket, slot_eq_some arr hslots, hpick, slot_eq_some arr hbest,
    Option.bind_eq_bind, Option.bind_some]

end Range

/-! ## The rounds of a chase -/

/-- The rounds that the loop over `i` has left, unless it is left before. -/
def remaining (depth : ℕ) (i : CInt) : ℕ := (depth - i.toInt).toNat

/-- A chase of at most so many hops. -/
def follow (cache : Cache numBs slotsPerBkt) : (rounds : ℕ) → (jumper : CInt) → Option CInt
  | 0, jumper => some jumper
  | rounds + 1, jumper => do
    let jumper ← hop cache jumper
    if leavesLoop jumper then return jumper else follow cache rounds jumper

section Rounds

variable {depth : ℕ} {i : CInt}

/-- In a loop that the counter can end, each round is one round less. -/
theorem remaining_succ (hdepth : depth < 2 ^ 31) (hi : i.toInt < depth) :
    remaining depth (i + 1) + 1 = remaining depth i := by
  have hnext : (i + 1).toInt = i.toInt + 1 := toInt_add_one_of_lt (by omega)
  rw [remaining, remaining, hnext]
  omega

theorem remaining_eq_zero (hi : ¬ i.toInt < depth) : remaining depth i = 0 := by
  rw [remaining]
  omega

/-- With enough fuel the loop makes the rounds that are left. -/
theorem chase_eq (cache : Cache numBs slotsPerBkt) (hdepth : depth < 2 ^ 31) {fuel : ℕ}
    (hfuel : remaining depth i < fuel) (jumper : CInt) :
    chase cache depth fuel i jumper = follow cache (remaining depth i) jumper := by
  induction fuel generalizing i jumper with
  | zero => exact absurd hfuel (Nat.not_lt_zero _)
  | succ fuel ih =>
    by_cases hi : i.toInt < depth
    · have hsucc := remaining_succ hdepth hi
      have hrest := @ih (i + 1) (by omega)
      simp only [chase, if_pos hi, hrest, ← hsucc, follow]
    · rw [chase, if_neg hi, remaining_eq_zero hi, follow]

/-- Chasing from a valid index never leaves the cache. -/
theorem exists_follow (hslots : 1 ≤ slotsPerBkt) (cache : Cache numBs slotsPerBkt) (rounds : ℕ)
    {jumper : CInt} (h : InRange numBs jumper) :
    ∃ last, follow cache rounds jumper = some last := by
  induction rounds generalizing jumper with
  | zero => exact ⟨jumper, rfl⟩
  | succ rounds ih =>
    obtain ⟨next, hhop, hnext⟩ := exists_hop hslots cache h
    simp only [follow, hhop, Option.bind_eq_bind, Option.bind_some]
    split
    · exact ⟨next, rfl⟩
    · exact ih hnext

end Rounds

/-! ## The two programs agree -/

variable {batch : BatchSize} {cache : Cache numBs slotsPerBkt} {depth : ℕ}
  {pktLo : Fin batch.size → CInt}

/-- The end of a chase. -/
def lastJumper (cache : Cache numBs slotsPerBkt) (rounds : ℕ) (jumper : CInt) : CInt :=
  (follow cache rounds jumper).getD 0

/-- What a lane will still add to `sum`. -/
def rest (cache : Cache numBs slotsPerBkt) (depth : ℕ) (pktLo : Fin batch.size → CInt)
    (lane : Fin batch.size) (target : Target BodyLabel) (locals : Locals) : CInt :=
  match target with
  | .label .label0 => lastJumper cache (remaining depth 0) (pktLo lane)
  | .label .label1 => lastJumper cache (remaining depth (locals.i + 1) + 1) locals.jumper
  | .endBlock => 0

/-- The loop head either leaves the loop or goes on with the rounds that are left. -/
theorem loopHead_rest (hdepth : depth < 2 ^ 31) {locals after : Locals} {sum sum' : CInt}
    {target : Target BodyLabel} (pktLo : Fin batch.size → CInt) (lane : Fin batch.size)
    (h : loopHead cache depth locals sum = some (after, sum', target)) :
    sum' + rest cache depth pktLo lane target after =
      sum + lastJumper cache (remaining depth locals.i) locals.jumper := by
  by_cases hi : locals.i.toInt < depth
  · rw [loopHead, if_pos hi] at h
    obtain ⟨_, _, hlabel⟩ := Option.bind_eq_some_iff.mp h
    obtain ⟨rfl, rfl, rfl⟩ : locals = after ∧ sum = sum' ∧ .label .label1 = target := by
      simpa using hlabel
    simp only [rest, remaining_succ hdepth hi]
  · rw [loopHead, if_neg hi] at h
    obtain ⟨rfl, rfl, rfl⟩ : locals = after ∧ sum + locals.jumper = sum' ∧ .endBlock = target := by
      simpa [finish] using h
    simp [rest, remaining_eq_zero hi, lastJumper, follow]

/-- The interleaved program adds for each lane what the sequential one adds. -/
theorem program_foretells (hdepth : depth < 2 ^ 31) :
    Foretells (program batch cache depth pktLo) (rest cache depth pktLo) := by
  intro lane label locals sum after sum' target hsegment
  cases label with
  | label0 =>
    have hhead := loopHead_rest hdepth pktLo lane hsegment
    exact hhead
  | label1 =>
    obtain ⟨next, hhop, hnext⟩ := Option.bind_eq_some_iff.mp hsegment
    simp only [rest, lastJumper, follow, hhop, Option.bind_eq_bind, Option.bind_some]
    by_cases hleaves : leavesLoop next
    · rw [if_pos hleaves] at hnext
      obtain ⟨rfl, rfl, rfl⟩ : (⟨locals.i, next⟩ : Locals) = after ∧ sum + next = sum' ∧
          .endBlock = target := by simpa [finish] using hnext
      simp [hleaves]
    · rw [if_neg hleaves] at hnext
      have hhead := loopHead_rest hdepth pktLo lane hnext
      rw [if_neg hleaves]
      exact hhead

theorem loopHead_halts {locals : Locals} (lane : Fin batch.size)
    (h : InRange numBs locals.jumper)
    (hlabel1 : locals.i.toInt < depth →
      Halts (program batch cache depth pktLo) lane (.label .label1) locals) (sum : CInt) :
    ∃ after sum' target, loopHead cache depth locals sum = some (after, sum', target) ∧
      Halts (program batch cache depth pktLo) lane target after := by
  by_cases hi : locals.i.toInt < depth
  · obtain ⟨arr, hbucket, _⟩ := cache.exists_bucket h
    refine ⟨locals, sum, .label .label1, ?_, hlabel1 hi⟩
    rw [loopHead, if_pos hi, hbucket]
    rfl
  · refine ⟨locals, sum + locals.jumper, .endBlock, ?_, .endBlock locals⟩
    rw [loopHead, if_neg hi, finish]

/-- A lane that waits before a hop comes to `end`: each hop uses up a round. -/
theorem label1_halts (hdepth : depth < 2 ^ 31) (hslots : 1 ≤ slotsPerBkt) (lane : Fin batch.size)
    {locals : Locals} (h : InRange numBs locals.jumper) :
    Halts (program batch cache depth pktLo) lane (.label .label1) locals := by
  obtain ⟨rounds, hrounds⟩ : ∃ rounds, remaining depth (locals.i + 1) = rounds := ⟨_, rfl⟩
  induction rounds using Nat.strong_induction_on generalizing locals with
  | _ rounds ih =>
    apply Halts.of_segment
    intro sum
    obtain ⟨next, hhop, hnext⟩ := exists_hop hslots cache h
    simp only [program, hhop, Option.bind_eq_bind, Option.bind_some]
    by_cases hleaves : leavesLoop next
    · rw [if_pos hleaves]
      exact ⟨⟨locals.i, next⟩, sum + next, .endBlock, rfl, .endBlock _⟩
    · rw [if_neg hleaves]
      apply loopHead_halts lane hnext
      intro hi
      have hfewer : remaining depth (locals.i + 1 + 1) + 1 = rounds :=
        (remaining_succ hdepth hi).trans hrounds
      exact ih _ (Nat.lt_of_succ_le hfewer.le) hnext rfl

theorem program_halts (hdepth : depth < 2 ^ 31) (hslots : 1 ≤ slotsPerBkt)
    (hpkts : ∀ lane, InRange numBs (pktLo lane)) (lane : Fin batch.size) (locals : Locals) :
    Halts (program batch cache depth pktLo) lane (.label .label0) locals :=
  .of_segment fun sum ↦
    loopHead_halts lane (hpkts lane) (fun _ ↦ label1_halts hdepth hslots lane (hpkts lane)) sum

theorem nogoto_returns (hdepth : depth < 2 ^ 31) (hslots : 1 ≤ slotsPerBkt)
    (hpkts : ∀ lane, InRange numBs (pktLo lane)) (sum : CInt) :
    Returns (fun fuel ↦ nogoto batch fuel cache depth pktLo sum)
      (sum + ∑ lane, lastJumper cache (remaining depth 0) (pktLo lane)) := by
  refine .of_lt (remaining depth 0) fun fuel hfuel ↦ ?_
  apply foldlM_finRange
  intro sum lane
  obtain ⟨last, hlast⟩ := exists_follow hslots cache (remaining depth 0) (hpkts lane)
  rw [chase_eq cache hdepth hfuel, lastJumper, hlast]
  rfl

/-- Both programs come to an end without leaving the cache, and with the same sum, if `DEPTH` fits
into an `int`. The uninitialised variables of the second, `locals`, make no difference. -/
theorem goto_sum_eq_nogoto_sum (batch : BatchSize) (cache : Cache numBs slotsPerBkt) (depth : ℕ)
    (hdepth : depth < 2 ^ 31) (hslots : 1 ≤ slotsPerBkt) (pktLo : Fin batch.size → CInt)
    (hpkts : ∀ lane, InRange numBs (pktLo lane)) (sum : CInt) (locals : Fin batch.size → Locals) :
    ∃ result, Returns (fun fuel ↦ nogoto batch fuel cache depth pktLo sum) result ∧
      ∃ count final,
        (Machine.start (program batch cache depth pktLo) locals sum).dispatches
          (program batch cache depth pktLo) (count + 1) = .returned final ∧ final.acc = result := by
  obtain ⟨count, final, hreturned, hacc⟩ := exists_returned_acc sum
    (fun lane ↦ program_halts hdepth hslots hpkts lane (locals lane))
    (@program_foretells _ _ batch cache depth pktLo hdepth) fun _ _ ↦ rfl
  exact ⟨_, nogoto_returns hdepth hslots hpkts sum, count, final, hreturned, hacc⟩

/-- Two buckets that point at each other. -/
def twoBuckets : Cache 2 1 := ⟨fun bucket _ ↦ if bucket = 0 then 1 else 0, by decide⟩

theorem goto_sum_eq_nogoto_sum_two_buckets :
    ∃ result, Returns (fun fuel ↦ nogoto ⟨2, 1, by decide⟩ fuel twoBuckets 3
          (fun lane ↦ if lane = 0 then 0 else 1) 5) result ∧
      ∃ count, ∃ final : Machine ⟨2, 1, by decide⟩ BodyLabel Locals CInt,
        (Machine.start (program ⟨2, 1, by decide⟩ twoBuckets 3
            fun lane ↦ if lane = 0 then 0 else 1) (fun _ ↦ ⟨7, 7⟩) 5).dispatches
          (program ⟨2, 1, by decide⟩ twoBuckets 3 fun lane ↦ if lane = 0 then 0 else 1)
          (count + 1) = .returned final ∧ final.acc = result :=
  goto_sum_eq_nogoto_sum _ _ 3 (by decide) (by decide) _ (by decide) 5 _

/-! ## A chase without end -/

/-- All slots hold the index 1, so no chase is left before its last round. -/
def oneBucket : Cache 2 1 := ⟨fun _ _ ↦ 1, by decide⟩

theorem hop_oneBucket : hop oneBucket 1 = some 1 := by decide

theorem not_leavesLoop_one : leavesLoop 1 = false := by decide

theorem toInt_lt_of_le (hdepth : 2 ^ 31 ≤ depth) (i : CInt) : i.toInt < depth := by
  have hlt : i.toInt < 2 ^ 31 := BitVec.toInt_lt
  omega

theorem chase_oneBucket (hdepth : 2 ^ 31 ≤ depth) (fuel : ℕ) (i : CInt) :
    chase oneBucket depth fuel i 1 = none := by
  induction fuel generalizing i with
  | zero => rfl
  | succ fuel ih =>
    rw [chase, if_pos (toInt_lt_of_le hdepth i), hop_oneBucket]
    exact ih (i + 1)

/-- No lane has come to `end`, and those that wait before a hop wait at index 1. -/
def Chasing (machine : Machine batch BodyLabel Locals CInt) : Prop :=
  ∀ lane, ∃ label, machine.batchRips lane = some (.label label) ∧
    (label = .label1 → (machine.locals lane).jumper = 1)

theorem loopHead_oneBucket (hdepth : 2 ^ 31 ≤ depth) (i sum : CInt) :
    loopHead oneBucket depth ⟨i, 1⟩ sum = some (⟨i, 1⟩, sum, .label .label1) := by
  rw [loopHead, if_pos (toInt_lt_of_le hdepth i)]
  rfl

theorem segment_oneBucket (hdepth : 2 ^ 31 ≤ depth) (lane : Fin batch.size) {label : BodyLabel}
    {locals : Locals} (h : label = .label1 → locals.jumper = 1) (sum : CInt) :
    ∃ i, (program batch oneBucket depth fun _ ↦ 1).segment lane label locals sum =
      some (⟨i, 1⟩, sum, .label .label1) := by
  cases label with
  | label0 => exact ⟨0, loopHead_oneBucket hdepth 0 sum⟩
  | label1 =>
    refine ⟨locals.i + 1, ?_⟩
    simp only [program, h rfl, hop_oneBucket, not_leavesLoop_one, Option.bind_eq_bind,
      Option.bind_some, Bool.false_eq_true, if_false]
    exact loopHead_oneBucket hdepth (locals.i + 1) sum

theorem Chasing.dispatch (hdepth : 2 ^ 31 ≤ depth) {machine : Machine batch BodyLabel Locals CInt}
    (h : Chasing machine) :
    ∃ next, machine.dispatch (program batch oneBucket depth fun _ ↦ 1) = .running next ∧
      Chasing next := by
  obtain ⟨label, hrip, hlabel⟩ := h machine.I
  obtain ⟨i, hsegment⟩ := segment_oneBucket hdepth machine.I hlabel machine.acc
  refine ⟨(machine.execute label ⟨i, 1⟩ machine.acc).fppPss .label1, ?_, fun lane ↦ ?_⟩
  · simp only [Machine.dispatch, hrip, hsegment]
  · by_cases hlane : lane = machine.I
    · subst hlane
      exact ⟨.label1, by simp [Machine.fppPss, Machine.execute],
        fun _ ↦ by simp [Machine.fppPss, Machine.execute]⟩
    · simpa [Machine.fppPss, Machine.execute, Function.update_of_ne hlane] using h lane

theorem Chasing.dispatches (hdepth : 2 ^ 31 ≤ depth)
    {machine : Machine batch BodyLabel Locals CInt} (h : Chasing machine) (count : ℕ) :
    ∃ next, machine.dispatches (program batch oneBucket depth fun _ ↦ 1) count =
      .running next := by
  induction count generalizing machine with
  | zero => exact ⟨machine, rfl⟩
  | succ count ih =>
    obtain ⟨next, hdispatch, hnext⟩ := h.dispatch hdepth
    rw [Machine.dispatches, hdispatch]
    exact ih hnext

/-- With `DEPTH` at `2 ^ 31` neither program returns, for two packets with the index 1. -/
theorem chases_without_end :
    (∀ fuel, nogoto ⟨2, 1, by decide⟩ fuel oneBucket (2 ^ 31) (fun _ ↦ 1) 0 = none) ∧
      ∀ count, ∃ machine,
        (Machine.start (program ⟨2, 1, by decide⟩ oneBucket (2 ^ 31) fun _ ↦ 1) (fun _ ↦ ⟨7, 7⟩)
          0).dispatches (program ⟨2, 1, by decide⟩ oneBucket (2 ^ 31) fun _ ↦ 1) count =
            .running machine := by
  have hstart : Chasing (Machine.start (program ⟨2, 1, by decide⟩ oneBucket (2 ^ 31) fun _ ↦ 1)
      (fun _ ↦ ⟨7, 7⟩) 0) := fun _ ↦ ⟨.label0, rfl, BodyLabel.noConfusion⟩
  refine ⟨fun fuel ↦ ?_, hstart.dispatches le_rfl⟩
  have hlanes : List.finRange 2 = 0 :: [1] := by decide
  simp only [nogoto, hlanes, List.foldlM_cons, chase_oneBucket le_rfl]
  rfl

end Systemish.Goto.SyntheticDivergence
