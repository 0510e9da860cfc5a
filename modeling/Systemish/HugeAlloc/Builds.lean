import Systemish.HugeAlloc.Carve

/-!
# Builds with and without assertions

An assertion of the header can only fail once `prev_allocation_size` has wrapped around. As long as
it stays below that, a build with assertions and a build without them take the same steps. The
assignment that one of the assertions carries out writes the class size that the Buffer already has.
-/

namespace Systemish.HugeAlloc

open Foundation

/-- `get_class` is as intended, and assertions are compiled in. -/
def debugBuild : Build := ⟨true, 0⟩

/-- `get_class` is as intended, and `NDEBUG` is defined. -/
def releaseBuild : Build := ⟨false, 0⟩

/-- The call did not end in a failed assertion, nor did it have undefined behaviour. -/
def Sound {α : Type} (outcome : Except Stop α × Process) : Prop :=
  outcome.1 ≠ .error .aborted ∧ outcome.1 ≠ .error .undefined

section Calls

variable {answers : Answers} {process : Process} {size : ℕ}

/-- The assertion of `alloc_raw` always holds. -/
theorem allocRaw_eq (build build' : Build) (answers : Answers) (size : ℕ) :
    allocRaw build answers size = allocRaw build' answers size := by
  have hdvd := Nat.mod_eq_zero_of_dvd (kHugepageSize_dvd_roundUp size)
  simp only [allocRaw, Call.check, hdvd, not_true_eq_false, and_false, if_false]

/-- The assertions of `reserve_hugepages` hold for the size of at least one Buffer. -/
theorem reserveHugepages_eq (build build' : Build) (answers : Answers)
    (hlarge : kMaxClassSize ≤ size) :
    reserveHugepages build answers size = reserveHugepages build' answers size := by
  have hcount : 1 ≤ size / kMaxClassSize := (Nat.one_le_div_iff (by decide)).mpr hlarge
  simp only [reserveHugepages, Call.check, hlarge, hcount, not_true_eq_false, and_false, if_false,
    allocRaw_eq build build']

theorem RawResult.sound {final : Process} {result : Except Stop Buffer}
    (h : RawResult answers process size result final) : Sound (result, final) := by
  cases h <;> simp [Sound]

theorem classIndex_builds (hsize : size ≤ kMaxClassSize) :
    classIndex debugBuild size = getClassSlow size ∧
      classIndex releaseBuild size = getClassSlow size :=
  ⟨classIndex_eq_slow rfl hsize, classIndex_eq_slow rfl hsize⟩

/-- A call of `alloc` that has to reserve no less than one Buffer. -/
theorem alloc_eval_eq (htagged : Tagged process.heap) (hpos : 1 ≤ size)
    (hsize : size ≤ kMaxClassSize) (hlarge : kMaxClassSize ≤ doubledSize process.heap)
    (answers : Answers) :
    (alloc debugBuild answers size).eval process =
      (alloc releaseBuild answers size).eval process := by
  obtain ⟨classI, hclass⟩ : ∃ classI : Fin kNumClasses, getClassSlow size = classI :=
    ⟨⟨_, getClassSlow_lt hsize⟩, rfl⟩
  obtain ⟨hdebug, hrelease⟩ := classIndex_builds hsize
  rw [hclass] at hdebug hrelease
  by_cases hserved : Served process.heap classI
  · obtain ⟨larger, hleast⟩ := hserved.exists_isLeast
    obtain ⟨back, rest, hsource⟩ := List.exists_cons_of_ne_nil hleast.1.2
    rw [alloc_carves htagged hpos hsize hdebug hleast hsource,
      alloc_carves htagged hpos hsize hrelease hleast hsource]
  · have hsame :
        reservation debugBuild answers process = reservation releaseBuild answers process :=
      congrArg (fun call : Call Process Bool ↦ call.eval process.double)
        (reserveHugepages_eq debugBuild releaseBuild answers hlarge)
    have hresult := reservation_result releaseBuild answers process
    rcases hreserved : reservation releaseBuild answers process with ⟨stop | success, middle⟩
    · rw [alloc_reserves hpos hsize hdebug hserved, alloc_reserves hpos hsize hrelease hserved,
        hsame, hreserved]
    rw [hreserved] at hresult
    cases hresult with
    | outOfMemory =>
      rw [alloc_reserves hpos hsize hdebug hserved, alloc_reserves hpos hsize hrelease hserved,
        hsame, hreserved]
    | reserved draw id hverdict husable hassert =>
      have hserved' : ¬ Served process.double.heap classI := hserved
      have hleast := isLeast_lastClass_of_reserve hserved' answers draw id hlarge
      obtain ⟨back, rest, hsource⟩ := List.exists_cons_of_ne_nil hleast.1.2
      rw [alloc_carves_reserved htagged hpos hsize hdebug hserved hlarge (hsame.trans hreserved)
          hsource,
        alloc_carves_reserved htagged hpos hsize hrelease hserved hlarge hreserved hsource]

theorem AllocResult.sound {build : Build} {classI : Fin kNumClasses} {final : Process}
    {result : Except Stop Buffer} (h : AllocResult build answers process classI result final)
    (hlarge : kMaxClassSize ≤ doubledSize process.heap) : Sound (result, final) := by
  cases h with
  | served | outOfMemory | reserved => simp [Sound]
  | aborted _ _ hsmall => exact absurd hlarge (not_le.mpr hsmall)
  | stopped _ _ _ hraw => cases hraw <;> simp [Sound]
  | undefined _ _ _ _ _ _ _ hsmall => exact absurd hlarge (not_le.mpr hsmall)

theorem alloc_sound {build : Build} (hzero : build.bsrlZero = 0) (htagged : Tagged process.heap)
    (hpos : 1 ≤ size) (hsize : size ≤ kMaxClassSize)
    (hlarge : kMaxClassSize ≤ doubledSize process.heap) (answers : Answers) :
    Sound ((alloc build answers size).eval process) := by
  have hclass : classIndex build size = (⟨_, getClassSlow_lt hsize⟩ : Fin kNumClasses) :=
    classIndex_eq_slow hzero hsize
  exact (Call.ensures_iff.mp (alloc_ensures answers htagged hpos hsize _ hclass)).sound hlarge

/-- A Buffer that can be freed is freed alike in both builds. -/
theorem freeBuf_eval {build : Build} {buffer : Buffer} (h : Returnable build buffer)
    (process : Process) : ∃ classI : Fin kNumClasses, buffer.classSize = classMaxSize classI ∧
      (freeBuf build buffer).eval process = (.ok (), process.putBack classI buffer) := by
  obtain ⟨hbuf, classI, hclass, hindex⟩ := h
  exact ⟨classI, hclass, Prod.ext_iff.mpr (freeBuf_ensures process hbuf classI hclass hindex)⟩

end Calls

/-! ## The size of the next reservation -/

theorem SplitRun.prevAllocationSize {lowest : ℕ} {process final : Process}
    (h : SplitRun lowest process final) :
    final.heap.prevAllocationSize = process.heap.prevAllocationSize := by
  induction h with
  | refl => rfl
  | step _ _ _ _ _ _ _ _ ih => exact ih

theorem doubledSize_eq {heap : HugeAlloc} (h : heap.prevAllocationSize ≤ 2 ^ 62) :
    doubledSize heap = heap.prevAllocationSize * 2 := by
  unfold doubledSize
  omega

/-- The size of the next reservation does not fall below the size of one Buffer. -/
theorem AllocResult.le_prevAllocationSize {build : Build} {answers : Answers}
    {process final : Process} {classI : Fin kNumClasses} {result : Except Stop Buffer}
    (h : AllocResult build answers process classI result final)
    (hlow : kMaxClassSize ≤ process.heap.prevAllocationSize)
    (hhigh : process.heap.prevAllocationSize ≤ 2 ^ 62) :
    kMaxClassSize ≤ final.heap.prevAllocationSize := by
  have hdouble := doubledSize_eq hhigh
  have hlarge : kMaxClassSize ≤ doubledSize process.heap := by omega
  cases h with
  | served middle _ _ _ hrun => exact hlow.trans hrun.prevAllocationSize.ge
  | aborted => exact hlarge
  | stopped _ _ _ hraw => cases hraw <;> exact hlarge
  | outOfMemory =>
    change kMaxClassSize ≤ doubledSize process.heap / 2
    rw [hdouble, Nat.mul_div_cancel _ two_pos]
    exact hlow
  | reserved _ _ middle _ _ _ _ _ _ hrun => exact hlarge.trans hrun.prevAllocationSize.ge
  | undefined _ _ _ _ _ _ _ hsmall => exact absurd hlarge (not_le.mpr hsmall)

theorem RawResult.prevAllocationSize {answers : Answers} {process final : Process} {size : ℕ}
    {result : Except Stop Buffer} (h : RawResult answers process size result final) :
    final.heap.prevAllocationSize = process.heap.prevAllocationSize := by
  cases h <;> rfl

theorem World.resume_process {α : Type} {world after : World} {onReturn : α → World → World}
    (honReturn : ∀ value world, (onReturn value world).process = world.process)
    {outcome : Except Stop α × Process} (h : world.resume onReturn outcome = some after) :
    after.process = outcome.2 := by
  rcases World.resume_eq_some h with ⟨value, _, rfl⟩ | ⟨_, _, rfl⟩
  · exact honReturn value _
  · rfl

theorem World.hold_process (buffer : Buffer) (world : World) :
    (World.hold buffer world).process = world.process := by
  unfold World.hold
  split <;> rfl

theorem World.holdRaw_process (size : ℕ) (buffer : Buffer) (world : World) :
    (World.holdRaw size buffer world).process = world.process := by
  unfold World.holdRaw
  split <;> rfl

theorem step_le_prevAllocationSize {build : Build} {world after : World} (h : Classed build world)
    (hlow : kMaxClassSize ≤ world.process.heap.prevAllocationSize)
    (hhigh : world.process.heap.prevAllocationSize ≤ 2 ^ 62) {op : Op}
    (hstep : world.step build op = some after) :
    kMaxClassSize ≤ after.process.heap.prevAllocationSize := by
  cases op with
  | alloc size answers =>
    simp only [World.step, Option.ite_none_right_eq_some] at hstep
    obtain ⟨⟨hpos, hsize⟩, hstep⟩ := hstep
    obtain ⟨classI, hclass⟩ := class_of_resume hpos hsize hstep
    have halloc := Call.ensures_iff.mp (alloc_ensures answers h.tagged hpos hsize classI hclass)
    rw [World.resume_process World.hold_process hstep]
    exact halloc.le_prevAllocationSize hlow hhigh
  | allocRaw size answers =>
    simp only [World.step, Option.ite_none_right_eq_some] at hstep
    have hraw := Call.ensures_iff.mp (allocRaw_ensures build answers size world.process)
    rw [World.resume_process (World.holdRaw_process _) hstep.2]
    exact hlow.trans hraw.prevAllocationSize.ge
  | freeBuf buffer =>
    simp only [World.step, Option.ite_none_right_eq_some] at hstep
    obtain ⟨hlive, hstep⟩ := hstep
    obtain ⟨classI, -, hfree⟩ :=
      freeBuf_eval (h.returnable buffer (List.mem_append_right _ hlive)) world.process
    have hdrop (_ : Unit) (world : World) : (World.drop buffer world).process = world.process := rfl
    rw [World.resume_process hdrop hstep, hfree]
    exact hlow
  | foreign segment =>
    simp only [World.step, Option.some.injEq] at hstep
    rw [← hstep]
    exact hlow

/-! ## Runs of both builds -/

/-- The two builds do the same at this state, whatever is asked of them within the contract, and no
assertion fails. Where `alloc` may have split down to, `alloc_from_class` hands out the back of the
freelist as it lies there. -/
structure Alike (world : World) : Prop where
  alloc : ∀ size answers, 1 ≤ size → size ≤ kMaxClassSize →
    (HugeAlloc.alloc debugBuild answers size).eval world.process =
        (HugeAlloc.alloc releaseBuild answers size).eval world.process ∧
      Sound ((HugeAlloc.alloc debugBuild answers size).eval world.process)
  allocRaw : ∀ size answers,
    (HugeAlloc.allocRaw debugBuild answers size).eval world.process =
        (HugeAlloc.allocRaw releaseBuild answers size).eval world.process ∧
      Sound ((HugeAlloc.allocRaw debugBuild answers size).eval world.process)
  freeBuf : ∀ buffer ∈ world.live,
    (HugeAlloc.freeBuf debugBuild buffer).eval world.process =
        (HugeAlloc.freeBuf releaseBuild buffer).eval world.process ∧
      Sound ((HugeAlloc.freeBuf debugBuild buffer).eval world.process)
  allocFromClass : ∀ base middle (classI : Fin kNumClasses) back rest,
    (base = world.process ∨ ∃ answers draw id size,
      base = world.process.double.reserve answers draw id size) →
    SplitRun classI base middle → middle.heap.freelist classI = back :: rest →
    { back with classSize := classMaxSize classI } = back ∧
      ∀ build, (HugeAlloc.allocFromClass build classI).eval middle =
        (.ok back, middle.takeBack classI back rest)

/-- The two builds are alike in a world with well-formed freelists and no wrap-around to come. -/
theorem alike_of_classed {world : World} (h : Classed debugBuild world)
    (hlow : kMaxClassSize ≤ world.process.heap.prevAllocationSize)
    (hhigh : world.process.heap.prevAllocationSize ≤ 2 ^ 62) : Alike world where
  alloc size answers hpos hsize := by
    have hdouble := doubledSize_eq hhigh
    have hlarge : kMaxClassSize ≤ doubledSize world.process.heap := by omega
    exact ⟨alloc_eval_eq h.tagged hpos hsize hlarge answers,
      alloc_sound rfl h.tagged hpos hsize hlarge answers⟩
  allocRaw size answers :=
    ⟨by rw [allocRaw_eq debugBuild releaseBuild],
      (Call.ensures_iff.mp (allocRaw_ensures debugBuild answers size world.process)).sound⟩
  freeBuf buffer hlive := by
    have hdebug : Returnable debugBuild buffer :=
      h.returnable buffer (List.mem_append_right _ hlive)
    have hrelease : Returnable releaseBuild buffer := hdebug
    obtain ⟨classI, hclass, hfree⟩ := freeBuf_eval hdebug world.process
    obtain ⟨classI', hclass', hfree'⟩ := freeBuf_eval hrelease world.process
    have hsame : classI = classI' :=
      Fin.ext (classMaxSize_strictMono.injective (hclass.symm.trans hclass'))
    rw [hfree, hfree', hsame]
    exact ⟨rfl, by simp [Sound]⟩
  allocFromClass base middle classI back rest hbase hsplits hsource := by
    have htagged : Tagged base.heap := by
      rcases hbase with rfl | ⟨answers, draw, id, size, rfl⟩
      · exact h.tagged
      · have hdouble : Tagged world.process.double.heap := h.tagged
        exact hdouble.reserve answers draw id size
    have hmiddle := hsplits.tagged htagged
    refine ⟨?_, fun build ↦
      Prod.ext_iff.mpr (allocFromClass_ensures build hmiddle classI back rest hsource)⟩
    rw [← hmiddle.head hsource]

theorem Alike.step_eq {world : World} (h : Alike world) (op : Op) :
    world.step debugBuild op = world.step releaseBuild op := by
  cases op with
  | alloc size answers =>
    simp only [World.step]
    split
    · next hcontract => rw [(h.alloc size answers hcontract.1 hcontract.2).1]
    · rfl
  | allocRaw size answers =>
    simp only [World.step]
    rw [(h.allocRaw size answers).1]
  | freeBuf buffer =>
    simp only [World.step]
    split
    · next hlive => rw [(h.freeBuf buffer hlive).1]
    · rfl
  | foreign => rfl

/-- The doubling of the next reservation has not come near the end of the number range. -/
def Bounded (world : World) (_ : Op) : Prop := world.process.heap.prevAllocationSize ≤ 2 ^ 62

/-- What both builds keep up during such a run. -/
structure Steady (world : World) : Prop where
  classed : Classed debugBuild world
  le_prevAllocationSize : kMaxClassSize ≤ world.process.heap.prevAllocationSize

theorem Steady.start (initialSize : ℕ) (kernel : Kernel) :
    Steady (World.start initialSize kernel) where
  classed := .start debugBuild initialSize kernel
  le_prevAllocationSize := by
    dsimp only [World.start, construct]
    split
    · exact le_rfl
    · next h => exact Nat.not_lt.mp h

theorem Steady.step_debug {world after : World} (h : Steady world) {op : Op}
    (hbounded : Bounded world op) (hstep : world.step debugBuild op = some after) :
    Steady after := by
  obtain ⟨middle, harrival, hshuffles⟩ := moves_of_step h.classed hstep
  exact ⟨(h.classed.arrival harrival).shuffles hshuffles,
    step_le_prevAllocationSize h.classed h.le_prevAllocationSize hbounded hstep⟩

theorem Steady.alike {world : World} (h : Steady world)
    (hbounded : world.process.heap.prevAllocationSize ≤ 2 ^ 62) : Alike world :=
  alike_of_classed h.classed h.le_prevAllocationSize hbounded

/-- Whatever the contract allows, for as long as `prev_allocation_size` does not exceed `2 ^ 62`:
both builds have the same runs, through the same states, and at every state that they reach no
assertion can fail and both return the same. -/
theorem builds_alike (initialSize : ℕ) (kernel : Kernel) (history : List (World × Op))
    (world : World) :
    (Run (World.step debugBuild) Bounded (World.start initialSize kernel) history world ↔
        Run (World.step releaseBuild) Bounded (World.start initialSize kernel) history world) ∧
      (Run (World.step debugBuild) Bounded (World.start initialSize kernel) history world →
        world.process.heap.prevAllocationSize ≤ 2 ^ 62 → Alike world) := by
  have hstart := Steady.start initialSize kernel
  have hsame (state : World) (op : Op) (h : Steady state) (hbounded : Bounded state op) :
      state.step debugBuild op = state.step releaseBuild op := (h.alike hbounded).step_eq op
  refine ⟨⟨fun hrun ↦ ?_, fun hrun ↦ ?_⟩, fun hrun hbounded ↦ ?_⟩
  · exact hrun.transfer Steady hstart (fun _ _ _ h hb hs ↦ h.step_debug hb hs) hsame
  · refine hrun.transfer Steady hstart (fun state op after h hb hs ↦ ?_) fun state op h hb ↦
      (hsame state op h hb).symm
    exact h.step_debug hb ((hsame state op h hb).trans hs)
  · exact (hrun.invariant Steady hstart fun _ _ _ h hb hs ↦ h.step_debug hb hs).alike hbounded

/-- After a first call of `alloc`, the builds are still alike. -/
theorem builds_alike_after_alloc : ∃ history world,
    Run (World.step debugBuild) Bounded (World.start 0 ⟨[], []⟩) history world ∧
      world.live = [⟨2 ^ 30 + 2 ^ 24 - 128, 128⟩] ∧
      Run (World.step releaseBuild) Bounded (World.start 0 ⟨[], []⟩) history world ∧
      Alike world := by
  have hstep : ((World.start 0 ⟨[], []⟩).step debugBuild (.alloc 100 (.grant 7 1 (2 ^ 30)))).map
      (fun world ↦ (world.live, world.process.heap.prevAllocationSize)) =
        some ([⟨2 ^ 30 + 2 ^ 24 - 128, 128⟩], 2 ^ 24) := by decide +kernel
  obtain ⟨world, hstep, hworld⟩ := Option.map_eq_some_iff.mp hstep
  rw [Prod.mk.injEq] at hworld
  have hbounded : Bounded (World.start 0 ⟨[], []⟩) (.alloc 100 (.grant 7 1 (2 ^ 30))) := by
    unfold Bounded
    decide
  have hrun := Run.next .start hbounded hstep
  obtain ⟨hruns, halike⟩ := builds_alike 0 ⟨[], []⟩ _ world
  refine ⟨_, world, hrun, hworld.1, hruns.mp hrun, halike hrun ?_⟩
  rw [hworld.2]
  decide

end Systemish.HugeAlloc
