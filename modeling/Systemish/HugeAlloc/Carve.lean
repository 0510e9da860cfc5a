import Systemish.HugeAlloc.Runs

/-!
# What `alloc` hands out

The splits of one call of `alloc` halve the back of one freelist again and again. The call hands
out the end of that Buffer, and one piece of it is left in each class in between. All other
freelists stay as they are.
-/

namespace Systemish.HugeAlloc

open Foundation

/-- The end of a Buffer of class `larger`, as large as a Buffer of class `classI`. -/
def carved (back : Buffer) (larger classI : ℕ) : Buffer :=
  ⟨back.buf + (classMaxSize larger - classMaxSize classI), classMaxSize classI⟩

/-- The piece of a Buffer of class `larger` that is left over in class `classI`. -/
def leftover (back : Buffer) (larger classI : ℕ) : Buffer :=
  ⟨back.buf + (classMaxSize larger - 2 * classMaxSize classI), classMaxSize classI⟩

/-- The freelists once a Buffer of class `classI` has been carved from the back of `larger`. -/
def carvedFreelist (freelist : Buckets kNumClasses Buffer) (classI larger : ℕ) (back : Buffer)
    (rest : List Buffer) : Buckets kNumClasses Buffer := fun other ↦
  if other.val = larger then rest
  else if classI ≤ other.val ∧ other.val < larger then [leftover back larger other]
  else freelist other

def Process.setFreelists (process : Process) (freelist : Buckets kNumClasses Buffer) : Process :=
  { process with heap := { process.heap with freelist } }

/-- The process once a Buffer of class `classI` has been carved from the back of `larger` and
handed out. -/
def Process.handOut (process : Process) (classI larger : ℕ) (back : Buffer) (rest : List Buffer) :
    Process :=
  Process.addUserAllocTot
    (process.setFreelists (carvedFreelist process.heap.freelist classI larger back rest))
    (classMaxSize classI)

theorem setFreelist_eq_setFreelists (process : Process) (classI : Fin kNumClasses)
    (buffers : List Buffer) :
    process.setFreelist classI buffers =
      process.setFreelists (Function.update process.heap.freelist classI buffers) := rfl

theorem two_mul_classMaxSize_le {classI larger : ℕ} (h : classI < larger) :
    2 * classMaxSize classI ≤ classMaxSize larger := by
  rw [← classMaxSize_succ]
  exact classMaxSize_strictMono.monotone h

/-- One more split: what is carved from the upper half is carved from the whole. -/
theorem carved_upper {back : Buffer} {larger classI : ℕ} (h : classI ≤ larger)
    (hsize : back.classSize = classMaxSize (larger + 1)) :
    carved ⟨back.buf + back.classSize / 2, back.classSize / 2⟩ larger classI =
      carved back (larger + 1) classI := by
  have hle := classMaxSize_strictMono.monotone h
  unfold carved
  rw [hsize, classMaxSize_succ, Nat.mul_div_cancel_left _ two_pos]
  congr 1
  dsimp only
  omega

theorem leftover_upper {back : Buffer} {larger classI : ℕ} (h : classI < larger)
    (hsize : back.classSize = classMaxSize (larger + 1)) :
    leftover ⟨back.buf + back.classSize / 2, back.classSize / 2⟩ larger classI =
      leftover back (larger + 1) classI := by
  have hle := two_mul_classMaxSize_le h
  unfold leftover
  rw [hsize, classMaxSize_succ, Nat.mul_div_cancel_left _ two_pos]
  congr 1
  dsimp only
  omega

theorem leftover_lower {back : Buffer} {larger : ℕ}
    (hsize : back.classSize = classMaxSize (larger + 1)) :
    leftover back (larger + 1) larger = ⟨back.buf, back.classSize / 2⟩ := by
  unfold leftover
  rw [hsize, classMaxSize_succ, Nat.sub_self, Nat.add_zero, Nat.mul_div_cancel_left _ two_pos]

section Freelists

variable {freelist : Buckets kNumClasses Buffer} {classI larger : ℕ} {back : Buffer}
  {rest : List Buffer} {other : Fin kNumClasses}

theorem carvedFreelist_larger (h : other.val = larger) :
    carvedFreelist freelist classI larger back rest other = rest := if_pos h

theorem carvedFreelist_between (hlow : classI ≤ other) (hhigh : other.val < larger) :
    carvedFreelist freelist classI larger back rest other = [leftover back larger other] := by
  rw [carvedFreelist, if_neg hhigh.ne, if_pos ⟨hlow, hhigh⟩]

theorem carvedFreelist_outside (hle : classI ≤ larger)
    (h : other.val < classI ∨ larger < other.val) :
    carvedFreelist freelist classI larger back rest other = freelist other := by
  rw [carvedFreelist, if_neg (by omega), if_neg (by omega)]

end Freelists

theorem splitBack_freelist_of_ne (process : Process) (classI : ℕ) (h : classI + 1 < kNumClasses)
    (back : Buffer) (rest : List Buffer) {other : Fin kNumClasses} (hlower : other.val ≠ classI)
    (hupper : other.val ≠ classI + 1) :
    (process.splitBack classI h back rest).heap.freelist other = process.heap.freelist other := by
  unfold Process.splitBack
  rw [setFreelist_freelist, setFreelist_freelist, if_neg fun he ↦ hlower (congrArg Fin.val he),
    if_neg fun he ↦ hupper (congrArg Fin.val he)]

theorem splitBack_freelist_upper (process : Process) (classI : ℕ) (h : classI + 1 < kNumClasses)
    (back : Buffer) (rest : List Buffer) {other : Fin kNumClasses}
    (hupper : other.val = classI + 1) :
    (process.splitBack classI h back rest).heap.freelist other = rest := by
  unfold Process.splitBack
  rw [setFreelist_freelist, setFreelist_freelist, if_neg, if_pos (Fin.ext hupper)]
  intro he
  rw [he] at hupper
  exact Nat.succ_ne_self classI hupper.symm

/-- Carving from the upper half of a Buffer that has been split is carving from the Buffer. -/
theorem carvedFreelist_splitBack (process : Process) {classI larger : ℕ} (hle : classI ≤ larger)
    (h : larger + 1 < kNumClasses) {back : Buffer} (rest : List Buffer)
    (hsize : back.classSize = classMaxSize (larger + 1)) :
    carvedFreelist (process.splitBack larger h back rest).heap.freelist classI larger
        ⟨back.buf + back.classSize / 2, back.classSize / 2⟩ [⟨back.buf, back.classSize / 2⟩] =
      carvedFreelist process.heap.freelist classI (larger + 1) back rest := by
  funext other
  by_cases hbelow : other.val < classI
  · rw [carvedFreelist_outside hle (.inl hbelow),
      carvedFreelist_outside (Nat.le_succ_of_le hle) (.inl hbelow)]
    exact splitBack_freelist_of_ne process larger h back rest (by omega) (by omega)
  have hlow : classI ≤ other := Nat.not_lt.mp hbelow
  rcases Nat.lt_trichotomy other.val larger with hlt | heq | hgt
  · rw [carvedFreelist_between hlow hlt, carvedFreelist_between hlow (Nat.lt_succ_of_lt hlt),
      leftover_upper hlt hsize]
  · rw [carvedFreelist_larger heq, carvedFreelist_between hlow (by omega), heq,
      leftover_lower hsize]
  · rw [carvedFreelist_outside hle (.inr hgt)]
    by_cases heq : other.val = larger + 1
    · rw [carvedFreelist_larger heq]
      exact splitBack_freelist_upper process larger h back rest heq
    · rw [carvedFreelist_outside (Nat.le_succ_of_le hle) (by omega)]
      exact splitBack_freelist_of_ne process larger h back rest (by omega) heq

/-- The process with the pieces of a split Buffer in its freelists, and on top of them the one
that is to be handed out. -/
def Process.carve (process : Process) (classI : Fin kNumClasses) (larger : ℕ) (back : Buffer)
    (rest : List Buffer) : Process :=
  let freelist := carvedFreelist process.heap.freelist classI larger back rest
  process.setFreelists
    (Function.update freelist classI (carved back larger classI :: freelist classI))

theorem carve_self (process : Process) (classI : Fin kNumClasses) {back : Buffer}
    {rest : List Buffer} (hsource : process.heap.freelist classI = back :: rest)
    (hsize : back.classSize = classMaxSize classI) :
    process.carve classI classI back rest = process := by
  have hcarved : carved back classI classI = back := by
    unfold carved
    rw [Nat.sub_self, Nat.add_zero, ← hsize]
  have hfreelist : Function.update
      (carvedFreelist process.heap.freelist classI classI back rest) classI (back :: rest) =
        process.heap.freelist := by
    funext other
    rw [Function.update_apply]
    split
    · next heq => rw [heq, hsource]
    · next hne => exact carvedFreelist_outside le_rfl (Nat.lt_or_gt_of_ne (Fin.val_ne_of_ne hne))
  unfold Process.carve
  dsimp only
  rw [hcarved, carvedFreelist_larger rfl, hfreelist]
  rfl

theorem carve_splitBack (process : Process) {classI : Fin kNumClasses} {larger : ℕ}
    (hle : classI ≤ larger) (h : larger + 1 < kNumClasses) {back : Buffer} (rest : List Buffer)
    (hsize : back.classSize = classMaxSize (larger + 1)) :
    (process.splitBack larger h back rest).carve classI larger
        ⟨back.buf + back.classSize / 2, back.classSize / 2⟩ [⟨back.buf, back.classSize / 2⟩] =
      process.carve classI (larger + 1) back rest := by
  unfold Process.carve
  rw [carvedFreelist_splitBack process hle h rest hsize, carved_upper hle hsize]
  rfl

/-- The chain of splits carves a Buffer of the wanted class. -/
theorem splitDown_carves (build : Build) (classI : Fin kNumClasses) (rounds : ℕ)
    {process : Process} (htagged : Tagged process.heap) (h : classI + rounds < kNumClasses)
    {back : Buffer} {rest : List Buffer}
    (hsource : process.heap.freelist ⟨classI + rounds, h⟩ = back :: rest)
    (hempty : ∀ other : Fin kNumClasses, classI ≤ other → other.val < classI + rounds →
      process.heap.freelist other = []) :
    (splitDown build classI rounds).Ensures process fun result final ↦
      result = .ok () ∧ final = process.carve classI (classI + rounds) back rest := by
  induction rounds generalizing process back rest with
  | zero => exact ⟨rfl, (carve_self process classI hsource (htagged.head hsource)).symm⟩
  | succ rounds ih =>
    have hsize := htagged.head hsource
    have htarget := hempty ⟨classI + rounds, Nat.lt_of_succ_lt h⟩ (Fin.le_def.mpr (by simp))
      (by simp)
    have hsplit := split_ensures build htagged (classI + rounds) h back rest hsource htarget
    simp only [splitDown, Call.ensures_bind]
    refine hsplit.mono fun result middle hmiddle ↦ ?_
    obtain ⟨rfl, rfl⟩ := hmiddle
    -- the halves are the only Buffers below the class that was split
    have hhalves : (process.splitBack (classI + rounds) h back rest).heap.freelist
        ⟨classI + rounds, Nat.lt_of_succ_lt h⟩ =
          [⟨back.buf + back.classSize / 2, back.classSize / 2⟩,
            ⟨back.buf, back.classSize / 2⟩] := by
      unfold Process.splitBack
      rw [setFreelist_freelist, if_pos rfl]
    have hnext := ih (htagged.splitBack (classI + rounds) h back rest hsource)
      (Nat.lt_of_succ_lt h) hhalves fun other hlow hhigh ↦ by
        rw [splitBack_freelist_of_ne process (classI + rounds) h back rest hhigh.ne (by omega)]
        exact hempty other hlow (Nat.lt_succ_of_lt hhigh)
    rw [carve_splitBack process (Nat.le_add_right _ _) h rest hsize] at hnext
    exact hnext

/-- Taking the Buffer that was carved. -/
theorem carve_takeBack (process : Process) (classI : Fin kNumClasses) (larger : ℕ) (back : Buffer)
    (rest : List Buffer) :
    (process.carve classI larger back rest).takeBack classI (carved back larger classI)
        (carvedFreelist process.heap.freelist classI larger back rest classI) =
      process.handOut classI larger back rest := by
  unfold Process.takeBack Process.carve Process.handOut
  rw [setFreelist_eq_setFreelists]
  dsimp only [Process.setFreelists]
  rw [Function.update_idem, Function.update_eq_self]
  rfl

/-- Splitting down from the first class with free Buffers and taking the Buffer that is carved. -/
theorem allocFromLarger_carves (build : Build) {process : Process} (htagged : Tagged process.heap)
    (classI larger : Fin kNumClasses) (hle : classI ≤ larger) {back : Buffer} {rest : List Buffer}
    (hsource : process.heap.freelist larger = back :: rest)
    (hempty : ∀ other : Fin kNumClasses, classI ≤ other → other < larger →
      process.heap.freelist other = []) :
    (allocFromLarger build classI larger).Ensures process fun result final ↦
      result = .ok (carved back larger classI) ∧
        final = process.handOut classI larger back rest := by
  obtain ⟨larger, hlarger⟩ := larger
  obtain ⟨rounds, rfl⟩ := Nat.exists_eq_add_of_le (Fin.le_def.mp hle)
  have hbelow (other : Fin kNumClasses) (hlow : classI ≤ other)
      (hlt : other.val < classI + rounds) : process.heap.freelist other = [] :=
    hempty other hlow hlt
  have hcarves := splitDown_carves build classI rounds htagged hlarger hsource hbelow
  have hsplits := splitDown_ensures build classI rounds htagged hlarger
    (hsource ▸ List.cons_ne_nil _ _) hbelow
  simp only [allocFromLarger, Call.ensures_bind, Call.ensures_check, Nat.add_sub_cancel_left]
  rw [if_neg (fun h ↦ h.2 hlarger)]
  rw [Call.ensures_iff] at hcarves hsplits ⊢
  obtain ⟨-, hrun, -⟩ := hsplits
  rw [hcarves.2] at hrun
  rw [hcarves.1, hcarves.2]
  have hback : (process.carve classI (classI + rounds) back rest).heap.freelist classI =
      carved back (classI + rounds) classI ::
        carvedFreelist process.heap.freelist classI (classI + rounds) back rest classI :=
    Function.update_self ..
  simp only [ensures_freelistAt]
  rw [if_neg (fun h ↦ h.2 (hback ▸ List.cons_ne_nil _ _))]
  have htake := allocFromClass_ensures build (hrun.tagged htagged) classI _ _ hback
  rw [carve_takeBack] at htake
  exact htake

/-! ## The whole call -/

section Alloc

variable {build : Build} {answers : Answers} {process : Process} {size : ℕ}
  {classI larger : Fin kNumClasses} {back : Buffer} {rest : List Buffer}

theorem eq_nil_of_isLeast {heap : HugeAlloc}
    (hleast : IsLeast {other | classI ≤ other ∧ heap.freelist other ≠ []} larger)
    {other : Fin kNumClasses} (hlow : classI ≤ other) (hlt : other < larger) :
    heap.freelist other = [] := by
  by_contra hne
  exact hlt.not_ge (hleast.2 ⟨hlow, hne⟩)

/-- A call that the freelists serve. -/
theorem alloc_carves (htagged : Tagged process.heap) (hpos : 1 ≤ size)
    (hsize : size ≤ kMaxClassSize) (hclass : classIndex build size = classI)
    (hleast : IsLeast {other | classI ≤ other ∧ process.heap.freelist other ≠ []} larger)
    (hsource : process.heap.freelist larger = back :: rest) :
    (alloc build answers size).eval process =
      (.ok (carved back larger classI), process.handOut classI larger back rest) := by
  have hcarves := allocFromLarger_carves build htagged classI larger hleast.1.1 hsource
    fun _ ↦ eq_nil_of_isLeast hleast
  exact Prod.ext_iff.mpr (alloc_ensures_of_isLeast hpos hsize hclass hleast hcarves)

/-- The reservation that `alloc` makes where no freelist serves the call. -/
def reservation (build : Build) (answers : Answers) (process : Process) :
    Except Stop Bool × Process :=
  (reserveHugepages build answers (doubledSize process.heap)).eval process.double

theorem reservation_result (build : Build) (answers : Answers) (process : Process) :
    ReserveResult build answers process.double (doubledSize process.heap)
      (reservation build answers process).1 (reservation build answers process).2 :=
  reserveHugepages_ensures build answers (doubledSize process.heap) process.double

/-- A call that the freelists do not serve, by what its reservation comes to. -/
theorem alloc_reserves (hpos : 1 ≤ size) (hsize : size ≤ kMaxClassSize)
    (hclass : classIndex build size = classI) (hserved : ¬ Served process.heap classI) :
    (alloc build answers size).eval process =
      match reservation build answers process with
      | (.ok true, middle) => (allocFromLarger build classI lastClass).eval middle
      | (.ok false, middle) =>
        (.ok ⟨0, 0⟩, middle.setPrevAllocationSize (middle.heap.prevAllocationSize / 2))
      | (.error stop, middle) => (.error stop, middle) := by
  have hreduce : (alloc build answers size).Ensures process fun result final ↦
      result = ((allocFromReservation build answers classI).eval process).1 ∧
        final = ((allocFromReservation build answers classI).eval process).2 :=
    alloc_ensures_of_not_served hpos hsize hclass hserved ⟨rfl, rfl⟩
  have hreserve : (allocFromReservation build answers classI).eval process =
      ((reserveHugepages build answers (doubledSize process.heap) >>= fun success ↦
        if success then allocFromLarger build classI (kNumClasses - 1)
        else do
          modify fun process ↦ process.setPrevAllocationSize (process.heap.prevAllocationSize / 2)
          return ⟨0, 0⟩) : Call Process Buffer).eval process.double := rfl
  unfold reservation
  rw [Prod.ext_iff.mpr hreduce, hreserve, Call.eval_bind]
  rcases (reserveHugepages build answers (doubledSize process.heap)).eval process.double with
    ⟨_ | _ | _, middle⟩ <;> rfl

/-- After a reservation of at least one Buffer, the largest class is the first that has one. -/
theorem isLeast_lastClass_of_reserve {process : Process} (hserved : ¬ Served process.heap classI)
    (answers : Answers) (draw id : ℕ) (hlarge : kMaxClassSize ≤ size) :
    IsLeast {other | classI ≤ other ∧
      (process.reserve answers draw id size).heap.freelist other ≠ []} lastClass := by
  have hcount : 1 ≤ size / kMaxClassSize := (Nat.one_le_div_iff (by decide)).mpr hlarge
  constructor
  · refine ⟨le_lastClass classI, ?_⟩
    rw [reserve_freelist, if_pos rfl]
    exact pushSlices_ne_nil hcount _
  · rintro other ⟨hlow, hother⟩
    by_contra hlast
    rw [reserve_freelist, if_neg (fun h ↦ hlast h.ge)] at hother
    exact hserved ⟨other, hlow, hother⟩

/-- A call that is served from the Buffers that it reserves. -/
theorem alloc_carves_reserved (htagged : Tagged process.heap) (hpos : 1 ≤ size)
    (hsize : size ≤ kMaxClassSize) (hclass : classIndex build size = classI)
    (hserved : ¬ Served process.heap classI) (hlarge : kMaxClassSize ≤ doubledSize process.heap)
    {draw id : ℕ} (hreserved : reservation build answers process =
      (.ok true, process.double.reserve answers draw id (doubledSize process.heap)))
    (hsource : (process.double.reserve answers draw id
      (doubledSize process.heap)).heap.freelist lastClass = back :: rest) :
    (alloc build answers size).eval process = (.ok (carved back lastClass classI),
      (process.double.reserve answers draw id (doubledSize process.heap)).handOut classI lastClass
        back rest) := by
  have hdouble : Tagged process.double.heap := htagged
  have hserved' : ¬ Served process.double.heap classI := hserved
  have hleast := isLeast_lastClass_of_reserve hserved' answers draw id hlarge
  have hcarves := allocFromLarger_carves build (hdouble.reserve answers draw id _) classI lastClass
    (le_lastClass classI) hsource fun _ ↦ eq_nil_of_isLeast hleast
  rw [alloc_reserves hpos hsize hclass hserved, hreserved]
  exact Prod.ext_iff.mpr hcarves

/-- A Buffer was carved from the back of the first class that had one, between two states. -/
structure HandsOut (base final : Process) (classI larger : Fin kNumClasses) (back : Buffer)
    (rest : List Buffer) (buffer : Buffer) : Prop where
  /-- No class from `classI` on and before `larger` had a free Buffer. -/
  first : IsLeast {other | classI ≤ other ∧ base.heap.freelist other ≠ []} larger
  source : base.heap.freelist larger = back :: rest
  carved : buffer = HugeAlloc.carved back larger classI
  within : back.buf ≤ buffer.buf ∧ buffer.buf + buffer.classSize ≤ back.buf + back.classSize
  /-- The class loses its last Buffer and nothing else. -/
  taken : final.heap.freelist larger = rest
  /-- One Buffer is added to each class in between. -/
  added : ∀ other, classI ≤ other → other < larger →
    final.heap.freelist other = leftover back larger other :: base.heap.freelist other
  kept : ∀ other, other < classI ∨ larger < other →
    final.heap.freelist other = base.heap.freelist other

theorem handsOut_handOut (htagged : Tagged process.heap)
    (hleast : IsLeast {other | classI ≤ other ∧ process.heap.freelist other ≠ []} larger)
    (hsource : process.heap.freelist larger = back :: rest) :
    HandsOut process (process.handOut classI larger back rest) classI larger back rest
      (carved back larger classI) where
  first := hleast
  source := hsource
  carved := rfl
  within := by
    have hle := classMaxSize_strictMono.monotone (Fin.le_def.mp hleast.1.1)
    rw [htagged.head hsource]
    dsimp only [HugeAlloc.carved]
    omega
  taken := carvedFreelist_larger rfl
  added other hlow hlt := by
    rw [eq_nil_of_isLeast hleast hlow hlt]
    exact carvedFreelist_between hlow hlt
  kept other houtside := carvedFreelist_outside hleast.1.1 houtside

/-- The reservation did not return: it threw an exception, or it tries keys for ever. -/
def Interrupted (outcome : Except Stop Bool × Process) : Prop :=
  outcome.1 = .error .pending ∨ ∃ message, outcome.1 = .error (.thrown message)

theorem not_interrupted_of_ok {outcome : Except Stop Bool × Process} {success : Bool}
    (h : outcome.1 = .ok success) : ¬ Interrupted outcome := by
  unfold Interrupted
  rw [h]
  simp

/-- What `alloc` owes for a size of class `classI`: it returns a Buffer, which is not null where a
freelist or a reservation can serve the call. The Buffer is of the smallest class size that
suffices, and it is carved from the back of the first class that has one, after the reservation if
one was made. -/
def Delivers (process : Process) (reserved : Except Stop Bool × Process) (size : ℕ)
    (classI : Fin kNumClasses) (outcome : Except Stop Buffer × Process) : Prop :=
  ∃ buffer, outcome.1 = .ok buffer ∧
    (buffer.buf ≠ 0 ↔ Served process.heap classI ∨ reserved.1 = .ok true) ∧
    (buffer.buf ≠ 0 →
      buffer.classSize = classMaxSize classI ∧
      IsLeast {classSize ∈ Set.range classMaxSize | size ≤ classSize} buffer.classSize ∧
      ∃ larger back rest, (¬ Served process.heap classI → larger = lastClass) ∧
        HandsOut (if Served process.heap classI then process else reserved.2) outcome.2 classI
          larger back rest buffer)

theorem isLeast_classSize (hsize : size ≤ kMaxClassSize) (hclass : getClassSlow size = classI) :
    IsLeast {classSize ∈ Set.range classMaxSize | size ≤ classSize} (classMaxSize classI) := by
  have hleast := isLeast_getClassSlow hsize
  rw [hclass] at hleast
  refine ⟨⟨⟨classI, rfl⟩, hleast.1⟩, ?_⟩
  rintro _ ⟨⟨other, rfl⟩, hother⟩
  exact classMaxSize_strictMono.monotone (hleast.2 hother)

theorem Delivers.of_handsOut {reserved : Except Stop Bool × Process} {final : Process}
    (hsize : size ≤ kMaxClassSize) (hclass : getClassSlow size = classI)
    (hback : back.buf ≠ 0) (hserves : Served process.heap classI ∨ reserved.1 = .ok true)
    (hlast : ¬ Served process.heap classI → larger = lastClass)
    (hhandsOut : HandsOut (if Served process.heap classI then process else reserved.2) final classI
      larger back rest (carved back larger classI)) :
    Delivers process reserved size classI (.ok (carved back larger classI), final) := by
  have hbuf : (carved back larger classI).buf ≠ 0 :=
    ((Nat.pos_of_ne_zero hback).trans_le hhandsOut.within.1).ne'
  exact ⟨_, rfl, iff_of_true hbuf hserves, fun _ ↦
    ⟨rfl, isLeast_classSize hsize hclass, larger, back, rest, hlast, hhandsOut⟩⟩

end Alloc

section Reachable

variable {build : Build} {allowed : World → Op → Prop} {initialSize : ℕ} {kernel : Kernel}
  {history : List (World × Op)} {world : World} {size : ℕ} {classI : Fin kNumClasses}

theorem Classed.source_ne_zero (h : Classed build world) {larger : Fin kNumClasses} {back : Buffer}
    {rest : List Buffer} (hsource : world.process.heap.freelist larger = back :: rest) :
    back.buf ≠ 0 := by
  have hmem := (takeBack_items hsource).mem_iff.mpr (List.mem_cons_self ..)
  exact (h.returnable back (List.mem_append_left _ hmem)).1

/-- The freelists serve the call. -/
theorem Classed.delivers_of_served (h : Classed build world) (hpos : 1 ≤ size)
    (hsize : size ≤ kMaxClassSize) (hclass : getClassSlow size = classI)
    (hindex : classIndex build size = classI) (answers : Answers)
    (hserved : Served world.process.heap classI) :
    Delivers world.process (reservation build answers world.process) size classI
      ((alloc build answers size).eval world.process) := by
  obtain ⟨larger, hleast⟩ := hserved.exists_isLeast
  obtain ⟨back, rest, hsource⟩ := List.exists_cons_of_ne_nil hleast.1.2
  rw [alloc_carves h.tagged hpos hsize hindex hleast hsource]
  apply Delivers.of_handsOut hsize hclass (h.source_ne_zero hsource) (.inl hserved) (absurd hserved)
  rw [if_pos hserved]
  exact handsOut_handOut h.tagged hleast hsource

/-- A reservation of at least one Buffer serves the call. -/
theorem Classed.delivers_of_reserved (h : Classed build world) (hpos : 1 ≤ size)
    (hsize : size ≤ kMaxClassSize) (hclass : getClassSlow size = classI)
    (hindex : classIndex build size = classI) {answers : Answers} {draw id : ℕ}
    (husable : answers.Usable) (hserved : ¬ Served world.process.heap classI)
    (hlarge : kMaxClassSize ≤ doubledSize world.process.heap)
    (hreserved : reservation build answers world.process =
      (.ok true, world.process.double.reserve answers draw id (doubledSize world.process.heap))) :
    Delivers world.process (reservation build answers world.process) size classI
      ((alloc build answers size).eval world.process) := by
  have hbase : Classed build { world with
      process := world.process.double.reserve answers draw id (doubledSize world.process.heap) } :=
    (h.shuffle (.setPrev _)).reserve husable draw id _
  have hserved' : ¬ Served world.process.double.heap classI := hserved
  have hleast := isLeast_lastClass_of_reserve hserved' answers draw id hlarge
  obtain ⟨back, rest, hsource⟩ := List.exists_cons_of_ne_nil hleast.1.2
  rw [alloc_carves_reserved h.tagged hpos hsize hindex hserved hlarge hreserved hsource, hreserved]
  apply Delivers.of_handsOut hsize hclass (hbase.source_ne_zero hsource) (.inr rfl) fun _ ↦ rfl
  rw [if_neg hserved]
  exact handsOut_handOut hbase.tagged hleast hsource

/-- A call whose reservation returns `false` returns a null Buffer. -/
theorem delivers_of_outOfMemory {process middle : Process} (hpos : 1 ≤ size)
    (hsize : size ≤ kMaxClassSize) (hindex : classIndex build size = classI) {answers : Answers}
    (hserved : ¬ Served process.heap classI)
    (hreserved : reservation build answers process = (.ok false, middle)) :
    Delivers process (reservation build answers process) size classI
      ((alloc build answers size).eval process) := by
  rw [alloc_reserves hpos hsize hindex hserved, hreserved]
  refine ⟨⟨0, 0⟩, rfl, iff_of_false (not_not.mpr rfl) ?_, absurd rfl⟩
  simp [hserved]

/-- A call of `alloc` that has to reserve less than one Buffer does not deliver it. -/
theorem not_delivers_of_small {process : Process} (htagged : Tagged process.heap) (hpos : 1 ≤ size)
    (hsize : size ≤ kMaxClassSize) (hindex : classIndex build size = classI) {answers : Answers}
    (hserved : ¬ Served process.heap classI) {draw id : ℕ}
    (hverdict : verdict answers.trips = .granted draw id)
    (hsmall : ¬ kMaxClassSize ≤ doubledSize process.heap)
    (reserved : Except Stop Bool × Process) :
    ¬ Delivers process reserved size classI ((alloc build answers size).eval process) := by
  rintro ⟨buffer, hbuffer, -⟩
  have halloc := Call.ensures_iff.mp (alloc_ensures answers htagged hpos hsize classI hindex)
  rw [hbuffer] at halloc
  generalize ((alloc build answers size).eval process).2 = final at halloc
  cases halloc with
  | served _ _ _ hyes => exact hserved hyes
  | outOfMemory _ hmemory => exact Verdict.noConfusion (hmemory.symm.trans hverdict)
  | reserved _ _ _ _ _ _ _ _ hlarge => exact hsmall hlarge

theorem RawResult.not_mapped {answers : Answers} {process final : Process} {stop : Stop}
    (h : RawResult answers process size (.error stop) final) :
    ¬ (answers.Usable ∧ ∃ draw id, verdict answers.trips = .granted draw id) := by
  rintro ⟨husable, draw, id, hverdict⟩
  cases h with
  | waiting h => exact Verdict.noConfusion (h.symm.trans hverdict)
  | refused _ _ h => exact Verdict.noConfusion (h.symm.trans hverdict)
  | unusable _ _ _ _ hnot => exact hnot husable

theorem RawResult.interrupted {answers : Answers} {process final middle : Process} {stop : Stop}
    (h : RawResult answers process size (.error stop) final) :
    Interrupted (.error stop, middle) := by
  cases h with
  | waiting => exact .inl rfl
  | refused _ message => exact .inr ⟨message, rfl⟩
  | unusable _ _ message => exact .inr ⟨message, rfl⟩

/-- A call whose reservation fails an assertion ends the program. -/
theorem not_delivers_of_aborted {process middle : Process} (hpos : 1 ≤ size)
    (hsize : size ≤ kMaxClassSize) (hindex : classIndex build size = classI) {answers : Answers}
    (hserved : ¬ Served process.heap classI)
    (hreserved : reservation build answers process = (.error .aborted, middle))
    (reserved : Except Stop Bool × Process) :
    ¬ Delivers process reserved size classI ((alloc build answers size).eval process) := by
  rintro ⟨buffer, hbuffer, -⟩
  rw [alloc_reserves hpos hsize hindex hserved, hreserved] at hbuffer
  cases hbuffer

/-- With `get_class` as intended, in every reachable state and for every size in range: unless the
reservation is interrupted, `alloc` delivers, provided that `prev_allocation_size` has not wrapped
around to less than one Buffer when it is needed. A build without assertions also gets away with
that where the operating system provides no memory. -/
theorem alloc_delivers_iff (hzero : build.bsrlZero = 0)
    (hrun : Run (World.step build) allowed (World.start initialSize kernel) history world)
    (hpos : 1 ≤ size) (hsize : size ≤ kMaxClassSize) (hclass : getClassSlow size = classI)
    (answers : Answers) :
    (¬ (¬ Served world.process.heap classI ∧
          Interrupted (reservation build answers world.process)) →
        Delivers world.process (reservation build answers world.process) size classI
          ((alloc build answers size).eval world.process)) ↔
      Served world.process.heap classI ∨ kMaxClassSize ≤ doubledSize world.process.heap ∨
        build.asserts = false ∧
          ¬ (answers.Usable ∧ ∃ draw id, verdict answers.trips = .granted draw id) := by
  have h := classed_of_run hrun
  have hindex : classIndex build size = classI := (classIndex_eq_slow hzero hsize).trans hclass
  by_cases hserved : Served world.process.heap classI
  · exact iff_of_true (fun _ ↦ h.delivers_of_served hpos hsize hclass hindex answers hserved)
      (.inl hserved)
  have hunchecked (hassert : ¬ (build.asserts = true ∧
      doubledSize world.process.heap < kMaxClassSize)) :
      kMaxClassSize ≤ doubledSize world.process.heap ∨ build.asserts = false := by
    rw [not_and_or, Bool.not_eq_true, not_lt] at hassert
    exact hassert.symm
  have hresult := reservation_result build answers world.process
  rcases hreserved : reservation build answers world.process with ⟨result, middle⟩
  rw [hreserved] at hresult
  rw [← hreserved]
  cases hresult with
  | aborted hasserts hsmall =>
    refine iff_of_false (fun hdelivers ↦ ?_) (by simp [hserved, hasserts, hsmall])
    apply not_delivers_of_aborted hpos hsize hindex hserved hreserved
    exact hdelivers (by simp [Interrupted, hreserved])
  | stopped stop final hraw hassert =>
    have hinterrupted : Interrupted (reservation build answers world.process) := by
      rw [hreserved]
      exact hraw.interrupted
    refine iff_of_true (absurd ⟨hserved, hinterrupted⟩) (.inr ?_)
    exact (hunchecked hassert).imp_right fun hasserts ↦ ⟨hasserts, hraw.not_mapped⟩
  | outOfMemory hverdict hassert =>
    refine iff_of_true (fun _ ↦ delivers_of_outOfMemory hpos hsize hindex hserved hreserved)
      (.inr ?_)
    exact (hunchecked hassert).imp_right fun hasserts ↦ ⟨hasserts, by simp [hverdict]⟩
  | reserved draw id hverdict husable hassert =>
    by_cases hlarge : kMaxClassSize ≤ doubledSize world.process.heap
    · exact iff_of_true (fun _ ↦ h.delivers_of_reserved hpos hsize hclass hindex husable hserved
        hlarge hreserved) (.inr (.inl hlarge))
    · refine iff_of_false (fun hdelivers ↦ ?_) ?_
      · apply not_delivers_of_small h.tagged hpos hsize hindex hserved hverdict hlarge _
        exact hdelivers fun h ↦ not_interrupted_of_ok (congrArg Prod.fst hreserved) h.2
      · simp only [hserved, hlarge, false_or]
        exact fun hdenied ↦ hdenied.2 ⟨husable, draw, id, hverdict⟩

end Reachable

/-- The first call on a new allocator is served from a Buffer that it reserves. -/
theorem alloc_hundred_delivers :
    Delivers (World.start 0 ⟨[], []⟩).process
      (reservation ⟨true, 0⟩ (.grant 7 1 (2 ^ 30)) (World.start 0 ⟨[], []⟩).process) 100
      ⟨1, by decide⟩
      ((alloc ⟨true, 0⟩ (.grant 7 1 (2 ^ 30)) 100).eval (World.start 0 ⟨[], []⟩).process) := by
  have hreserved : (reservation ⟨true, 0⟩ (.grant 7 1 (2 ^ 30))
      (World.start 0 ⟨[], []⟩).process).1 = .ok true := by decide +kernel
  have hstart : Run (World.step ⟨true, 0⟩) (fun _ _ ↦ True) (World.start 0 ⟨[], []⟩) []
      (World.start 0 ⟨[], []⟩) := .start
  refine (alloc_delivers_iff rfl hstart (by decide) (by decide) (by decide) _).mpr
    (.inr (.inl (by decide))) fun h ↦ not_interrupted_of_ok hreserved h.2

/-- With an initial size of half the address space the doubled size is zero, and the assertion in
`reserve_hugepages` ends the program. A build without assertions that is left with 2 MB maps them,
gets no Buffer out of them and splits the back of an empty freelist. -/
theorem alloc_after_wrap_fails :
    (reservation ⟨true, 0⟩ (.grant 7 1 (2 ^ 30)) (World.start (2 ^ 63) ⟨[], []⟩).process).1 =
        .error .aborted ∧
      ((alloc ⟨true, 0⟩ (.grant 7 1 (2 ^ 30)) 100).eval
        (World.start (2 ^ 63) ⟨[], []⟩).process).1 = .error .aborted ∧
      (reservation ⟨false, 0⟩ (.grant 7 1 (2 ^ 30))
        (World.start (2 ^ 63 + 2 ^ 20) ⟨[], []⟩).process).1 = .ok true ∧
      ((alloc ⟨false, 0⟩ (.grant 7 1 (2 ^ 30)) 100).eval
        (World.start (2 ^ 63 + 2 ^ 20) ⟨[], []⟩).process).1 = .error .undefined := by
  decide +kernel

end Systemish.HugeAlloc
