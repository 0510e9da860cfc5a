import Systemish.HugeAlloc.Allocator

/-!
# Size classes, rounding and keys

The arithmetic the allocator rests on. `getClassSlow` is the least class that
holds a size, so class sizes map back to their own class; `roundUp` reaches the
next hugepage boundary unless it wraps to zero; a draw makes the key `0`
exactly when its low 32 bits are zero. The optimised `get_class` returns what its
reference returns for all sizes above the smallest class; there it takes a
machine whose `bsrl` leaves zero behind for a zero operand.
-/

namespace Systemish.HugeAlloc

open Foundation

/-! ## Classes -/

theorem classMaxSize_succ (classI : ℕ) : classMaxSize (classI + 1) = 2 * classMaxSize classI := by
  unfold classMaxSize
  ring

theorem classMaxSize_pos (classI : ℕ) : 0 < classMaxSize classI :=
  Nat.mul_pos (by decide) (Nat.two_pow_pos classI)

theorem classMaxSize_strictMono : StrictMono classMaxSize := by
  refine strictMono_nat_of_lt_succ fun classI ↦ ?_
  have hpos := classMaxSize_pos classI
  rw [classMaxSize_succ]
  omega

theorem classMaxSize_last : classMaxSize (kNumClasses - 1) = kMaxClassSize := by decide

theorem classMaxSize_le {classI : ℕ} (h : classI < kNumClasses) :
    classMaxSize classI ≤ kMaxClassSize := by
  rw [← classMaxSize_last]
  exact classMaxSize_strictMono.monotone (by omega)

/-- Every class size is a multiple of the smallest one. -/
theorem kMinClassSize_dvd_classMaxSize (classI : ℕ) : kMinClassSize ∣ classMaxSize classI :=
  Nat.dvd_mul_right _ _

/-- The loop stops at the least class, from its start on, that holds the size. -/
theorem getClassSlowLoop_spec (size rounds sizeClass : ℕ)
    (hsize : size ≤ classMaxSize (sizeClass + rounds)) :
    sizeClass ≤ getClassSlowLoop size rounds sizeClass (classMaxSize sizeClass) ∧
      size ≤ classMaxSize (getClassSlowLoop size rounds sizeClass (classMaxSize sizeClass)) ∧
      ∀ smaller, sizeClass ≤ smaller →
        smaller < getClassSlowLoop size rounds sizeClass (classMaxSize sizeClass) →
        classMaxSize smaller < size := by
  induction rounds generalizing sizeClass with
  | zero =>
    refine ⟨le_rfl, hsize, fun smaller hlow hhigh ↦ ?_⟩
    simp only [getClassSlowLoop] at hhigh
    omega
  | succ rounds ih =>
    by_cases hlim : size > classMaxSize sizeClass
    · have hnext := ih (sizeClass + 1) (by rwa [Nat.add_right_comm, Nat.add_assoc])
      rw [classMaxSize_succ, Nat.mul_comm] at hnext
      simp only [getClassSlowLoop, if_pos hlim]
      refine ⟨by omega, hnext.2.1, fun smaller hlow hhigh ↦ ?_⟩
      rcases Nat.eq_or_lt_of_le hlow with rfl | hlow
      · exact hlim
      · exact hnext.2.2 smaller hlow hhigh
    · simp only [getClassSlowLoop, if_neg hlim]
      refine ⟨le_rfl, by omega, fun smaller hlow hhigh ↦ by omega⟩

/-- `getClassSlow` is the least class that holds the size. -/
theorem getClassSlow_eq_iff {size classI : ℕ} (hsize : size ≤ kMaxClassSize) :
    getClassSlow size = classI ↔
      size ≤ classMaxSize classI ∧ ∀ smaller < classI, classMaxSize smaller < size := by
  have hspec := getClassSlowLoop_spec size kNumClasses 0
    (hsize.trans (by rw [← classMaxSize_last]; exact classMaxSize_strictMono.monotone (by omega)))
  change _ ∧ size ≤ classMaxSize (getClassSlow size) ∧
    ∀ smaller, 0 ≤ smaller → smaller < getClassSlow size → classMaxSize smaller < size at hspec
  constructor
  · rintro rfl
    exact ⟨hspec.2.1, fun smaller hsmaller ↦ hspec.2.2 smaller (Nat.zero_le _) hsmaller⟩
  · rintro ⟨hle, hleast⟩
    refine le_antisymm (not_lt.mp fun hlt ↦ ?_) (not_lt.mp fun hlt ↦ ?_)
    · exact absurd hle (not_le.mpr (hspec.2.2 classI (Nat.zero_le _) hlt))
    · exact absurd hspec.2.1 (not_le.mpr (hleast _ hlt))

/-- A class size belongs to its own class. -/
theorem getClassSlow_classMaxSize {classI : ℕ} (h : classI < kNumClasses) :
    getClassSlow (classMaxSize classI) = classI :=
  (getClassSlow_eq_iff (classMaxSize_le h)).mpr
    ⟨le_rfl, fun _ hsmaller ↦ classMaxSize_strictMono hsmaller⟩

/-- What `get_class` computes. Sizes of the smallest class make `bsrl` see a zero operand. -/
def classIndex (build : Build) (size : ℕ) : ℕ :=
  if size ≤ kMinClassSize then build.bsrlZero else getClassSlow size

theorem bsrl_eq_classIndex (build : Build) {size : ℕ} (hpos : 1 ≤ size)
    (hsize : size ≤ kMaxClassSize) :
    bsrl build (2 * ((size - 1) / 64)) = classIndex build size := by
  unfold classIndex
  split
  · rename_i hsmall
    have hx : (size - 1) / 64 = 0 := Nat.div_eq_of_lt (by unfold kMinClassSize at hsmall; omega)
    rw [hx, bsrl, if_pos rfl]
  · rename_i hlarge
    have hx : (size - 1) / 64 ≠ 0 := by
      unfold kMinClassSize at hlarge
      omega
    symm
    rw [getClassSlow_eq_iff hsize, bsrl, if_neg (by omega), Nat.log2_two_mul hx]
    unfold classMaxSize kMinClassSize
    have hlow := (Nat.le_log2 hx).mp le_rfl
    have hhigh := (Nat.log2_lt hx).mp (Nat.lt_succ_self _)
    refine ⟨by omega, fun smaller hsmaller ↦ ?_⟩
    have hpow := Nat.pow_le_pow_right (show 0 < 2 by decide) (Nat.lt_succ_iff.mp hsmaller)
    omega

/-- `get_class` returns `classIndex` and none of its assertions fails. -/
theorem getClass_ensures (build : Build) {size : ℕ} (hpos : 1 ≤ size)
    (hsize : size ≤ kMaxClassSize) (process : Process) :
    (getClass build size).Ensures process fun result final ↦
      result = .ok (classIndex build size) ∧ final = process := by
  have hlarge : kMaxClassSize = 2 ^ 23 := by decide
  have hdec : (size + (2 ^ 64 - 1)) % 2 ^ 64 = size - 1 := by omega
  have hcast : toInt32 ((size - 1) >>> kMinClassBitShift) = ((size - 1) / 64 : ℕ) := by
    unfold toInt32 kMinClassBitShift
    rw [Nat.shiftRight_eq_div_pow, Int.bmod_eq_of_le] <;> omega
  have hoperand : ((2 * (((size - 1) / 64 : ℕ) : ℤ)) % 2 ^ 32).toNat = 2 * ((size - 1) / 64) := by
    omega
  simp only [getClass, msbIndex, Call.ensures_bind, Call.ensures_check, hdec, hcast, hoperand,
    Call.ensures_pure, bsrl_eq_classIndex build hpos hsize]
  rw [if_neg (by omega), if_neg (by omega)]
  exact ⟨trivial, trivial⟩

theorem isLeast_getClassSlow {size : ℕ} (hsize : size ≤ kMaxClassSize) :
    IsLeast {classI | size ≤ classMaxSize classI} (getClassSlow size) := by
  have hspec := (getClassSlow_eq_iff hsize).mp rfl
  refine ⟨hspec.1, fun classI hclass ↦ ?_⟩
  by_contra hlt
  exact absurd hclass (Nat.not_le.mpr (hspec.2 classI (Nat.not_le.mp hlt)))

theorem getClassSlow_lt {size : ℕ} (hsize : size ≤ kMaxClassSize) :
    getClassSlow size < kNumClasses := by
  have hlast : size ≤ classMaxSize (kNumClasses - 1) := hsize.trans classMaxSize_last.ge
  exact Nat.lt_of_le_pred (by decide) ((isLeast_getClassSlow hsize).2 hlast)

theorem classIndex_eq_slow {build : Build} (hzero : build.bsrlZero = 0) {size : ℕ}
    (hsize : size ≤ kMaxClassSize) : classIndex build size = getClassSlow size := by
  unfold classIndex
  split
  · next hsmall =>
    have hfirst : size ≤ classMaxSize 0 := hsmall
    rw [hzero]
    exact ((getClassSlow_eq_iff hsize).mpr ⟨hfirst, fun _ h ↦ absurd h (Nat.not_lt_zero _)⟩).symm
  · rfl

theorem getClass_eval (build : Build) {size : ℕ} (hpos : 1 ≤ size)
    (hsize : size ≤ kMaxClassSize) (process : Process) :
    (getClass build size).eval process = (.ok (classIndex build size), process) := by
  have hensures := Call.ensures_iff.mp (getClass_ensures build hpos hsize process)
  exact Prod.ext hensures.1 hensures.2

/-- Whatever `bsrl` leaves behind for a zero operand, `get_class` agrees with its reference, the
least class that holds the size, exactly for the sizes above the smallest class. -/
theorem getClass_agrees_iff {size : ℕ} (hpos : 1 ≤ size) (hsize : size ≤ kMaxClassSize) :
    (IsLeast {classI | size ≤ classMaxSize classI} (getClassSlow size) ∧
      ∀ build process, (getClass build size).eval process = (.ok (getClassSlow size), process)) ↔
      kMinClassSize < size := by
  constructor
  · rintro ⟨_, hagrees⟩
    by_contra hsmall
    -- a machine that leaves more than the class of the size behind
    have hresult := congrArg Prod.fst
      (hagrees ⟨true, getClassSlow size + 1⟩ ⟨construct 0, ⟨[], []⟩, [], []⟩)
    rw [getClass_eval _ hpos hsize, classIndex, if_pos (Nat.not_lt.mp hsmall)] at hresult
    exact Nat.succ_ne_self _ (Except.ok.inj hresult)
  · intro hlarge
    refine ⟨isLeast_getClassSlow hsize, fun build process ↦ ?_⟩
    rw [getClass_eval build hpos hsize, classIndex, if_neg (Nat.not_le.mpr hlarge)]

/-- The first size above the smallest class. -/
theorem getClass_agrees_sixty_five :
    (getClass ⟨true, 3⟩ 65).eval ⟨construct 0, ⟨[], []⟩, [], []⟩ =
      (.ok 1, ⟨construct 0, ⟨[], []⟩, [], []⟩) :=
  ((getClass_agrees_iff (by decide) (by decide)).mpr (by decide)).2 ⟨true, 3⟩ _

/-- Where `bsrl` leaves a three behind, the smallest sizes are taken for ones of class three. -/
theorem getClass_one_ne_slow :
    (getClass ⟨true, 3⟩ 1).eval ⟨construct 0, ⟨[], []⟩, [], []⟩ =
        (.ok 3, ⟨construct 0, ⟨[], []⟩, [], []⟩) ∧ getClassSlow 1 = 0 :=
  ⟨getClass_eval ⟨true, 3⟩ (by decide) (by decide) _, by decide⟩

/-- The smallest class is found only where `bsrl` leaves zero for a zero operand. -/
theorem bsrlZero_of_classIndex {build : Build} {size : ℕ} (hsize : size ≤ kMaxClassSize)
    (h : classIndex build size = 0) : build.bsrlZero = 0 := by
  unfold classIndex at h
  split at h
  · exact h
  · rename_i hlarge
    exact absurd ((getClassSlow_eq_iff hsize).mp h).1 hlarge

/-- A class size is found in its own class, given that for the smallest class. -/
theorem classIndex_classMaxSize {build : Build} {classI : ℕ} (h : classI < kNumClasses)
    (hlow : classI ≠ 0 ∨ build.bsrlZero = 0) : classIndex build (classMaxSize classI) = classI := by
  unfold classIndex
  split
  · rename_i hsmall
    have hzero : classI = 0 := by
      by_contra hne
      exact absurd hsmall (not_le.mpr (classMaxSize_strictMono (Nat.pos_of_ne_zero hne)))
    rw [hzero, hlow.resolve_left (not_not.mpr hzero)]
  · exact getClassSlow_classMaxSize h

/-! ## Rounding -/

theorem and_high_bits {x : ℕ} (h : x < 2 ^ 64) :
    x &&& (2 ^ 64 - 1 - (2 ^ 21 - 1)) = x / 2 ^ 21 * 2 ^ 21 := by
  apply Nat.eq_of_testBit_eq
  intro i
  have hmask : 2 ^ 64 - 1 - (2 ^ 21 - 1) = (2 ^ 43 - 1) * 2 ^ 21 := by decide
  rw [hmask, Nat.testBit_and, Nat.testBit_mul_two_pow, Nat.testBit_mul_two_pow,
    Nat.testBit_two_pow_sub_one, Nat.testBit_div_two_pow]
  by_cases hi : 21 ≤ i
  · by_cases hhigh : i < 64
    · simp [hi, show i - 21 < 43 by omega, show i - 21 + 21 = i by omega]
    · have hzero : x.testBit i = false :=
        Nat.testBit_lt_two_pow (h.trans_le (Nat.pow_le_pow_right (by decide) (by omega)))
      simp [show i - 21 + 21 = i by omega, hzero]
  · simp [hi]

theorem roundUp_eq (x : ℕ) :
    roundUp kHugepageSize x = (x + (2 ^ 21 - 1)) % 2 ^ 64 / 2 ^ 21 * 2 ^ 21 := by
  have hpage : kHugepageSize = 2 ^ 21 := by decide
  rw [roundUp, hpage, and_high_bits (Nat.mod_lt _ (by decide))]

theorem kHugepageSize_dvd_roundUp (x : ℕ) : kHugepageSize ∣ roundUp kHugepageSize x := by
  have hpage : kHugepageSize = 2 ^ 21 := by decide
  rw [roundUp_eq, hpage]
  exact Nat.dvd_mul_left _ _

/-- Rounding only loses bytes when it wraps, and then it returns zero. -/
theorem le_roundUp {x : ℕ} (hx : x < 2 ^ 64) (hround : roundUp kHugepageSize x ≠ 0) :
    x ≤ roundUp kHugepageSize x := by
  rw [roundUp_eq] at hround ⊢
  omega

/-! ## Keys -/

/-- The key is `IPC_PRIVATE` exactly for the draws whose low 32 bits are zero. -/
theorem chooseKey_eq_zero_iff (draw : ℕ) : chooseKey draw = 0 ↔ draw % 2 ^ 32 = 0 := by
  unfold chooseKey abs32 toInt32
  have hcast : (draw : ℤ) % 2 ^ 32 = ((draw % 2 ^ 32 : ℕ) : ℤ) := by norm_cast
  split
  · rename_i hneg
    rw [Int.bmod_def] at hneg ⊢
    rw [Int.bmod_def]
    split at hneg <;> split <;> omega
  · rw [Int.bmod_def]
    split <;> omega

end Systemish.HugeAlloc
