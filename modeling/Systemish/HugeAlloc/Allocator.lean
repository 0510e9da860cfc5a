import Systemish.Foundation.Call
import Systemish.Foundation.Buckets

/-!
# The hugepage allocator

Embedding of `utils/huge_alloc.h`. `HugeAlloc` holds the fields of the class;
`Kernel` holds the System V shared-memory state that its system calls change.
Each call of `alloc` or `alloc_raw` is given the answers of the random number
generator and of the operating system, so every outcome is an input. Sizes are
`size_t` values, natural numbers with explicit wrap-around at `2 ^ 64`; an
address is a natural number and the null pointer is `0`.

A `Build` says whether assertions are compiled in and what `bsrl` leaves in its
destination register when its operand is zero.
-/

namespace Systemish

open Foundation

/-- Class `Buffer`: the backing memory and the class size. -/
structure Buffer where
  buf : ℕ
  classSize : ℕ
deriving DecidableEq, Repr

/-- Struct `shm_region_t`. -/
structure ShmRegion where
  shmKey : ℤ
  buf : ℕ
  size : ℕ
deriving DecidableEq, Repr

namespace HugeAlloc

def kHugepageSize : ℕ := 2 * 1024 * 1024
def kMinClassSize : ℕ := 64
def kMinClassBitShift : ℕ := 6
def kMaxClassSize : ℕ := 8 * 1024 * 1024
def kNumClasses : ℕ := 18

/-- `SIZE_MAX`, the class size of Buffers that do not come from a class. -/
def sizeMax : ℕ := 2 ^ 64 - 1

/-- The maximum size of a class. -/
def classMaxSize (classI : ℕ) : ℕ := kMinClassSize * 2 ^ classI

end HugeAlloc

open HugeAlloc in
/-- The fields of class `HugeAlloc`. Vectors in `freelist` are kept with their back first. -/
structure HugeAlloc where
  shmList : List ShmRegion
  freelist : Buckets kNumClasses Buffer
  prevAllocationSize : ℕ
  shmReserved : ℕ
  userAllocTot : ℕ

namespace HugeAlloc

/-! ## The machine and the operating system -/

/-- How the header is compiled, and the machine it runs on. -/
structure Build where
  /-- `NDEBUG` is not defined. -/
  asserts : Bool
  /-- What the destination of `bsrl` reads as after a zero operand. -/
  bsrlZero : ℕ

/-- The values of `errno` that the code tells apart. -/
inductive Errno where
  | EEXIST
  | EACCES
  | EINVAL
  | ENOMEM
  | other (description : String)
deriving DecidableEq, Repr

/-- One draw of `slow_rand` and the answer of the `shmget` made with it. -/
structure Trip where
  draw : ℕ
  shmget : Except Errno ℕ

/-- Result of `shmat`: `(void *) -1`, or the address of the new mapping. -/
inductive Shmat where
  | failed
  | mapped (address : ℕ)
deriving DecidableEq, Repr

/-- The pointer that `shmat` returns. -/
def Shmat.pointer : Shmat → ℕ
  | failed => 2 ^ 64 - 1
  | mapped address => address

/-- Everything one call of `alloc_raw` is told from outside. -/
structure Answers where
  trips : List Trip
  shmat : Shmat
  mbind : ℤ

/-- A shared-memory segment of the system. -/
structure Segment where
  id : ℕ
  key : ℤ
  size : ℕ
deriving DecidableEq, Repr

/-- Segments that exist, and the address ranges at which this process has attached segments. -/
structure Kernel where
  segments : List Segment
  attached : List (ℕ × ℕ)

namespace Kernel

/-- `shmget(key, 0, 0)`. Key `0` is `IPC_PRIVATE` and names no segment. -/
def find (kernel : Kernel) (key : ℤ) : Option Segment :=
  if key = 0 then none else kernel.segments.find? fun segment ↦ segment.key = key

/-- A successful `shmget(key, size, IPC_CREAT | IPC_EXCL | ...)`. -/
def create (kernel : Kernel) (segment : Segment) : Kernel :=
  { kernel with segments := segment :: kernel.segments }

/-- `shmat(shm_id, nullptr, 0)` for a segment of `size` bytes. -/
def attach (kernel : Kernel) (shmat : Shmat) (size : ℕ) : Kernel :=
  match shmat with
  | .failed => kernel
  | .mapped address => { kernel with attached := (address, size) :: kernel.attached }

/-- `shmctl(shmid, IPC_RMID, nullptr)`. -/
def shmctlRemove (kernel : Kernel) (id : ℕ) : ℤ × Kernel :=
  if kernel.segments.any (fun segment ↦ segment.id = id) then
    (0, { kernel with segments := kernel.segments.filter fun segment ↦ segment.id ≠ id })
  else (-1, kernel)

/-- `shmdt(address)`. -/
def shmdt (kernel : Kernel) (address : ℕ) : ℤ × Kernel :=
  if kernel.attached.any (fun range ↦ range.1 = address) then
    (0, { kernel with attached := kernel.attached.filter fun range ↦ range.1 ≠ address })
  else (-1, kernel)

end Kernel

/-- The allocator inside its process. `created` and `reservations` are history: the segments that
`alloc_raw` created, and the sizes of the calls of `reserve_hugepages` that returned `true`. -/
structure Process where
  heap : HugeAlloc
  kernel : Kernel
  created : List ℕ
  reservations : List ℕ

namespace Process

def setFreelist (process : Process) (classI : Fin kNumClasses) (buffers : List Buffer) : Process :=
  { process with
    heap := { process.heap with freelist := Function.update process.heap.freelist classI buffers } }

/-- A `size_t` addition to `stats.user_alloc_tot`. -/
def addUserAllocTot (process : Process) (size : ℕ) : Process :=
  { process with
    heap := { process.heap with userAllocTot := (process.heap.userAllocTot + size) % 2 ^ 64 } }

def setPrevAllocationSize (process : Process) (size : ℕ) : Process :=
  { process with heap := { process.heap with prevAllocationSize := size } }

/-- Record a region in `shm_list` and count it in `stats.shm_reserved`. -/
def addRegion (process : Process) (region : ShmRegion) : Process :=
  { process with
    heap := { process.heap with
      shmList := process.heap.shmList ++ [region]
      shmReserved := (process.heap.shmReserved + region.size) % 2 ^ 64 } }

/-- A segment comes into being under `key`. -/
def createSegment (process : Process) (id : ℕ) (key : ℤ) (size : ℕ) : Process :=
  { process with kernel := process.kernel.create ⟨id, key, size⟩, created := id :: process.created }

def attach (process : Process) (shmat : Shmat) (size : ℕ) : Process :=
  { process with kernel := process.kernel.attach shmat size }

def addReservation (process : Process) (size : ℕ) : Process :=
  { process with reservations := size :: process.reservations }

end Process

/-! ## Size classes -/

/-- `static_cast<int>` of an unsigned value. -/
def toInt32 (value : ℕ) : ℤ := Int.bmod value (2 ^ 32)

/-- `bsrl`: the index of the highest set bit of the operand. -/
def bsrl (build : Build) (operand : ℕ) : ℕ :=
  if operand = 0 then build.bsrlZero else Nat.log2 operand

def msbIndex (build : Build) (x : ℤ) : Call Process ℕ := do
  Call.check build.asserts (x < (2 ^ 31 - 1) / 2)
  return bsrl build ((2 * x) % 2 ^ 32).toNat

/-- The class index for a Buffer size. -/
def getClass (build : Build) (size : ℕ) : Call Process ℕ := do
  Call.check build.asserts (1 ≤ size ∧ size ≤ kMaxClassSize)
  msbIndex build (toInt32 (((size + (2 ^ 64 - 1)) % 2 ^ 64) >>> kMinClassBitShift))

/-- The loop of `get_class_slow`, for at most `rounds` rounds. -/
def getClassSlowLoop (size : ℕ) : (rounds sizeClass classLim : ℕ) → ℕ
  | 0, sizeClass, _ => sizeClass
  | rounds + 1, sizeClass, classLim =>
    if size > classLim then getClassSlowLoop size rounds (sizeClass + 1) (classLim * 2)
    else sizeClass

/-- Reference function for `get_class`. A size up to `kMaxClassSize` needs fewer than
`kNumClasses` rounds. -/
def getClassSlow (size : ℕ) : ℕ := getClassSlowLoop size kNumClasses 0 kMinClassSize

/-! ## Regions -/

/-- `round_up<multiple>` on `size_t`, `multiple` being a power of two. -/
def roundUp (multiple x : ℕ) : ℕ :=
  ((x + (multiple - 1)) % 2 ^ 64) &&& (2 ^ 64 - 1 - (multiple - 1))

/-- `std::abs` on `int`; the smallest `int` is its own absolute value on the target. -/
def abs32 (value : ℤ) : ℤ := if value < 0 then Int.bmod (-value) (2 ^ 32) else value

/-- The SHM key made from one draw. -/
def chooseKey (draw : ℕ) : ℤ := abs32 (toInt32 draw)

def rtAssert (condition : Prop) [Decidable condition] (throwStr : String) : Call Process Unit :=
  if condition then pure () else throw (.thrown throwStr)

/-- The loop of `alloc_raw` around `shmget`. No key and segment are returned on `ENOMEM`. -/
def shmgetLoop (size : ℕ) : List Trip → Call Process (Option ℤ)
  | [] => throw .pending
  | trip :: rest =>
    match trip.shmget with
    | .error .EEXIST => shmgetLoop size rest
    | .error .EACCES =>
      throw (.thrown "HugeAlloc: SHM allocation error. Insufficient permissions.")
    | .error .EINVAL =>
      throw (.thrown ("HugeAlloc: SHM allocation error: SHMMAX/SHMIN mismatch. size = " ++
        toString size ++ " (" ++ toString (size / (1024 * 1024)) ++ " MB)."))
    | .error .ENOMEM => return none
    | .error (.other description) =>
      throw (.thrown ("HugeAlloc: Unexpected SHM malloc error " ++ description))
    | .ok id => do
      modify fun process ↦ process.createSegment id (chooseKey trip.draw) size
      return some (chooseKey trip.draw)

/-- `alloc_raw`. A null Buffer is returned when there are no hugepages left. -/
def allocRaw (build : Build) (answers : Answers) (size : ℕ) : Call Process Buffer := do
  let size := roundUp kHugepageSize size
  match ← shmgetLoop size answers.trips with
  | none => return ⟨0, 0⟩
  | some shmKey =>
    let shmBuf := answers.shmat.pointer
    modify fun process ↦ process.attach answers.shmat size
    rtAssert (shmBuf ≠ 0) ("HugeAlloc: shmat() failed. Key = " ++ toString shmKey)
    rtAssert (answers.mbind = 0) ("HugeAlloc: mbind() failed. Key " ++ toString shmKey)
    Call.check build.asserts (size % kHugepageSize = 0)
    modify fun process ↦ process.addRegion ⟨shmKey, shmBuf, size⟩
    return ⟨shmBuf, sizeMax⟩

/-! ## Freelists -/

/-- Read `freelist[classI]`; an index outside the array is undefined. -/
def freelistAt (classI : ℕ) : Call Process (List Buffer) := do
  let process ← get
  if h : classI < kNumClasses then return process.heap.freelist ⟨classI, h⟩ else throw .undefined

/-- Write `freelist[classI]`. -/
def setFreelistAt (classI : ℕ) (buffers : List Buffer) : Call Process Unit :=
  if h : classI < kNumClasses then modify fun process ↦ process.setFreelist ⟨classI, h⟩ buffers
  else throw .undefined

/-- Push `count` Buffers of the largest class, lowest address first. -/
def pushSlices (buf : ℕ) : (count : ℕ) → List Buffer → List Buffer
  | 0, buffers => buffers
  | count + 1, buffers =>
    ⟨buf + count * kMaxClassSize, kMaxClassSize⟩ :: pushSlices buf count buffers

def reserveHugepages (build : Build) (answers : Answers) (size : ℕ) : Call Process Bool := do
  Call.check build.asserts (kMaxClassSize ≤ size)
  let buffer ← allocRaw build answers size
  if buffer.buf = 0 then return false
  else
    let numBuffers := size / kMaxClassSize
    Call.check build.asserts (1 ≤ numBuffers)
    let top ← freelistAt (kNumClasses - 1)
    setFreelistAt (kNumClasses - 1) (pushSlices buffer.buf numBuffers top)
    modify fun process ↦ process.addReservation size
    return true

/-- Split one Buffer of `sizeClass` into two Buffers of the class before it. -/
def split (build : Build) (sizeClass : ℕ) : Call Process Unit := do
  Call.check build.asserts (1 ≤ sizeClass)
  let source ← freelistAt sizeClass
  Call.check build.asserts (source ≠ [])
  let target ← freelistAt (sizeClass - 1)
  Call.check build.asserts (target = [])
  match source with
  | [] => throw .undefined
  | buffer :: rest =>
    setFreelistAt sizeClass rest
    Call.check build.asserts (buffer.classSize = classMaxSize sizeClass)
    setFreelistAt (sizeClass - 1)
      (⟨buffer.buf + buffer.classSize / 2, buffer.classSize / 2⟩ ::
        ⟨buffer.buf, buffer.classSize / 2⟩ :: target)

/-- Take the Buffer at the back of a non-empty class. -/
def allocFromClass (build : Build) (sizeClass : ℕ) : Call Process Buffer := do
  Call.check build.asserts (sizeClass < kNumClasses)
  let source ← freelistAt sizeClass
  match source with
  | [] => throw .undefined
  | back :: rest =>
    -- the assertion holds an assignment, which is carried out only when it is compiled in
    let buffer := if build.asserts then { back with classSize := classMaxSize sizeClass } else back
    Call.check build.asserts (buffer.classSize ≠ 0)
    setFreelistAt sizeClass rest
    modify fun process ↦ process.addUserAllocTot buffer.classSize
    return buffer

/-- The loop of `alloc` that looks for a larger class with free Buffers; `kNumClasses` if none. -/
def findClass (freelist : Buckets kNumClasses Buffer) : (rounds nextClass : ℕ) → ℕ
  | 0, nextClass => nextClass
  | rounds + 1, nextClass =>
    if h : nextClass < kNumClasses then
      if freelist ⟨nextClass, h⟩ ≠ [] then nextClass else findClass freelist rounds (nextClass + 1)
    else nextClass

/-- The loop of `alloc` that splits `sizeClass + rounds`, ..., `sizeClass + 1`. -/
def splitDown (build : Build) (sizeClass : ℕ) : (rounds : ℕ) → Call Process Unit
  | 0 => pure ()
  | rounds + 1 => do
    split build (sizeClass + rounds + 1)
    splitDown build sizeClass rounds

/-- The end of `alloc`, once `nextClass` has free Buffers. -/
def allocFromLarger (build : Build) (sizeClass nextClass : ℕ) : Call Process Buffer := do
  Call.check build.asserts (nextClass < kNumClasses)
  splitDown build sizeClass (nextClass - sizeClass)
  let source ← freelistAt sizeClass
  Call.check build.asserts (source ≠ [])
  allocFromClass build sizeClass

/-- The branch of `alloc` that reserves more hugepages. -/
def allocFromReservation (build : Build) (answers : Answers) (sizeClass : ℕ) :
    Call Process Buffer := do
  modify fun process ↦
    process.setPrevAllocationSize (process.heap.prevAllocationSize * 2 % 2 ^ 64)
  let process ← get
  let success ← reserveHugepages build answers process.heap.prevAllocationSize
  if success then allocFromLarger build sizeClass (kNumClasses - 1)
  else do
    modify fun process ↦ process.setPrevAllocationSize (process.heap.prevAllocationSize / 2)
    return ⟨0, 0⟩

/-- Allocate a Buffer of at least `size` bytes from the freelists. -/
def alloc (build : Build) (answers : Answers) (size : ℕ) : Call Process Buffer := do
  Call.check build.asserts (size ≤ kMaxClassSize)
  let sizeClass ← getClass build size
  Call.check build.asserts (sizeClass < kNumClasses)
  let source ← freelistAt sizeClass
  if source ≠ [] then allocFromClass build sizeClass
  else
    let process ← get
    let nextClass := findClass process.heap.freelist kNumClasses (sizeClass + 1)
    if nextClass = kNumClasses then allocFromReservation build answers sizeClass
    else allocFromLarger build sizeClass nextClass

/-- Free a Buffer. -/
def freeBuf (build : Build) (buffer : Buffer) : Call Process Unit := do
  Call.check build.asserts (buffer.buf ≠ 0)
  let sizeClass ← getClass build buffer.classSize
  Call.check build.asserts (classMaxSize sizeClass = buffer.classSize)
  let target ← freelistAt sizeClass
  setFreelistAt sizeClass (buffer :: target)
  modify fun process ↦ process.addUserAllocTot (2 ^ 64 - buffer.classSize)

/-! ## Statistics, construction and destruction -/

def getStatShmReserved (build : Build) : Call Process ℕ := do
  let process ← get
  Call.check build.asserts (process.heap.shmReserved % kHugepageSize = 0)
  return process.heap.shmReserved

def getStatUserAllocTot (build : Build) : Call Process ℕ := do
  let process ← get
  Call.check build.asserts (process.heap.userAllocTot % kMinClassSize = 0)
  return process.heap.userAllocTot

/-- The constructor. -/
def construct (initialSize : ℕ) : HugeAlloc where
  shmList := []
  freelist _ := []
  prevAllocationSize := if initialSize < kMaxClassSize then kMaxClassSize else initialSize
  shmReserved := 0
  userAllocTot := 0

/-- Remove the segment that `region` names, and its mapping. -/
def deleteShm (region : ShmRegion) : Call Process Unit := do
  let process ← get
  match process.kernel.find region.shmKey with
  | none => throw .exited
  | some segment =>
    let removed := process.kernel.shmctlRemove segment.id
    modify fun process ↦ { process with kernel := removed.2 }
    if removed.1 ≠ 0 then throw .exited
    else
      let detached := removed.2.shmdt region.buf
      modify fun process ↦ { process with kernel := detached.2 }
      if detached.1 ≠ 0 then throw .exited else pure ()

/-- The loop of the destructor. -/
def deleteAll : List ShmRegion → Call Process Unit
  | [] => pure ()
  | region :: rest => do
    deleteShm region
    deleteAll rest

/-- The destructor. -/
def destruct : Call Process Unit := do
  let process ← get
  deleteAll process.heap.shmList

end HugeAlloc

end Systemish
