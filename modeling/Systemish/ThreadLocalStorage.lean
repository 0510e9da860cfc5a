import Mathlib

/-!
# Thread state in thread-local storage or behind pointers

`do_op_tls` and `do_op_no_tls` of `tls.c`, called over and over by `thread_func_tls` and
`thread_func_no_tls` on zeroed state. The first works on thread-local variables, the second on
pointers to locals of its caller, among them two pointers to `int`s that it means to count up.
An `int` has 32 bits, a `long long` 64 bits, and both wrap.
-/

namespace Systemish.ThreadLocalStorage

def arrSz : ℕ := 63

structure Arrays where
  arr3 : Fin arrSz → BitVec 64
  arr4 : Fin arrSz → BitVec 32
  arr5 : Fin arrSz → BitVec 64

/-- What a thread works on, wherever it is stored. -/
structure Data where
  var1 : BitVec 32
  var2 : BitVec 32
  arrays : Arrays

/-- After the assignments of zero and the calls of `memset`. -/
def zeroed : Data := ⟨0, 0, fun _ ↦ 0, fun _ ↦ 0, fun _ ↦ 0⟩

/-- `j - back` for the index `j = i + 2` of the loop. -/
def loopIndex (i : Fin (arrSz - 2)) (back : Fin 3) : Fin arrSz :=
  ⟨i + 2 - back, (Nat.sub_le _ _).trans_lt (Nat.add_lt_of_lt_sub i.isLt)⟩

/-- The body of the loop at `j = i + 2`. The sum for `arr_4` is taken in `long long` and cut. -/
def loopBody (arrays : Arrays) (i : Fin (arrSz - 2)) : Arrays :=
  let j := loopIndex i 0
  let arr3 := Function.update arrays.arr3 j (arrays.arr3 j + 1)
  let arr4 := Function.update arrays.arr4 j
    (((arrays.arr4 j).signExtend 64 + arr3 (loopIndex i 1)).setWidth 32)
  let arr5 := Function.update arrays.arr5 j
    (arrays.arr5 j + (arr4 (loopIndex i 2)).signExtend 64)
  ⟨arr3, arr4, arr5⟩

/-- The loop, which the two functions have in common. -/
def loop (arrays : Arrays) : Arrays := (List.finRange (arrSz - 2)).foldl loopBody arrays

/-! ## Thread-local storage -/

def doOpTls (data : Data) : Data :=
  { var1 := data.var1 + 1, var2 := data.var2 + 1, arrays := loop data.arrays }

/-- `thread_func_tls` with `iters` for `ITERS`. -/
def threadFuncTls : (iters : ℕ) → Data
  | 0 => zeroed
  | iters + 1 => doOpTls (threadFuncTls iters)

/-! ## Pointers -/

inductive Variable where
  | var1
  | var2

/-- A pointer to one of the two variables, or `offset` `int`s behind it. -/
structure Pointer where
  target : Variable
  offset : ℕ

def addressOf (name : Variable) : Pointer := ⟨name, 0⟩

def Pointer.next (pointer : Pointer) : Pointer := { pointer with offset := pointer.offset + 1 }

/-- `*pointer`. -/
def Data.load (data : Data) (pointer : Pointer) : Option (BitVec 32) :=
  match pointer with
  | ⟨.var1, 0⟩ => some data.var1
  | ⟨.var2, 0⟩ => some data.var2
  | ⟨_, _ + 1⟩ => none

/-- `*pointer++`. The postfix operator binds to the pointer: the value is what the pointer pointed
to, and the pointer moves on. -/
def Data.loadNext (data : Data) (pointer : Pointer) : Option (BitVec 32 × Pointer) :=
  (data.load pointer).map fun value ↦ (value, pointer.next)

def doOpNoTls (data : Data) (var1 var2 : Pointer) : Option Data := do
  let (_, _) ← data.loadNext var1
  let (_, _) ← data.loadNext var2
  return { data with arrays := loop data.arrays }

/-- `thread_func_no_tls` with `iters` for `ITERS`. -/
def threadFuncNoTls : (iters : ℕ) → Option Data
  | 0 => some zeroed
  | iters + 1 => do
    let data ← threadFuncNoTls iters
    doOpNoTls data (addressOf .var1) (addressOf .var2)

/-- The sum that a thread prints. The first addition is one of `int`s. -/
def Data.sum (data : Data) : BitVec 64 :=
  (data.var1 + data.var2).signExtend 64 + data.arrays.arr5 ⟨arrSz - 1, by decide⟩

/-! ## What the calls leave behind -/

theorem doOpNoTls_addressOf (data : Data) :
    doOpNoTls data (addressOf .var1) (addressOf .var2) =
      some { data with arrays := loop data.arrays } := rfl

/-- The two counters follow the number of calls. -/
theorem threadFuncTls_vars (iters : ℕ) :
    (threadFuncTls iters).var1 = BitVec.ofNat 32 iters ∧
      (threadFuncTls iters).var2 = BitVec.ofNat 32 iters := by
  induction iters with
  | zero => exact ⟨rfl, rfl⟩
  | succ iters ih =>
    rw [threadFuncTls, doOpTls, ih.1, ih.2, BitVec.ofNat_add]
    exact ⟨rfl, rfl⟩

/-- The version with pointers leaves its counters at zero and agrees on the arrays. -/
theorem threadFuncNoTls_eq (iters : ℕ) :
    threadFuncNoTls iters = some { threadFuncTls iters with var1 := 0, var2 := 0 } := by
  induction iters with
  | zero => rfl
  | succ iters ih =>
    rw [threadFuncNoTls, ih, Option.bind_eq_bind, Option.bind_some, doOpNoTls_addressOf,
      threadFuncTls, doOpTls]

theorem ofNat_eq_zero_iff (width n : ℕ) : BitVec.ofNat width n = 0 ↔ 2 ^ width ∣ n := by
  rw [Nat.dvd_iff_mod_eq_zero, ← BitVec.toNat_inj, BitVec.toNat_ofNat]
  rfl

theorem signExtend_eq_zero_iff (value : BitVec 32) : value.signExtend 64 = 0 ↔ value = 0 := by
  rw [← BitVec.toInt_inj, BitVec.toInt_signExtend_of_le (by decide), ← BitVec.toInt_inj]
  exact Iff.rfl

/-- After `iters` calls the two versions have the same contents if and only if `iters` is a
multiple of `2 ^ 32`, and print the same sum if and only if it is a multiple of `2 ^ 31`. -/
theorem threads_agree_iff (iters : ℕ) :
    (threadFuncNoTls iters = some (threadFuncTls iters) ↔ 2 ^ 32 ∣ iters) ∧
      ((threadFuncNoTls iters).map Data.sum = some (threadFuncTls iters).sum ↔
        2 ^ 31 ∣ iters) := by
  obtain ⟨hvar1, hvar2⟩ := threadFuncTls_vars iters
  rw [threadFuncNoTls_eq]
  constructor
  · rw [← ofNat_eq_zero_iff, ← hvar1, Option.some.injEq]
    constructor
    · intro h
      exact (congrArg Data.var1 h).symm
    · intro h
      have h2 : (threadFuncTls iters).var2 = 0 := by rw [hvar2, ← hvar1, h]
      rw [← h, Data.mk.injEq]
      exact ⟨rfl, h.trans h2.symm, rfl⟩
  · rw [Option.map_some, Option.some.injEq, Data.sum, Data.sum, hvar1, hvar2, ← BitVec.ofNat_add]
    dsimp only
    rw [BitVec.add_left_inj, eq_comm, add_zero, (signExtend_eq_zero_iff 0).mpr rfl,
      signExtend_eq_zero_iff, ofNat_eq_zero_iff]
    omega

/-- One call already makes the difference. -/
theorem one_call_differs :
    (threadFuncNoTls 1).map Data.var1 = some 0 ∧ (threadFuncTls 1).var1 = 1 ∧
      (threadFuncNoTls 1).map Data.sum = some 1 ∧ (threadFuncTls 1).sum = 3 := by
  decide +kernel

end Systemish.ThreadLocalStorage
