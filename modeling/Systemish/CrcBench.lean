import Systemish.Foundation.Gf2

/-!
# A CRC by machine instruction

`fastcrc` of `bench/crc/crcbench.c`. Its inline assembly is the instruction `CRC32` with an operand
of 32 bits for each word of the string and with an operand of 8 bits for each byte that is left.
Both are given here as the manual of the processor defines them: the bits of the operand are
reflected, and the remainder modulo the polynomial `11EDC6F41H` is taken. Loads are
little-endian. The string is what a pointer has in front of it.
-/

namespace Systemish.CrcBench

open Foundation

/-- `11EDC6F41H` without its leading term. -/
def castagnoli : BitVec 32 := 0x1EDC6F41

/-- `CRC32 r32, r/m32`, opcode `F2 0F 38 F1`. -/
def crc32Word (dest src : BitVec 32) : BitVec 32 :=
  let temp1 := src.reverse
  let temp2 := dest.reverse
  let temp3 : BitVec 64 := temp1.setWidth 64 <<< 32
  let temp4 : BitVec 64 := temp2.setWidth 64 <<< 32
  let temp5 := temp3 ^^^ temp4
  let temp6 := mod2 castagnoli temp5
  temp6.reverse

/-- `CRC32 r32, r/m8`, opcode `F2 0F 38 F0`. -/
def crc32Byte (dest : BitVec 32) (src : BitVec 8) : BitVec 32 :=
  let temp1 := src.reverse
  let temp2 := dest.reverse
  let temp3 : BitVec 40 := temp1.setWidth 40 <<< 32
  let temp4 : BitVec 40 := temp2.setWidth 40 <<< 8
  let temp5 := temp3 ^^^ temp4
  let temp6 := mod2 castagnoli temp5
  temp6.reverse

/-- The `uint32_t` that lies in memory as these four bytes. -/
def loadWord (byte0 byte1 byte2 byte3 : BitVec 8) : BitVec 32 := byte3 ++ byte2 ++ byte1 ++ byte0

/-- The loop over the words: where `p` points in the end, and `crc`. Reading past the string is a
fault. -/
def wordLoop : (q : ℕ) → (p : List (BitVec 8)) → (crc : BitVec 32) →
    Option (List (BitVec 8) × BitVec 32)
  | 0, p, crc => some (p, crc)
  | q + 1, byte0 :: byte1 :: byte2 :: byte3 :: p, crc =>
    wordLoop q p (crc32Word crc (loadWord byte0 byte1 byte2 byte3))
  | _ + 1, _, _ => none

/-- The loop over the bytes. -/
def byteLoop : (r : ℕ) → (str : List (BitVec 8)) → (crc : BitVec 32) → Option (BitVec 32)
  | 0, _, crc => some crc
  | r + 1, byte :: str, crc => byteLoop r str (crc32Byte crc byte)
  | _ + 1, [], _ => none

def fastcrc (str : List (BitVec 8)) (len : ℕ) : Option (BitVec 32) := do
  let (p, crc) ← wordLoop (len / 4) str 0
  byteLoop (len % 4) p crc

/-! ## The plain algorithm -/

/-- The polynomial, reflected. -/
def reflected : BitVec 32 := 0x82F63B78

/-- A byte, bit by bit. -/
def crcByte (crc : BitVec 32) (byte : BitVec 8) : BitVec 32 :=
  (bitStep reflected)^[8] (crc ^^^ byte.setWidth 32)

/-- Initial value zero, and no exclusive or at the end. -/
def plainCrc (str : List (BitVec 8)) : BitVec 32 := str.foldl crcByte 0

/-! ## The instructions -/

theorem castagnoli_reverse : castagnoli.reverse = reflected := by
  decide +kernel

/-- The remainder of a reflected value, reflected: as many steps of the plain algorithm. -/
theorem reverse_mod2_shiftLeft (value : BitVec 32) (k : ℕ) :
    (mod2 castagnoli (value.reverse.setWidth (32 + k) <<< k)).reverse =
      (bitStep reflected)^[k] value := by
  rw [mod2_shiftLeft castagnoli (by decide), reverse_iterate_shiftIn, castagnoli_reverse,
    BitVec.reverse_reverse_eq]

theorem crc32Word_eq (dest src : BitVec 32) :
    crc32Word dest src = (bitStep reflected)^[32] (dest ^^^ src) := by
  rw [← reverse_mod2_shiftLeft, BitVec.xor_comm, reverse_xor, BitVec.setWidth_xor,
    BitVec.shiftLeft_xor_distrib]
  rfl

/-- A reflected byte in the place that the instruction gives it. -/
theorem reverse_byte_shiftLeft (byte : BitVec 8) :
    (byte.setWidth 32).reverse.setWidth 40 <<< 8 = byte.reverse.setWidth 40 <<< 32 := by
  apply BitVec.eq_of_getLsbD_eq
  intro i hi
  simp only [BitVec.getLsbD_shiftLeft, BitVec.getLsbD_setWidth, BitVec.getLsbD_reverse,
    BitVec.getMsbD_eq_getLsbD]
  by_cases hbyte : i < 32
  · by_cases hlow : i < 8
    · simp [hlow, hbyte]
    · have hout : byte.getLsbD (32 - 1 - (i - 8)) = false := BitVec.getLsbD_of_ge byte _ (by omega)
      simp [hout, hbyte]
  · have hindex : 32 - 1 - (i - 8) = 8 - 1 - (i - 32) := by omega
    have hlow : ¬ i < 8 := by omega
    have hleft : i - 8 < 32 ∧ i - 8 < 40 := by omega
    have hright : i - 32 < 8 ∧ i - 32 < 40 := by omega
    have hlast : 8 - 1 - (i - 32) < 32 := by omega
    simp only [hindex, hbyte, hlow, hleft, hright, hlast, decide_true, decide_false, Bool.true_and]

theorem crc32Byte_eq (dest : BitVec 32) (src : BitVec 8) :
    crc32Byte dest src = crcByte dest src := by
  rw [crcByte, ← reverse_mod2_shiftLeft, BitVec.xor_comm, reverse_xor, BitVec.setWidth_xor,
    BitVec.shiftLeft_xor_distrib, reverse_byte_shiftLeft]
  rfl

theorem iterate_bitStep_byte {m : ℕ} (crc : BitVec 32) (upper : BitVec m) (byte : BitVec 8)
    (hfits : m + 8 ≤ 32) :
    (bitStep reflected)^[m + 8] (crc ^^^ (upper ++ byte).setWidth 32) =
      (bitStep reflected)^[m] (crcByte crc byte ^^^ upper.setWidth 32) := by
  rw [Function.iterate_add_apply, iterate_bitStep_append reflected crc upper byte hfits, crcByte]

/-- One step on a word is four steps on bytes. -/
theorem crc32Word_loadWord (crc : BitVec 32) (byte0 byte1 byte2 byte3 : BitVec 8) :
    crc32Word crc (loadWord byte0 byte1 byte2 byte3) =
      crcByte (crcByte (crcByte (crcByte crc byte0) byte1) byte2) byte3 := by
  calc
    _ = (bitStep reflected)^[24 + 8]
        (crc ^^^ (byte3 ++ byte2 ++ byte1 ++ byte0).setWidth 32) := by
      rw [crc32Word_eq, BitVec.setWidth_eq]
      rfl
    _ = (bitStep reflected)^[16 + 8]
        (crcByte crc byte0 ^^^ (byte3 ++ byte2 ++ byte1).setWidth 32) :=
      iterate_bitStep_byte _ _ _ (by decide)
    _ = (bitStep reflected)^[8 + 8]
        (crcByte (crcByte crc byte0) byte1 ^^^ (byte3 ++ byte2).setWidth 32) :=
      iterate_bitStep_byte _ _ _ (by decide)
    _ = (bitStep reflected)^[8]
        (crcByte (crcByte (crcByte crc byte0) byte1) byte2 ^^^ byte3.setWidth 32) :=
      iterate_bitStep_byte _ _ _ (by decide)

/-! ## The loops -/

theorem wordLoop_eq (q : ℕ) (str rest : List (BitVec 8)) (crc : BitVec 32)
    (hlength : str.length = 4 * q) :
    wordLoop q (str ++ rest) crc = some (rest, str.foldl crcByte crc) := by
  induction q generalizing str crc with
  | zero =>
    rw [List.length_eq_zero_iff.mp hlength]
    rfl
  | succ q ih =>
    rcases str with _ | ⟨byte0, _ | ⟨byte1, _ | ⟨byte2, _ | ⟨byte3, str⟩⟩⟩⟩
    all_goals simp only [List.length_cons, List.length_nil] at hlength
    iterate 4 · omega
    have hrest : str.length = 4 * q := by omega
    rw [List.cons_append, List.cons_append, List.cons_append, List.cons_append, wordLoop,
      ih str _ hrest, crc32Word_loadWord]
    rfl

theorem byteLoop_eq (str : List (BitVec 8)) (crc : BitVec 32) :
    byteLoop str.length str crc = some (str.foldl crcByte crc) := by
  induction str generalizing crc with
  | nil => rfl
  | cons byte str ih => rw [List.length_cons, byteLoop, ih, crc32Byte_eq, List.foldl_cons]

/-- `fastcrc` stays inside the string and gives its CRC, for every string. -/
theorem fastcrc_eq_plainCrc (str : List (BitVec 8)) :
    fastcrc str str.length = some (plainCrc str) := by
  have hwords : (str.take (4 * (str.length / 4))).length = 4 * (str.length / 4) := by
    rw [List.length_take]
    omega
  have hbytes : (str.drop (4 * (str.length / 4))).length = str.length % 4 := by
    rw [List.length_drop]
    omega
  have hfirst := wordLoop_eq (str.length / 4) _ (str.drop (4 * (str.length / 4))) 0 hwords
  rw [List.take_append_drop] at hfirst
  rw [fastcrc, hfirst, ← hbytes]
  change byteLoop _ _ _ = _
  rw [byteLoop_eq, ← List.foldl_append, List.take_append_drop, plainCrc]

end Systemish.CrcBench
