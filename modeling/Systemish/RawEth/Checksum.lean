import Systemish.Foundation.OnesComplement
import Systemish.RawEth.Sender

/-!
# The checksum of the IPv4 header

`ip_checksum` and `gen_ipv4_header` of `rxtx/common.h`. The checksum is computed over the header in
memory, the field `check` included, whatever that holds. The host is little-endian and an
`unsigned long` has 64 bits.
-/

namespace Systemish.RawEth

open Foundation

/-- The 20 bytes of an `ipv4_hdr_t`, by field. -/
structure Ipv4Hdr where
  ihl : BitVec 4
  version : BitVec 4
  tos : BitVec 8
  totLen : BitVec 16
  id : BitVec 16
  fragOff : BitVec 16
  ttl : BitVec 8
  protocol : BitVec 8
  check : BitVec 16
  srcIp : BitVec 32
  dstIp : BitVec 32

def sizeofIpv4Hdr : ℕ := 20

def sizeofUdpHdr : ℕ := 8

namespace Ipv4Hdr

/-- The header as a `uint16_t` pointer sees it. -/
def words (hdr : Ipv4Hdr) : List ℕ :=
  [hdr.ihl.toNat + 2 ^ 4 * hdr.version.toNat + 2 ^ 8 * hdr.tos.toNat,
    hdr.totLen.toNat, hdr.id.toNat, hdr.fragOff.toNat,
    hdr.ttl.toNat + 2 ^ 8 * hdr.protocol.toNat, hdr.check.toNat,
    hdr.srcIp.toNat % 2 ^ 16, hdr.srcIp.toNat / 2 ^ 16,
    hdr.dstIp.toNat % 2 ^ 16, hdr.dstIp.toNat / 2 ^ 16]

/-- The sum of the words other than `check`. -/
def restSum (hdr : Ipv4Hdr) : ℕ := { hdr with check := 0 }.words.sum

end Ipv4Hdr

/-- The body of the first loop. -/
def addWord (sum word : ℕ) : ℕ :=
  let sum := (sum + word) % 2 ^ 64
  if sum &&& 0x80000000 ≠ 0 then (sum &&& 0xFFFF) + (sum >>> 16) else sum

theorem fold_eq_endAround (sum : ℕ) : (sum &&& 0xFFFF) + (sum >>> 16) = endAround 16 sum := by
  rw [endAround, Nat.shiftRight_eq_div_pow, ← Nat.and_two_pow_sub_one_eq_mod sum 16]

/-- The second loop. It ends because each round makes `sum` smaller. -/
def foldCarries (sum : ℕ) : ℕ :=
  if sum >>> 16 ≠ 0 then foldCarries ((sum &&& 0xFFFF) + (sum >>> 16)) else sum
termination_by sum
decreasing_by
  rename_i hcarry
  rw [Nat.shiftRight_eq_div_pow] at hcarry
  rw [fold_eq_endAround]
  exact endAround_lt (by decide) hcarry

/-- The complement of the `unsigned long`, cut to `uint16_t`. -/
def ipChecksum (hdr : Ipv4Hdr) : ℕ :=
  (2 ^ 64 - 1 - foldCarries (hdr.words.foldl addWord 0)) % 2 ^ 16

/-- The assignments of `gen_ipv4_header` before the call of `ip_checksum`. -/
def fillFields (hdr : Ipv4Hdr) (srcIp dstIp : BitVec 32) (protocol : BitVec 8)
    (dataSize : BitVec 16) : Ipv4Hdr :=
  { hdr with
    version := 4
    ihl := 5
    tos := 0
    totLen := BitVec.ofNat 16 (htons (sizeofIpv4Hdr + sizeofUdpHdr + dataSize.toNat))
    id := BitVec.ofNat 16 (htons 0)
    fragOff := BitVec.ofNat 16 (htons 0)
    ttl := 128
    protocol := protocol
    srcIp := srcIp
    dstIp := dstIp }

def genIpv4Header (hdr : Ipv4Hdr) (srcIp dstIp : BitVec 32) (protocol : BitVec 8)
    (dataSize : BitVec 16) : Ipv4Hdr :=
  let hdr := fillFields hdr srcIp dstIp protocol dataSize
  { hdr with check := BitVec.ofNat 16 (ipChecksum hdr) }

/-- A receiver accepts the header: its words add up to all ones. -/
def Accepted (hdr : Ipv4Hdr) : Prop := onesSum 16 hdr.words = 0xFFFF

/-! ## The words of a header -/

namespace Ipv4Hdr

theorem words_lt (hdr : Ipv4Hdr) : ∀ word ∈ hdr.words, word < 2 ^ 16 := by
  have hihl := hdr.ihl.isLt
  have hversion := hdr.version.isLt
  have htos := hdr.tos.isLt
  have httl := hdr.ttl.isLt
  have hprotocol := hdr.protocol.isLt
  have hsrc := hdr.srcIp.isLt
  have hdst := hdr.dstIp.isLt
  simp only [words, List.forall_mem_cons, List.not_mem_nil, false_imp_iff, implies_true, and_true]
  refine ⟨?_, hdr.totLen.isLt, hdr.id.isLt, hdr.fragOff.isLt, ?_, hdr.check.isLt, ?_, ?_, ?_, ?_⟩
  all_goals omega

theorem sum_words (hdr : Ipv4Hdr) : hdr.words.sum = hdr.restSum + hdr.check.toNat := by
  have hzero : (0 : BitVec 16).toNat = 0 := rfl
  simp only [restSum, words, List.sum_cons, List.sum_nil, hzero]
  omega

theorem sum_words_le (hdr : Ipv4Hdr) : hdr.words.sum ≤ 10 * 2 ^ 16 := by
  have h := List.sum_le_card_nsmul hdr.words (2 ^ 16) fun word hword ↦
    (hdr.words_lt word hword).le
  simpa [words] using h

end Ipv4Hdr

/-! ## The two loops -/

theorem addWord_le (sum word : ℕ) : addWord sum word ≤ sum + word := by
  unfold addWord
  dsimp only
  split
  · rw [fold_eq_endAround]
    exact (endAround_le 16 _).trans (Nat.mod_le _ _)
  · exact Nat.mod_le _ _

theorem sameCarried_addWord {sum word : ℕ} (h : sum + word < 2 ^ 64) :
    SameCarried 16 (addWord sum word) (sum + word) := by
  unfold addWord
  rw [Nat.mod_eq_of_lt h]
  dsimp only
  split
  · rw [fold_eq_endAround]
    exact sameCarried_endAround 16 _
  · exact .refl 16 _

/-- The first loop loses no carry. -/
theorem sameCarried_foldl_addWord (words : List ℕ) (sum : ℕ) (h : sum + words.sum < 2 ^ 64) :
    SameCarried 16 (words.foldl addWord sum) (sum + words.sum) := by
  induction words generalizing sum with
  | nil => exact .refl 16 sum
  | cons word words ih =>
    rw [List.sum_cons, ← Nat.add_assoc] at h ⊢
    have hle := addWord_le sum word
    exact (ih (addWord sum word) (by omega)).trans ((sameCarried_addWord (by omega)).add_right _)

/-- Nor does the second. -/
theorem sameCarried_foldCarries (sum : ℕ) : SameCarried 16 (foldCarries sum) sum := by
  fun_induction foldCarries sum with
  | case1 sum _ ih =>
    apply ih.trans
    rw [fold_eq_endAround]
    exact sameCarried_endAround 16 sum
  | case2 sum _ => exact .refl 16 sum

theorem foldCarries_lt (sum : ℕ) : foldCarries sum < 2 ^ 16 := by
  fun_induction foldCarries sum with
  | case1 sum _ ih => exact ih
  | case2 sum hdone =>
    rw [not_not, Nat.shiftRight_eq_div_pow] at hdone
    exact (Nat.div_eq_zero_iff_lt (Nat.two_pow_pos 16)).mp hdone

/-- `ip_checksum` is the complement of the ones-complement sum. -/
theorem ipChecksum_eq (hdr : Ipv4Hdr) : ipChecksum hdr = 0xFFFF - onesSum 16 hdr.words := by
  have hsum := hdr.sum_words_le
  have hfirst := sameCarried_foldl_addWord hdr.words 0 (by omega)
  rw [Nat.zero_add] at hfirst
  have hsame : foldCarries (hdr.words.foldl addWord 0) = onesSum 16 hdr.words :=
    ((sameCarried_foldCarries _).trans
      (hfirst.trans (sameCarried_onesSum 16 hdr.words).symm)).eq_of_lt
      (foldCarries_lt _) (onesSum_lt hdr.words_lt)
  have hlt := onesSum_lt hdr.words_lt
  rw [ipChecksum, hsame]
  omega

/-! ## The header -/

theorem accepted_iff {hdr : Ipv4Hdr} (hpos : hdr.words.sum ≠ 0) :
    Accepted hdr ↔ hdr.words.sum ≡ 0 [MOD 0xFFFF] := by
  have hsame := sameCarried_onesSum 16 hdr.words
  constructor
  · intro h
    rw [Accepted] at h
    rw [h] at hsame
    exact hsame.modEq.symm
  · intro h
    have hones : SameCarried 16 hdr.words.sum 0xFFFF :=
      ⟨h, iff_of_false hpos (by decide)⟩
    exact (hsame.trans hones).eq_of_lt (onesSum_lt hdr.words_lt) (by decide)

/-- The first byte that `gen_ipv4_header` writes is not zero. -/
theorem restSum_pos (hdr : Ipv4Hdr) (srcIp dstIp : BitVec 32) (protocol : BitVec 8)
    (dataSize : BitVec 16) : 0 < (fillFields hdr srcIp dstIp protocol dataSize).restSum := by
  rw [Ipv4Hdr.restSum, Ipv4Hdr.words, List.sum_cons]
  apply Nat.add_pos_left
  exact Nat.succ_pos 68

/-- The header that `gen_ipv4_header` leaves behind, whatever the buffer held before, is one that a
receiver accepts if and only if `check` was zero or all ones before. Neither loop of `ip_checksum`
loses a carry. -/
theorem genIpv4Header_accepted_iff (before : Ipv4Hdr) (srcIp dstIp : BitVec 32)
    (protocol : BitVec 8) (dataSize : BitVec 16) :
    (∀ hdr, ipChecksum hdr = 0xFFFF - onesSum 16 hdr.words) ∧
      (Accepted (genIpv4Header before srcIp dstIp protocol dataSize) ↔
        before.check = 0 ∨ before.check = 0xFFFF) := by
  refine ⟨ipChecksum_eq, ?_⟩
  have hrest := restSum_pos before srcIp dstIp protocol dataSize
  set filled := fillFields before srcIp dstIp protocol dataSize with hfilled
  have hlt := onesSum_lt filled.words_lt
  have hsame := (sameCarried_onesSum 16 filled.words).modEq
  have hcheck := before.check.isLt
  have hafter : (genIpv4Header before srcIp dstIp protocol dataSize).words.sum =
      filled.restSum + (0xFFFF - onesSum 16 filled.words) := by
    rw [Ipv4Hdr.sum_words, genIpv4Header, ← hfilled, ipChecksum_eq]
    dsimp only
    rw [BitVec.toNat_ofNat, Nat.mod_eq_of_lt (by omega)]
    rfl
  rw [filled.sum_words] at hsame
  change _ ≡ filled.restSum + before.check.toNat [MOD 0xFFFF] at hsame
  rw [accepted_iff (by omega), hafter, ← BitVec.toNat_inj, ← BitVec.toNat_inj]
  change (_ + _) % 0xFFFF = 0 ↔ before.check.toNat = 0 ∨ before.check.toNat = 0xFFFF
  rw [Nat.ModEq] at hsame
  omega

/-- A header whose `check` held one before. -/
theorem stale_check_rejected :
    ¬ Accepted (genIpv4Header ⟨0, 0, 0, 0, 0, 0, 0, 0, 1, 0, 0⟩ 0 0 0 0) := by
  rw [Accepted, genIpv4Header, ipChecksum_eq]
  decide

end Systemish.RawEth
