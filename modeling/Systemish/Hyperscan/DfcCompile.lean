import Systemish.CrcBench
import Systemish.Foundation.BitFilter
import Systemish.Foundation.KeyedLists
import Systemish.Hyperscan.DfcPatterns

/-!
# Compiling a DFC structure

`DFC_Compile` of `dfc.c`: the direct filters and the compact tables that the search reads. For each
pattern some of its last bytes are entered, in all spellings if the case does not matter. An entry
of a compact table with many patterns gets a filter and a table of its own, over the two bytes in
front of the fragment. The filters that only `DFC_PrintInfo` reads are left out, and allocation does
not fail.
-/

namespace Systemish.Hyperscan.Dfc

open Foundation

/-! ## Fragments -/

/-- `_mm_crc32_u16`, `_mm_crc32_u32` and `_mm_crc32_u64`, by the width of the operand. -/
def mmCrc32 {w : ℕ} (crc : BitVec 32) (v : BitVec w) : BitVec 32 :=
  let temp1 := v.reverse
  let temp2 := crc.reverse
  let temp3 : BitVec (32 + w) := temp1.setWidth (32 + w) <<< 32
  let temp4 : BitVec (32 + w) := temp2.setWidth (32 + w) <<< w
  (mod2 CrcBench.castagnoli (temp3 ^^^ temp4)).reverse

def fragment16 (temp : ℕ → Byte) : BitVec 16 := temp 1 ++ temp 0

def fragment32 (temp : ℕ → Byte) : BitVec 32 := temp 3 ++ temp 2 ++ temp 1 ++ temp 0

/-- `temp[3] << 24` is an `int`, and its sign is extended to 64 bits. -/
def fragment64 (temp : ℕ → Byte) : BitVec 64 :=
  let fragment32 : BitVec 32 := temp 7 ++ temp 6 ++ temp 5 ++ temp 4
  let low : BitVec 32 := temp 3 ++ temp 2 ++ temp 1 ++ temp 0
  fragment32.setWidth 64 <<< 32 ||| low.signExtend 64

/-- The index into `CompactTable2`, and into the tables of crowded entries. -/
def index2 (fragment : BitVec 16) : BitVec 12 := (mmCrc32 0 fragment).setWidth 12

/-- The index into `CompactTable4`. -/
def index4 (fragment : BitVec 32) : BitVec 17 := (mmCrc32 0 fragment).setWidth 17

/-- The index into `CompactTable8`. -/
def index8 (fragment : BitVec 64) : BitVec 17 := (mmCrc32 0 fragment).setWidth 17

namespace Pattern

/-- `Build_pattern`. -/
def buildPattern (p : Pattern) (flag : Bool) (j : ℕ) : Byte :=
  if p.nocase then
    let c := p.patrn.getD j 0
    if 65 ≤ c.toNat ∧ c.toNat ≤ 90 ∨ 97 ≤ c.toNat ∧ c.toNat ≤ 122 then
      if flag = false then toLower c else toUpper c
    else c
  else p.casepatrn.getD j 0

/-- `temp` in a pass of a loop over `alpha_cnt`: `w` bytes, from byte `j` of the pattern on. -/
def temp (p : Pattern) (j w alphaCnt : ℕ) (k : ℕ) : Byte :=
  p.buildPattern (alphaCnt.testBit (w - 1 - k)) (j + k)

/-- Where the fragment of a pattern begins. `min_pattern_interval` and `pattern_interval` are 32. -/
def position (p : Pattern) : ℕ :=
  if p.n < 4 then p.n - 2 else if p.n < 8 then p.n - 4 else 32 * (p.n - 8) / 32

/-- The bytes under which a pattern of one byte is entered. -/
def letters (p : Pattern) : List Byte :=
  let c := p.casepatrn.getD 0 0
  if p.nocase then [c, if 97 ≤ c.toNat ∧ c.toNat ≤ 122 then toUpper c else toLower c] else [c]

/-- What a pattern sets in `DirectFilter1`. -/
def fragmentsDf1 (p : Pattern) : List (BitVec 16) :=
  if p.n = 1 then p.letters.flatMap fun c ↦ (List.range 256).map fun j ↦ BitVec.ofNat 8 j ++ c
  else if 1 < p.n then (List.range 4).map fun alphaCnt ↦ fragment16 (p.temp p.position 2 alphaCnt)
  else []

/-- What a pattern sets in `cDF1`. -/
def fragmentsCdf1 (p : Pattern) : List (BitVec 16) :=
  if p.n = 2 ∨ p.n = 3 then p.fragmentsDf1 else []

/-- What a pattern sets in `ADD_DF_4_plus`. -/
def fragmentsDf4Plus (p : Pattern) : List (BitVec 16) :=
  if 4 ≤ p.n then
    (List.range 16).map fun alphaCnt ↦ fragment16 fun k ↦ p.temp p.position 4 alphaCnt (k + 2)
  else []

/-- What a pattern sets in `ADD_DF_4_1`. -/
def fragmentsDf41 (p : Pattern) : List (BitVec 16) :=
  if 4 ≤ p.n ∧ p.n < 8 then p.fragmentsDf4Plus else []

/-- Where a pattern is entered in `cDF0` and `CompactTable1`. -/
def keys1 (p : Pattern) : List Byte := if p.n = 1 then p.letters else []

/-- Where a pattern is entered in `CompactTable2`. -/
def keys2 (p : Pattern) : List (BitVec 16) :=
  if p.n = 2 ∨ p.n = 3 then
    (List.range 4).map fun alphaCnt ↦ fragment16 (p.temp (p.n - 2) 2 alphaCnt)
  else []

/-- Where a pattern is entered in `CompactTable4`. -/
def keys4 (p : Pattern) : List (BitVec 32) :=
  if 4 ≤ p.n ∧ p.n < 8 then
    (List.range 16).map fun alphaCnt ↦ fragment32 (p.temp (p.n - 4) 4 alphaCnt)
  else []

/-- Where a pattern is entered in `CompactTable8`: all passes of the loop enter it there. -/
def keys8 (p : Pattern) : List (BitVec 64) :=
  if 8 ≤ p.n then
    (List.range 256).map fun _ ↦ fragment64 fun k ↦ p.patrn.getD (p.position + k) 0
  else []

/-- Where a pattern with `patLen` bytes in front of its fragment is entered in the filter and the
table of a crowded entry. -/
def keysNested (p : Pattern) (patLen : ℕ) : List (BitVec 16) :=
  if patLen = 1 then
    if p.nocase then
      ((List.range 256).map fun l ↦ toLower (p.patrn.getD 0 0) ++ BitVec.ofNat 8 l) ++
        (List.range 256).map fun l ↦ toUpper (p.patrn.getD 0 0) ++ BitVec.ofNat 8 l
    else (List.range 256).map fun l ↦ p.casepatrn.getD 0 0 ++ BitVec.ofNat 8 l
  else
    if p.nocase then
      (List.range 4).map fun alphaCnt ↦ fragment16 (p.temp (patLen - 2) 2 alphaCnt)
    else [fragment16 fun k ↦ p.casepatrn.getD (patLen - 2 + k) 0]

end Pattern

/-! ## Filters and tables -/

/-- The direct filters that the search reads. -/
structure Filters where
  directFilter1 : BitFilter
  cDF0 : Byte → Bool
  cDF1 : BitFilter
  addDf4Plus : BitFilter
  addDf41 : BitFilter

/-- All filters are empty at first. -/
def Filters.empty : Filters := ⟨.empty, fun _ ↦ false, .empty, .empty, .empty⟩

def setAll (filter : BitFilter) (fragments : List (BitVec 16)) : BitFilter :=
  filter.insertAll (fragments.map BitVec.toNat)

/-- The body of the loop that sets up the filters. -/
def Filters.setup (df : Filters) (p : Pattern) : Filters where
  directFilter1 := setAll df.directFilter1 p.fragmentsDf1
  cDF0 := p.keys1.foldl (fun filter c ↦ Function.update filter c true) df.cDF0
  cDF1 := setAll df.cDF1 p.fragmentsCdf1
  addDf4Plus := setAll df.addDf4Plus p.fragmentsDf4Plus
  addDf41 := setAll df.addDf41 p.fragmentsDf41

/-- `DirectFilter` and `CompactTable` of a crowded entry. -/
structure Nested where
  directFilter : BitFilter
  compactTable : KeyedTable (BitVec 12) (BitVec 16) ℕ

/-- An entry of a compact table. -/
structure Entry (κ : Type) where
  pat : κ
  pid : List ℕ
  nested : Option Nested

abbrev recursiveBoundary : ℕ := 10

/-- What is added to a table if patterns are entered under some keys. -/
def enter {κ : Type} (keys : Pattern → List κ) (patterns : List Pattern) : List (κ × ℕ) :=
  patterns.flatMap fun p ↦ (keys p).map fun key ↦ (key, p.iid)

/-- What a crowded entry gets from the patterns in it, if fragments have `length` bytes. -/
def nest (length : ℕ) (plists : List Pattern) : Nested :=
  let longer := plists.filter fun p ↦ p.n ≠ length
  { directFilter := setAll .empty (longer.flatMap fun p ↦ p.keysNested (p.n - length))
    compactTable :=
      KeyedTable.addAll index2 (fun _ ↦ []) (enter (fun p ↦ p.keysNested (p.n - length)) longer) }

/-- Recursive filtering of an entry. -/
def filterEntry {κ : Type} (matchList : ℕ → Pattern) (length : ℕ) (entry : κ × List ℕ) : Entry κ :=
  let plists := entry.2.map matchList
  if recursiveBoundary ≤ entry.2.length then
    ⟨entry.1, (plists.filter fun p ↦ p.n = length).map Pattern.iid, some (nest length plists)⟩
  else ⟨entry.1, entry.2, none⟩

/-- A compiled structure. -/
structure Compiled where
  filters : Filters
  ct1 : Byte → List ℕ
  ct2 : BitVec 12 → List (Entry (BitVec 16))
  ct4 : BitVec 17 → List (Entry (BitVec 32))
  ct8 : BitVec 17 → List (Entry (BitVec 64))
  matchList : ℕ → Pattern

section Tables

variable (patterns : List Pattern)

/-- `dfcMatchList`. A place to which no pattern is written is not read. -/
def matchList : ℕ → Pattern :=
  patterns.foldl (fun list p ↦ Function.update list p.iid p) fun _ ↦ ⟨[], false, [], 0⟩

/-- The direct filters. -/
def filters : Filters := patterns.foldl Filters.setup .empty

/-- `CompactTable1`. -/
def table1 : Byte → List ℕ := pushAll (fun _ ↦ []) (enter Pattern.keys1 patterns)

/-- `CompactTable2` before recursive filtering. -/
def table2 : KeyedTable (BitVec 12) (BitVec 16) ℕ :=
  KeyedTable.addAll index2 (fun _ ↦ []) (enter Pattern.keys2 patterns)

/-- `CompactTable4` before recursive filtering. -/
def table4 : KeyedTable (BitVec 17) (BitVec 32) ℕ :=
  KeyedTable.addAll index4 (fun _ ↦ []) (enter Pattern.keys4 patterns)

/-- `CompactTable8` before recursive filtering. -/
def table8 : KeyedTable (BitVec 17) (BitVec 64) ℕ :=
  KeyedTable.addAll index8 (fun _ ↦ []) (enter Pattern.keys8 patterns)

/-- All that is computed from the patterns. -/
def build : Compiled where
  filters := filters patterns
  ct1 := table1 patterns
  ct2 := fun i ↦ (table2 patterns i).map (filterEntry (matchList patterns) 2)
  ct4 := fun i ↦ (table4 patterns i).map (filterEntry (matchList patterns) 4)
  ct8 := fun i ↦ (table8 patterns i).map (filterEntry (matchList patterns) 8)
  matchList := matchList patterns

end Tables

/-- All counters of a table can be passed to `DFC_REALLOC`, which takes 16 bits. -/
def TableFits {ι κ : Type} (table : KeyedTable ι κ ℕ) : Prop :=
  ∀ i, (table i).length < 2 ^ 16 ∧ ∀ entry ∈ table i, entry.2.length < 2 ^ 16

/-- The same for the tables of crowded entries. -/
def NestedFits {ι κ : Type} (table : ι → List (Entry κ)) : Prop :=
  ∀ i, ∀ entry ∈ table i, ∀ nested ∈ entry.nested, TableFits nested.compactTable

/-- No array is overrun. `CT_Type_1` has place for 100 internal ids. -/
def Fits (patterns : List Pattern) : Prop :=
  (∀ c, (table1 patterns c).length ≤ 100) ∧ TableFits (table2 patterns) ∧
    TableFits (table4 patterns) ∧ TableFits (table8 patterns) ∧
    NestedFits (build patterns).ct2 ∧ NestedFits (build patterns).ct4 ∧
    NestedFits (build patterns).ct8

instance {ι κ : Type} [Fintype ι] (table : KeyedTable ι κ ℕ) : Decidable (TableFits table) :=
  inferInstanceAs (Decidable (∀ i, _ ∧ ∀ entry ∈ table i, _))

instance {ι κ : Type} [Fintype ι] (table : ι → List (Entry κ)) : Decidable (NestedFits table) :=
  inferInstanceAs (Decidable (∀ i, ∀ entry ∈ table i, ∀ nested ∈ entry.nested, _))

instance (patterns : List Pattern) : Decidable (Fits patterns) :=
  inferInstanceAs (Decidable (_ ∧ _))

/-- `DFC_Compile`. A write behind the end of an array is a fault. -/
def compile (dfc : Structure) : Option Compiled :=
  if Fits dfc.patterns then some (build dfc.patterns) else none

/-! ## Fragments that patterns accept -/

theorem toNat_toLower (c : Byte) :
    (toLower c).toNat = if 65 ≤ c.toNat ∧ c.toNat ≤ 90 then c.toNat + 32 else c.toNat := by
  have hc := c.isLt
  have hoffset : (32 : Byte).toNat = 32 := rfl
  rw [toLower]
  split_ifs
  · rw [BitVec.toNat_add, hoffset]
    omega
  · rfl

theorem toNat_toUpper (c : Byte) :
    (toUpper c).toNat = if 97 ≤ c.toNat ∧ c.toNat ≤ 122 then c.toNat - 32 else c.toNat := by
  have hc := c.isLt
  have hoffset : (32 : Byte).toNat = 32 := rfl
  rw [toUpper]
  split_ifs
  · rw [BitVec.toNat_sub, hoffset]
    omega
  · rfl

theorem toUpper_eq_of_toLower_eq {c d : Byte} (h : toLower c = toLower d) :
    toUpper c = toUpper d := by
  have h' := congrArg BitVec.toNat h
  apply BitVec.eq_of_toNat_eq
  rw [toNat_toLower, toNat_toLower] at h'
  rw [toNat_toUpper, toNat_toUpper]
  split_ifs at h' ⊢ <;> omega

/-- The spellings of a letter, from its upper case. -/
theorem toLower_eq_iff (c d : Byte) :
    toLower c = toLower d ↔ toLower (toUpper d) = c ∨ toUpper (toUpper d) = c := by
  simp only [← BitVec.toNat_inj, toNat_toLower, toNat_toUpper]
  split_ifs <;> omega

/-- The spellings of a letter, from one of them. -/
theorem eq_or_eq_other_case_iff (c d : Byte) :
    (c = d ∨ c = if 97 ≤ d.toNat ∧ d.toNat ≤ 122 then toUpper d else toLower d) ↔
      toLower c = toLower d := by
  split_ifs with hlower
  · simp only [← BitVec.toNat_inj, toNat_toLower, toNat_toUpper]
    split_ifs <;> omega
  · simp only [← BitVec.toNat_inj, toNat_toLower]
    split_ifs <;> omega

/-- The spellings of a byte that is no letter. -/
theorem toLower_eq_iff_of_not_letter {c d : Byte}
    (h : ¬ (65 ≤ (toUpper d).toNat ∧ (toUpper d).toNat ≤ 90 ∨
      97 ≤ (toUpper d).toNat ∧ (toUpper d).toNat ≤ 122)) :
    toLower c = toLower d ↔ toUpper d = c := by
  simp only [← BitVec.toNat_inj, toNat_toLower, toNat_toUpper] at h ⊢
  split_ifs at h ⊢ <;> omega

namespace Pattern

variable (p : Pattern) (j : ℕ) (c : Byte)

/-- A byte that can stand at a place of the pattern. -/
def Accepts : Prop :=
  if p.nocase then toLower c = toLower (p.casepatrn.getD j 0) else c = p.casepatrn.getD j 0

instance : Decidable (p.Accepts j c) :=
  inferInstanceAs (Decidable (if p.nocase then _ else _))

theorem patrn_getD : p.patrn.getD j 0 = toUpper (p.casepatrn.getD j 0) :=
  List.getD_map (f := toUpper) (d := 0) ..

/-- The spellings of a byte are the bytes that are accepted. -/
theorem exists_buildPattern : (∃ flag, p.buildPattern flag j = c) ↔ p.Accepts j c := by
  rw [Bool.exists_bool]
  unfold buildPattern Accepts
  rw [patrn_getD]
  by_cases hnocase : p.nocase
  · simp only [if_pos hnocase]
    by_cases hletter : 65 ≤ (toUpper (p.casepatrn.getD j 0)).toNat ∧
        (toUpper (p.casepatrn.getD j 0)).toNat ≤ 90 ∨
      97 ≤ (toUpper (p.casepatrn.getD j 0)).toNat ∧ (toUpper (p.casepatrn.getD j 0)).toNat ≤ 122
    · rw [if_pos hletter, if_pos hletter, toLower_eq_iff]
      exact Iff.rfl
    · rw [if_neg hletter, if_neg hletter, or_self, toLower_eq_iff_of_not_letter hletter]
  · rw [if_neg hnocase, if_neg hnocase, if_neg hnocase, or_self]
    exact eq_comm

variable {p} {c}

/-- The passes of a loop over `alpha_cnt` build all fragments that are accepted. -/
theorem exists_temp (w : ℕ) (bytes : ℕ → Byte) :
    (∃ alphaCnt ∈ List.range (2 ^ w), ∀ k < w, p.temp j w alphaCnt k = bytes k) ↔
      ∀ k < w, p.Accepts (j + k) (bytes k) := by
  constructor
  · rintro ⟨alphaCnt, -, htemp⟩ k hk
    exact (p.exists_buildPattern (j + k) (bytes k)).mp ⟨_, htemp k hk⟩
  · intro haccepts
    have hflag (k : Fin w) : ∃ flag, p.buildPattern flag (j + k) = bytes k :=
      (p.exists_buildPattern (j + k) (bytes k)).mpr (haccepts k k.isLt)
    choose flag hflag using hflag
    refine ⟨Nat.ofBits fun k : Fin w ↦ flag k.rev, List.mem_range.mpr (Nat.ofBits_lt_two_pow _),
      fun k hk ↦ ?_⟩
    have hrev : w - 1 - k < w := by omega
    have hback : (⟨w - 1 - k, hrev⟩ : Fin w).rev = ⟨k, hk⟩ := by
      apply Fin.ext
      change w - (w - 1 - k + 1) = k
      omega
    rw [temp, Nat.testBit_ofBits_lt _ _ hrev, hback]
    exact hflag ⟨k, hk⟩

end Pattern

theorem append_inj {m n : ℕ} {x x' : BitVec m} {y y' : BitVec n} :
    x ++ y = x' ++ y' ↔ x = x' ∧ y = y' := by
  constructor
  · intro h
    constructor
    · simpa only [BitVec.extractLsb'_append_eq_left] using congrArg (BitVec.extractLsb' n m) h
    · simpa only [BitVec.extractLsb'_append_eq_right] using congrArg (BitVec.extractLsb' 0 n) h
  · rintro ⟨rfl, rfl⟩
    rfl

theorem fragment16_inj {bytes bytes' : ℕ → Byte} :
    fragment16 bytes = fragment16 bytes' ↔ ∀ k < 2, bytes k = bytes' k := by
  rw [fragment16, fragment16, append_inj]
  simp only [Nat.forall_lt_succ_right, Nat.not_lt_zero, false_implies, implies_true, true_and]
  exact and_comm

theorem fragment32_inj {bytes bytes' : ℕ → Byte} :
    fragment32 bytes = fragment32 bytes' ↔ ∀ k < 4, bytes k = bytes' k := by
  rw [fragment32, fragment32, append_inj, append_inj, append_inj]
  simp only [Nat.forall_lt_succ_right, Nat.not_lt_zero, false_implies, implies_true, true_and]
  tauto

theorem fragment64_congr {bytes bytes' : ℕ → Byte} (h : ∀ k < 8, bytes k = bytes' k) :
    fragment64 bytes = fragment64 bytes' := by
  simp only [fragment64, h _ (by decide : 0 < 8), h _ (by decide : 1 < 8), h _ (by decide : 2 < 8),
    h _ (by decide : 3 < 8), h _ (by decide : 4 < 8), h _ (by decide : 5 < 8),
    h _ (by decide : 6 < 8), h _ (by decide : 7 < 8)]

namespace Pattern

variable {p : Pattern}

theorem fragment16_mem_map (j : ℕ) (bytes : ℕ → Byte) :
    fragment16 bytes ∈ (List.range 4).map (fun alphaCnt ↦ fragment16 (p.temp j 2 alphaCnt)) ↔
      ∀ k < 2, p.Accepts (j + k) (bytes k) := by
  rw [← p.exists_temp j 2, List.mem_map]
  simp only [fragment16_inj]
  rfl

theorem fragment32_mem_map (j : ℕ) (bytes : ℕ → Byte) :
    fragment32 bytes ∈ (List.range 16).map (fun alphaCnt ↦ fragment32 (p.temp j 4 alphaCnt)) ↔
      ∀ k < 4, p.Accepts (j + k) (bytes k) := by
  rw [← p.exists_temp j 4, List.mem_map]
  simp only [fragment32_inj]
  rfl

theorem mem_letters_iff {c : Byte} : c ∈ p.letters ↔ p.Accepts 0 c := by
  rw [letters, Accepts]
  by_cases hnocase : p.nocase
  · rw [if_pos hnocase, if_pos hnocase, ← eq_or_eq_other_case_iff, List.mem_cons,
      List.mem_singleton]
  · rw [if_neg hnocase, if_neg hnocase, List.mem_singleton]

theorem mem_keys1_iff {c : Byte} : c ∈ p.keys1 ↔ p.n = 1 ∧ p.Accepts 0 c := by
  rw [keys1]
  split_ifs with hn
  · simp [hn, mem_letters_iff]
  · simp [hn]

theorem mem_keys2_iff (bytes : ℕ → Byte) :
    fragment16 bytes ∈ p.keys2 ↔
      (p.n = 2 ∨ p.n = 3) ∧ ∀ k < 2, p.Accepts (p.n - 2 + k) (bytes k) := by
  rw [keys2]
  split_ifs with hn
  · rw [fragment16_mem_map, and_iff_right hn]
  · simp [hn]

theorem mem_keys4_iff (bytes : ℕ → Byte) :
    fragment32 bytes ∈ p.keys4 ↔
      (4 ≤ p.n ∧ p.n < 8) ∧ ∀ k < 4, p.Accepts (p.n - 4 + k) (bytes k) := by
  rw [keys4]
  split_ifs with hn
  · rw [fragment32_mem_map, and_iff_right hn]
  · simp [hn]

/-- The search spells the last eight bytes in upper case. -/
theorem mem_keys8 {bytes : ℕ → Byte} (hn : 8 ≤ p.n)
    (h : ∀ k < 8, p.Accepts (p.position + k) (bytes k)) :
    fragment64 (fun k ↦ toUpper (bytes k)) ∈ p.keys8 := by
  rw [keys8, if_pos hn]
  refine List.mem_map.mpr ⟨0, List.mem_range.mpr (by decide), fragment64_congr fun k hk ↦ ?_⟩
  have hbyte := h k hk
  rw [patrn_getD]
  rw [Accepts] at hbyte
  split_ifs at hbyte
  · exact (toUpper_eq_of_toLower_eq hbyte).symm
  · rw [hbyte]

theorem le_of_mem_keys8 {key : BitVec 64} (h : key ∈ p.keys8) : 8 ≤ p.n := by
  rw [keys8] at h
  split_ifs at h with hn
  · exact hn
  · exact absurd h List.not_mem_nil

theorem mem_fragmentsDf1_of_one {bytes : ℕ → Byte} (hn : p.n = 1) (h : p.Accepts 0 (bytes 0)) :
    fragment16 bytes ∈ p.fragmentsDf1 := by
  rw [fragmentsDf1, if_pos hn]
  refine List.mem_flatMap.mpr ⟨bytes 0, mem_letters_iff.mpr h, List.mem_map.mpr ?_⟩
  refine ⟨(bytes 1).toNat, List.mem_range.mpr (bytes 1).isLt, ?_⟩
  rw [BitVec.ofNat_toNat, BitVec.setWidth_eq, fragment16]

theorem mem_fragmentsDf1 {bytes : ℕ → Byte} (hn : 1 < p.n)
    (h : ∀ k < 2, p.Accepts (p.position + k) (bytes k)) : fragment16 bytes ∈ p.fragmentsDf1 := by
  rw [fragmentsDf1, if_neg (by omega), if_pos hn]
  exact (fragment16_mem_map _ _).mpr h

theorem mem_fragmentsDf4Plus {bytes : ℕ → Byte} (hn : 4 ≤ p.n)
    (h : ∀ k < 4, p.Accepts (p.position + k) (bytes k)) :
    (fragment16 fun k ↦ bytes (k + 2)) ∈ p.fragmentsDf4Plus := by
  obtain ⟨alphaCnt, hrange, htemp⟩ := (p.exists_temp p.position 4 bytes).mpr h
  rw [fragmentsDf4Plus, if_pos hn]
  refine List.mem_map.mpr ⟨alphaCnt, hrange, fragment16_inj.mpr fun k hk ↦ ?_⟩
  exact htemp (k + 2) (by omega)

theorem append_mem_map_iff {high high' low : Byte} :
    high ++ low ∈ (List.range 256).map (fun l ↦ high' ++ BitVec.ofNat 8 l) ↔ high' = high := by
  constructor
  · intro h
    obtain ⟨l, -, heq⟩ := List.mem_map.mp h
    exact (append_inj.mp heq).1
  · rintro rfl
    refine List.mem_map.mpr ⟨low.toNat, List.mem_range.mpr low.isLt, ?_⟩
    rw [BitVec.ofNat_toNat, BitVec.setWidth_eq]

/-- The two bytes in front of a fragment lead to the patterns that accept them. A pattern with one
byte in front of its fragment accepts any byte before that. -/
theorem mem_keysNested_iff (patLen : ℕ) (bytes : ℕ → Byte) :
    fragment16 bytes ∈ p.keysNested patLen ↔
      if patLen = 1 then p.Accepts 0 (bytes 1)
      else ∀ k < 2, p.Accepts (patLen - 2 + k) (bytes k) := by
  rw [keysNested]
  split_ifs with hone hnocase hnocase
  · rw [fragment16, List.mem_append, append_mem_map_iff, append_mem_map_iff, patrn_getD, Accepts,
      if_pos hnocase, toLower_eq_iff]
  · rw [fragment16, append_mem_map_iff, Accepts, if_neg hnocase, eq_comm]
  · exact fragment16_mem_map _ _
  · rw [List.mem_singleton, fragment16_inj]
    simp only [Accepts, if_neg hnocase]

end Pattern

end Systemish.Hyperscan.Dfc
