import Systemish.Foundation.Bytes
import Systemish.Foundation.OrderedMap

/-!
# The Masstree index

`MtIndex` keeps 64-bit values under 64-bit keys in a Masstree. A key is byte-swapped
before its bytes are taken. Masstree itself is not part of the repository: it is a
parameter, and the results assume of it that it is a map on byte strings with scans in
lexicographic order. The machine is little-endian. Time stamps and reclamation are left
out: they do not come back to the caller.
-/

namespace Systemish.Masstree

open Foundation

abbrev Byte := Fin 256

/-- `size_t`. -/
abbrev Size := Fin (2 ^ 64)

/-! ## The index -/

/-- The bytes of a `size_t` in memory. -/
def memoryBytes (x : Size) : List Byte := littleEndian 256 8 x

/-- `*reinterpret_cast<const size_t *>(bytes)`. -/
def readSize (bytes : List Byte) : Size := Fin.ofNat _ (littleEndianValue bytes)

/-- `__bswap_64`. -/
def swapEndian (x : Size) : Size := readSize (memoryBytes x).reverse

/-- `Str key_str`, with the key swapped. -/
def keyStr (key : Size) : List Byte := memoryBytes (swapEndian key)

/-- A row with one column. -/
structure Row where
  col0 : List Byte

/-- `scanner_t`. -/
structure Scanner where
  range : Size
  rangeSum : Size

def Scanner.visitValue (scanner : Scanner) (row : Row) : Scanner × Bool :=
  let value := readSize row.col0
  let scanner := ⟨scanner.range - 1, scanner.rangeSum + value⟩
  (scanner, 0 < scanner.range)

/-- Masstree, with tables in `τ` and scans by `scanner_t`. -/
abbrev DefaultTable (τ : Type) := Table τ (List Byte) Row Scanner

/-- The index, with its `table_`. -/
structure MtIndex (τ : Type) where
  table : τ

variable {τ : Type} (masstree : DefaultTable τ)

namespace MtIndex

def setup : MtIndex τ := ⟨masstree.empty⟩

def put (index : MtIndex τ) (key value : Size) : MtIndex τ :=
  ⟨masstree.insert index.table (keyStr key) ⟨memoryBytes value⟩⟩

/-- `value` is what the caller's variable holds before the call. -/
def get (index : MtIndex τ) (key value : Size) : Bool × Size :=
  match masstree.find index.table (keyStr key) with
  | some row => (true, readSize row.col0)
  | none => (false, value)

def sumInRange (index : MtIndex τ) (curKey range : Size) : Size :=
  if range = 0 then 0
  else (masstree.scan index.table (keyStr curKey) Scanner.visitValue ⟨range, 0⟩).rangeSum

end MtIndex

/-! ## Calls -/

inductive Call where
  | put (key value : Size)
  | get (key value : Size)
  | sumInRange (key range : Size)

inductive Answer where
  | done
  | found (found : Bool) (value : Size)
  | sum (sum : Size)
deriving DecidableEq

/-- The index after a call. -/
def MtIndex.after (index : MtIndex τ) : Call → MtIndex τ
  | .put key value => index.put masstree key value
  | .get _ _ => index
  | .sumInRange _ _ => index

def MtIndex.answer (index : MtIndex τ) : Call → Answer
  | .put _ _ => .done
  | .get key value => .found (index.get masstree key value).1 (index.get masstree key value).2
  | .sumInRange key range => .sum (index.sumInRange masstree key range)

/-- The answers to a sequence of calls. -/
def MtIndex.answers (index : MtIndex τ) : List Call → List Answer
  | [] => []
  | call :: calls => index.answer masstree call :: (index.after masstree call).answers calls

/-! ## What is meant

The meaning of a call depends on the calls in front of it. -/

/-- The value that a call puts under a key. -/
def Call.putValue (key : Size) : Call → Option Size
  | .put other value => if key = other then some value else none
  | .get _ _ => none
  | .sumInRange _ _ => none

def Call.putKey : Call → Option Size
  | .put key _ => some key
  | .get _ _ => none
  | .sumInRange _ _ => none

/-- The value of the latest put of a key. -/
def latest (history : List Call) (key : Size) : Option Size :=
  history.reverse.findSome? (Call.putValue key)

def storedKeys (history : List Call) : Finset Size := (history.filterMap Call.putKey).toFinset

/-- The `count` smallest stored keys that are at least `first`. -/
def smallestFrom (history : List Call) (first : Size) (count : ℕ) : List Size :=
  (((storedKeys history).filter (first ≤ ·)).sort (· ≤ ·)).take count

/-- What a call is to answer. -/
def meant (history : List Call) : Call → Answer
  | .put _ _ => .done
  | .get key value =>
    match latest history key with
    | some value => .found true value
    | none => .found false value
  | .sumInRange key range =>
    .sum ((smallestFrom history key range).map fun key ↦ (latest history key).getD 0).sum

def meantAnswers (history : List Call) : List Call → List Answer
  | [] => []
  | call :: calls => meant history call :: meantAnswers (history ++ [call]) calls

/-! ## Keys and values as bytes -/

theorem littleEndianValue_memoryBytes (x : Size) : littleEndianValue (memoryBytes x) = x :=
  littleEndianValue_littleEndian x.isLt

@[simp]
theorem readSize_memoryBytes (x : Size) : readSize (memoryBytes x) = x := by
  rw [readSize, littleEndianValue_memoryBytes]
  exact Fin.ofNat_val_eq_self x

/-- The bytes of the swapped key are those of the key from the other end. -/
theorem keyStr_eq (key : Size) : keyStr key = (memoryBytes key).reverse := by
  have hlength : (memoryBytes key).reverse.length = 8 := by
    rw [List.length_reverse, memoryBytes, littleEndian_length]
  have hlt : littleEndianValue (memoryBytes key).reverse < 2 ^ 64 := by
    have hvalue := littleEndianValue_lt (memoryBytes key).reverse
    rwa [hlength] at hvalue
  have hdigits := littleEndian_littleEndianValue (memoryBytes key).reverse
  rw [hlength] at hdigits
  rw [keyStr, swapEndian, readSize, memoryBytes, Fin.val_ofNat, Nat.mod_eq_of_lt hlt, hdigits]

/-- The keys of the tree are in the order of the numbers. -/
theorem keyStr_strictMono : StrictMono keyStr := by
  intro key key' hlt
  have hlength : (memoryBytes key).reverse.length = (memoryBytes key').reverse.length := by
    simp [memoryBytes]
  rw [keyStr_eq, keyStr_eq, lt_iff_littleEndianValue_reverse_lt hlength, List.reverse_reverse,
    List.reverse_reverse, littleEndianValue_memoryBytes, littleEndianValue_memoryBytes]
  exact hlt

/-! ## Histories -/

theorem latest_concat (history : List Call) (call : Call) (key : Size) :
    latest (history ++ [call]) key = (call.putValue key).or (latest history key) := by
  rw [latest, List.reverse_append, List.reverse_singleton, List.singleton_append,
    List.findSome?_cons, latest]
  cases call.putValue key with
  | none => rfl
  | some value => rfl

theorem mem_storedKeys_iff {history : List Call} {key : Size} :
    key ∈ storedKeys history ↔ (latest history key).isSome := by
  have hcall (call : Call) : call.putKey = some key ↔ (call.putValue key).isSome := by
    cases call with
    | put other value =>
      by_cases hkey : key = other
      · simp [Call.putKey, Call.putValue, hkey]
      · simp [Call.putKey, Call.putValue, hkey, Ne.symm hkey]
    | get other value => simp [Call.putKey, Call.putValue]
    | sumInRange other range => simp [Call.putKey, Call.putValue]
  rw [storedKeys, List.mem_toFinset, List.mem_filterMap, latest, List.findSome?_isSome_iff]
  simp only [hcall, List.mem_reverse]

/-! ## The index refines a map of numbers -/

/-- The row that `put` creates. -/
def Row.ofValue (value : Size) : Row := ⟨memoryBytes value⟩

theorem Row.readSize_ofValue (value : Size) : readSize (Row.ofValue value).col0 = value :=
  readSize_memoryBytes value

/-- The tree holds the latest values under the stored keys, all of them as bytes, and nothing
else. -/
structure Represents (history : List Call) (index : MtIndex τ) : Prop where
  find_keyStr : ∀ key, masstree.find index.table (keyStr key) =
    (latest history key).map Row.ofValue
  exists_key : ∀ bytes row, masstree.find index.table bytes = some row → ∃ key, bytes = keyStr key

section OrderedMap

variable {masstree} (hmasstree : masstree.IsOrderedMap)

include hmasstree

theorem represents_setup : Represents masstree [] (MtIndex.setup masstree) where
  find_keyStr key := hmasstree.find_empty (keyStr key)
  exists_key bytes row h := absurd ((hmasstree.find_empty bytes).symm.trans h) (by simp)

variable {history : List Call} {index : MtIndex τ}

theorem Represents.after (h : Represents masstree history index) (call : Call) :
    Represents masstree (history ++ [call]) (index.after masstree call) := by
  cases call with
  | put key value =>
    refine ⟨fun other ↦ ?_, fun bytes row hfind ↦ ?_⟩
    · rw [MtIndex.after, MtIndex.put, hmasstree.find_insert, h.find_keyStr, latest_concat,
        Call.putValue]
      simp only [keyStr_strictMono.injective.eq_iff]
      split
      · rfl
      · rfl
    · rw [MtIndex.after, MtIndex.put, hmasstree.find_insert] at hfind
      split at hfind
      · next heq => exact ⟨key, heq⟩
      · exact h.exists_key bytes row hfind
  | get key value =>
    refine ⟨fun other ↦ ?_, h.exists_key⟩
    rw [latest_concat]
    exact h.find_keyStr other
  | sumInRange key range =>
    refine ⟨fun other ↦ ?_, h.exists_key⟩
    rw [latest_concat]
    exact h.find_keyStr other

omit hmasstree in
theorem Represents.get_eq (h : Represents masstree history index) (key value : Size) :
    index.get masstree key value =
      ((latest history key).isSome, (latest history key).getD value) := by
  rw [MtIndex.get, h.find_keyStr]
  cases latest history key with
  | none => rfl
  | some value => simp [Row.readSize_ofValue]

omit hmasstree in
/-- The scanner adds the values of the next `range` entries. -/
theorem scanEntries_visitValue (entries : List (List Byte × Row)) {range : Size} (h : 0 < range)
    (sum : Size) :
    (scanEntries Scanner.visitValue ⟨range, sum⟩ entries).rangeSum =
      sum + ((entries.take range).map fun entry ↦ readSize entry.2.col0).sum := by
  induction entries generalizing range sum with
  | nil => simp [scanEntries]
  | cons entry entries ih =>
    have hval : range.val = (range - 1).val + 1 := by
      have hpos : 0 < range.val := h
      rw [Fin.val_sub_one_of_ne_zero (ne_of_gt h)]
      omega
    have hvisit : Scanner.visitValue ⟨range, sum⟩ entry.2 =
        (⟨range - 1, sum + readSize entry.2.col0⟩, decide (0 < range - 1)) := rfl
    rw [scanEntries, hvisit, hval, List.take_succ_cons, List.map_cons, List.sum_cons, ← add_assoc]
    by_cases hgo : 0 < range - 1
    · rw [if_pos (decide_eq_true hgo), ih hgo]
    · have hlast : (range - 1).val = 0 := Nat.eq_zero_of_not_pos hgo
      rw [if_neg (by simpa using hgo), hlast, List.take_zero, List.map_nil, List.sum_nil, add_zero]

/-- The stored keys from a key on, with their values, as a scan comes to them. -/
def entriesFrom (history : List Call) (first : Size) : List (List Byte × Row) :=
  (((storedKeys history).filter (first ≤ ·)).sort (· ≤ ·)).map fun key ↦
    (keyStr key, Row.ofValue ((latest history key).getD 0))

omit hmasstree in
theorem ascending_entriesFrom (history : List Call) (first : Size) :
    Ascending (entriesFrom history first) :=
  List.pairwise_map.mpr ((Finset.sortedLT_sort _).pairwise.imp fun hlt ↦ keyStr_strictMono hlt)

omit hmasstree in
theorem Represents.mem_entriesFrom_iff (h : Represents masstree history index) (first : Size)
    (bytes : List Byte) (row : Row) :
    (bytes, row) ∈ entriesFrom history first ↔
      keyStr first ≤ bytes ∧ masstree.find index.table bytes = some row := by
  simp only [entriesFrom, List.mem_map, Finset.mem_sort, Finset.mem_filter, mem_storedKeys_iff,
    Prod.mk.injEq]
  constructor
  · rintro ⟨key, ⟨hstored, hle⟩, rfl, rfl⟩
    obtain ⟨value, hvalue⟩ := Option.isSome_iff_exists.mp hstored
    refine ⟨keyStr_strictMono.le_iff_le.mpr hle, ?_⟩
    rw [h.find_keyStr, hvalue]
    rfl
  · rintro ⟨hle, hfind⟩
    obtain ⟨key, rfl⟩ := h.exists_key bytes row hfind
    rw [h.find_keyStr] at hfind
    obtain ⟨value, hvalue, rfl⟩ := Option.map_eq_some_iff.mp hfind
    refine ⟨key, ⟨?_, keyStr_strictMono.le_iff_le.mp hle⟩, rfl, ?_⟩
    · rw [hvalue]
      rfl
    · rw [hvalue]
      rfl

theorem Represents.sumInRange_eq (h : Represents masstree history index) (key range : Size) :
    index.sumInRange masstree key range =
      ((smallestFrom history key range).map fun key ↦ (latest history key).getD 0).sum := by
  rw [MtIndex.sumInRange]
  by_cases hrange : range = 0
  · rw [if_pos hrange, hrange]
    rfl
  · obtain ⟨entries, hascending, hmem, hscan⟩ :=
      hmasstree.scan_ascending index.table (keyStr key)
    have hentries : entries = entriesFrom history key :=
      hascending.eq (ascending_entriesFrom history key) fun (bytes, row) ↦
        (hmem bytes row).trans (h.mem_entriesFrom_iff key bytes row).symm
    rw [if_neg hrange, hscan, hentries,
      scanEntries_visitValue _ (Fin.pos_iff_ne_zero.mpr hrange), zero_add, entriesFrom,
      ← List.map_take, List.map_map, smallestFrom]
    simp only [Function.comp_def, Row.readSize_ofValue]

theorem Represents.answer_eq (h : Represents masstree history index) (call : Call) :
    index.answer masstree call = meant history call := by
  cases call with
  | put key value => rfl
  | get key value =>
    rw [MtIndex.answer, meant, h.get_eq]
    cases latest history key with
    | none => rfl
    | some value => rfl
  | sumInRange key range => rw [MtIndex.answer, meant, h.sumInRange_eq hmasstree]

theorem Represents.answers_eq (h : Represents masstree history index) (calls : List Call) :
    index.answers masstree calls = meantAnswers history calls := by
  induction calls generalizing history index with
  | nil => rfl
  | cons call calls ih =>
    rw [MtIndex.answers, meantAnswers, h.answer_eq hmasstree, ih (h.after hmasstree call)]

end OrderedMap

/-- With a Masstree that is an ordered map on byte strings, every call to an index after `setup` is
answered as it is meant: `get` gives the value of the latest `put` of the key, and `sumInRange` the
sum of the values of the next keys. -/
theorem answers_eq_meantAnswers (hmasstree : masstree.IsOrderedMap) (calls : List Call) :
    (MtIndex.setup masstree).answers masstree calls = meantAnswers [] calls :=
  (represents_setup hmasstree).answers_eq hmasstree calls

/-- Two keys, one of them put twice, on the list of the entries. -/
theorem answers_on_entries :
    let calls : List Call := [.put 256 7, .put 1 5, .put 256 9, .get 256 0, .sumInRange 1 2]
    (MtIndex.setup OrderedMap.table).answers OrderedMap.table calls = meantAnswers [] calls ∧
      (MtIndex.setup OrderedMap.table).answers OrderedMap.table calls =
        [.done, .done, .done, .found true 9, .sum 14] :=
  ⟨answers_eq_meantAnswers OrderedMap.table OrderedMap.isOrderedMap_table _, by decide⟩

end Systemish.Masstree
