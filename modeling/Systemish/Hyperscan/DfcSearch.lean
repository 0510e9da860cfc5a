import Systemish.Hyperscan.DfcTables

/-!
# Searching with a compiled DFC structure

`DFC_Search` of `dfc.c`, as the list of its calls of `Match`. The payload lies in memory from
address zero on, and it has bytes in front of it: the code for crowded entries reads the two bytes
before a fragment, whether they belong to the payload or not.
-/

namespace Systemish.Hyperscan.Dfc

open Foundation

/-! ## The search -/

/-- `*(uint16_t*)address`. -/
def load16 (mem : ℤ → Byte) (address : ℤ) : BitVec 16 := fragment16 fun k ↦ mem (address + k)

/-- Whether `my_strncmp` gives zero. -/
def myStrncmp (a b : ℕ → Byte) (n : ℕ) : Bool := (List.range n).all fun i ↦ a i = b i

/-- Whether `my_strncasecmp` gives zero. -/
def myStrncasecmp (a b : ℕ → Byte) (n : ℕ) : Bool :=
  (List.range n).all fun i ↦ toLower (a i) = toLower (b i)

/-- Compare the first `n` bytes of a pattern with memory. -/
def Pattern.same (p : Pattern) (mem : ℤ → Byte) (address : ℤ) (n : ℕ) : Bool :=
  if p.nocase then myStrncasecmp (fun i ↦ mem (address + i)) (fun i ↦ p.casepatrn.getD i 0) n
  else myStrncmp (fun i ↦ mem (address + i)) (fun i ↦ p.casepatrn.getD i 0) n

/-- The internal ids under two bytes in a crowded entry. -/
def Nested.pids (nested : Nested) (data : BitVec 16) : List ℕ :=
  if nested.directFilter.test data.toNat then KeyedTable.under index2 nested.compactTable data
  else []

/-- Look up a fragment. Patterns of a plain entry, patterns of a crowded entry that have no further
bytes, and patterns under the two bytes in front of the fragment are checked in different ways. -/
def verification {κ : Type} [DecidableEq κ] (matchList : ℕ → Pattern) (bucket : List (Entry κ))
    (fragment : κ) (data : BitVec 16) (plain crowded nested : Pattern → Bool) : List Pattern :=
  match bucket.find? fun entry ↦ entry.pat = fragment with
  | none => []
  | some entry =>
    match entry.nested with
    | none => (entry.pid.map matchList).filter plain
    | some table =>
      (entry.pid.map matchList).filter crowded ++ ((table.pids data).map matchList).filter nested

namespace Compiled

variable (dfc : Compiled) (mem : ℤ → Byte) (buf : ℤ)

/-- `Verification_CT1`. -/
def verificationCt1 : List Pattern := (dfc.ct1 (mem (buf - 2))).map dfc.matchList

/-- `Verification_CT2`. -/
def verificationCt2 : List Pattern :=
  let fragment := load16 mem (buf - 2)
  verification dfc.matchList (dfc.ct2 (index2 fragment)) fragment (load16 mem (buf - 4))
    (fun mlist ↦ mlist.n ≤ buf ∧ mlist.same mem (buf - mlist.n) (mlist.n - 2))
    (fun _ ↦ true) fun _ ↦ true

/-- `Verification_CT4_7`. -/
def verificationCt47 : List Pattern :=
  let fragment := fragment32 fun k ↦ mem (buf - 2 + k)
  verification dfc.matchList (dfc.ct4 (index4 fragment)) fragment (load16 mem (buf - 4))
    (fun mlist ↦ mlist.n - 2 ≤ buf ∧ mlist.same mem (buf - (mlist.n - 2)) (mlist.n - 4))
    (fun _ ↦ true) fun mlist ↦ mlist.same mem (buf - (mlist.n - 2)) (mlist.n - 6)

/-- `Verification_CT8_plus`. -/
def verificationCt8Plus : List Pattern :=
  let fragment := fragment64 fun k ↦ toUpper (mem (buf - 2 + k))
  verification dfc.matchList (dfc.ct8 (index8 fragment)) fragment (load16 mem (buf - 4))
    (fun mlist ↦ mlist.position + 2 ≤ buf ∧ mlist.same mem (buf - (mlist.position + 2)) mlist.n)
    (fun mlist ↦ mlist.same mem (buf - (mlist.position + 2)) mlist.n)
    fun mlist ↦ mlist.position + 2 ≤ buf ∧ mlist.same mem (buf - (mlist.position + 2)) mlist.n

/-- `Progressive_Filtering`. -/
def progressiveFiltering (data : BitVec 16) (restLen : ℕ) : List Pattern :=
  (if dfc.filters.cDF0 (mem (buf - 2)) then dfc.verificationCt1 mem buf else []) ++
  (if dfc.filters.cDF1.test data.toNat then dfc.verificationCt2 mem buf else []) ++
  (if 4 ≤ restLen then
    let data := load16 mem buf
    if dfc.filters.addDf4Plus.test data.toNat then
      (if dfc.filters.addDf41.test data.toNat then dfc.verificationCt47 mem buf else []) ++
      (if 8 ≤ restLen then dfc.verificationCt8Plus mem buf else [])
    else []
  else [])

/-- `DFC_Search`. It returns the number of matches. -/
def search (buflen : ℕ) : List Pattern :=
  if buflen = 0 then []
  else
    ((List.range (buflen - 1)).flatMap fun i : ℕ ↦
      let data := load16 mem i
      if dfc.filters.directFilter1.test data.toNat then
        dfc.progressiveFiltering mem (i + 2) data (buflen - i)
      else []) ++
    (if dfc.filters.cDF0 (mem (buflen - 1)) then
      (dfc.ct1 (mem (buflen - 1))).map dfc.matchList
    else [])

end Compiled

/-! ## Looking up a fragment -/

theorem Pattern.same_iff (p : Pattern) (mem : ℤ → Byte) (address : ℤ) (n : ℕ) :
    p.same mem address n ↔ ∀ i < n, p.Accepts i (mem (address + i)) := by
  unfold same Accepts myStrncmp myStrncasecmp
  split_ifs <;> simp

theorem filterEntry_pat {κ : Type} (matchList : ℕ → Pattern) (length : ℕ) (entry : κ × List ℕ) :
    (filterEntry matchList length entry).pat = entry.1 := by
  rw [filterEntry]
  split_ifs <;> rfl

/-- What is reported, from the internal ids under the fragment. -/
theorem verification_map {κ : Type} [DecidableEq κ] (matchList : ℕ → Pattern) (length : ℕ)
    (entries : KeyedLists κ ℕ) (fragment : κ) (data : BitVec 16)
    (plain crowded nested : Pattern → Bool) :
    verification matchList (entries.map (filterEntry matchList length)) fragment data plain crowded
        nested =
      if recursiveBoundary ≤ (entries.under fragment).length then
        (((((entries.under fragment).map matchList).filter fun p ↦ p.n = length).map
          Pattern.iid).map matchList).filter crowded ++
        (((nest length ((entries.under fragment).map matchList)).pids data).map matchList).filter
          nested
      else ((entries.under fragment).map matchList).filter plain := by
  have hpat : ((fun entry : Entry κ ↦ decide (entry.pat = fragment)) ∘
      filterEntry matchList length) = fun entry ↦ decide (entry.1 = fragment) := by
    funext entry
    rw [Function.comp_apply, filterEntry_pat]
  rw [verification, List.find?_map, hpat, KeyedLists.under]
  cases entries.find? fun entry ↦ decide (entry.1 = fragment) with
  | none => rfl
  | some entry =>
    rw [Option.map_some, filterEntry]
    split_ifs <;> rfl

/-- The filter of a crowded entry hides nothing that is in its table. -/
theorem pids_nest (length : ℕ) (plists : List Pattern) (data : BitVec 16) :
    (nest length plists).pids data =
      pushAll (fun _ ↦ []) (enter (fun p ↦ p.keysNested (p.n - length))
        (plists.filter fun p ↦ p.n ≠ length)) data := by
  have hnames := names_pushAll (fun p ↦ p.keysNested (p.n - length))
    (plists.filter fun p ↦ p.n ≠ length) data
  have hunder := congrFun (KeyedTable.under_addAll index2 (fun _ ↦ [])
    (enter (fun p ↦ p.keysNested (p.n - length)) (plists.filter fun p ↦ p.n ≠ length))) data
  rw [Nested.pids]
  split_ifs with htest
  · exact hunder
  · symm
    rw [List.eq_nil_iff_forall_not_mem]
    intro pid hpid
    obtain ⟨p, hp, hkey, -⟩ := (hnames.mem_iff pid).mp hpid
    apply htest
    exact (test_setAll _ _ _).mpr (.inl (List.mem_flatMap.mpr ⟨p, hp, hkey⟩))

/-- What a table has under a fragment. -/
theorem names_under {ι κ : Type} [DecidableEq ι] [DecidableEq κ] (hash : κ → ι)
    (keys : Pattern → List κ) (patterns : List Pattern) (fragment : κ) :
    Names patterns
      ((KeyedTable.addAll hash (fun _ ↦ []) (enter keys patterns) (hash fragment)).under fragment)
      fun q ↦ fragment ∈ keys q := by
  have hunder := congrFun (KeyedTable.under_addAll hash (fun _ ↦ []) (enter keys patterns)) fragment
  rw [KeyedTable.under] at hunder
  rw [hunder]
  exact names_pushAll keys patterns fragment

section

variable {patterns : List Pattern} {pids : List ℕ} {named : Pattern → Prop} {p : Pattern}
  (hiid : (patterns.map Pattern.iid).Nodup)

include hiid

/-- What a crowded entry has under two bytes. -/
theorem Names.nest (h : Names patterns pids named) (length : ℕ) (data : BitVec 16) :
    Names patterns ((nest length (pids.map (matchList patterns))).pids data) fun p ↦
      named p ∧ p.n ≠ length ∧ data ∈ p.keysNested (p.n - length) := by
  rw [pids_nest]
  have hnames := names_pushAll (fun p ↦ p.keysNested (p.n - length))
    ((pids.map (matchList patterns)).filter fun p ↦ p.n ≠ length) data
  refine ⟨hnames.nodup, fun pid ↦ ?_⟩
  rw [hnames.mem_iff]
  simp only [List.mem_filter, h.mem_map_iff hiid, decide_eq_true_eq, and_assoc]

/-- The patterns of a crowded entry that have no further bytes. -/
theorem Names.map_filter (h : Names patterns pids named) (length : ℕ) :
    (((pids.map (matchList patterns)).filter fun p ↦ p.n = length).map Pattern.iid).map
        (matchList patterns) =
      (pids.map (matchList patterns)).filter fun p ↦ p.n = length := by
  have hself : ∀ q ∈ (pids.map (matchList patterns)).filter fun p ↦ p.n = length,
      (matchList patterns ∘ Pattern.iid) q = id q := by
    intro q hq
    have hmem := (h.mem_map_iff hiid).mp (List.mem_filter.mp hq).1
    rw [Function.comp_apply, matchList_iid hiid hmem.1, id]
  rw [List.map_map, List.map_congr_left hself, List.map_id]

variable {ι κ : Type} [DecidableEq ι] [DecidableEq κ] {hash : κ → ι} {keys : Pattern → List κ}

/-- A pattern is reported at most once where a fragment is looked up. -/
theorem count_verification (hp : p ∈ patterns) (length : ℕ) (fragment : κ) (data : BitVec 16)
    (plain crowded nested : Pattern → Bool) :
    (verification (matchList patterns)
      ((KeyedTable.addAll hash (fun _ ↦ []) (enter keys patterns) (hash fragment)).map
        (filterEntry (matchList patterns) length)) fragment data plain crowded nested).count p =
      if fragment ∈ keys p ∧
        (if recursiveBoundary ≤ (patterns.filter fun q ↦ fragment ∈ keys q).length then
          p.n = length ∧ crowded p = true ∨
            p.n ≠ length ∧ data ∈ p.keysNested (p.n - length) ∧ nested p = true
        else plain p = true) then 1 else 0 := by
  have hnames := names_under hash keys patterns fragment
  rw [verification_map, ← hnames.length_eq hiid]
  by_cases hcrowded : recursiveBoundary ≤
      ((KeyedTable.addAll hash (fun _ ↦ []) (enter keys patterns) (hash fragment)).under
        fragment).length
  · rw [if_pos hcrowded, List.count_append, hnames.map_filter hiid, List.filter_filter,
      hnames.count hiid hp, (hnames.nest hiid length data).count hiid hp]
    simp only [if_pos hcrowded, Bool.and_eq_true, decide_eq_true_eq]
    by_cases hn : p.n = length
    · simp [hn]
    · simp [hn, and_assoc]
  · rw [if_neg hcrowded, hnames.count hiid hp]
    simp only [if_neg hcrowded]

/-- Only patterns of the structure are reported. -/
theorem mem_of_mem_verification {length : ℕ} {fragment : κ} {data : BitVec 16}
    {plain crowded nested : Pattern → Bool}
    (h : p ∈ verification (matchList patterns)
      ((KeyedTable.addAll hash (fun _ ↦ []) (enter keys patterns) (hash fragment)).map
        (filterEntry (matchList patterns) length)) fragment data plain crowded nested) :
    p ∈ patterns := by
  have hnames := names_under hash keys patterns fragment
  rw [verification_map] at h
  split_ifs at h
  · rcases List.mem_append.mp h with hshort | hlong
    · rw [hnames.map_filter hiid] at hshort
      have hmem := List.mem_of_mem_filter (List.mem_of_mem_filter hshort)
      exact ((hnames.mem_map_iff hiid).mp hmem).1
    · exact (((hnames.nest hiid length data).mem_map_iff hiid).mp (List.mem_of_mem_filter hlong)).1
  · exact ((hnames.mem_map_iff hiid).mp (List.mem_of_mem_filter h)).1

end

/-! ## Where patterns lie in memory -/

namespace Pattern

/-- The pattern lies in memory, from an address on. -/
def OccursAt (p : Pattern) (mem : ℤ → Byte) (start : ℤ) : Prop :=
  ∀ j < p.n, p.Accepts j (mem (start + j))

/-- The number of bytes of a pattern that are looked up at once. -/
def tail (p : Pattern) : ℕ :=
  if p.n < 2 then p.n else if p.n < 4 then 2 else if p.n < 8 then 4 else 8

/-- The number of bytes in front of these. -/
def front (p : Pattern) : ℕ := p.n - p.tail

/-- The bytes that are looked up lie in memory. -/
def TailAt (p : Pattern) (mem : ℤ → Byte) (address : ℤ) : Prop :=
  ∀ k < p.tail, p.Accepts (p.front + k) (mem (address + k))

instance (p : Pattern) (mem : ℤ → Byte) (start : ℤ) : Decidable (p.OccursAt mem start) :=
  inferInstanceAs (Decidable (∀ j < p.n, p.Accepts j (mem (start + j))))

instance (p : Pattern) (mem : ℤ → Byte) (address : ℤ) : Decidable (p.TailAt mem address) :=
  inferInstanceAs (Decidable (∀ k < p.tail, p.Accepts (p.front + k) (mem (address + k))))

/-- The entry under which a pattern of less than eight bytes is found is shared by so many patterns
that it is crowded. -/
def Crowded (patterns : List Pattern) (p : Pattern) (mem : ℤ → Byte) (address : ℤ) : Prop :=
  p.n < 8 ∧
    recursiveBoundary ≤ (patterns.filter fun q ↦ q.tail = p.tail ∧ q.TailAt mem address).length

instance (patterns : List Pattern) (p : Pattern) (mem : ℤ → Byte) (address : ℤ) :
    Decidable (p.Crowded patterns mem address) := inferInstanceAs (Decidable (_ ∧ _ ≤ _))

variable {p : Pattern} {mem : ℤ → Byte} {address : ℤ}

theorem tail_eq_one_iff : p.tail = 1 ↔ p.n = 1 := by
  rw [tail]
  split_ifs <;> omega

theorem tail_eq_two_iff : p.tail = 2 ↔ p.n = 2 ∨ p.n = 3 := by
  rw [tail]
  split_ifs <;> omega

theorem tail_eq_four_iff : p.tail = 4 ↔ 4 ≤ p.n ∧ p.n < 8 := by
  rw [tail]
  split_ifs <;> omega

theorem tail_eq_eight_iff : p.tail = 8 ↔ 8 ≤ p.n := by
  rw [tail]
  split_ifs <;> omega

theorem tail_add_front (p : Pattern) : p.tail + p.front = p.n := by
  rw [front, tail]
  split_ifs <;> omega

theorem position_eq (h : 2 ≤ p.n) : p.position = p.front := by
  rw [position, front, tail]
  split_ifs <;> omega

/-- A pattern lies in memory if its last bytes do and the bytes in front of them do. -/
theorem occursAt_iff :
    p.OccursAt mem (address - p.front) ↔
      p.TailAt mem address ∧ ∀ j < p.front, p.Accepts j (mem (address - p.front + j)) := by
  have htail := p.tail_add_front
  constructor
  · refine fun h ↦ ⟨fun k hk ↦ ?_, fun j hj ↦ h j (by omega)⟩
    have hbyte := h (p.front + k) (by omega)
    have haddress : address - p.front + ((p.front + k : ℕ) : ℤ) = address + k := by omega
    rwa [haddress] at hbyte
  · rintro ⟨hend, hfront⟩ j hj
    by_cases hlt : j < p.front
    · exact hfront j hlt
    · have hbyte := hend (j - p.front) (by omega)
      have hindex : p.front + (j - p.front) = j := by omega
      have haddress : address + ((j - p.front : ℕ) : ℤ) = address - p.front + j := by omega
      rwa [hindex, haddress] at hbyte

/-- The bytes in front are checked in two parts: the last two of them under which the pattern is
nested, and those before. -/
theorem front_iff {m : ℕ} (hm : 0 < m) :
    (∀ j < m, p.Accepts j (mem (address - m + j))) ↔
      load16 mem (address - 2) ∈ p.keysNested m ∧
        ∀ j < m - 2, p.Accepts j (mem (address - m + j)) := by
  rw [load16, mem_keysNested_iff]
  split_ifs with hone
  · subst hone
    constructor
    · intro h
      have hbyte := h 0 hm
      have haddress : address - ((1 : ℕ) : ℤ) + ((0 : ℕ) : ℤ) = address - 2 + ((1 : ℕ) : ℤ) := by
        omega
      rw [haddress] at hbyte
      exact ⟨hbyte, fun j hj ↦ absurd hj (by omega)⟩
    · rintro ⟨hbyte, -⟩ j hj
      obtain rfl : j = 0 := by omega
      have haddress : address - ((1 : ℕ) : ℤ) + ((0 : ℕ) : ℤ) = address - 2 + ((1 : ℕ) : ℤ) := by
        omega
      rwa [haddress]
  · have haddress (k : ℕ) :
        address - m + ((m - 2 + k : ℕ) : ℤ) = address - 2 + k := by omega
    constructor
    · refine fun h ↦ ⟨fun k hk ↦ ?_, fun j hj ↦ h j (by omega)⟩
      rw [← haddress]
      exact h (m - 2 + k) (by omega)
    · rintro ⟨hlast, hbefore⟩ j hj
      by_cases hlt : j < m - 2
      · exact hbefore j hlt
      · have hbyte := hlast (j - (m - 2)) (by omega)
        have hindex : m - 2 + (j - (m - 2)) = j := by omega
        rwa [← haddress, hindex] at hbyte

end Pattern

section Hits

variable {patterns : List Pattern} {p : Pattern} {mem : ℤ → Byte} {i : ℕ}

/-- The search finds the pattern where its last bytes are looked up. -/
def Hit (patterns : List Pattern) (p : Pattern) (mem : ℤ → Byte) (i : ℕ) : Prop :=
  p.OccursAt mem (i - p.front) ∧ (p.front ≤ i ∨ p.Crowded patterns mem i)

instance : Decidable (Hit patterns p mem i) := inferInstanceAs (Decidable (_ ∧ _))

/-- The check of a crowded entry is a check of all bytes in front. -/
theorem crowded_iff {nested : Prop}
    (hnested : nested ↔ ∀ j < p.front - 2, p.Accepts j (mem (i - p.front + j))) :
    (p.n = p.tail ∧ True ∨
        p.n ≠ p.tail ∧ load16 mem (i - 2) ∈ p.keysNested (p.n - p.tail) ∧ nested) ↔
      ∀ j < p.front, p.Accepts j (mem (i - p.front + j)) := by
  have htail := p.tail_add_front
  by_cases hn : p.n = p.tail
  · have hfront : p.front = 0 := by omega
    simp [hn, hfront]
  · have hfront : 0 < p.front := by omega
    rw [Pattern.front_iff hfront, hnested]
    simp [hn, Pattern.front]

/-- A hit of a pattern of less than eight bytes, as the code checks it: all bytes in front if the
entry is plain, and no bound if it is crowded. -/
theorem hit_iff (hn : p.n < 8) {plain crowded : Prop}
    (hcrowded : crowded ↔ ∀ j < p.front, p.Accepts j (mem (i - p.front + j)))
    (hplain : plain ↔ p.front ≤ i ∧ ∀ j < p.front, p.Accepts j (mem (i - p.front + j))) :
    p.TailAt mem i ∧
        (if recursiveBoundary ≤
            (patterns.filter fun q ↦ q.tail = p.tail ∧ q.TailAt mem i).length
          then crowded else plain) ↔ Hit patterns p mem i := by
  rw [Hit, Pattern.occursAt_iff, Pattern.Crowded, and_iff_right hn]
  split_ifs with h
  · rw [hcrowded]
    tauto
  · rw [hplain]
    tauto

variable (hiid : (patterns.map Pattern.iid).Nodup) (hp : p ∈ patterns)

theorem load16_mem_keys2_iff (q : Pattern) :
    load16 mem i ∈ q.keys2 ↔ q.tail = 2 ∧ q.TailAt mem i := by
  rw [load16, Pattern.mem_keys2_iff, ← Pattern.tail_eq_two_iff]
  apply and_congr_right
  intro htail
  rw [Pattern.TailAt, Pattern.front, htail]

theorem fragment32_mem_keys4_iff (q : Pattern) :
    (fragment32 fun k ↦ mem (i + k)) ∈ q.keys4 ↔ q.tail = 4 ∧ q.TailAt mem i := by
  rw [Pattern.mem_keys4_iff, ← Pattern.tail_eq_four_iff]
  apply and_congr_right
  intro htail
  rw [Pattern.TailAt, Pattern.front, htail]

include hiid hp

theorem count_verificationCt1 :
    ((build patterns).verificationCt1 mem (i + 2)).count p =
      if p.tail = 1 ∧ Hit patterns p mem i then 1 else 0 := by
  have hnames := names_pushAll Pattern.keys1 patterns (mem i)
  have hcount := hnames.count hiid hp fun _ ↦ true
  have haddress : (i + 2 - 2 : ℤ) = i := by omega
  rw [List.filter_true] at hcount
  rw [Compiled.verificationCt1, haddress]
  refine hcount.trans (if_congr ?_ rfl rfl)
  rw [Pattern.mem_keys1_iff, and_iff_left rfl, ← Pattern.tail_eq_one_iff]
  apply and_congr_right
  intro htail
  have hn := Pattern.tail_eq_one_iff.mp htail
  have hfront : p.front = 0 := by
    rw [Pattern.front]
    omega
  simp [Hit, Pattern.OccursAt, hfront, hn]

theorem count_verificationCt2 :
    ((build patterns).verificationCt2 mem (i + 2)).count p =
      if p.tail = 2 ∧ Hit patterns p mem i then 1 else 0 := by
  have haddress : (i + 2 - 2 : ℤ) = i := by omega
  have hbefore : (i + 2 - 4 : ℤ) = i - 2 := by omega
  rw [Compiled.verificationCt2]
  simp only [haddress, hbefore]
  refine (count_verification hiid hp 2 _ _ _ _ _).trans (if_congr ?_ rfl rfl)
  simp only [load16_mem_keys2_iff]
  rw [and_assoc]
  apply and_congr_right
  intro htail
  have hn : p.n = p.front + 2 := by
    rw [← p.tail_add_front, htail, Nat.add_comm]
  have hclass := Pattern.tail_eq_two_iff.mp htail
  have hnested : True ↔ ∀ j < p.front - 2, p.Accepts j (mem (i - p.front + j)) :=
    iff_of_true trivial fun j hj ↦ absurd hj (by omega)
  have hplain : (decide ((p.n : ℤ) ≤ i + 2 ∧ p.same mem (i + 2 - p.n) (p.n - 2) = true) = true) ↔
      p.front ≤ i ∧ ∀ j < p.front, p.Accepts j (mem (i - p.front + j)) := by
    have hstart : (i + 2 - p.n : ℤ) = i - p.front := by omega
    have hlength : p.n - 2 = p.front := by omega
    have hbound : (p.n : ℤ) ≤ i + 2 ↔ p.front ≤ i := by omega
    rw [decide_eq_true_iff, Pattern.same_iff, hstart, hlength, hbound]
  refine Iff.trans ?_ (hit_iff (by omega) (crowded_iff hnested) hplain)
  rw [htail]

theorem count_verificationCt47 :
    ((build patterns).verificationCt47 mem (i + 2)).count p =
      if p.tail = 4 ∧ Hit patterns p mem i then 1 else 0 := by
  have haddress : (i + 2 - 2 : ℤ) = i := by omega
  have hbefore : (i + 2 - 4 : ℤ) = i - 2 := by omega
  rw [Compiled.verificationCt47]
  simp only [haddress, hbefore]
  refine (count_verification hiid hp 4 _ _ _ _ _).trans (if_congr ?_ rfl rfl)
  simp only [fragment32_mem_keys4_iff]
  rw [and_assoc]
  apply and_congr_right
  intro htail
  have hn : p.n = p.front + 4 := by
    rw [← p.tail_add_front, htail, Nat.add_comm]
  have hsmall := (Pattern.tail_eq_four_iff.mp htail).2
  have hstart : (i + 2 - (p.n - 2) : ℤ) = i - p.front := by omega
  have hnested : p.same mem (i + 2 - (p.n - 2)) (p.n - 6) = true ↔
      ∀ j < p.front - 2, p.Accepts j (mem (i - p.front + j)) := by
    have hlength : p.n - 6 = p.front - 2 := by omega
    rw [Pattern.same_iff, hstart, hlength]
  have hplain : (decide ((p.n : ℤ) - 2 ≤ i + 2 ∧
        p.same mem (i + 2 - (p.n - 2)) (p.n - 4) = true) = true) ↔
      p.front ≤ i ∧ ∀ j < p.front, p.Accepts j (mem (i - p.front + j)) := by
    have hlength : p.n - 4 = p.front := by omega
    have hbound : (p.n : ℤ) - 2 ≤ i + 2 ↔ p.front ≤ i := by omega
    rw [decide_eq_true_iff, Pattern.same_iff, hstart, hlength, hbound]
  refine Iff.trans ?_ (hit_iff hsmall (crowded_iff hnested) hplain)
  rw [htail]

theorem count_verificationCt8Plus :
    ((build patterns).verificationCt8Plus mem (i + 2)).count p =
      if p.tail = 8 ∧ Hit patterns p mem i then 1 else 0 := by
  have haddress : (i + 2 - 2 : ℤ) = i := by omega
  have hbefore : (i + 2 - 4 : ℤ) = i - 2 := by omega
  rw [Compiled.verificationCt8Plus]
  simp only [haddress, hbefore]
  refine (count_verification hiid hp 8 _ _ _ _ _).trans (if_congr ?_ rfl rfl)
  have htail := p.tail_add_front
  have hsame (hn : 8 ≤ p.n) : p.same mem (i + 2 - (p.position + 2)) p.n = true ↔
      p.OccursAt mem (i - p.front) := by
    have hstart : (i + 2 - (p.position + 2) : ℤ) = i - p.front := by
      rw [Pattern.position_eq (by omega)]
      omega
    rw [Pattern.same_iff, hstart, Pattern.OccursAt]
  have hplain (hn : 8 ≤ p.n) : (decide ((p.position : ℤ) + 2 ≤ i + 2 ∧
      p.same mem (i + 2 - (p.position + 2)) p.n = true) = true) ↔ Hit patterns p mem i := by
    have hbound : (p.position : ℤ) + 2 ≤ i + 2 ↔ p.front ≤ i := by
      rw [Pattern.position_eq (by omega)]
      omega
    have hnot : ¬ p.Crowded patterns mem i := fun h ↦ absurd h.1 (by omega)
    rw [decide_eq_true_iff, hsame hn, hbound, Hit, or_iff_left hnot, and_comm]
  constructor
  · rintro ⟨hkey, hcheck⟩
    have hn := Pattern.le_of_mem_keys8 hkey
    have hclass := Pattern.tail_eq_eight_iff.mpr hn
    refine ⟨hclass, (hplain hn).mp ?_⟩
    split_ifs at hcheck
    · rcases hcheck with ⟨heq, hcheck⟩ | ⟨-, -, hcheck⟩
      · have hfront : p.front = 0 := by omega
        exact (hplain hn).mpr ⟨(hsame hn).mp hcheck, .inl (by omega)⟩
      · exact hcheck
    · exact hcheck
  · rintro ⟨hclass, hhit⟩
    have hn := Pattern.tail_eq_eight_iff.mp hclass
    obtain ⟨hend, hfront⟩ := Pattern.occursAt_iff.mp hhit.1
    constructor
    · apply Pattern.mem_keys8 hn
      rw [Pattern.position_eq (by omega), ← hclass]
      exact hend
    · split_ifs
      · by_cases heq : p.n = 8
        · exact .inl ⟨heq, (hsame hn).mpr hhit.1⟩
        · have hpos : 0 < p.front := by omega
          have hlength : p.n - 8 = p.front := by omega
          refine .inr ⟨heq, ?_, (hplain hn).mpr hhit⟩
          rw [hlength]
          exact ((Pattern.front_iff hpos).mp hfront).1
      · exact (hplain hn).mpr hhit

end Hits

/-! ## The filters hide nothing -/

section Filters

variable {patterns : List Pattern} {p : Pattern} {mem : ℤ → Byte} {i : ℕ}

/-- A guard that no reported pattern fails does not matter. -/
theorem count_guard {guard reported : Prop} [Decidable guard] [Decidable reported]
    {found : List Pattern} (hcount : found.count p = if reported then 1 else 0)
    (hguard : reported → guard) :
    (if guard then found else []).count p = if reported then 1 else 0 := by
  split_ifs at hcount ⊢ with h1 h2 h2
  · exact hcount
  · exact hcount
  · exact absurd (hguard h2) h1
  · rfl

theorem Hit.tailAt (h : Hit patterns p mem i) : p.TailAt mem i := (Pattern.occursAt_iff.mp h.1).1

theorem cDF0_of_tailAt (hp : p ∈ patterns) (htail : p.tail = 1) (h : p.TailAt mem i) :
    (build patterns).filters.cDF0 (mem i) := by
  have hclass := Pattern.tail_eq_one_iff.mp htail
  have hfront : p.front = 0 := by simp [Pattern.front, hclass, htail]
  have hbyte := h 0 (by omega)
  rw [hfront, Int.natCast_zero, add_zero] at hbyte
  exact (cDF0_iff _ _).mpr ⟨p, hp, Pattern.mem_keys1_iff.mpr ⟨hclass, hbyte⟩⟩

theorem load16_mem_fragmentsDf1 (hn : 0 < p.n) (h : p.TailAt mem i) :
    load16 mem i ∈ p.fragmentsDf1 := by
  by_cases hone : p.n = 1
  · have htail := Pattern.tail_eq_one_iff.mpr hone
    have hfront : p.front = 0 := by simp [Pattern.front, hone, htail]
    apply Pattern.mem_fragmentsDf1_of_one hone
    have hbyte := h 0 (by omega)
    rwa [hfront] at hbyte
  · apply Pattern.mem_fragmentsDf1 (by omega)
    intro k hk
    rw [Pattern.position_eq (by omega)]
    apply h
    rw [Pattern.tail]
    split_ifs <;> omega

theorem load16_mem_fragmentsDf4Plus (hn : 4 ≤ p.n) (h : p.TailAt mem i) :
    load16 mem (i + 2) ∈ p.fragmentsDf4Plus := by
  have haddress (k : ℕ) : (i + 2 + k : ℤ) = i + ((k + 2 : ℕ) : ℤ) := by omega
  have hbytes : ∀ k < 4, p.Accepts (p.position + k) ((fun k : ℕ ↦ mem (i + k)) k) := by
    intro k hk
    rw [Pattern.position_eq (by omega)]
    apply h
    rw [Pattern.tail]
    split_ifs <;> omega
  have hmem := Pattern.mem_fragmentsDf4Plus hn hbytes
  simpa only [load16, haddress] using hmem

variable (hiid : (patterns.map Pattern.iid).Nodup) (hp : p ∈ patterns)

include hiid hp

theorem count_guarded_ct1 :
    (if (build patterns).filters.cDF0 (mem (i + 2 - 2)) then
      (build patterns).verificationCt1 mem (i + 2) else []).count p =
        if p.tail = 1 ∧ Hit patterns p mem i then 1 else 0 := by
  apply count_guard (count_verificationCt1 hiid hp)
  rintro ⟨htail, hhit⟩
  have haddress : (i + 2 - 2 : ℤ) = i := by omega
  rw [haddress]
  exact cDF0_of_tailAt hp htail hhit.tailAt

theorem count_guarded_ct47 :
    (if (build patterns).filters.addDf41.test (load16 mem (i + 2)).toNat then
      (build patterns).verificationCt47 mem (i + 2) else []).count p =
        if p.tail = 4 ∧ Hit patterns p mem i then 1 else 0 := by
  apply count_guard (count_verificationCt47 hiid hp)
  rintro ⟨htail, hhit⟩
  have hclass := Pattern.tail_eq_four_iff.mp htail
  refine (test_addDf41 _ _).mpr ⟨p, hp, ?_⟩
  rw [Pattern.fragmentsDf41, if_pos hclass]
  exact load16_mem_fragmentsDf4Plus hclass.1 hhit.tailAt

/-- The part of the filtering for patterns of four bytes and more. -/
theorem count_guarded_long (restLen : ℕ) :
    (if (build patterns).filters.addDf4Plus.test (load16 mem (i + 2)).toNat then
      (if (build patterns).filters.addDf41.test (load16 mem (i + 2)).toNat then
        (build patterns).verificationCt47 mem (i + 2) else []) ++
      (if 8 ≤ restLen then (build patterns).verificationCt8Plus mem (i + 2) else [])
    else []).count p =
        if (p.tail = 4 ∨ p.tail = 8 ∧ 8 ≤ restLen) ∧ Hit patterns p mem i then 1 else 0 := by
  apply count_guard
  · rw [List.count_append, count_guarded_ct47 hiid hp]
    by_cases hrest : 8 ≤ restLen
    · rw [if_pos hrest, count_verificationCt8Plus hiid hp]
      by_cases htail : p.tail = 4
      · simp [htail]
      · simp [htail, hrest]
    · simp [hrest]
  · rintro ⟨htail, hhit⟩
    have hlong : 4 ≤ p.n := by
      rcases htail with htail | ⟨htail, -⟩
      · exact (Pattern.tail_eq_four_iff.mp htail).1
      · have hn8 := Pattern.tail_eq_eight_iff.mp htail
        omega
    exact (test_addDf4Plus _ _).mpr ⟨p, hp, load16_mem_fragmentsDf4Plus hlong hhit.tailAt⟩

variable (hn : 0 < p.n)

include hn

theorem count_guarded_ct2 :
    (if (build patterns).filters.cDF1.test (load16 mem i).toNat then
      (build patterns).verificationCt2 mem (i + 2) else []).count p =
        if p.tail = 2 ∧ Hit patterns p mem i then 1 else 0 := by
  apply count_guard (count_verificationCt2 hiid hp)
  rintro ⟨htail, hhit⟩
  refine (test_cDF1 _ _).mpr ⟨p, hp, ?_⟩
  rw [Pattern.fragmentsCdf1, if_pos (Pattern.tail_eq_two_iff.mp htail)]
  exact load16_mem_fragmentsDf1 hn hhit.tailAt

theorem count_progressiveFiltering {restLen : ℕ} (hrest : 2 ≤ restLen) :
    ((build patterns).progressiveFiltering mem (i + 2) (load16 mem i) restLen).count p =
      if p.tail ≤ restLen ∧ Hit patterns p mem i then 1 else 0 := by
  rw [Compiled.progressiveFiltering, List.count_append, List.count_append,
    count_guarded_ct1 hiid hp, count_guarded_ct2 hiid hp hn]
  have htail : p.tail = 1 ∨ p.tail = 2 ∨ p.tail = 4 ∨ p.tail = 8 := by
    rw [Pattern.tail]
    split_ifs <;> omega
  by_cases hrest4 : 4 ≤ restLen
  · rw [if_pos hrest4, count_guarded_long hiid hp]
    rcases htail with htail | htail | htail | htail
    · simp [htail, Nat.one_le_of_lt hrest]
    · simp [htail, hrest]
    · simp [htail, hrest4]
    · simp [htail]
  · have hrest8 : ¬ 8 ≤ restLen := by omega
    rw [if_neg hrest4]
    rcases htail with htail | htail | htail | htail
    · simp [htail, Nat.one_le_of_lt hrest]
    · simp [htail, hrest]
    · simp [htail, hrest4]
    · simp [htail, hrest8]

/-- The byte at the end of the payload is looked up as a pattern of one byte. -/
theorem count_last :
    (if (build patterns).filters.cDF0 (mem i) then
      ((build patterns).ct1 (mem i)).map (build patterns).matchList else []).count p =
        if i + p.tail ≤ i + 1 ∧ Hit patterns p mem i then 1 else 0 := by
  have haddress : (i + 2 - 2 : ℤ) = i := by omega
  have htail : i + p.tail ≤ i + 1 ↔ p.tail = 1 := by
    rw [Pattern.tail]
    split_ifs <;> omega
  have hcount : (((build patterns).ct1 (mem i)).map (build patterns).matchList).count p =
      if p.tail = 1 ∧ Hit patterns p mem i then 1 else 0 := by
    rw [← count_verificationCt1 hiid hp, Compiled.verificationCt1, haddress]
  refine (count_guard hcount ?_).trans (if_congr (and_congr_left' htail.symm) rfl rfl)
  exact fun ⟨hone, hhit⟩ ↦ cDF0_of_tailAt hp hone hhit.tailAt

/-- A pattern is reported once for each place where its last bytes are looked up and it is hit. -/
theorem count_search (buflen : ℕ) :
    ((build patterns).search mem buflen).count p =
      ((Finset.range buflen).filter fun i ↦ i + p.tail ≤ buflen ∧ Hit patterns p mem i).card := by
  cases buflen with
  | zero => rfl
  | succ last =>
    have hlast : (((last + 1 : ℕ) : ℤ) - 1) = (last : ℤ) := by omega
    have hplace : ∀ i ∈ List.range last,
        (List.count p ∘ fun i : ℕ ↦
          if (build patterns).filters.directFilter1.test (load16 mem i).toNat then
            (build patterns).progressiveFiltering mem (i + 2) (load16 mem i) (last + 1 - i)
          else []) i = if i + p.tail ≤ last + 1 ∧ Hit patterns p mem i then 1 else 0 := by
      intro i hi
      have hlt := List.mem_range.mp hi
      have hrest : p.tail ≤ last + 1 - i ↔ i + p.tail ≤ last + 1 := by omega
      refine (count_guard (count_progressiveFiltering hiid hp hn (by omega)) ?_).trans
        (if_congr (and_congr_left' hrest) rfl rfl)
      rintro ⟨-, hhit⟩
      exact (test_directFilter1 _ _).mpr ⟨p, hp, load16_mem_fragmentsDf1 hn hhit.tailAt⟩
    rw [Compiled.search, if_neg (Nat.succ_ne_zero _), List.count_append, List.count_flatMap,
      Nat.add_sub_cancel, List.map_congr_left hplace, hlast, count_last hiid hp hn,
      Finset.card_filter, Finset.sum_range_succ]
    rfl

end Filters

/-! ## What is reported -/

section Reports

variable {patterns : List Pattern} {p : Pattern} {mem : ℤ → Byte} {buflen : ℕ}

/-- The search reports the pattern where it lies in the payload. A pattern in a crowded entry can
begin in front of the payload. -/
def Reported (patterns : List Pattern) (p : Pattern) (mem : ℤ → Byte) (buflen : ℕ) (start : ℤ) :
    Prop :=
  p.OccursAt mem start ∧ start + p.n ≤ buflen ∧
    (0 ≤ start ∨ 0 ≤ start + p.front ∧ p.Crowded patterns mem (start + p.front))

instance (start : ℤ) : Decidable (Reported patterns p mem buflen start) :=
  inferInstanceAs (Decidable (_ ∧ _ ∧ (_ ∨ _)))

/-- Places where the last bytes are looked up, and places where the pattern begins. -/
theorem reported_iff {start : ℤ} {i : ℕ} (hstart : start + p.front = i) :
    Reported patterns p mem buflen start ↔ i + p.tail ≤ buflen ∧ Hit patterns p mem i := by
  have htail := p.tail_add_front
  have hbegin : (i : ℤ) - p.front = start := by omega
  have hend : start + p.n ≤ buflen ↔ i + p.tail ≤ buflen := by omega
  have hfront : 0 ≤ start ↔ p.front ≤ i := by omega
  have hpos : (0 : ℤ) ≤ i := Int.natCast_nonneg i
  rw [Reported, Hit, hbegin, hstart, hend, hfront, and_iff_right hpos]
  exact and_left_comm

/-- No pattern is reported that begins more than three bytes in front of the payload. -/
theorem Reported.neg_three_le {start : ℤ} (h : Reported patterns p mem buflen start) :
    -3 ≤ start ∧ 0 ≤ start + p.front := by
  rcases h.2.2 with hstart | ⟨haddress, hn, -⟩
  · omega
  · have htail := p.tail_add_front
    have hfront : p.front ≤ 3 := by
      rw [Pattern.tail] at htail
      split_ifs at htail <;> omega
    omega

variable (hiid : (patterns.map Pattern.iid).Nodup)

include hiid

theorem mem_of_mem_search (h : p ∈ (build patterns).search mem buflen) : p ∈ patterns := by
  have hone (c : Byte) (hp : p ∈ ((build patterns).ct1 c).map (build patterns).matchList) :
      p ∈ patterns := (((names_pushAll Pattern.keys1 patterns c).mem_map_iff hiid).mp hp).1
  simp only [Compiled.search, Compiled.progressiveFiltering, List.mem_append, List.mem_flatMap,
    List.mem_ite_nil_left, List.mem_ite_nil_right] at h
  obtain ⟨-, ⟨i, -, -, (⟨-, h⟩ | ⟨-, h⟩) | ⟨-, -, ⟨-, h⟩ | ⟨-, h⟩⟩⟩ | ⟨-, h⟩⟩ := h
  · exact hone _ h
  · exact mem_of_mem_verification hiid h
  · exact mem_of_mem_verification hiid h
  · exact mem_of_mem_verification hiid h
  · exact hone _ h

/-- A pattern is reported once for each place where it begins. -/
theorem count_search_eq_card (hp : p ∈ patterns) (hn : 0 < p.n) (buflen : ℕ) :
    ((build patterns).search mem buflen).count p =
      ((Finset.Ico (-3 : ℤ) buflen).filter (Reported patterns p mem buflen)).card := by
  rw [count_search hiid hp hn]
  have haddress {start : ℤ} (h : Reported patterns p mem buflen start) :
      start + p.front = ((start + p.front).toNat : ℤ) :=
    (Int.toNat_of_nonneg h.neg_three_le.2).symm
  apply Finset.card_bij' (fun (i : ℕ) _ ↦ (i : ℤ) - p.front)
    fun (start : ℤ) _ ↦ (start + p.front).toNat
  · intro i hi
    obtain ⟨hlt, hhit⟩ := Finset.mem_filter.mp hi
    have hreported : Reported patterns p mem buflen (i - p.front) :=
      (reported_iff (by omega)).mpr hhit
    have hlt' := Finset.mem_range.mp hlt
    exact Finset.mem_filter.mpr
      ⟨Finset.mem_Ico.mpr ⟨hreported.neg_three_le.1, by omega⟩, hreported⟩
  · intro start hstart
    have hreported := (Finset.mem_filter.mp hstart).2
    obtain ⟨hend, hhit⟩ := (reported_iff (haddress hreported)).mp hreported
    have htail : 0 < p.tail := by
      rw [Pattern.tail]
      split_ifs <;> omega
    exact Finset.mem_filter.mpr ⟨Finset.mem_range.mpr (by omega), hend, hhit⟩
  · intro i _
    omega
  · intro start hstart
    have hnat := haddress (Finset.mem_filter.mp hstart).2
    omega

end Reports

end Systemish.Hyperscan.Dfc
