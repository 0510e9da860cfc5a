import Systemish.Foundation.LinearCongruential
import Systemish.Hyperscan.DfcCompile

/-!
# What a compiled DFC structure holds

A filter lets a fragment through if some pattern has set it. Under a key, a table names the patterns
that were entered there, each of them once. The counters of the tables stay below their limits if
there are not too many patterns.
-/

namespace Systemish.Hyperscan.Dfc

open Foundation

/-! ## Filters -/

theorem test_setAll (filter : BitFilter) (fragments : List (BitVec 16)) (x : BitVec 16) :
    (setAll filter fragments).test x.toNat ↔ x ∈ fragments ∨ filter.test x.toNat := by
  rw [setAll, BitFilter.test_insertAll, List.mem_map_of_injective (fun _ _ ↦ BitVec.eq_of_toNat_eq)]

/-- A filter of the structure, if the loop over the patterns sets some fragments in it. -/
theorem test_filters {filter : Filters → BitFilter} {fragments : Pattern → List (BitVec 16)}
    (hempty : filter .empty = .empty)
    (hsetup : ∀ df p, filter (df.setup p) = setAll (filter df) (fragments p))
    (patterns : List Pattern) (x : BitVec 16) :
    (filter (filters patterns)).test x.toNat ↔ ∃ p ∈ patterns, x ∈ fragments p := by
  have hfold (df : Filters) : (filter (patterns.foldl Filters.setup df)).test x.toNat ↔
      (∃ p ∈ patterns, x ∈ fragments p) ∨ (filter df).test x.toNat := by
    induction patterns generalizing df with
    | nil => simp
    | cons p patterns ih =>
      rw [List.foldl_cons, ih, hsetup, test_setAll, List.exists_mem_cons_iff, or_assoc,
        or_left_comm]
  rw [filters, hfold, hempty, BitFilter.test_empty]
  simp

section

variable (patterns : List Pattern) (x : BitVec 16) (c : Byte)

theorem test_directFilter1 :
    (filters patterns).directFilter1.test x.toNat ↔ ∃ p ∈ patterns, x ∈ p.fragmentsDf1 :=
  test_filters rfl (fun _ _ ↦ rfl) patterns x

theorem test_cDF1 :
    (filters patterns).cDF1.test x.toNat ↔ ∃ p ∈ patterns, x ∈ p.fragmentsCdf1 :=
  test_filters rfl (fun _ _ ↦ rfl) patterns x

theorem test_addDf4Plus :
    (filters patterns).addDf4Plus.test x.toNat ↔ ∃ p ∈ patterns, x ∈ p.fragmentsDf4Plus :=
  test_filters rfl (fun _ _ ↦ rfl) patterns x

theorem test_addDf41 :
    (filters patterns).addDf41.test x.toNat ↔ ∃ p ∈ patterns, x ∈ p.fragmentsDf41 :=
  test_filters rfl (fun _ _ ↦ rfl) patterns x

theorem cDF0_iff : (filters patterns).cDF0 c ↔ ∃ p ∈ patterns, c ∈ p.keys1 := by
  have hset (keys : List Byte) (filter : Byte → Bool) :
      keys.foldl (fun filter c ↦ Function.update filter c true) filter c ↔
        c ∈ keys ∨ filter c := by
    induction keys generalizing filter with
    | nil => simp
    | cons key keys ih =>
      rw [List.foldl_cons, ih, Function.update_apply, List.mem_cons]
      split_ifs with h <;> simp [h]
  have hfold (df : Filters) : (patterns.foldl Filters.setup df).cDF0 c ↔
      (∃ p ∈ patterns, c ∈ p.keys1) ∨ df.cDF0 c := by
    induction patterns generalizing df with
    | nil => simp
    | cons p patterns ih =>
      rw [List.foldl_cons, ih, Filters.setup, hset, List.exists_mem_cons_iff, or_assoc,
        or_left_comm]
  rw [filters, hfold, Filters.empty]
  simp

end

/-! ## Lists of internal ids -/

/-- A list of internal ids names the patterns with a property, each of them once. -/
structure Names (patterns : List Pattern) (pids : List ℕ) (named : Pattern → Prop) : Prop where
  nodup : pids.Nodup
  mem_iff : ∀ pid, pid ∈ pids ↔ ∃ p ∈ patterns, named p ∧ p.iid = pid

/-- What is under a key names the patterns that were entered there. -/
theorem names_pushAll {κ : Type} [DecidableEq κ] (keys : Pattern → List κ)
    (patterns : List Pattern) (key : κ) :
    Names patterns (pushAll (fun _ ↦ []) (enter keys patterns) key) fun p ↦ key ∈ keys p where
  nodup := nodup_pushAll _ (fun _ ↦ List.nodup_nil) key
  mem_iff pid := by
    rw [mem_pushAll, enter, List.mem_flatMap]
    simp [List.mem_map]

section Patterns

variable {patterns : List Pattern} {pids : List ℕ} {named : Pattern → Prop} {p q : Pattern}

variable (hiid : (patterns.map Pattern.iid).Nodup)

include hiid

theorem matchList_iid (hp : p ∈ patterns) : matchList patterns p.iid = p := by
  unfold matchList
  induction patterns using List.reverseRecOn with
  | nil => exact absurd hp List.not_mem_nil
  | append_singleton patterns q ih =>
    rw [List.map_append, List.map_singleton, List.nodup_append_comm] at hiid
    obtain ⟨hq, hrest⟩ := List.nodup_cons.mp hiid
    rw [List.foldl_append, List.foldl_cons, List.foldl_nil]
    rcases List.mem_append.mp hp with hold | hnew
    · have hne : p.iid ≠ q.iid := fun heq ↦ hq (heq ▸ List.mem_map_of_mem hold)
      rw [Function.update_of_ne hne]
      exact ih hrest hold
    · rw [List.mem_singleton.mp hnew, Function.update_self]

theorem Names.mem_map_iff (h : Names patterns pids named) :
    q ∈ pids.map (matchList patterns) ↔ q ∈ patterns ∧ named q := by
  rw [List.mem_map]
  constructor
  · rintro ⟨pid, hpid, rfl⟩
    obtain ⟨p, hp, hnamed, rfl⟩ := (h.mem_iff pid).mp hpid
    rw [matchList_iid hiid hp]
    exact ⟨hp, hnamed⟩
  · rintro ⟨hq, hnamed⟩
    exact ⟨q.iid, (h.mem_iff _).mpr ⟨q, hq, hnamed, rfl⟩, matchList_iid hiid hq⟩

theorem Names.map_iid_map (h : Names patterns pids named) :
    (pids.map (matchList patterns)).map Pattern.iid = pids := by
  have hpid : ∀ pid ∈ pids, (Pattern.iid ∘ matchList patterns) pid = id pid := by
    intro pid hpid
    obtain ⟨p, hp, -, rfl⟩ := (h.mem_iff pid).mp hpid
    rw [Function.comp_apply, matchList_iid hiid hp, id]
  rw [List.map_map, List.map_congr_left hpid, List.map_id]

theorem Names.nodup_map (h : Names patterns pids named) :
    (pids.map (matchList patterns)).Nodup := by
  apply List.Nodup.of_map Pattern.iid
  rw [h.map_iid_map hiid]
  exact h.nodup

/-- A pattern that is named is reported once, if it passes the check. -/
theorem Names.count (h : Names patterns pids named) (hp : p ∈ patterns) (check : Pattern → Bool)
    [Decidable (named p)] :
    ((pids.map (matchList patterns)).filter check).count p =
      if named p ∧ check p then 1 else 0 := by
  rw [List.Nodup.count ((h.nodup_map hiid).filter check)]
  apply if_congr _ rfl rfl
  rw [List.mem_filter, h.mem_map_iff hiid, and_iff_right hp]

/-- There are as many internal ids as patterns that are named. -/
theorem Names.length_eq (h : Names patterns pids named) [DecidablePred named] :
    pids.length = (patterns.filter named).length := by
  have hperm : pids.Perm ((patterns.filter named).map Pattern.iid) := by
    apply (List.perm_ext_iff_of_nodup h.nodup _).mpr
    · intro pid
      rw [h.mem_iff, List.mem_map]
      simp [and_assoc]
    · exact hiid.sublist (List.Sublist.map _ List.filter_sublist)
  rw [hperm.length_eq, List.length_map]

end Patterns

/-! ## Counters -/

theorem map_fst_enter {κ : Type} (keys : Pattern → List κ) (patterns : List Pattern) :
    (enter keys patterns).map Prod.fst = patterns.flatMap keys := by
  rw [enter, List.map_flatMap]
  apply List.flatMap_congr
  intro p _
  rw [List.map_map]
  exact List.map_id' _

section

variable {ι κ : Type} [DecidableEq ι] [DecidableEq κ] {hash : κ → ι} {keys : Pattern → List κ}
  {patterns : List Pattern}

/-- The counters of a table are small if there are few patterns, and few keys in a bucket. -/
theorem tableFits_of_lt (hiid : (patterns.map Pattern.iid).Nodup)
    (hlength : patterns.length < 2 ^ 16)
    (hkeys : ∀ (i : ι) (bucket : List κ), bucket.Nodup →
      (∀ key ∈ bucket, key ∈ patterns.flatMap keys ∧ hash key = i) → bucket.length < 2 ^ 16) :
    TableFits (KeyedTable.addAll hash (fun _ ↦ []) (enter keys patterns)) := by
  intro i
  obtain ⟨hnodup, hsub⟩ := KeyedTable.keys_addAll hash (fun _ ↦ []) (enter keys patterns) i
    List.nodup_nil
  constructor
  · have hbucket := hkeys i _ hnodup fun key hkey ↦ by
      have hmem := (hsub key hkey).resolve_left List.not_mem_nil
      rwa [map_fst_enter] at hmem
    rwa [List.length_map] at hbucket
  · intro entry hentry
    rw [KeyedTable.eq_pushAll_of_mem hash hentry, (names_pushAll keys patterns _).length_eq hiid]
    exact (List.length_filter_le _ _).trans_lt hlength

end

/-- Not all fragments of two bytes are in one bucket. -/
theorem length_lt_of_index2 (i : BitVec 12) (bucket : List (BitVec 16)) (hnodup : bucket.Nodup)
    (h : ∀ key ∈ bucket, index2 key = i) : bucket.length < 2 ^ 16 := by
  have hdiffer : index2 0 ≠ index2 1 := by decide +kernel
  obtain ⟨key, hkey⟩ : ∃ key, key ∉ bucket := by
    by_contra hall
    simp only [not_exists, not_not] at hall
    exact hdiffer ((h 0 (hall 0)).trans (h 1 (hall 1)).symm)
  have hcard := (List.nodup_cons.mpr ⟨hkey, hnodup⟩).length_le_card
  rw [List.length_cons, card_bitVec] at hcard
  exact hcard

section

variable {patterns : List Pattern} (hiid : (patterns.map Pattern.iid).Nodup)
  (hlength : patterns.length < 2 ^ 16)

include hiid hlength

theorem tableFits_index2 (keys : Pattern → List (BitVec 16)) :
    TableFits (KeyedTable.addAll index2 (fun _ ↦ []) (enter keys patterns)) :=
  tableFits_of_lt hiid hlength fun i bucket hnodup h ↦
    length_lt_of_index2 i bucket hnodup fun key hkey ↦ (h key hkey).2

theorem tableFits_table4 (h4 : (patterns.filter fun p ↦ 4 ≤ p.n ∧ p.n < 8).length < 2 ^ 12) :
    TableFits (table4 patterns) := by
  apply tableFits_of_lt hiid hlength
  intro i bucket hnodup h
  have hsub : bucket ⊆ patterns.flatMap Pattern.keys4 := fun key hkey ↦ (h key hkey).1
  have hkeys (l : List Pattern) : (l.flatMap Pattern.keys4).length =
      16 * (l.filter fun p ↦ 4 ≤ p.n ∧ p.n < 8).length := by
    induction l with
    | nil => rfl
    | cons p l ih =>
      rw [List.flatMap_cons, List.length_append, ih, Pattern.keys4, List.filter_cons]
      by_cases hn : 4 ≤ p.n ∧ p.n < 8
      · simp [hn]
        omega
      · simp [hn]
  calc
    bucket.length ≤ (patterns.flatMap Pattern.keys4).length := (hnodup.subperm hsub).length_le
    _ = 16 * (patterns.filter fun p ↦ 4 ≤ p.n ∧ p.n < 8).length := hkeys patterns
    _ < 2 ^ 16 := by omega

theorem tableFits_table8 : TableFits (table8 patterns) := by
  apply tableFits_of_lt hiid hlength
  intro i bucket hnodup h
  have hsub : bucket ⊆
      patterns.map fun p ↦ fragment64 fun k ↦ p.patrn.getD (p.position + k) 0 := by
    intro key hkey
    obtain ⟨p, hp, hmem⟩ := List.mem_flatMap.mp (h key hkey).1
    rw [Pattern.keys8] at hmem
    split_ifs at hmem
    · obtain ⟨-, -, rfl⟩ := List.mem_map.mp hmem
      exact List.mem_map_of_mem hp
    · exact absurd hmem List.not_mem_nil
  calc
    bucket.length ≤ (patterns.map _).length := (hnodup.subperm hsub).length_le
    _ = patterns.length := List.length_map _
    _ < 2 ^ 16 := hlength

theorem nestedFits {ι κ : Type} [DecidableEq ι] [DecidableEq κ] {hash : κ → ι}
    (keys : Pattern → List κ) (length : ℕ) :
    NestedFits fun i ↦ (KeyedTable.addAll hash (fun _ ↦ []) (enter keys patterns) i).map
      (filterEntry (matchList patterns) length) := by
  intro i entry hentry nested hnested
  obtain ⟨stored, hstored, rfl⟩ := List.mem_map.mp hentry
  have hnames : Names patterns stored.2 fun p ↦ stored.1 ∈ keys p := by
    rw [KeyedTable.eq_pushAll_of_mem hash hstored]
    exact names_pushAll keys patterns stored.1
  rw [filterEntry] at hnested
  split_ifs at hnested
  · obtain rfl := Option.some.inj hnested
    apply tableFits_index2
    · apply List.Nodup.sublist (List.filter_sublist.map Pattern.iid)
      rw [hnames.map_iid_map hiid]
      exact hnames.nodup
    · calc
        _ ≤ (stored.2.map (matchList patterns)).length := List.length_filter_le _ _
        _ = (patterns.filter fun p ↦ stored.1 ∈ keys p).length := by
          rw [List.length_map, hnames.length_eq hiid]
        _ ≤ patterns.length := List.length_filter_le _ _
        _ < 2 ^ 16 := hlength
  · exact absurd hnested (Option.not_mem_none _)

/-- Patterns that are not too many fit into the tables. -/
theorem fits_of_lt (h1 : ∀ c, (patterns.filter fun p ↦ p.n = 1 ∧ p.Accepts 0 c).length ≤ 100)
    (h4 : (patterns.filter fun p ↦ 4 ≤ p.n ∧ p.n < 8).length < 2 ^ 12) : Fits patterns := by
  refine ⟨fun c ↦ ?_, tableFits_index2 hiid hlength _, tableFits_table4 hiid hlength h4,
    tableFits_table8 hiid hlength, nestedFits hiid hlength _ 2, nestedFits hiid hlength _ 4,
    nestedFits hiid hlength _ 8⟩
  rw [table1, (names_pushAll Pattern.keys1 patterns c).length_eq hiid]
  simpa only [Pattern.mem_keys1_iff] using h1 c

end

end Systemish.Hyperscan.Dfc
