import Mathlib

/-!
# Ordered maps

What is asked of a table over ordered keys: it finds what was inserted last under a
key, and a scan visits the entries from a key on in ascending order until the visitor
stops it. The list of the entries in ascending order is such a table.
-/

namespace Systemish.Foundation

variable {τ κ ν σ : Type*}

/-- The operations of a table with states in `τ`, and visitors with states in `σ`. -/
structure Table (τ κ ν σ : Type*) where
  empty : τ
  insert : τ → κ → ν → τ
  find : τ → κ → Option ν
  scan : τ → (first : κ) → (visit : σ → ν → σ × Bool) → σ → σ

/-- Visit entries until the visitor says that it does not go on. -/
def scanEntries (visit : σ → ν → σ × Bool) : σ → List (κ × ν) → σ
  | state, [] => state
  | state, entry :: entries =>
    if (visit state entry.2).2 then scanEntries visit (visit state entry.2).1 entries
    else (visit state entry.2).1

variable [LinearOrder κ]

/-- The keys of the entries are ascending. -/
def Ascending (entries : List (κ × ν)) : Prop :=
  entries.Pairwise fun entry other ↦ entry.1 < other.1

/-- The table is a map with scans in the order of the keys. -/
structure Table.IsOrderedMap (table : Table τ κ ν σ) : Prop where
  find_empty : ∀ key, table.find table.empty key = none
  find_insert : ∀ state key value other,
    table.find (table.insert state key value) other =
      if other = key then some value else table.find state other
  scan_ascending : ∀ state first, ∃ entries : List (κ × ν), Ascending entries ∧
    (∀ key value, (key, value) ∈ entries ↔ first ≤ key ∧ table.find state key = some value) ∧
    ∀ visit visitor, table.scan state first visit visitor = scanEntries visit visitor entries

/-- Ascending lists with the same entries are the same. -/
theorem Ascending.eq {entries entries' : List (κ × ν)} (h : Ascending entries)
    (h' : Ascending entries') (hmem : ∀ entry, entry ∈ entries ↔ entry ∈ entries') :
    entries = entries' := by
  have hnodup {entries : List (κ × ν)} (h : Ascending entries) : entries.Nodup :=
    h.imp fun hlt heq ↦ ne_of_lt hlt (congrArg Prod.fst heq)
  have hperm := (List.perm_ext_iff_of_nodup (hnodup h) (hnodup h')).mpr hmem
  exact hperm.eq_of_pairwise (fun _ _ _ _ hlt hgt ↦ absurd hgt (lt_asymm hlt)) h h'

/-! ## The list of the entries -/

/-- A map with its entries in ascending order of the keys. -/
structure OrderedMap (κ ν : Type*) [LinearOrder κ] where
  entries : List (κ × ν)
  sorted : Ascending entries

/-- Put a value under a key, in place of the value that is there. -/
def insertEntry (key : κ) (value : ν) : List (κ × ν) → List (κ × ν)
  | [] => [(key, value)]
  | entry :: entries =>
    if key < entry.1 then (key, value) :: entry :: entries
    else if key = entry.1 then (key, value) :: entries
    else entry :: insertEntry key value entries

variable {key other : κ} {value : ν} {entries : List (κ × ν)}

theorem mem_insertEntry {entry : κ × ν} (h : entry ∈ insertEntry key value entries) :
    entry = (key, value) ∨ entry ∈ entries := by
  induction entries with
  | nil => exact .inl (List.mem_singleton.mp h)
  | cons first entries ih =>
    rw [insertEntry] at h
    split at h
    · exact List.mem_cons.mp h
    · split at h
      · exact (List.mem_cons.mp h).imp_right (List.mem_cons_of_mem _)
      · rcases List.mem_cons.mp h with rfl | hrest
        · exact .inr List.mem_cons_self
        · exact (ih hrest).imp_right (List.mem_cons_of_mem _)

theorem insertEntry_sorted (h : Ascending entries) :
    Ascending (insertEntry key value entries) := by
  induction entries with
  | nil => exact List.pairwise_singleton _ _
  | cons first entries ih =>
    obtain ⟨hfirst, hrest⟩ := List.pairwise_cons.mp h
    rw [insertEntry]
    split
    · next hlt =>
      apply List.pairwise_cons.mpr
      refine ⟨fun entry hentry ↦ ?_, h⟩
      rcases List.mem_cons.mp hentry with rfl | hmem
      · exact hlt
      · exact hlt.trans (hfirst entry hmem)
    · next hge =>
      split
      · next heq =>
        exact List.pairwise_cons.mpr ⟨fun entry hentry ↦ heq ▸ hfirst entry hentry, hrest⟩
      · next hne =>
        apply List.pairwise_cons.mpr
        refine ⟨fun entry hentry ↦ ?_, ih hrest⟩
        rcases mem_insertEntry hentry with rfl | hmem
        · exact lt_of_le_of_ne (not_lt.mp hge) (Ne.symm hne)
        · exact hfirst entry hmem

theorem lookup_cons_eq (entry : κ × ν) (entries : List (κ × ν)) (key : κ) :
    (entry :: entries).lookup key = if key = entry.1 then some entry.2 else entries.lookup key := by
  by_cases h : key = entry.1
  · simp [List.lookup, h]
  · have hbeq : (key == entry.1) = false := beq_eq_false_iff_ne.mpr h
    rw [List.lookup, hbeq, if_neg h]

theorem lookup_insertEntry (key : κ) (value : ν) (entries : List (κ × ν)) (other : κ) :
    (insertEntry key value entries).lookup other =
      if other = key then some value else entries.lookup other := by
  induction entries with
  | nil => rw [insertEntry, lookup_cons_eq]
  | cons first entries ih =>
    rw [insertEntry]
    split
    · rw [lookup_cons_eq]
    · split
      · next heq =>
        rw [lookup_cons_eq, lookup_cons_eq]
        by_cases hother : other = key
        · rw [if_pos hother, if_pos hother]
        · rw [if_neg hother, if_neg hother, if_neg (heq ▸ hother)]
      · next hne =>
        rw [lookup_cons_eq, lookup_cons_eq, ih]
        by_cases hother : other = first.1
        · rw [if_pos hother, if_pos hother, if_neg (hother ▸ Ne.symm hne)]
        · rw [if_neg hother, if_neg hother]

/-- In ascending order, what is found under a key is its entry. -/
theorem lookup_eq_some_iff (h : Ascending entries) :
    entries.lookup key = some value ↔ (key, value) ∈ entries := by
  induction entries with
  | nil => simp
  | cons first entries ih =>
    obtain ⟨hfirst, hrest⟩ := List.pairwise_cons.mp h
    rw [lookup_cons_eq, List.mem_cons, ← ih hrest]
    by_cases hkey : key = first.1
    · subst hkey
      have hnone : entries.lookup first.1 ≠ some value :=
        fun hsome ↦ lt_irrefl first.1 (hfirst (first.1, value) ((ih hrest).mp hsome))
      simp [hnone, Prod.ext_iff, eq_comm]
    · simp [hkey, Prod.ext_iff]

namespace OrderedMap

/-- No entries. -/
def empty : OrderedMap κ ν := ⟨[], .nil⟩

variable (m : OrderedMap κ ν)

def insert (key : κ) (value : ν) : OrderedMap κ ν :=
  ⟨insertEntry key value m.entries, insertEntry_sorted m.sorted⟩

def find (key : κ) : Option ν := m.entries.lookup key

/-- Visit the entries from a key on in ascending order. -/
def scan (first : κ) (visit : σ → ν → σ × Bool) (visitor : σ) : σ :=
  scanEntries visit visitor (m.entries.filter fun entry ↦ first ≤ entry.1)

def table : Table (OrderedMap κ ν) κ ν σ := ⟨empty, insert, find, scan⟩

theorem isOrderedMap_table : (table : Table (OrderedMap κ ν) κ ν σ).IsOrderedMap where
  find_empty _ := rfl
  find_insert m key value other := lookup_insertEntry key value m.entries other
  scan_ascending m first := by
    refine ⟨m.entries.filter fun entry ↦ first ≤ entry.1, m.sorted.filter _, ?_,
      fun _ _ ↦ rfl⟩
    intro key value
    rw [List.mem_filter, decide_eq_true_iff, and_comm, ← lookup_eq_some_iff m.sorted]
    rfl

end OrderedMap

end Systemish.Foundation
