import Mathlib

/-!
# Lists under keys

Values are pushed onto lists, one list for each key, and a value that is there is not pushed again.
A hash table implements this whose buckets are arrays of entries, each with a key and its list: it
holds under a key what was added under it, whatever the hash function.
-/

namespace Systemish.Foundation

variable {ι κ ν : Type*} [DecidableEq κ]

section Push

variable [DecidableEq ν]

/-- Push a value onto the list of a key, unless it is there. -/
def push (lists : κ → List ν) (key : κ) (value : ν) : κ → List ν :=
  Function.update lists key (if value ∈ lists key then lists key else lists key ++ [value])

/-- Push values, one after the other. -/
def pushAll (lists : κ → List ν) (pairs : List (κ × ν)) : κ → List ν :=
  pairs.foldl (fun lists pair ↦ push lists pair.1 pair.2) lists

theorem mem_push (lists : κ → List ν) (key other : κ) (value new : ν) :
    value ∈ push lists key new other ↔ other = key ∧ value = new ∨ value ∈ lists other := by
  rw [push]
  by_cases hkey : other = key
  · subst hkey
    rw [Function.update_self]
    split_ifs with hmem
    · exact ⟨.inr, fun h ↦ h.elim (fun heq ↦ heq.2 ▸ hmem) id⟩
    · rw [List.mem_append, List.mem_singleton]
      tauto
  · rw [Function.update_of_ne hkey]
    tauto

theorem mem_pushAll (lists : κ → List ν) (pairs : List (κ × ν)) (key : κ) (value : ν) :
    value ∈ pushAll lists pairs key ↔ (key, value) ∈ pairs ∨ value ∈ lists key := by
  induction pairs generalizing lists with
  | nil => simp [pushAll]
  | cons pair pairs ih =>
    have hrest := ih (push lists pair.1 pair.2)
    rw [pushAll] at hrest ⊢
    rw [List.foldl_cons, hrest, mem_push, List.mem_cons, Prod.ext_iff]
    tauto

theorem nodup_pushAll {lists : κ → List ν} (pairs : List (κ × ν)) (h : ∀ key, (lists key).Nodup)
    (key : κ) : (pushAll lists pairs key).Nodup := by
  induction pairs generalizing lists with
  | nil => exact h key
  | cons pair pairs ih =>
    apply ih
    intro other
    change (push lists pair.1 pair.2 other).Nodup
    rw [push]
    by_cases hother : other = pair.1
    · subst hother
      rw [Function.update_self]
      split_ifs with hmem
      · exact h pair.1
      · exact List.nodup_append_comm.mp (List.nodup_cons.mpr ⟨hmem, h pair.1⟩)
    · rw [Function.update_of_ne hother]
      exact h other

end Push

/-- The entries of a bucket, in the order in which their keys came. -/
abbrev KeyedLists (κ ν : Type*) := List (κ × List ν)

namespace KeyedLists

/-- Add a value to the entry of a key. A new key gets a new entry at the end. -/
def add [DecidableEq ν] (key : κ) (value : ν) : KeyedLists κ ν → KeyedLists κ ν
  | [] => [(key, [value])]
  | entry :: entries =>
    if entry.1 = key then
      (entry.1, if value ∈ entry.2 then entry.2 else entry.2 ++ [value]) :: entries
    else entry :: add key value entries

/-- What the first entry of a key holds. -/
def under (entries : KeyedLists κ ν) (key : κ) : List ν :=
  match entries.find? fun entry ↦ entry.1 = key with
  | none => []
  | some entry => entry.2

@[simp]
theorem under_nil (key : κ) : under ([] : KeyedLists κ ν) key = [] := rfl

theorem under_cons (entry : κ × List ν) (entries : KeyedLists κ ν) (key : κ) :
    under (entry :: entries) key = if entry.1 = key then entry.2 else under entries key := by
  unfold under
  rw [List.find?_cons]
  by_cases h : entry.1 = key
  · simp [h]
  · simp [h]

theorem under_add [DecidableEq ν] (key : κ) (value : ν) (entries : KeyedLists κ ν) :
    under (add key value entries) = push (under entries) key value := by
  induction entries with
  | nil =>
    funext other
    rw [add, under_cons, push]
    by_cases h : other = key
    · simp [h]
    · simp [h, Ne.symm h]
  | cons entry entries ih =>
    funext other
    rw [add, push]
    split
    · next hkey =>
      subst hkey
      by_cases h : other = entry.1
      · simp [h, under_cons]
      · simp [h, Ne.symm h, under_cons]
    · next hkey =>
      rw [under_cons, ih, push, under_cons entry entries key, if_neg hkey]
      by_cases h : other = key
      · rw [h, Function.update_self, if_neg hkey, Function.update_self]
      · rw [Function.update_of_ne h, Function.update_of_ne h, under_cons]

/-- If keys do not repeat, an entry is found under its key. -/
theorem under_eq_of_mem {entries : KeyedLists κ ν} {entry : κ × List ν}
    (hnodup : (entries.map Prod.fst).Nodup) (h : entry ∈ entries) :
    under entries entry.1 = entry.2 := by
  induction entries with
  | nil => exact absurd h List.not_mem_nil
  | cons first entries ih =>
    obtain ⟨hfirst, hrest⟩ := List.nodup_cons.mp hnodup
    rw [under_cons]
    rcases List.mem_cons.mp h with rfl | hmem
    · rw [if_pos rfl]
    · have hne : first.1 ≠ entry.1 := fun heq ↦ hfirst (heq ▸ List.mem_map_of_mem hmem)
      rw [if_neg hne, ih hrest hmem]

theorem keys_add [DecidableEq ν] (key : κ) (value : ν) (entries : KeyedLists κ ν) :
    (add key value entries).map Prod.fst =
      if key ∈ entries.map Prod.fst then entries.map Prod.fst
      else entries.map Prod.fst ++ [key] := by
  induction entries with
  | nil => rfl
  | cons entry entries ih =>
    rw [add]
    split
    · next hkey => simp [hkey]
    · next hkey =>
      rw [List.map_cons, ih, List.map_cons]
      by_cases h : key ∈ entries.map Prod.fst
      · rw [if_pos h, if_pos (List.mem_cons_of_mem _ h)]
      · have hnot : key ∉ entry.1 :: entries.map Prod.fst :=
          List.not_mem_cons_of_ne_of_not_mem (Ne.symm hkey) h
        rw [if_neg h, if_neg hnot, List.cons_append]

end KeyedLists

/-- A table of buckets. -/
abbrev KeyedTable (ι κ ν : Type*) := ι → KeyedLists κ ν

namespace KeyedTable

variable [DecidableEq ι] [DecidableEq ν] (hash : κ → ι)

def add (table : KeyedTable ι κ ν) (key : κ) (value : ν) : KeyedTable ι κ ν :=
  Function.update table (hash key) (KeyedLists.add key value (table (hash key)))

/-- Add values under keys, one after the other. -/
def addAll (table : KeyedTable ι κ ν) (pairs : List (κ × ν)) : KeyedTable ι κ ν :=
  pairs.foldl (fun table pair ↦ add hash table pair.1 pair.2) table

def under (table : KeyedTable ι κ ν) (key : κ) : List ν := (table (hash key)).under key

theorem under_add (table : KeyedTable ι κ ν) (key : κ) (value : ν) :
    under hash (add hash table key value) = push (under hash table) key value := by
  funext other
  unfold under add
  by_cases hsame : hash other = hash key
  · rw [hsame, Function.update_self, KeyedLists.under_add, push, push]
    by_cases h : other = key
    · rw [h, Function.update_self, Function.update_self]
    · rw [Function.update_of_ne h, Function.update_of_ne h, hsame]
  · have hne : other ≠ key := fun h ↦ hsame (h ▸ rfl)
    rw [Function.update_of_ne hsame, push, Function.update_of_ne hne]

theorem under_addAll (table : KeyedTable ι κ ν) (pairs : List (κ × ν)) :
    under hash (addAll hash table pairs) = pushAll (under hash table) pairs := by
  induction pairs generalizing table with
  | nil => rfl
  | cons pair pairs ih =>
    have hrest := ih (add hash table pair.1 pair.2)
    rwa [under_add] at hrest

/-- The keys of a bucket do not repeat, and they are keys that were added. -/
theorem keys_addAll (table : KeyedTable ι κ ν) (pairs : List (κ × ν)) (i : ι)
    (h : ((table i).map Prod.fst).Nodup) :
    ((addAll hash table pairs i).map Prod.fst).Nodup ∧
      ∀ key ∈ (addAll hash table pairs i).map Prod.fst,
        key ∈ (table i).map Prod.fst ∨ key ∈ pairs.map Prod.fst ∧ hash key = i := by
  induction pairs generalizing table with
  | nil => exact ⟨h, fun _ ↦ .inl⟩
  | cons pair pairs ih =>
    have hstep : (((add hash table pair.1 pair.2) i).map Prod.fst).Nodup ∧
        ∀ key ∈ ((add hash table pair.1 pair.2) i).map Prod.fst,
          key ∈ (table i).map Prod.fst ∨ key = pair.1 ∧ hash key = i := by
      by_cases hi : i = hash pair.1
      · subst hi
        rw [add, Function.update_self, KeyedLists.keys_add]
        split_ifs with hmem
        · exact ⟨h, fun _ ↦ .inl⟩
        · refine ⟨List.nodup_append_comm.mp (List.nodup_cons.mpr ⟨hmem, h⟩), fun key hkey ↦ ?_⟩
          apply (List.mem_append.mp hkey).imp_right
          intro hnew
          obtain rfl := List.mem_singleton.mp hnew
          exact ⟨rfl, rfl⟩
      · rw [add, Function.update_of_ne hi]
        exact ⟨h, fun _ ↦ .inl⟩
    obtain ⟨hnodup, hsub⟩ := ih _ hstep.1
    refine ⟨hnodup, fun key hkey ↦ ?_⟩
    rcases hsub key hkey with hold | ⟨hmem, hhash⟩
    · apply (hstep.2 key hold).imp_right
      exact fun ⟨heq, hhash⟩ ↦ ⟨heq ▸ List.mem_cons_self, hhash⟩
    · exact .inr ⟨List.mem_cons_of_mem _ hmem, hhash⟩

/-- The entries of a table to which pairs were added hold what was pushed. -/
theorem eq_pushAll_of_mem {pairs : List (κ × ν)} {i : ι} {entry : κ × List ν}
    (h : entry ∈ addAll hash (fun _ ↦ []) pairs i) :
    entry.2 = pushAll (fun _ ↦ []) pairs entry.1 := by
  obtain ⟨hnodup, hkeys⟩ := keys_addAll hash (fun _ ↦ []) pairs i List.nodup_nil
  have hhash : hash entry.1 = i := by
    rcases hkeys entry.1 (List.mem_map_of_mem h) with hold | ⟨-, hhash⟩
    · exact absurd hold List.not_mem_nil
    · exact hhash
  have hunder := congrFun (under_addAll hash (fun _ ↦ []) pairs) entry.1
  rw [under, hhash, KeyedLists.under_eq_of_mem hnodup h] at hunder
  exact hunder

end KeyedTable

end Systemish.Foundation
