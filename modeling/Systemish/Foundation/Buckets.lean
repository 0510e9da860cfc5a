import Mathlib

/-!
# Arrays of stacks

An array of stacks is read as one list of items. Pushing an item onto a stack
adds it to that list and popping removes it, up to the order of the items.
-/

namespace Systemish.Foundation

variable {n : ℕ} {α : Type*}

/-- An array of `n` stacks, the top of each stack first. -/
abbrev Buckets (n : ℕ) (α : Type*) := Fin n → List α

namespace Buckets

/-- All items of all stacks. -/
def items (buckets : Buckets n α) : List α := (List.finRange n).flatMap buckets

theorem flatMap_update_cons {ι : Type*} [DecidableEq ι] (columns : ι → List α) (i : ι) (item : α) :
    ∀ indices : List ι, indices.Nodup → i ∈ indices →
      (indices.flatMap (Function.update columns i (item :: columns i))).Perm
        (item :: indices.flatMap columns)
  | [], _, hi => by simp at hi
  | j :: rest, hnodup, hi => by
    obtain ⟨hj, hrest⟩ := List.nodup_cons.mp hnodup
    by_cases hij : i = j
    · subst hij
      have hsame : rest.flatMap (Function.update columns i (item :: columns i)) =
          rest.flatMap columns := by
        refine List.flatMap_congr fun k hk ↦ ?_
        have hki : k ≠ i := ne_of_mem_of_not_mem hk hj
        rw [Function.update_of_ne hki]
      simp [List.flatMap_cons, hsame]
    · have hmem : i ∈ rest := (List.mem_cons.mp hi).resolve_left hij
      have htail := flatMap_update_cons columns i item rest hrest hmem
      simp only [List.flatMap_cons, Function.update_of_ne (Ne.symm hij)]
      exact (htail.append_left (columns j)).trans List.perm_middle

/-- Pushing onto one stack adds exactly one item. -/
theorem items_push (buckets : Buckets n α) (i : Fin n) (item : α) :
    (items (Function.update buckets i (item :: buckets i))).Perm (item :: buckets.items) :=
  flatMap_update_cons buckets i item _ (List.nodup_finRange n) (List.mem_finRange i)

/-- Popping the top of one stack removes exactly that item. -/
theorem items_pop {buckets : Buckets n α} {i : Fin n} {item : α} {rest : List α}
    (h : buckets i = item :: rest) :
    buckets.items.Perm (item :: items (Function.update buckets i rest)) := by
  have hpush := items_push (Function.update buckets i rest) i item
  simpa only [Function.update_self, Function.update_idem, ← h, Function.update_eq_self] using hpush

/-- Pushing several items onto one stack. -/
theorem items_append (buckets : Buckets n α) (i : Fin n) (more : List α) :
    (items (Function.update buckets i (more ++ buckets i))).Perm (more ++ buckets.items) := by
  induction more with
  | nil => simp
  | cons item more ih =>
    have hpush := items_push (Function.update buckets i (more ++ buckets i)) i item
    simp only [Function.update_self, Function.update_idem] at hpush
    exact hpush.trans (ih.cons item)

end Buckets

end Systemish.Foundation
