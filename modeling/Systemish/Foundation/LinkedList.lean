import Mathlib

/-!
# Linked lists in a heap

A heap maps addresses to cells, each with a value and the address of the next cell. A segment is
the list of cells that are met on the way from one address to another. A segment that stops at an
address without a cell is a complete list: it is determined by its start, and it meets no cell
twice.
-/

namespace Systemish.Foundation

variable {A α : Type*}

structure Cell (A α : Type*) where
  data : α
  next : A
deriving DecidableEq

/-- The addresses and values of the cells from `start` up to `stop`. -/
inductive Segment (heap : A → Option (Cell A α)) : A → List (A × α) → A → Prop
  | nil (start : A) : Segment heap start [] start
  | cons {start next stop : A} {value : α} {nodes : List (A × α)}
      (hcell : heap start = some ⟨value, next⟩) (h : Segment heap next nodes stop) :
      Segment heap start ((start, value) :: nodes) stop

namespace Segment

variable {heap heap' : A → Option (Cell A α)} {start middle stop : A} {nodes nodes' : List (A × α)}

theorem append (h : Segment heap start nodes middle) (h' : Segment heap middle nodes' stop) :
    Segment heap start (nodes ++ nodes') stop := by
  induction h with
  | nil => exact h'
  | cons hcell _ ih => exact .cons hcell (ih h')

theorem exists_of_append (h : Segment heap start (nodes ++ nodes') stop) :
    ∃ middle, Segment heap start nodes middle ∧ Segment heap middle nodes' stop := by
  induction nodes generalizing start with
  | nil => exact ⟨start, .nil start, h⟩
  | cons node nodes ih =>
    cases h with
    | cons hcell h =>
      obtain ⟨middle, hfront, hback⟩ := ih h
      exact ⟨middle, .cons hcell hfront, hback⟩

theorem isSome_of_mem (h : Segment heap start nodes stop) {node : A × α} (hnode : node ∈ nodes) :
    heap node.1 ≠ none := by
  induction h with
  | nil => exact absurd hnode List.not_mem_nil
  | cons hcell _ ih =>
    rcases List.mem_cons.mp hnode with rfl | hnode
    · exact hcell ▸ Option.some_ne_none _
    · exact ih hnode

/-- A segment depends on the cells that it meets only. -/
theorem congr (h : Segment heap start nodes stop)
    (hsame : ∀ node ∈ nodes, heap' node.1 = heap node.1) : Segment heap' start nodes stop := by
  induction h with
  | nil => exact .nil _
  | cons hcell _ ih =>
    rw [List.forall_mem_cons] at hsame
    exact .cons (hsame.1.trans hcell) (ih hsame.2)

theorem unique (hstop : heap stop = none) (h : Segment heap start nodes stop)
    (h' : Segment heap start nodes' stop) : nodes = nodes' := by
  induction h generalizing nodes' with
  | nil =>
    cases h' with
    | nil => rfl
    | cons hcell => exact absurd (hstop.symm.trans hcell) (Option.some_ne_none _).symm
  | cons hcell _ ih =>
    cases h' with
    | nil => exact absurd (hstop.symm.trans hcell) (Option.some_ne_none _).symm
    | cons hcell' h' =>
      obtain ⟨rfl, rfl⟩ := Cell.mk.inj (Option.some.inj (hcell.symm.trans hcell'))
      rw [ih hstop h']

theorem start_eq_stop_iff (hstop : heap stop = none) (h : Segment heap start nodes stop) :
    start = stop ↔ nodes = [] := by
  cases h with
  | nil => exact iff_of_true rfl rfl
  | cons hcell =>
    refine iff_of_false (fun heq ↦ ?_) (List.cons_ne_nil _ _)
    rw [heq] at hcell
    exact Option.some_ne_none _ (hcell.symm.trans hstop)

/-- A complete list has no cycle. -/
theorem nodup (hstop : heap stop = none) (h : Segment heap start nodes stop) :
    (nodes.map Prod.fst).Nodup := by
  induction h with
  | nil => exact List.nodup_nil
  | @cons start next stop value nodes hcell h ih =>
    refine List.nodup_cons.mpr ⟨fun hmem ↦ ?_, ih hstop⟩
    -- from the second visit on, the list would have to be the whole list again
    obtain ⟨node, hnode, hstart⟩ := List.mem_map.mp hmem
    obtain ⟨front, back, rfl⟩ := List.append_of_mem hnode
    obtain ⟨middle, _, hback⟩ := h.exists_of_append
    have hmiddle : middle = node.1 := by
      cases hback with
      | cons => rfl
    rw [hmiddle, hstart] at hback
    have hlength := congrArg List.length (unique hstop hback (.cons hcell h))
    simp only [List.length_cons, List.length_append] at hlength
    omega

variable [DecidableEq A]

/-- Removing the first cell. -/
theorem tail_free {value : α} (hstop : heap stop = none)
    (h : Segment heap start ((start, value) :: nodes) stop) :
    ∃ next, heap start = some ⟨value, next⟩ ∧
      Segment (Function.update heap start none) next nodes stop := by
  have hnodup := nodup hstop h
  rw [List.map_cons, List.nodup_cons] at hnodup
  cases h with
  | @cons _ next _ _ _ hcell h =>
    refine ⟨next, hcell, h.congr fun node hnode ↦ Function.update_of_ne ?_ _ _⟩
    intro heq
    have hmem := List.mem_map_of_mem (f := Prod.fst) hnode
    rw [heq] at hmem
    exact hnodup.1 hmem

/-- Linking a new cell behind the last one. -/
theorem concat {last new : A} {value : α} (hstop : heap stop = none)
    (h : Segment heap start (nodes ++ [(last, value)]) stop) (hnew : heap new = none) (value' : α) :
    heap last = some ⟨value, stop⟩ ∧
      Segment (Function.update (Function.update heap new (some ⟨value', stop⟩)) last
        (some ⟨value, new⟩)) start (nodes ++ [(last, value)] ++ [(new, value')]) stop := by
  have hnodup := nodup hstop h
  obtain ⟨middle, hfront, hback⟩ := h.exists_of_append
  cases hback with
  | cons hcell hend =>
    cases hend with
    | nil =>
      refine ⟨hcell, ?_⟩
      have hne : new ≠ last := by
        rintro rfl
        exact Option.some_ne_none _ (hcell.symm.trans hnew)
      -- the cells in front of the last one are neither the last one nor the new one
      have hsame : ∀ node ∈ nodes, Function.update (Function.update heap new (some ⟨value', stop⟩))
          last (some ⟨value, new⟩) node.1 = heap node.1 := by
        intro node hnode
        rw [List.map_append, List.nodup_append] at hnodup
        have hlast := hnodup.2.2 node.1 (List.mem_map_of_mem hnode) last List.mem_cons_self
        have hfresh : node.1 ≠ new := fun heq ↦ hfront.isSome_of_mem hnode (heq ▸ hnew)
        rw [Function.update_of_ne hlast, Function.update_of_ne hfresh]
      rw [List.append_assoc]
      refine (hfront.congr hsame).append (.cons (Function.update_self ..) (.cons ?_ (.nil stop)))
      rw [Function.update_of_ne hne, Function.update_self]

end Segment

end Systemish.Foundation
