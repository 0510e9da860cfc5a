import Mathlib

/-!
# Edits of a token stream

A rewriter collects edits of a token stream by index and leaves the stream itself
alone. A later edit of a token takes the place of an earlier one.
-/

namespace Systemish.Foundation

variable {τ β : Type*}

/-- What becomes of a token. -/
inductive Edit (β : Type*) where
  | delete
  | replace (text : β)

/-- The edits, by token index. -/
def Rewriter (β : Type*) := ℕ → Option (Edit β)

namespace Rewriter

/-- No edits. -/
def start : Rewriter β := fun _ ↦ none

def delete (edits : Rewriter β) (i : ℕ) : Rewriter β := Function.update edits i (some .delete)

def replace (edits : Rewriter β) (i : ℕ) (text : β) : Rewriter β :=
  Function.update edits i (some (.replace text))

/-- Delete `count` tokens from index `first` on. -/
def deleteRange (edits : Rewriter β) (first count : ℕ) : Rewriter β := fun i ↦
  if first ≤ i ∧ i < first + count then some .delete else edits i

/-- What an edit makes of a token. `unchanged` says what a token is without an edit. -/
def apply (unchanged : τ → List β) : Option (Edit β) → τ → List β
  | none, token => unchanged token
  | some .delete, _ => []
  | some (.replace text), _ => [text]

/-- The tokens after the edits. The first of them has index `first`. -/
def render (unchanged : τ → List β) (edits : Rewriter β) : (first : ℕ) → List τ → List β
  | _, [] => []
  | first, token :: tokens =>
    apply unchanged (edits first) token ++ render unchanged edits (first + 1) tokens

variable {unchanged : τ → List β} {edits edits' : Rewriter β} {first count : ℕ}

theorem delete_self (edits : Rewriter β) (i : ℕ) : edits.delete i i = some .delete :=
  Function.update_self _ _ _

theorem delete_of_ne (edits : Rewriter β) {i j : ℕ} (h : j ≠ i) : edits.delete i j = edits j :=
  Function.update_of_ne h _ _

theorem replace_self (edits : Rewriter β) (i : ℕ) (text : β) :
    edits.replace i text i = some (.replace text) := Function.update_self _ _ _

theorem replace_of_ne (edits : Rewriter β) {i j : ℕ} (h : j ≠ i) (text : β) :
    edits.replace i text j = edits j := Function.update_of_ne h _ _

theorem deleteRange_inside {i : ℕ} (h : first ≤ i) (h' : i < first + count) :
    edits.deleteRange first count i = some .delete := if_pos ⟨h, h'⟩

theorem deleteRange_outside {i : ℕ} (h : i < first ∨ first + count ≤ i) :
    edits.deleteRange first count i = edits i := if_neg (by omega)

theorem deleteRange_untouched {i : ℕ} (h : edits i = none) :
    edits.deleteRange first count i = none ∨ edits.deleteRange first count i = some .delete := by
  by_cases hi : first ≤ i ∧ i < first + count
  · exact .inr (deleteRange_inside hi.1 hi.2)
  · rw [deleteRange_outside (by omega)]
    exact .inl h

theorem deleteRange_zero (edits : Rewriter β) (first : ℕ) : edits.deleteRange first 0 = edits := by
  funext i
  exact deleteRange_outside (by omega)

theorem deleteRange_succ (edits : Rewriter β) (first count : ℕ) :
    (edits.delete first).deleteRange (first + 1) count = edits.deleteRange first (count + 1) := by
  funext i
  rcases Nat.lt_trichotomy i first with hlt | rfl | hgt
  · rw [deleteRange_outside (by omega), deleteRange_outside (by omega), delete_of_ne _ (by omega)]
  · rw [deleteRange_outside (by omega), deleteRange_inside (by omega) (by omega), delete_self]
  · by_cases hi : i < first + (count + 1)
    · rw [deleteRange_inside (by omega) (by omega), deleteRange_inside (by omega) hi]
    · rw [deleteRange_outside (by omega), deleteRange_outside (by omega),
        delete_of_ne _ (by omega)]

theorem deleteRange_add (edits : Rewriter β) (first count count' : ℕ) :
    (edits.deleteRange first count).deleteRange (first + count) count' =
      edits.deleteRange first (count + count') := by
  funext i
  simp only [deleteRange]
  grind

/-! ## Rendering -/

theorem render_append (tokens tokens' : List τ) (first : ℕ) :
    render unchanged edits first (tokens ++ tokens') =
      render unchanged edits first tokens ++
        render unchanged edits (first + tokens.length) tokens' := by
  induction tokens generalizing first with
  | nil => rfl
  | cons token tokens ih =>
    simp only [List.cons_append, render, ih, List.append_assoc, List.length_cons]
    rw [Nat.add_right_comm, Nat.add_assoc first]

/-- Only the edits of the tokens themselves matter. -/
theorem render_congr {tokens : List τ}
    (h : ∀ i, first ≤ i → i < first + tokens.length → edits i = edits' i) :
    render unchanged edits first tokens = render unchanged edits' first tokens := by
  induction tokens generalizing first with
  | nil => rfl
  | cons token tokens ih =>
    rw [List.length_cons] at h
    rw [render, render, h first (by omega) (by omega), ih fun i hi hi' ↦ h i (by omega) (by omega)]

/-- Each token shows `shown` of it, if its edit makes it do so. -/
theorem render_eq_flatMap {tokens : List τ} {shown : τ → List β}
    (h : ∀ i, first ≤ i → i < first + tokens.length → ∀ token ∈ tokens,
      apply unchanged (edits i) token = shown token) :
    render unchanged edits first tokens = tokens.flatMap shown := by
  induction tokens generalizing first with
  | nil => rfl
  | cons token tokens ih =>
    rw [List.length_cons] at h
    have hhead := h first (by omega) (by omega) token List.mem_cons_self
    have htail := ih fun i hi hi' other hother ↦
      h i (Nat.le_of_succ_le hi) (by omega) other (List.mem_cons_of_mem _ hother)
    rw [render, hhead, htail, List.flatMap_cons]

theorem render_untouched {tokens : List τ}
    (h : ∀ i, first ≤ i → i < first + tokens.length → edits i = none) :
    render unchanged edits first tokens = tokens.flatMap unchanged := by
  apply render_eq_flatMap
  intro i hi hi' token _
  rw [h i hi hi', apply]

theorem render_eq_nil {tokens : List τ}
    (h : ∀ i, first ≤ i → i < first + tokens.length → ∀ token ∈ tokens,
      apply unchanged (edits i) token = []) : render unchanged edits first tokens = [] := by
  rw [render_eq_flatMap h]
  simp

theorem render_deleted {tokens : List τ}
    (h : ∀ i, first ≤ i → i < first + tokens.length → edits i = some .delete) :
    render unchanged edits first tokens = [] := by
  apply render_eq_nil
  intro i hi hi' token _
  rw [h i hi hi', apply]

/-- Tokens that show nothing show nothing after deletions either. -/
theorem render_blank {tokens : List τ} (hblank : ∀ token ∈ tokens, unchanged token = [])
    (h : ∀ i, first ≤ i → i < first + tokens.length → edits i = none ∨ edits i = some .delete) :
    render unchanged edits first tokens = [] := by
  apply render_eq_nil
  intro i hi hi' token htoken
  rcases h i hi hi' with hnone | hdelete
  · rw [hnone, apply, hblank token htoken]
  · rw [hdelete, apply]

end Rewriter

end Systemish.Foundation
