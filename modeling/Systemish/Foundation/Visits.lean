import Systemish.Foundation.ForLoop

/-!
# Loops over the cells of an array

Nested loops that visit the cells of an array and change only the cell that they visit. The order
of the visits makes no difference: each cell goes through as many rounds as it has visits.
-/

namespace Systemish.Foundation

variable {n : ℕ} {α β γ : Type*}

/-- `cells[index] = f(cells[index])`, a fault outside the array and where `f` faults. -/
def visit (f : Fin n → α → Option α) (cells : Fin n → α) (index : ℕ) : Option (Fin n → α) :=
  if h : index < n then
    (f ⟨index, h⟩ (cells ⟨index, h⟩)).map (Function.update cells ⟨index, h⟩)
  else none

/-- The same, where the index is a machine integer. -/
def visitInt {w : ℕ} (f : Fin n → α → Option α) (cells : Fin n → α) (index : BitVec w) :
    Option (Fin n → α) :=
  if 0 ≤ index.toInt then visit f cells index.toInt.toNat else none

theorem visitInt_ofNat {w index : ℕ} (f : Fin n → α → Option α) (cells : Fin n → α)
    (h : index < 2 ^ w) : visitInt f cells (BitVec.ofNat (w + 1) index) = visit f cells index := by
  rw [visitInt, toInt_ofNat_of_lt h, if_pos (Int.natCast_nonneg index), Int.toNat_natCast]

/-- Loops whose rounds do the same do the same. -/
theorem foldlM_congr {step step' : γ → α → Option γ} {order : List α}
    (h : ∀ i ∈ order, ∀ state, step state i = step' state i) (start : γ) :
    order.foldlM step start = order.foldlM step' start := by
  induction order generalizing start with
  | nil => rfl
  | cons i order ih =>
    obtain ⟨hi, hrest⟩ := List.forall_mem_cons.mp h
    rw [List.foldlM_cons, List.foldlM_cons, hi]
    exact congrArg _ (funext (ih hrest))

variable (P : α → Prop) {f : Fin n → α → Option α} {g : Fin n → α → α} {cells : Fin n → α}

/-- The cells after visits in a given order. On values with the property `P`, which each round
keeps, `f` is `g` and does not fault. -/
theorem foldlM_visit (hf : ∀ i value, P value → f i value = some (g i value) ∧ P (g i value))
    (order : List ℕ) (horder : ∀ index ∈ order, index < n) (hcells : ∀ i, P (cells i)) :
    order.foldlM (visit f) cells = some fun i ↦ (g i)^[order.count (i : ℕ)] (cells i) := by
  induction order generalizing cells with
  | nil => rfl
  | cons index order ih =>
    obtain ⟨hindex, hrest⟩ := List.forall_mem_cons.mp horder
    obtain ⟨hvalue, hkeeps⟩ := hf ⟨index, hindex⟩ _ (hcells ⟨index, hindex⟩)
    have hupdated : ∀ i, P (Function.update cells ⟨index, hindex⟩
        (g ⟨index, hindex⟩ (cells ⟨index, hindex⟩)) i) := by
      intro i
      by_cases hi : i = ⟨index, hindex⟩
      · subst hi
        rwa [Function.update_self]
      · rw [Function.update_of_ne hi]
        exact hcells i
    rw [List.foldlM_cons, visit, dif_pos hindex, hvalue, Option.map_some, Option.bind_eq_bind,
      Option.bind_some, ih hrest hupdated]
    congr 1
    funext i
    by_cases hi : i = ⟨index, hindex⟩
    · subst hi
      rw [Function.update_self, List.count_cons_self, Function.iterate_succ_apply]
    · have hne : index ≠ (i : ℕ) := fun h ↦ hi (Fin.ext h.symm)
      rw [Function.update_of_ne hi, List.count_cons_of_ne hne]

/-- An inner loop that depends on the outer one is part of one long loop. -/
theorem foldlM_flatMap (step : γ → α → Option γ) (outer : List β) (inner : β → List α) (start : γ) :
    (outer.flatMap inner).foldlM step start =
      outer.foldlM (fun state i ↦ (inner i).foldlM step state) start := by
  induction outer generalizing start with
  | nil => rfl
  | cons i outer ih =>
    rw [List.flatMap_cons, List.foldlM_append, List.foldlM_cons]
    exact congrArg _ (funext ih)

/-- A cell that only one turn of the outer loop visits. -/
theorem count_flatMap_range {m turn index : ℕ} (inner : ℕ → List ℕ) (hturn : turn < m)
    (honly : ∀ other, other ≠ turn → index ∉ inner other) :
    ((List.range m).flatMap inner).count index = (inner turn).count index := by
  rw [List.count_flatMap, List.sum_map_eq_nsmul_single turn,
    List.count_eq_one_of_mem List.nodup_range (List.mem_range.mpr hturn), one_smul]
  · rfl
  · intro other hne _
    exact List.count_eq_zero.mpr (honly other hne)

/-- A cell that each turn of the outer loop visits. -/
theorem count_flatMap_const (m index : ℕ) (inner : List ℕ) :
    ((List.range m).flatMap fun _ ↦ inner).count index = m * inner.count index := by
  rw [List.count_flatMap]
  change ((List.range m).map fun _ ↦ inner.count index).sum = _
  rw [List.map_const', List.sum_replicate, List.length_range, smul_eq_mul]

/-- Cell by cell, with all rounds of a cell in a row. -/
theorem foldlM_cell_by_cell
    (hf : ∀ i value, P value → f i value = some (g i value) ∧ P (g i value)) (rounds : ℕ)
    (hcells : ∀ i, P (cells i)) :
    (List.range n).foldlM (fun cells i ↦
        (List.range rounds).foldlM (fun cells _ ↦ visit f cells i) cells) cells =
      some fun i ↦ (g i)^[rounds] (cells i) := by
  let order := (List.range n).flatMap fun i ↦ (List.range rounds).flatMap fun _ ↦ [i]
  have hmem : ∀ index ∈ order, index < n := by
    intro index hindex
    obtain ⟨i, hi, hinner⟩ := List.mem_flatMap.mp hindex
    obtain ⟨_, _, hsingle⟩ := List.mem_flatMap.mp hinner
    rw [List.mem_singleton.mp hsingle]
    exact List.mem_range.mp hi
  have hcount (i : Fin n) : order.count (i : ℕ) = rounds := by
    rw [count_flatMap_range _ i.isLt, count_flatMap_const, List.count_singleton_self, Nat.mul_one]
    intro other hne hinner
    obtain ⟨_, _, hsingle⟩ := List.mem_flatMap.mp hinner
    exact hne (List.mem_singleton.mp hsingle).symm
  calc
    _ = order.foldlM (visit f) cells := by
      simp only [order, foldlM_flatMap, List.foldlM_cons, List.foldlM_nil, bind_pure]
    _ = some fun i ↦ (g i)^[order.count (i : ℕ)] (cells i) := foldlM_visit P hf order hmem hcells
    _ = _ := by simp only [hcount]

theorem visit_eq {i : Fin n} {value : α} (h : f i (cells i) = some value) :
    visit f cells i = some (Function.update cells i value) := by
  rw [visit, dif_pos i.isLt, Fin.eta, h, Option.map_some]

/-- One visit to each cell. -/
theorem foldlM_visit_once {values : Fin n → α} (h : ∀ i, f i (cells i) = some (values i)) :
    (List.range n).foldlM (visit f) cells = some values := by
  have hpart (k : ℕ) (hk : k ≤ n) : (List.range k).foldlM (visit f) cells =
      some fun i : Fin n ↦ if (i : ℕ) < k then values i else cells i := by
    induction k with
    | zero => rfl
    | succ k ih =>
      let current : Fin n → α := fun i ↦ if (i : ℕ) < k then values i else cells i
      have hcurrent : current ⟨k, hk⟩ = cells ⟨k, hk⟩ := if_neg (lt_irrefl k)
      have hvisit : visit f current k = some (Function.update current ⟨k, hk⟩ (values ⟨k, hk⟩)) :=
        visit_eq (i := ⟨k, hk⟩) (by rw [hcurrent, h])
      rw [List.range_succ, List.foldlM_append, ih (Nat.le_of_succ_le hk), Option.bind_eq_bind,
        Option.bind_some, List.foldlM_cons, hvisit, Option.bind_eq_bind, Option.bind_some,
        List.foldlM_nil, Option.pure_def]
      congr 1
      funext i
      by_cases hi : i = ⟨k, hk⟩
      · subst hi
        rw [Function.update_self, if_pos (Nat.lt_succ_self k)]
      · have hne : (i : ℕ) ≠ k := fun heq ↦ hi (Fin.ext heq)
        have hiff : (i : ℕ) < k ↔ (i : ℕ) < k + 1 := by omega
        simp only [Function.update_of_ne hi, current, hiff]
  rw [hpart n le_rfl]
  simp only [Fin.is_lt, if_true]

end Systemish.Foundation
