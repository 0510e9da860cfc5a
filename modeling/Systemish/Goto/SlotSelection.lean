import Systemish.Foundation.FirstMaximum
import Systemish.Goto.SyntheticDivergence

/-!
# Which slot a hop follows

The loop over the slots in `synthetic-divergence` looks for the slot whose distance from `jumper`
is largest modulo 8. The distance is computed by the macro `ABS`, whose argument `arr[j] - jumper`
is not put in parentheses, so a slot that is not above `jumper` gets the remainder of
`-arr[j] - jumper`. `NUM_BS` is at most `2 ^ 30`, so that no `int` overflows.
-/

namespace Systemish.Goto.SyntheticDivergence

open Foundation

variable {numBs slotsPerBkt : ℕ}

/-- `best_j` after the loop over the slots. -/
def bestJ (arr : Fin slotsPerBkt → CInt) (jumper : CInt) : Option ℕ := do
  let first ← slot arr 0
  let (bestJ, _) ← pickLoop arr jumper (slotsPerBkt - 1) 1 0 (diff first jumper)
  return bestJ

/-- What the loop is after: the distance of a slot from `jumper`, modulo 8. -/
def distance (arr : Fin slotsPerBkt → CInt) (jumper : CInt) (j : Fin slotsPerBkt) : ℤ :=
  |(arr j).toInt - jumper.toInt| % 8

/-- What `ABS` takes off for a slot that is not above `jumper`. -/
def penalty (arr : Fin slotsPerBkt → CInt) (jumper : CInt) (j : Fin slotsPerBkt) : ℤ :=
  if jumper.toInt < (arr j).toInt then 0 else ((arr j).toInt + jumper.toInt) % 8

theorem hop_eq_bestJ (cache : Cache numBs slotsPerBkt) (jumper : CInt) :
    hop cache jumper = (cache.bucket jumper).bind fun arr ↦ (bestJ arr jumper).bind (slot arr) := by
  simp only [hop, bestJ, Option.bind_eq_bind, Option.bind_assoc, Option.pure_def, Option.bind_some]

/-! ## The macro -/

section Macro

variable {a b : CInt}

theorem toInt_sub_of_inRange (hbs : numBs ≤ 2 ^ 30) (ha : InRange numBs a)
    (hb : InRange numBs b) : (a - b).toInt = a.toInt - b.toInt := by
  obtain ⟨ha0, ha1⟩ := ha
  obtain ⟨hb0, hb1⟩ := hb
  rw [BitVec.toInt_sub]
  apply Int.bmod_eq_of_le <;> omega

theorem toInt_neg_sub_of_inRange (hbs : numBs ≤ 2 ^ 30) (ha : InRange numBs a)
    (hb : InRange numBs b) : (-1 * a - b).toInt = -(a.toInt + b.toInt) := by
  obtain ⟨ha0, ha1⟩ := ha
  obtain ⟨hb0, hb1⟩ := hb
  have hneg : (-1 * a).toInt = -a.toInt := by
    rw [BitVec.toInt_mul]
    change (-1 * a.toInt).bmod _ = _
    rw [neg_one_mul]
    apply Int.bmod_eq_of_le <;> omega
  rw [BitVec.toInt_sub, hneg, neg_add']
  apply Int.bmod_eq_of_le <;> omega

theorem toInt_diff (hbs : numBs ≤ 2 ^ 30) (ha : InRange numBs a) (hb : InRange numBs b) :
    (diff a b).toInt =
      if b.toInt < a.toInt then (a.toInt - b.toInt) % 8 else -((a.toInt + b.toInt) % 8) := by
  have habove : (0 : CInt).slt (a - b) = true ↔ b.toInt < a.toInt := by
    rw [BitVec.slt_iff_toInt_lt, toInt_sub_of_inRange hbs ha hb]
    change 0 < _ ↔ _
    omega
  rw [diff, BitVec.toInt_srem, absDifference]
  change Int.tmod _ 8 = _
  split
  · next h =>
    have hlt := habove.mp h
    rw [toInt_sub_of_inRange hbs ha hb, if_pos hlt]
    exact Int.tmod_eq_emod_of_nonneg (by omega)
  · next h =>
    rw [toInt_neg_sub_of_inRange hbs ha hb, if_neg (mt habove.mpr h), Int.neg_tmod,
      Int.tmod_eq_emod_of_nonneg (add_nonneg ha.1 hb.1)]

end Macro

/-! ## The scan -/

variable {arr : Fin slotsPerBkt → CInt} {jumper : CInt}

/-- The loop over the slots keeps the first maximum of `ABS(arr[j] - jumper) % 8`. -/
theorem pickLoop_firstMax (rounds : ℕ) : ∀ (j : ℕ) (best : Fin slotsPerBkt),
    j + rounds = slotsPerBkt → FirstMaxBelow (fun i ↦ (diff (arr i) jumper).toInt) j best →
    ∃ found : Fin slotsPerBkt,
      pickLoop arr jumper rounds j best (diff (arr best) jumper) =
        some ((found : ℕ), diff (arr found) jumper) ∧
      FirstMax (fun i ↦ (diff (arr i) jumper).toInt) found := by
  induction rounds with
  | zero =>
    intro j best hj hbest
    rw [Nat.add_zero] at hj
    exact ⟨best, rfl, hj ▸ hbest⟩
  | succ rounds ih =>
    intro j best hj hbest
    have hlt : j < slotsPerBkt := by omega
    simp only [pickLoop, slot_eq_some arr hlt, Option.bind_eq_bind, Option.bind_some,
      BitVec.slt_iff_toInt_lt]
    split
    · next h => exact ih (j + 1) ⟨j, hlt⟩ (by omega) (hbest.succ_of_lt rfl h)
    · next h => exact ih (j + 1) best (by omega) (hbest.succ_of_le rfl (Int.not_lt.mp h))

theorem exists_bestJ (hslots : 1 ≤ slotsPerBkt) (arr : Fin slotsPerBkt → CInt) (jumper : CInt) :
    ∃ best : Fin slotsPerBkt, bestJ arr jumper = some (best : ℕ) ∧
      FirstMax (fun i ↦ (diff (arr i) jumper).toInt) best := by
  obtain ⟨best, hpick, hbest⟩ := pickLoop_firstMax (slotsPerBkt - 1) 1 ⟨0, hslots⟩ (by omega)
    (FirstMaxBelow.one rfl)
  refine ⟨best, ?_, hbest⟩
  simp only [bestJ, slot_eq_some arr hslots, Option.bind_eq_bind, Option.bind_some, hpick,
    Option.pure_def]

/-! ## When the right slot is found -/

/-- The scan compares `distance` for the slots above `jumper` and minus `penalty` for the others. -/
theorem toInt_diff_arr (hbs : numBs ≤ 2 ^ 30) (harr : ∀ j, InRange numBs (arr j))
    (hjumper : InRange numBs jumper) (j : Fin slotsPerBkt) :
    (diff (arr j) jumper).toInt =
      if jumper.toInt < (arr j).toInt then distance arr jumper j else -penalty arr jumper j := by
  rw [toInt_diff hbs (harr j) hjumper]
  split
  · next h => rw [distance, abs_of_pos (sub_pos.mpr h)]
  · next h => rw [penalty, if_neg h]

theorem distance_nonneg (arr : Fin slotsPerBkt → CInt) (jumper : CInt) (j : Fin slotsPerBkt) :
    0 ≤ distance arr jumper j := Int.emod_nonneg _ (by decide)

theorem penalty_nonneg (arr : Fin slotsPerBkt → CInt) (jumper : CInt) (j : Fin slotsPerBkt) :
    0 ≤ penalty arr jumper j := by
  rw [penalty]
  split
  · exact le_rfl
  · exact Int.emod_nonneg _ (by decide)

/-- The slot that is farthest from `jumper` is above it; or the slots above `jumper` are all at
distance zero, and the farthest slot happens to have the first of the smallest penalties. -/
def Favourable (arr : Fin slotsPerBkt → CInt) (jumper : CInt) (far : Fin slotsPerBkt) : Prop :=
  (jumper.toInt < (arr far).toInt ∧ distance arr jumper far ≠ 0) ∨
    (∀ i, jumper.toInt < (arr i).toInt → distance arr jumper i = 0) ∧
      FirstMin (penalty arr jumper) far

section Favourable

variable {far : Fin slotsPerBkt} {measured : Fin slotsPerBkt → ℤ}
  (hmeasured : ∀ j, measured j =
    if jumper.toInt < (arr j).toInt then distance arr jumper j else -penalty arr jumper j)
include hmeasured

theorem measured_of_above {j : Fin slotsPerBkt} (h : jumper.toInt < (arr j).toInt) :
    measured j = distance arr jumper j := by
  rw [hmeasured, if_pos h]

theorem measured_nonpos {j : Fin slotsPerBkt}
    (h : ¬ (jumper.toInt < (arr j).toInt ∧ distance arr jumper j ≠ 0)) : measured j ≤ 0 := by
  rw [hmeasured]
  split
  · next habove => exact (not_not.mp fun hne ↦ h ⟨habove, hne⟩).le
  · exact neg_nonpos.mpr (penalty_nonneg arr jumper j)

/-- With nothing to gain above `jumper`, the scan minimises the penalty. -/
theorem measured_eq_neg_penalty
    (h : ∀ i, jumper.toInt < (arr i).toInt → distance arr jumper i = 0) (j : Fin slotsPerBkt) :
    measured j = -penalty arr jumper j := by
  rw [hmeasured]
  split
  · next habove => rw [h j habove, penalty, if_pos habove, neg_zero]
  · rfl

theorem firstMax_measured_iff_firstMin
    (h : ∀ i, jumper.toInt < (arr i).toInt → distance arr jumper i = 0) :
    FirstMax measured far ↔ FirstMin (penalty arr jumper) far := by
  have heq : measured = fun j ↦ -penalty arr jumper j :=
    funext (measured_eq_neg_penalty hmeasured h)
  rw [heq]
  constructor
  · intro hmax
    exact ⟨hmax.below, fun i hi ↦ neg_le_neg_iff.mp (hmax.le i hi),
      fun i hi ↦ neg_lt_neg_iff.mp (hmax.lt i hi)⟩
  · intro hmin
    exact ⟨hmin.below, fun i hi ↦ neg_le_neg (hmin.le i hi), fun i hi ↦ neg_lt_neg (hmin.lt i hi)⟩

/-- If the farthest slot is above `jumper`, no slot is measured farther. -/
theorem firstMax_measured_of_above (hfar : FirstMax (distance arr jumper) far)
    (habove : jumper.toInt < (arr far).toInt) (hne : distance arr jumper far ≠ 0) :
    FirstMax measured far := by
  have hvalue := measured_of_above hmeasured habove
  have hpos : 0 < measured far := by
    rw [hvalue]
    exact lt_of_le_of_ne (distance_nonneg arr jumper far) hne.symm
  refine ⟨hfar.below, fun i hi ↦ ?_, fun i hi ↦ ?_⟩
  · by_cases h : jumper.toInt < (arr i).toInt
    · rw [hvalue, measured_of_above hmeasured h]
      exact hfar.le i hi
    · exact (measured_nonpos hmeasured fun hboth ↦ h hboth.1).trans hpos.le
  · by_cases h : jumper.toInt < (arr i).toInt
    · rw [hvalue, measured_of_above hmeasured h]
      exact hfar.lt i hi
    · exact (measured_nonpos hmeasured fun hboth ↦ h hboth.1).trans_lt hpos

theorem firstMax_measured_iff (hfar : FirstMax (distance arr jumper) far) :
    FirstMax measured far ↔ Favourable arr jumper far := by
  by_cases hgain : jumper.toInt < (arr far).toInt ∧ distance arr jumper far ≠ 0
  · exact iff_of_true (firstMax_measured_of_above hmeasured hfar hgain.1 hgain.2) (Or.inl hgain)
  · have hnone (hmax : FirstMax measured far) (i : Fin slotsPerBkt)
        (hi : jumper.toInt < (arr i).toInt) : distance arr jumper i = 0 := by
      apply le_antisymm _ (distance_nonneg arr jumper i)
      calc
        distance arr jumper i = measured i := (measured_of_above hmeasured hi).symm
        _ ≤ measured far := hmax.le i i.isLt
        _ ≤ 0 := measured_nonpos hmeasured hgain
    rw [Favourable, or_iff_right hgain]
    constructor
    · intro hmax
      exact ⟨hnone hmax, (firstMax_measured_iff_firstMin hmeasured (hnone hmax)).mp hmax⟩
    · intro h
      exact (firstMax_measured_iff_firstMin hmeasured h.1).mpr h.2

end Favourable

/-- A hop leads to the first of the slots that are farthest from `jumper` modulo 8, if and only if
that slot is above `jumper` or the penalties happen to favour it. -/
theorem hop_farthest_iff (hbs : numBs ≤ 2 ^ 30) (hslots : 1 ≤ slotsPerBkt)
    (cache : Cache numBs slotsPerBkt) (hjumper : InRange numBs jumper) :
    ∃ arr, cache.bucket jumper = some arr ∧
      ((∃ best : Fin slotsPerBkt, FirstMax (distance arr jumper) best ∧
          bestJ arr jumper = some (best : ℕ) ∧ hop cache jumper = some (arr best)) ↔
        ∃ far, FirstMax (distance arr jumper) far ∧ Favourable arr jumper far) := by
  obtain ⟨arr, hbucket, harr⟩ := cache.exists_bucket hjumper
  obtain ⟨found, hfound, hmax⟩ := exists_bestJ hslots arr jumper
  have hiff {far : Fin slotsPerBkt} (hfar : FirstMax (distance arr jumper) far) :=
    firstMax_measured_iff (toInt_diff_arr hbs harr hjumper) hfar
  refine ⟨arr, hbucket, ?_⟩
  constructor
  · rintro ⟨best, hbest, hbestJ, -⟩
    have heq : found = best := Fin.ext (Option.some.inj (hfound.symm.trans hbestJ))
    exact ⟨best, hbest, (hiff hbest).mp (heq ▸ hmax)⟩
  · rintro ⟨far, hfar, hfavourable⟩
    have heq : found = far := hmax.unique ((hiff hfar).mpr hfavourable)
    subst heq
    refine ⟨found, hfar, hfound, ?_⟩
    rw [hop_eq_bestJ, hbucket, Option.bind_some, hfound, Option.bind_some,
      slot_eq_some arr found.isLt]

/-- A cache with the same slots in each bucket. -/
def uniformCache (arr : Fin slotsPerBkt → CInt) (harr : ∀ j, InRange numBs (arr j)) :
    Cache numBs slotsPerBkt := ⟨fun _ ↦ arr, fun _ ↦ harr⟩

theorem bucket_uniformCache (harr : ∀ j, InRange numBs (arr j)) (hjumper : InRange numBs jumper) :
    (uniformCache arr harr).bucket jumper = some arr := dif_pos hjumper

/-- The sizes are those of `param.h`. -/
def sixes : Cache (8 * 1024 * 1024) 16 := uniformCache (fun _ ↦ 6) (by decide)

/-- All slots are above the jumper. -/
theorem hop_farthest_above :
    ∃ best : Fin 16, FirstMax (distance (fun _ : Fin 16 ↦ 6) 5) best ∧ hop sixes 5 = some 6 := by
  have hjumper : InRange (8 * 1024 * 1024) 5 := by decide
  obtain ⟨arr, hbucket, hiff⟩ := hop_farthest_iff (by decide) (by decide) sixes hjumper
  obtain rfl := Option.some.inj ((bucket_uniformCache _ hjumper).symm.trans hbucket)
  have hfar : FirstMax (distance (fun _ : Fin 16 ↦ 6) 5) 0 :=
    ⟨by decide, fun _ _ ↦ le_rfl, fun i hi ↦ absurd hi (Fin.not_lt_zero i)⟩
  obtain ⟨best, hbest, -, hhop⟩ := hiff.mpr ⟨0, hfar, Or.inl ⟨by decide, by decide⟩⟩
  exact ⟨best, hbest, hhop⟩

/-- With the sizes of `param.h`: slot 1 is at distance 5 below the jumper, but the loop stays at
slot 0, which is at distance 1 above it. -/
theorem loop_misses_farthest :
    let arr : Fin 16 → CInt := fun j ↦ if j = 0 then 6 else 0
    (∀ j, InRange (8 * 1024 * 1024) (arr j)) ∧ InRange (8 * 1024 * 1024) 5 ∧
      bestJ arr 5 = some 0 ∧ distance arr 5 0 = 1 ∧ distance arr 5 1 = 5 := by
  decide

end Systemish.Goto.SyntheticDivergence
