import Systemish.Hyperscan.ContentBytes

/-!
# The lines that `content_to_bytes` accepts

Cut at the bars, a content line is a list of segments. Segments with literal characters and groups
in hexadecimal take turns, and a literal segment comes first and last. The scanner runs through
exactly on such lines, and prints the numbers that they stand for.
-/

namespace Systemish.Hyperscan

open Foundation

/-- The text of a group: adjacent pairs of digits, and blanks. -/
def groupText (items : List (Option (Fin 16 × Fin 16))) : List Byte :=
  items.flatMap fun
    | some (high, low) => [hexDigit high, hexDigit low]
    | none => [char ' ']

/-- One number for each pair of digits. -/
def groupNumbers (items : List (Option (Fin 16 × Fin 16))) : List ℕ :=
  items.reduceOption.map fun pair ↦ 16 * pair.1 + pair.2

/-- How segments are read that begin in the given mode, and the numbers that they stand for. -/
inductive Reading : Mode → (segments : List (List Byte)) → (numbers : List ℕ) → Prop
  | last {literal : List Byte} (hplain : char '|' ∉ literal) :
      Reading .kChar [literal] (literal.map charToSize)
  | literal {literal : List Byte} (hplain : char '|' ∉ literal) {segments : List (List Byte)}
      {numbers : List ℕ} (h : Reading .kHex segments numbers) :
      Reading .kChar (literal :: segments) (literal.map charToSize ++ numbers)
  | group (items : List (Option (Fin 16 × Fin 16))) {segments : List (List Byte)}
      {numbers : List ℕ} (h : Reading .kChar segments numbers) :
      Reading .kHex (groupText items :: segments) (groupNumbers items ++ numbers)

namespace Reading

variable {mode : Mode} {segments : List (List Byte)} {numbers : List ℕ}

theorem ne_nil (h : Reading mode segments numbers) : segments ≠ [] := by
  cases h <;> exact List.cons_ne_nil _ _

/-! ### One more character in front -/

theorem cons_bar (h : Reading mode.invert segments numbers) :
    Reading mode ([] :: segments) numbers := by
  cases mode with
  | kChar => exact .literal List.not_mem_nil h
  | kHex => exact .group [] h

theorem cons_char {c : Byte} (hc : c ≠ char '|') (h : Reading .kChar segments numbers) :
    Reading .kChar (segments.modifyHead (List.cons c)) (charToSize c :: numbers) := by
  have hcons {literal : List Byte} (hplain : char '|' ∉ literal) : char '|' ∉ c :: literal := by
    rw [List.mem_cons, not_or]
    exact ⟨Ne.symm hc, hplain⟩
  cases h with
  | last hplain => exact .last (hcons hplain)
  | literal hplain h => exact .literal (hcons hplain) h

theorem cons_blank (h : Reading .kHex segments numbers) :
    Reading .kHex (segments.modifyHead (List.cons (char ' '))) numbers := by
  cases h with
  | group items h => exact .group (none :: items) h

theorem cons_pair (high low : Fin 16) (h : Reading .kHex segments numbers) :
    Reading .kHex ((segments.modifyHead (List.cons (hexDigit low))).modifyHead
      (List.cons (hexDigit high))) ((16 * high + low) :: numbers) := by
  cases h with
  | group items h => exact .group (some (high, low) :: items) h

end Reading

/-! ## The scanner reads the grammar -/

theorem exists_hexDigit {c : Byte} (h : isHex c = true) : ∃ digit, c = hexDigit digit := by
  revert c
  decide +kernel

theorem isHex_of_hexToInt {c : Byte} {n : ℕ} (h : hexToInt c = some n) : isHex c = true := by
  unfold hexToInt at h
  split at h
  · cases h
  · next hhex => exact not_not.mp hhex

/-- What the scanner accepts can be read, and it has printed the numbers of the reading. -/
theorem exists_reading (mode : Mode) (ret line ret' : List Byte) :
    processChars mode ret line = some (.kChar, ret') →
      ∃ numbers, Reading mode (line.splitOn (char '|')) numbers ∧
        ret' = ret ++ printed numbers := by
  -- by the cases of the loop; the rejecting ones have nothing to show
  fun_induction processChars mode ret line with
  | case1 mode ret =>
    intro h
    obtain ⟨rfl, rfl⟩ := Prod.mk.inj (Option.some.inj h)
    exact ⟨[], .last List.not_mem_nil, (List.append_nil _).symm⟩
  | case2 mode ret line ih =>
    intro h
    obtain ⟨numbers, hreading, hret⟩ := ih h
    rw [splitOn_cons_self]
    exact ⟨numbers, hreading.cons_bar, hret⟩
  | case3 mode ret c line hbar hblank ih =>
    intro h
    obtain ⟨rfl, rfl⟩ := hblank
    obtain ⟨numbers, hreading, hret⟩ := ih h
    rw [splitOn_cons_of_ne hbar]
    exact ⟨numbers, hreading.cons_blank, hret⟩
  | case4 ret c line hbar _ ih =>
    intro h
    obtain ⟨numbers, hreading, hret⟩ := ih h
    rw [splitOn_cons_of_ne hbar]
    refine ⟨_, hreading.cons_char hbar, ?_⟩
    rw [hret, printed_cons, List.append_assoc ret]
  | case7 mode ret c hbar _ hmode hhex c2 line low high hhigh hlow number ih =>
    intro h
    obtain ⟨numbers, hreading, hret⟩ := ih h
    obtain ⟨highDigit, rfl⟩ := exists_hexDigit (isHex_of_hexToInt hhigh)
    obtain ⟨lowDigit, rfl⟩ := exists_hexDigit (isHex_of_hexToInt hlow)
    rw [hexToInt_hexDigit, Option.some.injEq] at hhigh hlow
    have hnumber : number = 16 * highDigit + lowDigit := by omega
    have hmode : mode = .kHex := by cases mode <;> simp_all
    rw [hmode] at hreading ⊢
    rw [splitOn_cons_of_ne hbar, splitOn_cons_of_ne (hexDigit_ne lowDigit).1]
    refine ⟨_, hreading.cons_pair highDigit lowDigit, ?_⟩
    rw [hret, hnumber, printed_cons, List.append_assoc ret]
  | _ => simp

theorem processChars_groupText (items : List (Option (Fin 16 × Fin 16))) (ret rest : List Byte) :
    processChars .kHex ret (groupText items ++ rest) =
      processChars .kHex (ret ++ printed (groupNumbers items)) rest := by
  induction items generalizing ret with
  | nil => simp [groupText, groupNumbers, printed]
  | cons item items ih =>
    cases item with
    | none =>
      have htext : groupText (none :: items) = char ' ' :: groupText items := rfl
      rw [htext, List.cons_append, processChars_blank, ih]
      rfl
    | some pair =>
      have htext : groupText (some pair :: items) =
          hexDigit pair.1 :: hexDigit pair.2 :: groupText items := rfl
      have hnumbers : groupNumbers (some pair :: items) =
          (16 * pair.1.val + pair.2.val) :: groupNumbers items := rfl
      rw [htext, List.cons_append, List.cons_append, processChars_digits, ih, hnumbers,
        printed_cons, List.append_assoc ret]

/-- What can be read is accepted. -/
theorem Reading.processChars {mode : Mode} {segments : List (List Byte)} {numbers : List ℕ}
    (h : Reading mode segments numbers) (ret : List Byte) :
    processChars mode ret ([char '|'].intercalate segments) =
      some (.kChar, ret ++ printed numbers) := by
  induction h generalizing ret with
  | last hplain =>
    have hliteral := processChars_literal hplain ret []
    rw [List.append_nil] at hliteral
    rw [List.intercalate_singleton, hliteral, processChars.eq_def]
  | literal hplain h ih =>
    rw [List.intercalate_cons_of_ne_nil h.ne_nil, List.append_assoc, processChars_literal hplain,
      List.singleton_append, processChars_bar, Mode.invert, ih, printed_append, List.append_assoc]
  | group items h ih =>
    rw [List.intercalate_cons_of_ne_nil h.ne_nil, List.append_assoc, processChars_groupText,
      List.singleton_append, processChars_bar, Mode.invert, ih, printed_append, List.append_assoc]

/-! ## Which lines can be read -/

section Positions

variable {α : Type*} {P : α → Prop} {first : α} {rest : List α}

theorem forall_odd_cons_iff :
    (∀ (i : ℕ) x, Odd i → (first :: rest)[i]? = some x → P x) ↔
      ∀ (i : ℕ) x, Even i → rest[i]? = some x → P x := by
  constructor
  · intro h i x hi hx
    exact h (i + 1) x hi.add_one (by rwa [List.getElem?_cons_succ])
  · rintro h (_ | i) x hi hx
    · exact absurd hi (by decide)
    · rw [List.getElem?_cons_succ] at hx
      exact h i x (Nat.not_odd_iff_even.mp (Nat.odd_add_one.mp hi)) hx

theorem forall_even_cons_iff :
    (∀ (i : ℕ) x, Even i → (first :: rest)[i]? = some x → P x) ↔
      P first ∧ ∀ (i : ℕ) x, Odd i → rest[i]? = some x → P x := by
  constructor
  · intro h
    refine ⟨h 0 first (by decide) rfl, fun i x hi hx ↦ h (i + 1) x hi.add_one ?_⟩
    rwa [List.getElem?_cons_succ]
  · rintro ⟨hfirst, hrest⟩ (_ | i) x hi hx
    · rw [List.getElem?_cons_zero, Option.some.injEq] at hx
      exact hx ▸ hfirst
    · exact hrest i x (Nat.not_even_iff_odd.mp (Nat.even_add_one.mp hi))
        (by rwa [List.getElem?_cons_succ] at hx)

end Positions

/-- A segment that can be read in hexadecimal mode. -/
def IsGroup (segment : List Byte) : Prop := ∃ items, segment = groupText items

theorem reading_kChar_cons_iff {segment : List Byte} {segments : List (List Byte)}
    (hplain : char '|' ∉ segment) :
    (∃ numbers, Reading .kChar (segment :: segments) numbers) ↔
      segments = [] ∨ ∃ numbers, Reading .kHex segments numbers := by
  constructor
  · rintro ⟨numbers, h⟩
    cases h with
    | last => exact .inl rfl
    | literal _ h => exact .inr ⟨_, h⟩
  · rintro (rfl | ⟨numbers, h⟩)
    · exact ⟨_, .last hplain⟩
    · exact ⟨_, .literal hplain h⟩

theorem reading_kHex_cons_iff {segment : List Byte} {segments : List (List Byte)} :
    (∃ numbers, Reading .kHex (segment :: segments) numbers) ↔
      IsGroup segment ∧ ∃ numbers, Reading .kChar segments numbers := by
  constructor
  · rintro ⟨numbers, h⟩
    cases h with
    | group items h => exact ⟨⟨items, rfl⟩, _, h⟩
  · rintro ⟨⟨items, rfl⟩, numbers, h⟩
    exact ⟨_, .group items h⟩

/-- In character mode, literal segments have even positions and groups odd ones. -/
theorem exists_reading_iff {segments : List (List Byte)}
    (hplain : ∀ segment ∈ segments, char '|' ∉ segment) :
    ((∃ numbers, Reading .kChar segments numbers) ↔ Odd segments.length ∧
        ∀ (i : ℕ) segment, Odd i → segments[i]? = some segment → IsGroup segment) ∧
      ((∃ numbers, Reading .kHex segments numbers) ↔ segments ≠ [] ∧ Even segments.length ∧
        ∀ (i : ℕ) segment, Even i → segments[i]? = some segment → IsGroup segment) := by
  induction segments with
  | nil =>
    have hnone (mode : Mode) : ¬ ∃ numbers, Reading mode [] numbers :=
      fun ⟨_, h⟩ ↦ h.ne_nil rfl
    exact ⟨iff_of_false (hnone _) (by simp), iff_of_false (hnone _) (by simp)⟩
  | cons segment segments ih =>
    obtain ⟨hchar, hhex⟩ := ih fun other hother ↦ hplain other (List.mem_cons_of_mem _ hother)
    rw [reading_kChar_cons_iff (hplain segment List.mem_cons_self), reading_kHex_cons_iff, hchar,
      hhex, forall_odd_cons_iff, forall_even_cons_iff, List.length_cons, Nat.odd_add_one,
      Nat.even_add_one, Nat.not_odd_iff_even, Nat.not_even_iff_odd]
    constructor
    · rcases eq_or_ne segments [] with rfl | hne
      · simp
      · simp [hne]
    · simp only [ne_eq, reduceCtorEq, not_false_eq_true, true_and]
      exact and_left_comm

theorem processLine_eq_some {line out : List Byte} : processLine line = some out ↔
    ∃ ret, processChars .kChar [] line = some (.kChar, ret) ∧ trim isSpace ret = out := by
  unfold processLine
  split
  · next ret hscan => simp [hscan]
  · next hscan =>
    refine iff_of_false (Option.some_ne_none _).symm ?_
    rintro ⟨ret, hret, -⟩
    exact hscan ret hret

theorem processLine_eq_some_iff_reading {line out : List Byte} : processLine line = some out ↔
    ∃ numbers, Reading .kChar (line.splitOn (char '|')) numbers ∧
      out = [char ' '].intercalate (numbers.map toDecimal) := by
  rw [processLine_eq_some]
  constructor
  · rintro ⟨ret, hscan, rfl⟩
    obtain ⟨numbers, hreading, rfl⟩ := exists_reading .kChar [] line ret hscan
    exact ⟨numbers, hreading, by rw [List.nil_append, trim_printed]⟩
  · rintro ⟨numbers, hreading, rfl⟩
    have hscan := hreading.processChars []
    rw [List.intercalate_splitOn] at hscan
    exact ⟨_, hscan, by rw [List.nil_append, trim_printed]⟩

/-- The scanner runs through a line exactly if the line has an even number of bars and each group
consists of blanks and adjacent pairs of digits. What it prints are the numbers of the line, one for
each literal character and one for each pair. -/
theorem processLine_accepts_iff (line : List Byte) :
    ((processLine line).isSome ↔ Even (line.count (char '|')) ∧
        ∀ (i : ℕ) segment, Odd i → (line.splitOn (char '|'))[i]? = some segment →
          IsGroup segment) ∧
      ∀ out, processLine line = some out ↔ ∃ numbers,
        Reading .kChar (line.splitOn (char '|')) numbers ∧
          out = [char ' '].intercalate (numbers.map toDecimal) := by
  refine ⟨?_, fun out ↦ processLine_eq_some_iff_reading⟩
  have hplain : ∀ segment ∈ line.splitOn (char '|'), char '|' ∉ segment :=
    fun _ ↦ not_mem_of_mem_splitOn
  have hreadable := (exists_reading_iff hplain).1
  rw [length_splitOn, Nat.odd_add_one, Nat.not_odd_iff_even] at hreadable
  rw [← hreadable, Option.isSome_iff_exists]
  constructor
  · rintro ⟨out, hout⟩
    obtain ⟨numbers, hreading, -⟩ := processLine_eq_some_iff_reading.mp hout
    exact ⟨numbers, hreading⟩
  · rintro ⟨numbers, hreading⟩
    exact ⟨_, processLine_eq_some_iff_reading.mpr ⟨numbers, hreading, rfl⟩⟩

end Systemish.Hyperscan
