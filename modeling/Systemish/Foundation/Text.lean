import Mathlib

/-!
# Lines, words and numerals

A text is a list of characters, over any alphabet. A program that reads a file line
by line and stops at the first empty line gets the lines in front of that line; at
the end of the file it gets an empty line as well. Words that are printed with a
separator behind each can be trimmed and split again.
-/

namespace Systemish.Foundation

variable {γ : Type*}

/-- A traversal in which nothing fails. -/
theorem mapM_eq_some {α β : Type*} {f : α → Option β} {g : α → β} {xs : List α}
    (h : ∀ x ∈ xs, f x = some (g x)) : xs.mapM f = some (xs.map g) := by
  induction xs with
  | nil => rfl
  | cons x xs ih =>
    rw [List.mapM_cons, h x List.mem_cons_self,
      ih fun y hy ↦ h y (List.mem_cons_of_mem _ hy)]
    rfl

/-! ## Lines -/

section Lines

variable [DecidableEq γ] (newline : γ)

/-- The lines that a loop around `getline` gets which stops at the first empty line. `line` is what
has been read of the current line. -/
def readLinesFrom (line : List γ) : (file : List γ) → List (List γ)
  | [] => if line = [] then [] else [line]
  | c :: file =>
    if c = newline then
      if line = [] then [] else line :: readLinesFrom [] file
    else readLinesFrom (line ++ [c]) file

def readLines (file : List γ) : List (List γ) := readLinesFrom newline [] file

/-- The lines as a file. -/
def unlines (lines : List (List γ)) : List γ := lines.flatMap (· ++ [newline])

variable {newline}

theorem readLinesFrom_append (start : List γ) {line : List γ} (h : newline ∉ line)
    (file : List γ) :
    readLinesFrom newline start (line ++ newline :: file) =
      if start ++ line = [] then [] else (start ++ line) :: readLines newline file := by
  induction line generalizing start with
  | nil => simp only [List.nil_append, List.append_nil, readLinesFrom, if_true, readLines]
  | cons c line ih =>
    rw [List.mem_cons, not_or] at h
    rw [List.cons_append, readLinesFrom, if_neg (Ne.symm h.1), ih _ h.2, List.append_assoc,
      List.singleton_append]

/-- Reading what was written gives the lines in front of the first empty one. -/
theorem readLines_unlines {lines : List (List γ)} (h : ∀ line ∈ lines, newline ∉ line) :
    readLines newline (unlines newline lines) = lines.takeWhile (fun line ↦ line ≠ []) := by
  induction lines with
  | nil => rfl
  | cons line lines ih =>
    have hfile : unlines newline (line :: lines) = line ++ newline :: unlines newline lines := by
      simp [unlines]
    rw [hfile, readLines, readLinesFrom_append [] (h line List.mem_cons_self),
      ih fun other hother ↦ h other (List.mem_cons_of_mem _ hother), List.nil_append,
      List.takeWhile_cons]
    by_cases hline : line = []
    · simp [hline]
    · simp [hline]

end Lines

/-! ## Words -/

section Words

variable {sep : γ}

/-- Words with a separator between them, where the last word is given. -/
theorem intercalate_concat (sep : γ) (words : List (List γ)) (word : List γ) :
    [sep].intercalate (words ++ [word]) = words.flatMap (· ++ [sep]) ++ word := by
  induction words with
  | nil => rw [List.nil_append, List.intercalate_singleton, List.flatMap_nil, List.nil_append]
  | cons first words ih =>
    obtain ⟨next, rest, hrest⟩ := List.exists_cons_of_ne_nil
      (List.append_ne_nil_of_right_ne_nil words (List.cons_ne_nil word []))
    rw [List.cons_append, hrest, List.intercalate_cons_cons, ← hrest, ih, List.flatMap_cons,
      List.append_assoc _ _ word]

theorem intercalate_append_singleton {words : List (List γ)} (h : words ≠ []) :
    [sep].intercalate words ++ [sep] = words.flatMap (· ++ [sep]) := by
  obtain ⟨front, word, rfl⟩ := (List.eq_nil_or_concat' words).resolve_left h
  rw [intercalate_concat, List.flatMap_append, List.flatMap_singleton, List.append_assoc]

section Split

variable [DecidableEq γ]

theorem splitOn_cons_of_ne {c : γ} (h : c ≠ sep) (text : List γ) :
    (c :: text).splitOn sep = (text.splitOn sep).modifyHead (List.cons c) := by
  rw [List.splitOn_cons_eq_if_modifyHead, if_neg (by simpa using h)]

theorem splitOn_cons_self (text : List γ) :
    (sep :: text).splitOn sep = [] :: text.splitOn sep := by
  rw [List.splitOn_cons_eq_if_modifyHead, if_pos (by simp)]

/-- There is one word more than there are separators. -/
theorem length_splitOn (text : List γ) : (text.splitOn sep).length = text.count sep + 1 := by
  induction text with
  | nil => simp
  | cons c text ih =>
    by_cases h : c = sep
    · rw [h, splitOn_cons_self, List.length_cons, ih, List.count_cons_self]
    · rw [splitOn_cons_of_ne h, List.length_modifyHead, ih, List.count_cons_of_ne h]

theorem not_mem_of_mem_splitOn {text word : List γ} (hword : word ∈ text.splitOn sep) :
    sep ∉ word := by
  induction text generalizing word with
  | nil => simp_all
  | cons c text ih =>
    by_cases h : c = sep
    · rw [h, splitOn_cons_self, List.mem_cons] at hword
      rcases hword with rfl | hword
      · exact List.not_mem_nil
      · exact ih hword
    · obtain ⟨first, rest, hsplit⟩ := List.exists_cons_of_ne_nil (List.splitOn_ne_nil sep text)
      rw [hsplit] at ih
      rw [splitOn_cons_of_ne h, hsplit, List.modifyHead_cons, List.mem_cons] at hword
      rcases hword with rfl | hword
      · rw [List.mem_cons, not_or]
        exact ⟨Ne.symm h, ih List.mem_cons_self⟩
      · exact ih (List.mem_cons_of_mem _ hword)

end Split

/-- Remove the blanks on both sides. -/
def trim (blank : γ → Bool) (text : List γ) : List γ := (text.dropWhile blank).rdropWhile blank

/-- A word has a character, and none of its characters is a blank. -/
def IsWord (blank : γ → Bool) (word : List γ) : Prop := word ≠ [] ∧ ∀ c ∈ word, blank c = false

variable {blank : γ → Bool}

theorem dropWhile_word_append {word : List γ} (h : IsWord blank word) (text : List γ) :
    (word ++ text).dropWhile blank = word ++ text := by
  obtain ⟨c, rest, rfl⟩ := List.exists_cons_of_ne_nil h.1
  apply List.dropWhile_cons_of_neg
  rw [h.2 c List.mem_cons_self]
  exact Bool.false_ne_true

theorem rdropWhile_append_word {word : List γ} (h : IsWord blank word) (text : List γ) :
    (text ++ word).rdropWhile blank = text ++ word := by
  obtain ⟨front, c, rfl⟩ := (List.eq_nil_or_concat' word).resolve_left h.1
  rw [← List.append_assoc]
  apply List.rdropWhile_concat_neg
  rw [h.2 c (List.mem_append_right _ (List.mem_singleton_self c))]
  exact Bool.false_ne_true

/-- Trimming removes the separator behind the last word and nothing else. -/
theorem trim_words {words : List (List γ)} (hsep : blank sep = true)
    (h : ∀ word ∈ words, IsWord blank word) :
    trim blank (words.flatMap (· ++ [sep])) = [sep].intercalate words := by
  rcases words with _ | ⟨first, rest⟩
  · rfl
  have hfront : ((first :: rest).flatMap (· ++ [sep])).dropWhile blank =
      (first :: rest).flatMap (· ++ [sep]) := by
    rw [List.flatMap_cons, List.append_assoc]
    exact dropWhile_word_append (h first List.mem_cons_self) _
  rw [trim, hfront, ← intercalate_append_singleton (List.cons_ne_nil _ _),
    List.rdropWhile_concat_pos _ _ _ hsep]
  obtain ⟨front, last, hlast⟩ :=
    (List.eq_nil_or_concat' (first :: rest)).resolve_left (List.cons_ne_nil _ _)
  rw [hlast] at h ⊢
  rw [intercalate_concat]
  exact rdropWhile_append_word (h last (List.mem_append_right _ (List.mem_singleton_self _))) _

end Words

/-! ## Decimal numerals -/

/-- The decimal digits of a number, the first one first. -/
def decimalDigits (n : ℕ) : List ℕ := if n = 0 then [0] else (Nat.digits 10 n).reverse

/-- The number that a list of digits stands for. -/
def digitsValue (digits : List ℕ) : ℕ := digits.foldl (fun value digit ↦ 10 * value + digit) 0

theorem decimalDigits_ne_nil (n : ℕ) : decimalDigits n ≠ [] := by
  rw [decimalDigits]
  split
  · exact List.cons_ne_nil _ _
  · next h =>
    rw [ne_eq, List.reverse_eq_nil_iff]
    exact Nat.digits_ne_nil_iff_ne_zero.mpr h

theorem decimalDigits_lt {n digit : ℕ} (h : digit ∈ decimalDigits n) : digit < 10 := by
  rw [decimalDigits] at h
  split at h
  · rw [List.mem_singleton.mp h]
    exact Nat.succ_pos 9
  · exact Nat.digits_lt_base Nat.one_lt_ofNat (List.mem_reverse.mp h)

@[simp]
theorem digitsValue_decimalDigits (n : ℕ) : digitsValue (decimalDigits n) = n := by
  rw [decimalDigits, digitsValue]
  split
  · next h => rw [h]; rfl
  · rw [List.foldl_reverse]
    calc
      (Nat.digits 10 n).foldr (fun digit value ↦ 10 * value + digit) 0
          = (Nat.digits 10 n).foldr (fun digit value ↦ digit + 10 * value) 0 := by
            congr
            funext digit value
            exact Nat.add_comm _ _
      _ = Nat.ofDigits 10 (Nat.digits 10 n) := (Nat.ofDigits_eq_foldr 10 _).symm
      _ = n := Nat.ofDigits_digits 10 n

end Systemish.Foundation
