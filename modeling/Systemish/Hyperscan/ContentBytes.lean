import Systemish.Foundation.Text

/-!
# Snort patterns as byte lists

`content_to_bytes` turns the lines of `content_strings.txt` into lines of decimal
numbers, and `bench` loads byte arrays from these. `char` is signed and `size_t`
has 64 bits. A failed assertion and an exception are `none`.
-/

namespace Systemish.Hyperscan

open Foundation

abbrev Byte := BitVec 8

/-- A character constant. -/
def char (c : Char) : Byte := BitVec.ofNat 8 c.toNat

abbrev newline : Byte := char '\n'

/-- `static_cast<size_t>(c)`, for a `char`. -/
def charToSize (c : Byte) : ℕ := (c.signExtend 64).toNat

/-- `static_cast<size_t>(c - d)`, for two `char`s. -/
def differenceToSize (c d : Byte) : ℕ :=
  ((c.signExtend 32 - d.signExtend 32).signExtend 64).toNat

/-- `std::to_string` of a `size_t`. -/
def toDecimal (n : ℕ) : List Byte := (decimalDigits n).map fun digit ↦ BitVec.ofNat 8 (48 + digit)

/-- `std::isspace`. -/
def isSpace (c : Byte) : Bool := c = char ' ' ∨ 9 ≤ c.toNat ∧ c.toNat ≤ 13

/-! ## The encoder -/

inductive Mode where
  | kChar
  | kHex
  deriving DecidableEq

def Mode.invert : Mode → Mode
  | .kChar => .kHex
  | .kHex => .kChar

def isHexChar (c : Byte) : Bool := (char 'A').sle c && c.sle (char 'F')

def isHexNumber (c : Byte) : Bool := (char '0').sle c && c.sle (char '9')

def isHex (c : Byte) : Bool := isHexChar c || isHexNumber c

def hexToInt (c : Byte) : Option ℕ :=
  if ¬ isHex c then none
  else if isHexNumber c then some (differenceToSize c (char '0'))
  else if isHexChar c then some (10 + differenceToSize c (char 'A'))
  else some (2 ^ 64 - 1)

/-- The loop over the characters of a line. -/
def processChars : Mode → (ret : List Byte) → (line : List Byte) → Option (Mode × List Byte)
  | mode, ret, [] => some (mode, ret)
  | mode, ret, c :: line =>
    if c = char '|' then processChars mode.invert ret line
    else if mode = .kHex ∧ c = char ' ' then processChars mode ret line
    else if mode = .kChar then
      processChars mode (ret ++ (toDecimal (charToSize c) ++ [char ' '])) line
    else if ¬ isHex c then none
    else
      match line with
      | [] => none
      | c2 :: line =>
        match hexToInt c2, hexToInt c with
        | some low, some high =>
          let number := (low + 16 * high) % 2 ^ 64
          processChars mode (ret ++ (toDecimal number ++ [char ' '])) line
        | _, _ => none

/-- The body of the loop over the lines. `trim` stands for `boost::algorithm::trim`. -/
def processLine (line : List Byte) : Option (List Byte) :=
  match processChars .kChar [] line with
  | some (.kChar, ret) => some (trim isSpace ret)
  | _ => none

/-- `main` of `content_to_bytes`, from the text of `content_strings.txt` to what it prints. -/
def contentToBytes (file : List Byte) : Option (List Byte) :=
  ((readLines newline file).mapM processLine).map (unlines newline)

/-! ## The decoder -/

/-- `std::stoull`. A minus sign negates the number. -/
def stoull (text : List Byte) : Option ℕ :=
  let text := text.dropWhile isSpace
  let negative := text.head? = some (char '-')
  let unsigned := if negative ∨ text.head? = some (char '+') then text.tail else text
  let digits := (unsigned.takeWhile isHexNumber).map fun c ↦ c.toNat - 48
  if digits = [] then none
  else if 2 ^ 64 ≤ digitsValue digits then none
  else some (if negative then (2 ^ 64 - digitsValue digits) % 2 ^ 64 else digitsValue digits)

/-- `byte_arr_t::gen_from_string`. `splitOn` stands for `boost::split` at single blanks, without
compression of neighbouring ones. -/
def genFromString (byteString : List Byte) : Option (List Byte) :=
  let byteVec := byteString.splitOn (char ' ')
  if byteVec.length = 0 then none
  else byteVec.mapM fun text ↦ (stoull text).map (BitVec.ofNat 8)

/-- The loop of `bench` that fills `virus_vec`. -/
def loadViruses (file : List Byte) : Option (List (List Byte)) :=
  (readLines newline file).mapM genFromString

/-! ## Content lines -/

/-- A part of a line: literal characters, or a group of hexadecimal byte pairs and blanks. -/
inductive Part where
  | literal (bytes : List Byte) (plain : ∀ c ∈ bytes, c ≠ char '|' ∧ c ≠ newline)
  | group (items : List (Option Byte))

abbrev ContentLine := List Part

/-- An upper-case hexadecimal digit. -/
def hexDigit (digit : Fin 16) : Byte :=
  if digit < 10 then BitVec.ofNat 8 (48 + digit) else BitVec.ofNat 8 (55 + digit)

def highDigit (byte : Byte) : Fin 16 := ⟨byte.toNat / 16, Nat.div_lt_of_lt_mul byte.isLt⟩

def lowDigit (byte : Byte) : Fin 16 := ⟨byte.toNat % 16, Nat.mod_lt _ (Nat.succ_pos 15)⟩

/-- An item of a group: a byte pair, or a blank. -/
def itemText : Option Byte → List Byte
  | some byte => [hexDigit (highDigit byte), hexDigit (lowDigit byte)]
  | none => [char ' ']

namespace Part

def text : Part → List Byte
  | .literal bytes _ => bytes
  | .group items => char '|' :: items.flatMap itemText ++ [char '|']

/-- The bytes that a part stands for. -/
def denotes : Part → List Byte
  | .literal bytes _ => bytes
  | .group items => items.reduceOption

/-- The numbers that the encoder prints for a part. -/
def numbers : Part → List ℕ
  | .literal bytes _ => bytes.map charToSize
  | .group items => items.reduceOption.map BitVec.toNat

end Part

namespace ContentLine

def text (line : ContentLine) : List Byte := line.flatMap Part.text

def denotes (line : ContentLine) : List Byte := line.flatMap Part.denotes

def numbers (line : ContentLine) : List ℕ := line.flatMap Part.numbers

end ContentLine

/-- What `bench` loads for the lines of `content_strings.txt`. -/
def loaded (lines : List ContentLine) : Option (List (List Byte)) :=
  (contentToBytes (unlines newline (lines.map ContentLine.text))).bind loadViruses

/-! ## Characters -/

theorem charToSize_lt (c : Byte) : charToSize c < 2 ^ 64 := (c.signExtend 64).isLt

/-- Sign extension is undone by the conversion to `unsigned char`. -/
theorem ofNat_charToSize (c : Byte) : BitVec.ofNat 8 (charToSize c) = c := by
  revert c
  decide +kernel

theorem hexDigit_isHex (digit : Fin 16) : isHex (hexDigit digit) = true := by
  revert digit
  decide

theorem hexToInt_hexDigit (digit : Fin 16) : hexToInt (hexDigit digit) = some digit.val := by
  revert digit
  decide

theorem hexDigit_ne (digit : Fin 16) :
    hexDigit digit ≠ char '|' ∧ hexDigit digit ≠ char ' ' ∧ hexDigit digit ≠ newline := by
  revert digit
  decide

/-- A printed digit is read as a digit, and stands for itself. -/
theorem digit_char {digit : ℕ} (h : digit < 10) :
    isHexNumber (BitVec.ofNat 8 (48 + digit)) = true ∧
      (BitVec.ofNat 8 (48 + digit)).toNat - 48 = digit := by
  revert digit
  decide

theorem not_isSpace_of_isHexNumber {c : Byte} (h : isHexNumber c = true) : isSpace c = false := by
  revert c
  decide +kernel

/-! ## Numerals -/

theorem isHexNumber_of_mem_toDecimal {n : ℕ} {c : Byte} (h : c ∈ toDecimal n) :
    isHexNumber c = true := by
  obtain ⟨digit, hdigit, rfl⟩ := List.mem_map.mp h
  exact (digit_char (decimalDigits_lt hdigit)).1

theorem toDecimal_ne_nil (n : ℕ) : toDecimal n ≠ [] := by
  rw [toDecimal, ne_eq, List.map_eq_nil_iff]
  exact decimalDigits_ne_nil n

theorem toDecimal_isWord (n : ℕ) : IsWord isSpace (toDecimal n) :=
  ⟨toDecimal_ne_nil n, fun _ hc ↦ not_isSpace_of_isHexNumber (isHexNumber_of_mem_toDecimal hc)⟩

theorem not_mem_toDecimal {n : ℕ} {c : Byte} (h : isHexNumber c = false) : c ∉ toDecimal n := by
  intro hc
  rw [isHexNumber_of_mem_toDecimal hc] at h
  exact Bool.noConfusion h

theorem head?_toDecimal_ne (n : ℕ) {c : Byte} (h : isHexNumber c = false) :
    (toDecimal n).head? ≠ some c :=
  fun hhead ↦ not_mem_toDecimal h (List.mem_of_mem_head? (Option.mem_def.mpr hhead))

theorem map_toDecimal (n : ℕ) : (toDecimal n).map (fun c ↦ c.toNat - 48) = decimalDigits n := by
  rw [toDecimal, List.map_map]
  calc
    (decimalDigits n).map ((fun c : Byte ↦ c.toNat - 48) ∘ fun digit ↦ BitVec.ofNat 8 (48 + digit))
        = (decimalDigits n).map id :=
          List.map_congr_left fun digit hdigit ↦ (digit_char (decimalDigits_lt hdigit)).2
    _ = decimalDigits n := List.map_id _

theorem stoull_toDecimal {n : ℕ} (h : n < 2 ^ 64) : stoull (toDecimal n) = some n := by
  have hspaces : (toDecimal n).dropWhile isSpace = toDecimal n := by
    have hword := dropWhile_word_append (toDecimal_isWord n) []
    rwa [List.append_nil] at hword
  have hdigits : (toDecimal n).takeWhile isHexNumber = toDecimal n :=
    List.takeWhile_eq_self_iff.mpr fun c hc ↦ isHexNumber_of_mem_toDecimal hc
  simp only [stoull, hspaces, head?_toDecimal_ne n (c := char '-') rfl,
    head?_toDecimal_ne n (c := char '+') rfl, or_self, if_false, hdigits, map_toDecimal,
    decimalDigits_ne_nil, digitsValue_decimalDigits, Nat.not_le.mpr h]

/-- A line of numbers is loaded as these numbers, each cut to a byte. -/
theorem genFromString_toDecimal {numbers : List ℕ} (hne : numbers ≠ [])
    (h : ∀ n ∈ numbers, n < 2 ^ 64) :
    genFromString ([char ' '].intercalate (numbers.map toDecimal)) =
      some (numbers.map (BitVec.ofNat 8)) := by
  have hwords : ∀ word ∈ numbers.map toDecimal, char ' ' ∉ word := by
    intro word hword
    obtain ⟨n, _, rfl⟩ := List.mem_map.mp hword
    exact not_mem_toDecimal rfl
  have hlength : (numbers.map toDecimal).length ≠ 0 := by
    rwa [List.length_map, ne_eq, List.length_eq_zero_iff]
  have hbytes : ∀ n ∈ numbers, (stoull (toDecimal n)).map (BitVec.ofNat 8) =
      some (BitVec.ofNat 8 n) := by
    intro n hn
    rw [stoull_toDecimal (h n hn), Option.map_some]
  rw [genFromString, List.splitOn_intercalate _ hwords (by rwa [ne_eq, List.map_eq_nil_iff]),
    if_neg hlength, List.mapM_map]
  exact mapM_eq_some hbytes

/-! ## What the encoder prints -/

/-- The numbers with a blank behind each, as `ret` holds them. -/
def printed (numbers : List ℕ) : List Byte := (numbers.map toDecimal).flatMap (· ++ [char ' '])

theorem printed_cons (n : ℕ) (numbers : List ℕ) :
    printed (n :: numbers) = (toDecimal n ++ [char ' ']) ++ printed numbers := by
  rw [printed, List.map_cons, List.flatMap_cons, printed]

theorem printed_append (numbers numbers' : List ℕ) :
    printed (numbers ++ numbers') = printed numbers ++ printed numbers' := by
  rw [printed, List.map_append, List.flatMap_append, printed, printed]

theorem processChars_bar (mode : Mode) (ret rest : List Byte) :
    processChars mode ret (char '|' :: rest) = processChars mode.invert ret rest := by
  rw [processChars.eq_def]
  exact if_pos rfl

theorem processChars_char {c : Byte} (h : c ≠ char '|') (ret rest : List Byte) :
    processChars .kChar ret (c :: rest) =
      processChars .kChar (ret ++ (toDecimal (charToSize c) ++ [char ' '])) rest := by
  rw [processChars.eq_def]
  simp [h]

theorem processChars_blank (ret rest : List Byte) :
    processChars .kHex ret (char ' ' :: rest) = processChars .kHex ret rest := by
  have hbar : char ' ' ≠ char '|' := by decide
  rw [processChars.eq_def]
  simp [hbar]

/-- A pair of digits. -/
theorem processChars_digits (high low : Fin 16) (ret rest : List Byte) :
    processChars .kHex ret (hexDigit high :: hexDigit low :: rest) =
      processChars .kHex (ret ++ (toDecimal (16 * high + low) ++ [char ' '])) rest := by
  have hnumber : (low.val + 16 * high.val) % 2 ^ 64 = 16 * high + low := by omega
  have hne := hexDigit_ne high
  rw [processChars.eq_def]
  simp only [hne.1, hne.2.1, hexDigit_isHex, hexToInt_hexDigit, hnumber, if_false, and_false,
    reduceCtorEq, not_true_eq_false]

/-- A byte pair. -/
theorem processChars_pair (byte : Byte) (ret rest : List Byte) :
    processChars .kHex ret (hexDigit (highDigit byte) :: hexDigit (lowDigit byte) :: rest) =
      processChars .kHex (ret ++ (toDecimal byte.toNat ++ [char ' '])) rest := by
  have hnumber : 16 * (highDigit byte).val + (lowDigit byte).val = byte.toNat :=
    Nat.div_add_mod byte.toNat 16
  rw [processChars_digits, hnumber]

theorem processChars_literal {bytes : List Byte} (h : char '|' ∉ bytes) (ret rest : List Byte) :
    processChars .kChar ret (bytes ++ rest) =
      processChars .kChar (ret ++ printed (bytes.map charToSize)) rest := by
  induction bytes generalizing ret with
  | nil => simp [printed]
  | cons c bytes ih =>
    rw [List.mem_cons, not_or] at h
    rw [List.cons_append, processChars_char (Ne.symm h.1), ih h.2, List.map_cons, printed_cons,
      List.append_assoc ret]

theorem processChars_items (items : List (Option Byte)) (ret rest : List Byte) :
    processChars .kHex ret (items.flatMap itemText ++ rest) =
      processChars .kHex (ret ++ printed (items.reduceOption.map BitVec.toNat)) rest := by
  induction items generalizing ret with
  | nil => simp [printed]
  | cons item items ih =>
    cases item with
    | none =>
      rw [List.flatMap_cons, List.append_assoc, itemText, List.singleton_append,
        processChars_blank, ih, List.reduceOption_cons_of_none]
    | some byte =>
      rw [List.flatMap_cons, List.append_assoc, itemText, List.cons_append, List.singleton_append,
        processChars_pair, ih, List.reduceOption_cons_of_some, List.map_cons, printed_cons,
        List.append_assoc ret]

/-- A part is printed as its numbers, and leaves the mode as it was. -/
theorem processChars_part (part : Part) (ret rest : List Byte) :
    processChars .kChar ret (part.text ++ rest) =
      processChars .kChar (ret ++ printed part.numbers) rest := by
  cases part with
  | literal bytes plain => exact processChars_literal (fun hbar ↦ (plain _ hbar).1 rfl) ret rest
  | group items =>
    rw [Part.text, List.append_assoc, List.cons_append, processChars_bar, Mode.invert,
      processChars_items, List.singleton_append, processChars_bar]
    rfl

theorem processChars_line (line : ContentLine) (ret : List Byte) :
    processChars .kChar ret line.text = some (.kChar, ret ++ printed line.numbers) := by
  induction line generalizing ret with
  | nil => simp [ContentLine.text, ContentLine.numbers, printed, processChars]
  | cons part line ih =>
    have htext : ContentLine.text (part :: line) = part.text ++ ContentLine.text line :=
      List.flatMap_cons
    have hnumbers : ContentLine.numbers (part :: line) =
        part.numbers ++ ContentLine.numbers line := List.flatMap_cons
    rw [htext, processChars_part, ih, hnumbers, printed_append, List.append_assoc]

/-- The line that the encoder prints for a content line. -/
def bytesLine (line : ContentLine) : List Byte :=
  [char ' '].intercalate (line.numbers.map toDecimal)

theorem trim_printed (numbers : List ℕ) :
    trim isSpace (printed numbers) = [char ' '].intercalate (numbers.map toDecimal) := by
  apply trim_words rfl
  intro word hword
  obtain ⟨n, _, rfl⟩ := List.mem_map.mp hword
  exact toDecimal_isWord n

theorem processLine_text (line : ContentLine) : processLine line.text = some (bytesLine line) := by
  simp only [processLine, processChars_line, List.nil_append]
  rw [trim_printed, bytesLine]

/-! ## What is loaded -/

namespace Part

/-- Cut to bytes, the numbers of a part are the bytes that it stands for. -/
theorem map_numbers (part : Part) : part.numbers.map (BitVec.ofNat 8) = part.denotes := by
  cases part with
  | literal bytes plain =>
    rw [numbers, List.map_map]
    exact (List.map_congr_left fun c _ ↦ ofNat_charToSize c).trans (List.map_id _)
  | group items =>
    rw [numbers, List.map_map]
    have hbyte : ∀ byte : Byte, BitVec.ofNat 8 byte.toNat = byte := by simp
    exact (List.map_congr_left fun byte _ ↦ hbyte byte).trans (List.map_id _)

theorem numbers_lt {part : Part} {n : ℕ} (h : n ∈ part.numbers) : n < 2 ^ 64 := by
  cases part with
  | literal bytes plain =>
    obtain ⟨c, _, rfl⟩ := List.mem_map.mp h
    exact charToSize_lt c
  | group items =>
    obtain ⟨byte, _, rfl⟩ := List.mem_map.mp h
    exact Nat.lt_of_lt_of_le byte.isLt (Nat.pow_le_pow_right Nat.two_pos (Nat.le_add_left 8 56))

theorem newline_not_mem_text (part : Part) : newline ∉ part.text := by
  cases part with
  | literal bytes plain => exact fun hmem ↦ (plain _ hmem).2 rfl
  | group items =>
    have hitem : ∀ item, newline ∉ itemText item := by
      intro item
      cases item with
      | none => decide
      | some byte =>
        simp [itemText, (hexDigit_ne _).2.2.symm]
    have hbar : newline ≠ char '|' := by decide
    simp [text, hbar, hitem]

end Part

namespace ContentLine

variable {line : ContentLine}

theorem map_numbers (line : ContentLine) :
    line.numbers.map (BitVec.ofNat 8) = line.denotes := by
  rw [numbers, List.map_flatMap]
  exact List.flatMap_congr fun part _ ↦ part.map_numbers

theorem numbers_eq_nil_iff : line.numbers = [] ↔ line.denotes = [] := by
  rw [← map_numbers, List.map_eq_nil_iff]

theorem numbers_lt {n : ℕ} (h : n ∈ line.numbers) : n < 2 ^ 64 := by
  obtain ⟨part, _, hn⟩ := List.mem_flatMap.mp h
  exact Part.numbers_lt hn

theorem newline_not_mem_text (line : ContentLine) : newline ∉ line.text := by
  intro hmem
  obtain ⟨part, _, hpart⟩ := List.mem_flatMap.mp hmem
  exact part.newline_not_mem_text hpart

/-- A line without characters stands for no bytes. -/
theorem text_ne_nil (h : line.denotes ≠ []) : line.text ≠ [] := by
  intro htext
  apply h
  rw [denotes, List.flatMap_eq_nil_iff]
  intro part hpart
  have hpart := List.flatMap_eq_nil_iff.mp htext part hpart
  cases part with
  | literal bytes plain => exact hpart
  | group items => exact absurd hpart (by simp [Part.text])

end ContentLine

theorem bytesLine_eq_nil_iff {line : ContentLine} : bytesLine line = [] ↔ line.denotes = [] := by
  rw [← ContentLine.numbers_eq_nil_iff, bytesLine]
  rcases List.eq_nil_or_concat' line.numbers with hnil | ⟨numbers, n, hnumbers⟩
  · rw [hnil]
    exact iff_of_true rfl rfl
  · rw [hnumbers, List.map_append, List.map_singleton, intercalate_concat]
    simp [toDecimal_ne_nil]

theorem newline_not_mem_bytesLine (line : ContentLine) : newline ∉ bytesLine line := by
  intro hmem
  have hprinted : newline ∈ printed line.numbers := by
    rcases line.numbers.eq_nil_or_concat' with hnil | ⟨numbers, n, hnumbers⟩
    · simp [bytesLine, hnil] at hmem
    · have hne : line.numbers.map toDecimal ≠ [] := by simp [hnumbers]
      rw [printed, ← intercalate_append_singleton hne]
      exact List.mem_append_left _ hmem
  obtain ⟨word, hword, hmem⟩ := List.mem_flatMap.mp hprinted
  obtain ⟨n, _, rfl⟩ := List.mem_map.mp hword
  rcases List.mem_append.mp hmem with hdigit | hblank
  · exact not_mem_toDecimal rfl hdigit
  · exact absurd (List.mem_singleton.mp hblank) (by decide)

/-- The file that the encoder writes. -/
theorem contentToBytes_text (lines : List ContentLine) :
    contentToBytes (unlines newline (lines.map ContentLine.text)) =
      some (unlines newline
        ((lines.takeWhile fun line ↦ line.text ≠ []).map bytesLine)) := by
  have htext : ∀ text ∈ lines.map ContentLine.text, newline ∉ text := by
    intro text hmem
    obtain ⟨line, _, rfl⟩ := List.mem_map.mp hmem
    exact line.newline_not_mem_text
  rw [contentToBytes, readLines_unlines htext, List.takeWhile_map, List.mapM_map,
    mapM_eq_some (f := processLine ∘ ContentLine.text) fun line _ ↦ processLine_text line]
  rfl

theorem genFromString_bytesLine {line : ContentLine} (h : line.denotes ≠ []) :
    genFromString (bytesLine line) = some line.denotes := by
  have hne : line.numbers ≠ [] := fun hnil ↦ h (ContentLine.numbers_eq_nil_iff.mp hnil)
  rw [bytesLine, genFromString_toDecimal hne fun n hn ↦ ContentLine.numbers_lt hn,
    ContentLine.map_numbers]

/-- What `bench` loads from lines that the encoder wrote. -/
theorem loadViruses_bytesLine (lines : List ContentLine) :
    loadViruses (unlines newline (lines.map bytesLine)) =
      some ((lines.takeWhile fun line ↦ line.denotes ≠ []).map ContentLine.denotes) := by
  have hline : ∀ text ∈ lines.map bytesLine, newline ∉ text := by
    intro text hmem
    obtain ⟨line, _, rfl⟩ := List.mem_map.mp hmem
    exact newline_not_mem_bytesLine line
  have hempty : ((fun text : List Byte ↦ decide (text ≠ [])) ∘ bytesLine) =
      fun line : ContentLine ↦ decide (line.denotes ≠ []) := by
    funext line
    simp only [Function.comp_apply, ne_eq, bytesLine_eq_nil_iff]
  rw [loadViruses, readLines_unlines hline, List.takeWhile_map, hempty, List.mapM_map]
  apply mapM_eq_some
  intro line hmem
  have hne := List.mem_takeWhile_imp hmem
  exact genFromString_bytesLine (of_decide_eq_true hne)

/-- `bench` loads the byte strings of the lines in front of the first line that stands for no
bytes. -/
theorem loaded_eq (lines : List ContentLine) :
    loaded lines =
      some ((lines.takeWhile fun line ↦ line.denotes ≠ []).map ContentLine.denotes) := by
  have hboth : (fun line : ContentLine ↦
        decide (decide (line.denotes ≠ []) = true ∧ decide (line.text ≠ []) = true)) =
      fun line : ContentLine ↦ decide (line.denotes ≠ []) := by
    funext line
    rw [decide_eq_decide, decide_eq_true_eq, decide_eq_true_eq]
    exact and_iff_left_of_imp ContentLine.text_ne_nil
  rw [loaded, contentToBytes_text, Option.bind_some, loadViruses_bytesLine,
    List.takeWhile_takeWhile, hboth]

/-- One byte array is loaded for each line, in order, and is the byte string that the line stands
for, if and only if every line stands for at least one byte. -/
theorem loaded_all_iff (lines : List ContentLine) :
    loaded lines = some (lines.map ContentLine.denotes) ↔ ∀ line ∈ lines, line.denotes ≠ [] := by
  rw [loaded_eq]
  constructor
  · intro hall
    have hlength := congrArg List.length (Option.some.inj hall)
    rw [List.length_map, List.length_map] at hlength
    have hpart := List.takeWhile_prefix (l := lines) fun line : ContentLine ↦
      decide (line.denotes ≠ [])
    have hself := hpart.eq_of_length hlength
    intro line hline
    exact of_decide_eq_true (List.takeWhile_eq_self_iff.mp hself line hline)
  · intro hall
    rw [List.takeWhile_eq_self_iff.mpr fun line hline ↦ decide_eq_true (hall line hline)]

/-- The lines `||` and `a`. -/
def emptyPatternFirst : List ContentLine :=
  [[.group []], [.literal [char 'a'] (fun _ hc ↦ (List.mem_singleton.mp hc).symm ▸ by decide)]]

/-- The encoder prints an empty line for `||` and goes on, but the loader stops there. -/
theorem emptyPatternFirst_not_loaded :
    contentToBytes (unlines newline (emptyPatternFirst.map ContentLine.text)) =
        some [newline, char '9', char '7', newline] ∧
      loaded emptyPatternFirst = some [] ∧
      emptyPatternFirst.map ContentLine.denotes = [[], [char 'a']] := by
  decide +kernel

end Systemish.Hyperscan
