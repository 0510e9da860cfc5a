import Systemish.Antlr.Syntax
import Systemish.Foundation.Rewriter

/-!
# Trimming declarations

Embedding of `DeclarationTrimmer.java`: the call of `enterDeclaration` for one
declaration. It is meant to leave `name = initializer` of each declarator that
has an initializer, separated by commas. The edits are followed here item by
item: those for an item stay in front of the next one.
-/

namespace Systemish.Antlr

open Foundation

namespace DeclarationTrimmer

/-- The comma that separates two declarators. -/
def comma : Token := .ofString ","

/-- The test of the loop that deletes commas and spaces. -/
def isSeparator (text : Text) : Bool := ' ' ∈ text || ',' ∈ text

/-- The loop that deletes commas and spaces, from index `i` on. -/
def deleteSeparators : (follow : List Token) → (i : ℕ) → Rewriter Text → Rewriter Text
  | [], _, edits => edits
  | token :: follow, i, edits =>
    if isSeparator token.text then deleteSeparators follow (i + 1) (edits.delete i) else edits

/-- `deleteNonInitializedDeclarators` for one item of the list, the first token of which has index
`first`. -/
def deleteNonInitialized (tokens : List Token) (first : ℕ) (item : InitDeclarator)
    (edits : Rewriter Text) : Rewriter Text :=
  match item with
  | .plain declarator =>
    let stop := first + declarator.tokens.length
    deleteSeparators (tokens.drop stop) stop (edits.deleteRange first declarator.tokens.length)
  | .withInitializer .. => edits

/-- `deleteNonInitializedDeclarators`. -/
def deleteNonInitializedDeclarators (tokens : List Token) (first : ℕ) :
    InitDeclaratorList → Rewriter Text → Rewriter Text
  | .single item, edits => deleteNonInitialized tokens first item edits
  | .snoc list before after item, edits =>
    let itemFirst := first + (list.tokens.length + (before.length + (1 + after.length)))
    deleteNonInitializedDeclarators tokens first list
      (deleteNonInitialized tokens itemFirst item edits)

/-- The loop over the tokens of a declarator that has a `*`. -/
def deleteStars (trimmedName : Text) :
    (span : List Token) → (i : ℕ) → Rewriter Text → Rewriter Text
  | [], _, edits => edits
  | token :: span, i, edits =>
    deleteStars trimmedName span (i + 1)
      (if '*' ∈ token.text then edits.delete i else edits.replace i trimmedName)

/-- `deletePointerPrefix` for the declarator that begins at index `first`. -/
def deletePointerPrefix (first : ℕ) (declarator : Declarator) (edits : Rewriter Text) :
    Rewriter Text :=
  let name := getText declarator.tokens
  if '*' ∈ name then deleteStars (trimStars name) declarator.tokens first edits else edits

/-- The number of tokens of the list before its last `initDeclarator`. -/
def lastOffset : InitDeclaratorList → ℕ
  | .single _ => 0
  | .snoc list before after _ => list.tokens.length + (before.length + (1 + after.length))

/-- `enterDeclaration` for a declaration that begins at index `first`. -/
def enterDeclaration (tokens : List Token) (first : ℕ) (specifiers : Forest) (gap : Gap)
    (list : InitDeclaratorList) (edits : Rewriter Text) : Rewriter Text :=
  let stop := first + specifiers.tokens.length
  let listFirst := stop + gap.length
  let edits := (edits.deleteRange first specifiers.tokens.length).delete stop
  let edits :=
    deletePointerPrefix (listFirst + lastOffset list) list.initDeclarator.declarator edits
  deleteNonInitializedDeclarators tokens listFirst list edits

/-- What a token shows if it is left as it is. -/
def word (token : Token) : List Text := if token.hidden then [] else [token.text]

/-- The words of a stream after the edits: what is left of the tokens of the grammar, and what has
been put in. -/
def words (edits : Rewriter Text) (first : ℕ) (tokens : List Token) : List Text :=
  edits.render word first tokens

/-! ## The edits -/

section Edits

variable {tokens follow : List Token} {edits : Rewriter Text} {first skip : ℕ}

/-- The number of tokens that the loop deletes. -/
def separators (follow : List Token) : ℕ :=
  (follow.takeWhile fun token ↦ isSeparator token.text).length

theorem separators_cons_of_pos (token : Token) (h : isSeparator token.text = true)
    (follow : List Token) : separators (token :: follow) = separators follow + 1 := by
  simp [separators, h]

theorem separators_cons_of_neg (token : Token) (h : isSeparator token.text = false)
    (follow : List Token) : separators (token :: follow) = 0 := by
  simp [separators, h]

theorem deleteSeparators_eq (follow : List Token) (i : ℕ) (edits : Rewriter Text) :
    deleteSeparators follow i edits = edits.deleteRange i (separators follow) := by
  induction follow generalizing i edits with
  | nil => exact (edits.deleteRange_zero i).symm
  | cons token follow ih =>
    rw [deleteSeparators]
    cases hseparator : isSeparator token.text with
    | true =>
      rw [if_pos rfl, ih, Rewriter.deleteRange_succ, separators_cons_of_pos token hseparator]
    | false =>
      rw [separators_cons_of_neg token hseparator, Rewriter.deleteRange_zero,
        if_neg Bool.false_ne_true]

theorem deleteNonInitialized_plain (declarator : Declarator) :
    deleteNonInitialized tokens first (.plain declarator) edits =
      edits.deleteRange first (declarator.tokens.length +
        separators (tokens.drop (first + declarator.tokens.length))) := by
  rw [deleteNonInitialized, deleteSeparators_eq, Rewriter.deleteRange_add]

/-- The gap has no hidden token at which the loop stops. -/
def Passable (gap : Gap) : Prop := ∀ text ∈ gap, isSeparator text = true

instance (gap : Gap) : Decidable (Passable gap) := inferInstanceAs (Decidable (∀ _ ∈ _, _))

theorem separators_gap {gap : Gap} (h : Passable gap) (follow : List Token) :
    separators (Gap.tokens gap ++ follow) = gap.length + separators follow := by
  induction gap with
  | nil => exact (Nat.zero_add _).symm
  | cons text gap ih =>
    have hgap := ih fun text htext ↦ h text (List.mem_cons_of_mem _ htext)
    have hcons := separators_cons_of_pos ⟨text, true⟩ (h text List.mem_cons_self)
      (Gap.tokens gap ++ follow)
    rw [List.length_cons]
    exact hcons.trans (by omega)

theorem separators_gap_lt {gap : Gap} (h : ¬ Passable gap) (follow : List Token) :
    separators (Gap.tokens gap ++ follow) < gap.length := by
  induction gap with
  | nil => exact absurd (fun text htext ↦ absurd htext List.not_mem_nil) h
  | cons text gap ih =>
    cases htext : isSeparator text with
    | true =>
      have hgap := ih fun hgap ↦ h (List.forall_mem_cons.mpr ⟨htext, hgap⟩)
      have hcons := separators_cons_of_pos ⟨text, true⟩ htext (Gap.tokens gap ++ follow)
      rw [List.length_cons]
      exact hcons.trans_lt (by omega)
    | false =>
      have hcons := separators_cons_of_neg ⟨text, true⟩ htext (Gap.tokens gap ++ follow)
      exact hcons.trans_lt (Nat.succ_pos _)

/-- The first `skip` tokens are deleted and the others, up to `count`, have no edit yet. -/
structure Fresh (edits : Rewriter Text) (first skip count : ℕ) : Prop where
  skipped : ∀ i, first ≤ i → i < first + skip → edits i = some .delete
  untouched : ∀ i, first + skip ≤ i → i < first + count → edits i = none

theorem Fresh.mono {count count' : ℕ} (h : Fresh edits first skip count) (hcount : count' ≤ count) :
    Fresh edits first skip count' :=
  ⟨h.skipped, fun i hi hi' ↦ h.untouched i hi (by omega)⟩

/-- The tokens behind the first `offset`. -/
theorem Fresh.behind {offset count count' : ℕ} (h : Fresh edits first skip count)
    (hskip : skip ≤ offset) (hcount : offset + count' ≤ count) :
    Fresh edits (first + offset) 0 count' :=
  ⟨fun i hi hi' ↦ absurd hi' (by omega), fun i hi hi' ↦ h.untouched i (by omega) (by omega)⟩

theorem Fresh.congr {edits' : Rewriter Text} {count : ℕ} (h : Fresh edits first skip count)
    (hskip : skip ≤ count) (hsame : ∀ i, first ≤ i → i < first + count → edits' i = edits i) :
    Fresh edits' first skip count where
  skipped i hi hi' := (hsame i hi (by omega)).trans (h.skipped i hi hi')
  untouched i hi hi' := (hsame i (by omega) hi').trans (h.untouched i hi hi')

theorem Fresh.words_eq (h : Fresh edits first skip tokens.length) (hskip : skip ≤ tokens.length) :
    words edits first tokens = visible (tokens.drop skip) := by
  have hlength : (tokens.take skip).length = skip := List.length_take_of_le hskip
  conv_lhs => rw [← List.take_append_drop skip tokens]
  rw [words, Rewriter.render_append, Rewriter.render_deleted, Rewriter.render_untouched]
  · rfl
  · intro i hi hi'
    rw [hlength] at hi hi'
    rw [List.length_drop] at hi'
    exact h.untouched i hi (by omega)
  · intro i hi hi'
    rw [hlength] at hi'
    exact h.skipped i hi hi'

theorem words_cons (token : Token) (tokens : List Token) :
    words edits first (token :: tokens) =
      Rewriter.apply word (edits first) token ++ words edits (first + 1) tokens := rfl

theorem words_append (tokens tokens' : List Token) :
    words edits first (tokens ++ tokens') =
      words edits first tokens ++ words edits (first + tokens.length) tokens' :=
  Rewriter.render_append _ _ _

theorem words_gap {gap : Gap} (h : ∀ i, first ≤ i → i < first + gap.length →
    edits i = none ∨ edits i = some .delete) : words edits first (Gap.tokens gap) = [] := by
  apply Rewriter.render_blank
  · intro token htoken
    obtain ⟨text, _, rfl⟩ := List.mem_map.mp htoken
    rfl
  · rw [length_gap]
    exact h

/-- What is left of the tokens `l`, a gap and the token behind it, if the first `n` tokens are
deleted and `l` is among them. -/
theorem words_deleteRange {l : List Token} {gap : Gap} {n : ℕ} (hn : l.length ≤ n)
    (hedits : ∀ i, first + l.length ≤ i → i ≤ first + (l.length + gap.length) → edits i = none)
    (token : Token) (rest : List Token) :
    words (edits.deleteRange first n) first (l ++ (Gap.tokens gap ++ token :: rest)) =
      (if l.length + gap.length < n then [] else word token) ++
        words (edits.deleteRange first n) (first + (l.length + gap.length) + 1) rest := by
  have hl : words (edits.deleteRange first n) first l = [] :=
    Rewriter.render_deleted fun i hi hi' ↦ Rewriter.deleteRange_inside hi (by omega)
  have hgap : words (edits.deleteRange first n) (first + l.length) (Gap.tokens gap) = [] := by
    apply words_gap
    intro i hi hi'
    exact Rewriter.deleteRange_untouched (hedits i hi (by omega))
  rw [words_append, words_append, hl, hgap, words_cons, length_gap, List.nil_append,
    List.nil_append, Nat.add_assoc first]
  congr 1
  split
  · rw [Rewriter.deleteRange_inside (by omega) (by omega)]
    rfl
  · rw [Rewriter.deleteRange_outside (by omega), hedits _ (by omega) (by omega)]
    rfl

/-! ## Declarators -/

/-- The list begins with a token at which the loop stops. -/
def Stops (tokens : List Token) : Prop :=
  ∃ token rest, tokens = token :: rest ∧ isSeparator token.text = false

theorem Stops.append (h : Stops tokens) (follow : List Token) : Stops (tokens ++ follow) := by
  obtain ⟨token, rest, rfl, htoken⟩ := h
  exact ⟨token, rest ++ follow, rfl, htoken⟩

theorem Stops.length_pos (h : Stops tokens) : 1 ≤ tokens.length := by
  obtain ⟨token, rest, rfl, _⟩ := h
  exact Nat.succ_pos _

theorem Stops.separators_gap_le (h : Stops follow) (gap : Gap) :
    separators (Gap.tokens gap ++ follow) ≤ gap.length := by
  obtain ⟨token, rest, rfl, htoken⟩ := h
  by_cases hgap : Passable gap
  · rw [separators_gap hgap, separators_cons_of_neg token htoken]
    exact Nat.le_refl _
  · exact Nat.le_of_lt (separators_gap_lt hgap _)

mutual

theorem stops_declarator : (declarator : Declarator) → Stops declarator.tokens
  | .pointer symbol _ _ _ => ⟨symbol.token, _, rfl, by cases symbol <;> rfl⟩
  | .direct direct extensions => (stops_direct direct).append extensions.tokens

theorem stops_direct : (direct : DirectDeclarator) → Stops direct.tokens
  | .identifier name => by
    refine ⟨name.token, [], rfl, ?_⟩
    have hspace : ' ' ∉ name.text := name.not_mem rfl
    have hcomma : ',' ∉ name.text := name.not_mem rfl
    simp [isSeparator, Identifier.token, hspace, hcomma]
  | .paren _ _ _ => ⟨.ofString "(", _, rfl, rfl⟩
  | .array direct _ _ => (stops_direct direct).append _
  | .function direct _ _ => (stops_direct direct).append _

end

theorem stops_initDeclarator (item : InitDeclarator) : Stops item.tokens := by
  cases item with
  | plain declarator => exact stops_declarator declarator
  | withInitializer declarator _ _ _ => exact (stops_declarator declarator).append _

/-! ## One item -/

theorem drop_add_length {l r : List Token} (h : tokens.drop first = l ++ r) :
    tokens.drop (first + l.length) = r := by
  rw [← List.drop_drop, h, List.drop_left]

/-- What is left of an item that is followed by a comma, and of the comma. -/
def itemWords (skip : ℕ) (item : InitDeclarator) (before : Gap) : List Text :=
  match item with
  | .plain _ => if Passable before then [] else [",".toList]
  | .withInitializer declarator _ _ initializer =>
    visible (declarator.tokens.drop skip) ++
      ("=".toList :: (visible initializer.tokens ++ [",".toList]))

section Item

variable {item : InitDeclarator} {before after : Gap}

theorem separators_comma_le (hfollow : Stops follow) (before after : Gap) :
    separators (Gap.tokens before ++ comma :: (Gap.tokens after ++ follow)) ≤
      before.length + (1 + after.length) := by
  by_cases hbefore : Passable before
  · have hafter := hfollow.separators_gap_le after
    rw [separators_gap hbefore, separators_cons_of_pos comma rfl]
    omega
  · have hlt := separators_gap_lt hbefore (comma :: (Gap.tokens after ++ follow))
    omega

/-- The loop takes the comma with it exactly if nothing in front of it stops it. -/
theorem lt_separators_comma_iff (before : Gap) (follow : List Token) :
    before.length < separators (Gap.tokens before ++ comma :: follow) ↔ Passable before := by
  constructor
  · intro hlt
    by_contra hbefore
    have hstopped := separators_gap_lt hbefore (comma :: follow)
    omega
  · intro hbefore
    rw [separators_gap hbefore, separators_cons_of_pos comma rfl]
    omega

/-- The edits for an item stay in front of the next one. -/
theorem deleteNonInitialized_frame (hfollow : Stops follow)
    (hdrop : tokens.drop first =
      item.tokens ++ (Gap.tokens before ++ comma :: (Gap.tokens after ++ follow))) {i : ℕ}
    (hi : i < first ∨ first + (item.tokens.length + (before.length + (1 + after.length))) ≤ i) :
    deleteNonInitialized tokens first item edits i = edits i := by
  cases item with
  | withInitializer declarator _ _ initializer => rfl
  | plain declarator =>
    rw [InitDeclarator.tokens] at hdrop hi
    have hle := separators_comma_le hfollow before after
    rw [deleteNonInitialized_plain, drop_add_length hdrop]
    exact Rewriter.deleteRange_outside (by omega)

theorem words_item (hskip : skip ≤ 1)
    (hdrop : tokens.drop first =
      item.tokens ++ (Gap.tokens before ++ comma :: (Gap.tokens after ++ follow)))
    (hfresh : Fresh edits first skip
      (item.tokens.length + (before.length + (1 + after.length)))) :
    words (deleteNonInitialized tokens first item edits) first
      (item.tokens ++ (Gap.tokens before ++ comma :: Gap.tokens after)) =
        itemWords skip item before := by
  have hpos := (stops_initDeclarator item).length_pos
  cases item with
  | withInitializer declarator beforeEq afterEq initializer =>
    have hdeclarator := (stops_declarator declarator).length_pos
    rw [deleteNonInitialized, Fresh.words_eq _ _]
    · rw [InitDeclarator.tokens, List.append_assoc,
        List.drop_append_of_le_length (Nat.le_trans hskip hdeclarator)]
      simp [itemWords, comma]
    · apply hfresh.mono
      simp only [List.length_append, List.length_cons, length_gap]
      omega
    · rw [List.length_append]
      omega
  | plain declarator =>
    rw [InitDeclarator.tokens] at hpos hdrop hfresh ⊢
    have hedits (i : ℕ) (hi : first + declarator.tokens.length ≤ i)
        (hi' : i < first + (declarator.tokens.length + (before.length + (1 + after.length)))) :
        edits i = none := hfresh.untouched i (by omega) hi'
    rw [deleteNonInitialized_plain, drop_add_length hdrop, words_deleteRange (Nat.le_add_right _ _),
      words_gap, List.append_nil, itemWords]
    · refine if_congr ?_ rfl rfl
      rw [Nat.add_lt_add_iff_left]
      exact lt_separators_comma_iff before _
    · intro i hi hi'
      exact Rewriter.deleteRange_untouched (hedits i (by omega) (by omega))
    · exact fun i hi hi' ↦ hedits i hi (by omega)

/-- The tokens behind an item are not changed by the edits for it. -/
theorem words_item_append (hskip : skip ≤ 1) (hfollow : Stops follow)
    (hdrop : tokens.drop first =
      item.tokens ++ (Gap.tokens before ++ comma :: (Gap.tokens after ++ follow)))
    (hfresh : Fresh edits first skip
      (item.tokens.length + (before.length + (1 + after.length)))) (segment : List Token) :
    words (deleteNonInitialized tokens first item edits) first
      (item.tokens ++ (Gap.tokens before ++ comma :: (Gap.tokens after ++ segment))) =
        itemWords skip item before ++
          words edits (first + (item.tokens.length + (before.length + (1 + after.length))))
            segment := by
  have hsplit : item.tokens ++ (Gap.tokens before ++ comma :: (Gap.tokens after ++ segment)) =
      (item.tokens ++ (Gap.tokens before ++ comma :: Gap.tokens after)) ++ segment := by
    simp only [List.append_assoc, List.cons_append]
  have hlength : (item.tokens ++ (Gap.tokens before ++ comma :: Gap.tokens after)).length =
      item.tokens.length + (before.length + (1 + after.length)) := by
    simp only [List.length_append, List.length_cons, length_gap]
    omega
  rw [hsplit, words_append, words_item hskip hdrop hfresh, hlength]
  congr 1
  apply Rewriter.render_congr
  intro i hi _
  exact deleteNonInitialized_frame hfollow hdrop (.inr hi)

end Item

/-! ## The last item -/

theorem deleteStars_frame {trimmedName : Text} {span : List Token} {i : ℕ}
    (hi : i < first ∨ first + span.length ≤ i) :
    deleteStars trimmedName span first edits i = edits i := by
  induction span generalizing first edits with
  | nil => rfl
  | cons token span ih =>
    rw [List.length_cons] at hi
    rw [deleteStars, ih (by omega)]
    split
    · exact Rewriter.delete_of_ne edits (by omega)
    · exact Rewriter.replace_of_ne edits (by omega) _

theorem words_deleteStars (trimmedName : Text) (span : List Token) (first : ℕ)
    (edits : Rewriter Text) :
    words (deleteStars trimmedName span first edits) first span =
      List.replicate (span.countP fun token ↦ '*' ∉ token.text) trimmedName := by
  induction span generalizing first edits with
  | nil => rfl
  | cons token span ih =>
    rw [words_cons, deleteStars, ih, deleteStars_frame (by omega)]
    by_cases hstar : '*' ∈ token.text
    · rw [if_pos hstar, List.countP_cons_of_neg (by simpa using hstar), Rewriter.delete_self]
      rfl
    · rw [if_neg hstar, List.countP_cons_of_pos (by simpa using hstar), Rewriter.replace_self,
        List.replicate_succ]
      rfl

theorem deletePointerPrefix_frame {declarator : Declarator} {i : ℕ}
    (hi : i < first ∨ first + declarator.tokens.length ≤ i) :
    deletePointerPrefix first declarator edits i = edits i := by
  rw [deletePointerPrefix]
  split
  · exact deleteStars_frame hi
  · rfl

/-- What is left of the declarator of the last item. -/
def declaratorWords (skip : ℕ) (declarator : Declarator) : List Text :=
  if '*' ∈ getText declarator.tokens then
    List.replicate (declarator.tokens.countP fun token ↦ '*' ∉ token.text)
      (trimStars (getText declarator.tokens))
  else visible (declarator.tokens.drop skip)

theorem words_deletePointerPrefix {declarator : Declarator} (hskip : skip ≤ 1)
    (hfresh : Fresh edits first skip declarator.tokens.length) :
    words (deletePointerPrefix first declarator edits) first declarator.tokens =
      declaratorWords skip declarator := by
  have hpos := (stops_declarator declarator).length_pos
  rw [deletePointerPrefix, declaratorWords]
  split
  · exact words_deleteStars _ _ _ _
  · exact hfresh.words_eq (Nat.le_trans hskip hpos)

/-- What is left of the last item. -/
def lastWords (skip : ℕ) : InitDeclarator → List Text
  | .plain _ => []
  | .withInitializer declarator _ _ initializer =>
    declaratorWords skip declarator ++ ("=".toList :: visible initializer.tokens)

def semicolon : Token := .ofString ";"

theorem stops_semicolon (follow : List Token) : Stops (semicolon :: follow) :=
  ⟨semicolon, follow, rfl, rfl⟩

section Last

variable {item : InitDeclarator} {lastGap : Gap}

theorem deleteLast_frame
    (hdrop : tokens.drop first = item.tokens ++ (Gap.tokens lastGap ++ semicolon :: follow)) {i : ℕ}
    (hi : i < first ∨ first + (item.tokens.length + lastGap.length) ≤ i) :
    deleteNonInitialized tokens first item
      (deletePointerPrefix first item.declarator edits) i = edits i := by
  cases item with
  | withInitializer declarator _ _ initializer =>
    rw [InitDeclarator.tokens, List.length_append] at hi
    exact deletePointerPrefix_frame (by rw [InitDeclarator.declarator]; omega)
  | plain declarator =>
    rw [InitDeclarator.tokens] at hdrop hi
    have hle := (stops_semicolon follow).separators_gap_le lastGap
    rw [deleteNonInitialized_plain, drop_add_length hdrop,
      Rewriter.deleteRange_outside (by omega)]
    exact deletePointerPrefix_frame (by rw [InitDeclarator.declarator]; omega)

theorem words_last (hskip : skip ≤ 1)
    (hdrop : tokens.drop first = item.tokens ++ (Gap.tokens lastGap ++ semicolon :: follow))
    (hfresh : Fresh edits first skip (item.tokens.length + (lastGap.length + 1))) :
    words (deleteNonInitialized tokens first item
      (deletePointerPrefix first item.declarator edits)) first
        (item.tokens ++ (Gap.tokens lastGap ++ [semicolon])) =
          lastWords skip item ++ [";".toList] := by
  cases item with
  | withInitializer declarator before after initializer =>
    rw [InitDeclarator.tokens, List.length_append] at hfresh
    rw [InitDeclarator.tokens, List.append_assoc, words_append, deleteNonInitialized,
      InitDeclarator.declarator, words_deletePointerPrefix hskip (hfresh.mono (by omega))]
    have hrest : words (deletePointerPrefix first declarator edits)
        (first + declarator.tokens.length)
        ((Gap.tokens before ++ (.ofString "=" :: (Gap.tokens after ++ initializer.tokens))) ++
          (Gap.tokens lastGap ++ [semicolon])) =
        "=".toList :: visible initializer.tokens ++ [";".toList] := by
      rw [words, Rewriter.render_untouched]
      · change visible _ = _
        simp [semicolon]
      · intro i hi hi'
        have hpos := (stops_declarator declarator).length_pos
        rw [deletePointerPrefix_frame (.inr hi)]
        refine hfresh.untouched i (by omega) ?_
        simp only [List.length_append, List.length_cons, length_gap, List.length_nil] at hi' ⊢
        omega
    rw [hrest, lastWords, List.append_assoc]
  | plain declarator =>
    rw [InitDeclarator.tokens] at hdrop hfresh ⊢
    have hpos := (stops_declarator declarator).length_pos
    have hle := (stops_semicolon follow).separators_gap_le lastGap
    rw [deleteNonInitialized_plain, drop_add_length hdrop, InitDeclarator.declarator,
      words_deleteRange (Nat.le_add_right _ _), if_neg (by omega)]
    · rfl
    · intro i hi hi'
      rw [deletePointerPrefix_frame (.inr hi)]
      exact hfresh.untouched i (by omega) (by omega)

end Last

end Edits

end DeclarationTrimmer

end Systemish.Antlr
