import Systemish.Foundation.Text
import Systemish.Antlr.DeclarationTrimmer

/-!
# Trimmed declarations

What `enterDeclaration` leaves of a declaration, for all declarations, and when
that is what it is meant to leave. Most declarators come out longer than they
should and none but the first can come out shorter, so the words can be compared
item by item.
-/

namespace Systemish.Antlr

open Foundation

namespace DeclarationTrimmer

/-! ## What is meant -/

/-- `name = initializer`, for an item that has an initializer. -/
def assignment : InitDeclarator → Option (List Text)
  | .plain _ => none
  | .withInitializer declarator _ _ initializer =>
    some (declarator.name.text :: "=".toList :: visible initializer.tokens)

/-- The assignments of a list, in source order. -/
def assignments : InitDeclaratorList → List (List Text)
  | .single item => (assignment item).toList
  | .snoc list _ _ item => assignments list ++ (assignment item).toList

/-- The assignments, separated by commas. -/
def assignmentWords (list : InitDeclaratorList) : List Text :=
  [",".toList].intercalate (assignments list) ++ [";".toList]

section Edits

variable {tokens follow : List Token} {edits : Rewriter Text} {first skip : ℕ}

/-! ## The whole list -/

/-- What is left of a list that is followed by a comma, and of the comma. -/
def frontWords (skip : ℕ) : InitDeclaratorList → (before : Gap) → List Text
  | .single item, before => itemWords skip item before
  | .snoc list before' _ item, before => frontWords skip list before' ++ itemWords 0 item before

/-- What is left of the list of a declaration. -/
def listWords (skip : ℕ) : InitDeclaratorList → List Text
  | .single item => lastWords skip item
  | .snoc list before _ item => frontWords skip list before ++ lastWords 0 item

/-- The item behind a comma. -/
theorem drop_behind_comma {l r : List Token} {before after : Gap}
    (hdrop : tokens.drop first =
      l ++ (Gap.tokens before ++ comma :: (Gap.tokens after ++ r))) :
    tokens.drop (first + (l.length + (before.length + (1 + after.length)))) = r := by
  have hlength : l.length + (before.length + (1 + after.length)) =
      (l ++ (Gap.tokens before ++ comma :: Gap.tokens after)).length := by
    simp only [List.length_append, List.length_cons, length_gap]
    omega
  rw [hlength]
  apply drop_add_length
  rw [hdrop]
  simp only [List.append_assoc, List.cons_append]

theorem deleteFront_frame (list : InitDeclaratorList) {first : ℕ} {before after : Gap}
    {follow : List Token} {edits : Rewriter Text} (hfollow : Stops follow)
    (hdrop : tokens.drop first =
      list.tokens ++ (Gap.tokens before ++ comma :: (Gap.tokens after ++ follow))) {i : ℕ}
    (hi : i < first ∨ first + (list.tokens.length + (before.length + (1 + after.length))) ≤ i) :
    deleteNonInitializedDeclarators tokens first list edits i = edits i :=
  match list with
  | .single item => deleteNonInitialized_frame hfollow hdrop hi
  | .snoc list before' after' item => by
    simp only [InitDeclaratorList.tokens, List.append_assoc, List.cons_append] at hdrop
    simp only [InitDeclaratorList.tokens, List.length_append, List.length_cons, length_gap] at hi
    rw [deleteNonInitializedDeclarators,
      deleteFront_frame list ((stops_initDeclarator item).append _) hdrop (by omega)]
    exact deleteNonInitialized_frame hfollow (drop_behind_comma hdrop) (by omega)

/-- What is left of a list that is followed by a comma and further tokens. -/
theorem words_front (list : InitDeclaratorList) {first : ℕ} {before after : Gap}
    {follow : List Token} {edits : Rewriter Text} (hskip : skip ≤ 1) (hfollow : Stops follow)
    (hdrop : tokens.drop first =
      list.tokens ++ (Gap.tokens before ++ comma :: (Gap.tokens after ++ follow)))
    (hfresh : Fresh edits first skip
      (list.tokens.length + (before.length + (1 + after.length)))) (segment : List Token) :
    words (deleteNonInitializedDeclarators tokens first list edits) first
      (list.tokens ++ (Gap.tokens before ++ comma :: (Gap.tokens after ++ segment))) =
        frontWords skip list before ++
          words edits (first + (list.tokens.length + (before.length + (1 + after.length))))
            segment :=
  match list with
  | .single item => words_item_append hskip hfollow hdrop hfresh segment
  | .snoc list before' after' item => by
    have hpos := (stops_initDeclarator item).length_pos
    simp only [InitDeclaratorList.tokens, List.append_assoc, List.cons_append] at hdrop ⊢
    simp only [InitDeclaratorList.tokens, List.length_append, List.length_cons, length_gap]
      at hfresh ⊢
    have hitem := drop_behind_comma hdrop
    have hfreshItem : Fresh edits
        (first + (list.tokens.length + (before'.length + (1 + after'.length)))) 0
        (item.tokens.length + (before.length + (1 + after.length))) :=
      hfresh.behind (by omega) (by omega)
    have hfreshFront : Fresh (deleteNonInitialized tokens
        (first + (list.tokens.length + (before'.length + (1 + after'.length)))) item edits) first
        skip (list.tokens.length + (before'.length + (1 + after'.length))) := by
      apply Fresh.congr (hfresh.mono (by omega)) (by omega)
      intro i hi hi'
      exact deleteNonInitialized_frame hfollow hitem (.inl hi')
    have hfront := words_front list hskip ((stops_initDeclarator item).append _) hdrop hfreshFront
      (item.tokens ++ (Gap.tokens before ++ comma :: (Gap.tokens after ++ segment)))
    rw [words_item_append (Nat.zero_le 1) hfollow hitem hfreshItem] at hfront
    rw [deleteNonInitializedDeclarators, frontWords, List.append_assoc]
    refine hfront.trans ?_
    congr 3
    omega

section List

variable {list : InitDeclaratorList} {lastGap : Gap}

theorem lastOffset_add (list : InitDeclaratorList) :
    lastOffset list + list.initDeclarator.tokens.length = list.tokens.length := by
  cases list with
  | single item => exact Nat.zero_add _
  | snoc list before after item =>
    simp only [lastOffset, InitDeclaratorList.initDeclarator, InitDeclaratorList.tokens,
      List.length_append, List.length_cons, length_gap]
    omega

/-- The edits for a list stay in front of its semicolon. -/
theorem deleteList_frame
    (hdrop : tokens.drop first = list.tokens ++ (Gap.tokens lastGap ++ semicolon :: follow)) {i : ℕ}
    (hi : i < first ∨ first + (list.tokens.length + lastGap.length) ≤ i) :
    deleteNonInitializedDeclarators tokens first list
      (deletePointerPrefix (first + lastOffset list) list.initDeclarator.declarator edits) i =
        edits i := by
  have hoffset := lastOffset_add list
  cases list with
  | single item => exact deleteLast_frame hdrop hi
  | snoc list before after item =>
    simp only [InitDeclaratorList.tokens, List.append_assoc, List.cons_append] at hdrop
    rw [InitDeclaratorList.initDeclarator] at hoffset
    rw [deleteNonInitializedDeclarators,
      deleteFront_frame list ((stops_initDeclarator item).append _) hdrop]
    · exact deleteLast_frame (drop_behind_comma hdrop) (by rw [lastOffset] at hoffset; omega)
    · rw [lastOffset] at hoffset
      omega

theorem words_list (hskip : skip ≤ 1)
    (hdrop : tokens.drop first = list.tokens ++ (Gap.tokens lastGap ++ semicolon :: follow))
    (hfresh : Fresh edits first skip (list.tokens.length + (lastGap.length + 1))) :
    words (deleteNonInitializedDeclarators tokens first list
      (deletePointerPrefix (first + lastOffset list) list.initDeclarator.declarator edits)) first
        (list.tokens ++ (Gap.tokens lastGap ++ [semicolon])) =
          listWords skip list ++ [";".toList] := by
  cases list with
  | single item => exact words_last hskip hdrop hfresh
  | snoc list before after item =>
    have hpos := (stops_initDeclarator item).length_pos
    simp only [InitDeclaratorList.tokens, List.append_assoc, List.cons_append] at hdrop ⊢
    simp only [InitDeclaratorList.tokens, List.length_append, List.length_cons, length_gap]
      at hfresh
    rw [lastOffset, InitDeclaratorList.initDeclarator, deleteNonInitializedDeclarators]
    have hitem := drop_behind_comma hdrop
    have hfreshItem : Fresh edits
        (first + (list.tokens.length + (before.length + (1 + after.length)))) 0
        (item.tokens.length + (lastGap.length + 1)) := hfresh.behind (by omega) (by omega)
    have hlast := words_last (Nat.zero_le 1) hitem hfreshItem
    have hfront := words_front list hskip ((stops_initDeclarator item).append _) hdrop
      (Fresh.congr (hfresh.mono (by omega)) (by omega)
        fun i hi hi' ↦ deleteLast_frame hitem (.inl hi'))
      (item.tokens ++ (Gap.tokens lastGap ++ [semicolon]))
    rw [hlast] at hfront
    rw [listWords, List.append_assoc]
    exact hfront

end List

/-- The number of tokens of the list that are deleted together with the specifiers. -/
def skipped (gap : Gap) : ℕ := if gap = [] then 1 else 0

/-- The edits for `count` tokens of specifiers and the token behind them. -/
def specifierEdits (first count : ℕ) (edits : Rewriter Text) : Rewriter Text :=
  (edits.deleteRange first count).delete (first + count)

theorem specifierEdits_eq (first count : ℕ) (edits : Rewriter Text) (i : ℕ) :
    specifierEdits first count edits i =
      if first ≤ i ∧ i ≤ first + count then some .delete else edits i := by
  rw [specifierEdits]
  by_cases hi : i = first + count
  · rw [hi, Rewriter.delete_self, if_pos (by omega)]
  · rw [Rewriter.delete_of_ne _ hi, Rewriter.deleteRange]
    exact if_congr (by omega) rfl rfl

theorem fresh_specifierEdits (first count : ℕ) (gap : Gap) {length : ℕ}
    (huntouched : ∀ i, first ≤ i → i < first + count + gap.length + length → edits i = none) :
    Fresh (specifierEdits first count edits) (first + count + gap.length) (skipped gap)
      length := by
  constructor
  · intro i hi hi'
    rw [skipped] at hi'
    split at hi'
    · next hempty =>
      rw [hempty, List.length_nil] at hi hi'
      rw [specifierEdits_eq, if_pos (by omega)]
    · omega
  · intro i hi hi'
    rw [skipped] at hi
    rw [specifierEdits_eq, if_neg]
    · exact huntouched i (by omega) hi'
    · split at hi
      · omega
      · next hne =>
        have hpos := List.length_pos_iff.mpr hne
        omega

/-- The list of a declaration in the stream. -/
theorem drop_declaration (before after : List Token) (specifiers : Forest) (gap : Gap)
    (list : InitDeclaratorList) (lastGap : Gap) :
    (before ++ ((Tree.declaration specifiers gap list lastGap).tokens ++ after)).drop
        (before.length + specifiers.tokens.length + gap.length) =
      list.tokens ++ (Gap.tokens lastGap ++ semicolon :: after) := by
  have hspecifiers : (before ++ ((Tree.declaration specifiers gap list lastGap).tokens ++
      after)).drop before.length = specifiers.tokens ++ (Gap.tokens gap ++
        (list.tokens ++ (Gap.tokens lastGap ++ semicolon :: after))) := by
    rw [List.drop_left, Tree.tokens]
    simp only [List.append_assoc, List.singleton_append, semicolon]
  have hgap := drop_add_length (drop_add_length hspecifiers)
  rwa [length_gap] at hgap

/-- Outside of the list of the declaration only the specifiers and the token behind them are
deleted. -/
theorem enterDeclaration_frame (before after : List Token) (specifiers : Forest) (gap : Gap)
    (list : InitDeclaratorList) (lastGap : Gap) (edits : Rewriter Text) {i : ℕ}
    (hi : i < before.length + specifiers.tokens.length + gap.length ∨
      before.length + specifiers.tokens.length + gap.length +
        (list.tokens.length + lastGap.length) ≤ i) :
    enterDeclaration (before ++ ((Tree.declaration specifiers gap list lastGap).tokens ++ after))
        before.length specifiers gap list edits i =
      if before.length ≤ i ∧ i ≤ before.length + specifiers.tokens.length then some .delete
      else edits i := by
  have hlist := drop_declaration before after specifiers gap list lastGap
  exact (deleteList_frame hlist hi).trans (specifierEdits_eq _ _ _ i)

theorem length_declaration (specifiers : Forest) (gap : Gap) (list : InitDeclaratorList)
    (lastGap : Gap) :
    (Tree.declaration specifiers gap list lastGap).tokens.length =
      specifiers.tokens.length + gap.length + (list.tokens.length + (lastGap.length + 1)) := by
  simp only [Tree.tokens, List.length_append, List.length_singleton, length_gap]
  omega

/-- The call for a declaration leaves everything outside of it as it is. -/
theorem enterDeclaration_outside (before after : List Token) (specifiers : Forest) (gap : Gap)
    (list : InitDeclaratorList) (lastGap : Gap) (edits : Rewriter Text) {i : ℕ}
    (hi : i < before.length ∨
      before.length + (Tree.declaration specifiers gap list lastGap).tokens.length ≤ i) :
    enterDeclaration (before ++ ((Tree.declaration specifiers gap list lastGap).tokens ++ after))
        before.length specifiers gap list edits i = edits i := by
  rw [length_declaration] at hi
  rw [enterDeclaration_frame before after specifiers gap list lastGap edits (by omega),
    if_neg (by omega)]

/-- The words of the declaration after the call for it. -/
theorem words_declaration (before after : List Token) (specifiers : Forest) (gap : Gap)
    (list : InitDeclaratorList) (lastGap : Gap)
    (huntouched : ∀ i, before.length ≤ i →
      i < before.length + (Tree.declaration specifiers gap list lastGap).tokens.length →
        edits i = none) :
    words (enterDeclaration
      (before ++ ((Tree.declaration specifiers gap list lastGap).tokens ++ after)) before.length
        specifiers gap list edits) before.length
          (Tree.declaration specifiers gap list lastGap).tokens =
      listWords (skipped gap) list ++ [";".toList] := by
  rw [length_declaration] at huntouched
  have hskip : skipped gap ≤ 1 := by
    rw [skipped]
    split <;> omega
  have hlist := words_list hskip (drop_declaration before after specifiers gap list lastGap)
    (fresh_specifierEdits before.length specifiers.tokens.length gap
      fun i hi hi' ↦ huntouched i hi (by omega))
  have hframe {i : ℕ} := @enterDeclaration_frame before after specifiers gap list lastGap edits i
  change words (enterDeclaration (before ++ (_ ++ after)) before.length specifiers gap list edits)
    _ _ = _ at hlist
  generalize enterDeclaration (before ++ (_ ++ after)) before.length specifiers gap list edits =
    edits' at hlist hframe ⊢
  have hspecifiers : words edits' before.length specifiers.tokens = [] := by
    apply Rewriter.render_deleted
    intro i hi hi'
    rw [hframe (.inl (by omega)), if_pos (by omega)]
  have hgap : words edits' (before.length + specifiers.tokens.length) (Gap.tokens gap) = [] := by
    apply words_gap
    intro i hi hi'
    rw [hframe (.inl (by omega))]
    split
    · exact .inr rfl
    · exact .inl (huntouched i (by omega) (by omega))
  have hsplit : (Tree.declaration specifiers gap list lastGap).tokens =
      specifiers.tokens ++ (Gap.tokens gap ++
        (list.tokens ++ (Gap.tokens lastGap ++ [semicolon]))) := rfl
  rw [hsplit, words_append, words_append, length_gap, hspecifiers, hgap, hlist, List.nil_append,
    List.nil_append]

/-- The words of the whole stream after the call for one declaration. -/
theorem words_enterDeclaration (before after : List Token) (specifiers : Forest) (gap : Gap)
    (list : InitDeclaratorList) (lastGap : Gap) :
    words (enterDeclaration
      (before ++ ((Tree.declaration specifiers gap list lastGap).tokens ++ after)) before.length
        specifiers gap list .start) 0
          (before ++ ((Tree.declaration specifiers gap list lastGap).tokens ++ after)) =
      visible before ++ ((listWords (skipped gap) list ++ [";".toList]) ++ visible after) := by
  have hdeclaration := words_declaration before after specifiers gap list lastGap
    (fun _ _ _ ↦ rfl : ∀ i, _ → _ → Rewriter.start i = none)
  have houtside {i : ℕ} :=
    @enterDeclaration_outside before after specifiers gap list lastGap .start i
  generalize enterDeclaration (before ++ (_ ++ after)) before.length specifiers gap list .start =
    edits at hdeclaration houtside ⊢
  have hbefore : words edits 0 before = visible before := by
    apply Rewriter.render_untouched
    intro i _ hi
    rw [houtside (.inl (by omega))]
    rfl
  have hafter : words edits
      (before.length + (Tree.declaration specifiers gap list lastGap).tokens.length) after =
        visible after := by
    apply Rewriter.render_untouched
    intro i hi _
    rw [houtside (.inr hi)]
    rfl
  rw [words_append, words_append, Nat.zero_add, hbefore, hdeclaration, hafter]

end Edits

/-! ## When that is what is meant -/

/-- Nothing but the name is left of an item with an initializer, and an item without one takes its
comma with it. -/
def ItemClean (skip : ℕ) (item : InitDeclarator) (before : Gap) : Prop :=
  match item with
  | .plain _ => Passable before
  | .withInitializer declarator _ _ _ =>
    visible (declarator.tokens.drop skip) = [declarator.name.text]

def FrontClean (skip : ℕ) : InitDeclaratorList → (before : Gap) → Prop
  | .single item, before => ItemClean skip item before
  | .snoc list before' _ item, before => FrontClean skip list before' ∧ ItemClean 0 item before

/-- If the declarator has a `*`, then its name is its only token without one; otherwise it is its
name alone. -/
def DeclaratorClean (skip : ℕ) (declarator : Declarator) : Prop :=
  if '*' ∈ getText declarator.tokens then
    declarator.tokens.countP (fun token ↦ '*' ∉ token.text) = 1 ∧
      trimStars (getText declarator.tokens) = declarator.name.text
  else visible (declarator.tokens.drop skip) = [declarator.name.text]

def LastClean (skip : ℕ) : InitDeclarator → Prop
  | .plain _ => True
  | .withInitializer declarator _ _ _ => DeclaratorClean skip declarator

/-- The declarations that are trimmed as they should be. -/
def Trimmable (gap : Gap) : InitDeclaratorList → Prop
  | .single item => LastClean (skipped gap) item
  | .snoc list before _ item =>
    FrontClean (skipped gap) list before ∧ LastClean 0 item ∧
      ((assignment item).isSome ∨ assignments list = [])

/-- The assignments of a list, each with the comma behind it. -/
def assignmentsAndCommas (list : InitDeclaratorList) : List Text :=
  (assignments list).flatMap (· ++ [",".toList])

theorem assignmentsAndCommas_snoc (list : InitDeclaratorList) (before after : Gap)
    (item : InitDeclarator) :
    assignmentsAndCommas (.snoc list before after item) =
      assignmentsAndCommas list ++ (assignment item).toList.flatMap (· ++ [",".toList]) :=
  List.flatMap_append

theorem itemWords_eq_iff (skip : ℕ) (item : InitDeclarator) (before : Gap) :
    itemWords skip item before = (assignment item).toList.flatMap (· ++ [",".toList]) ↔
      ItemClean skip item before := by
  cases item with
  | plain declarator =>
    by_cases hbefore : Passable before <;> simp [itemWords, assignment, ItemClean, hbefore]
  | withInitializer declarator before' after initializer =>
    have hright :
        (assignment (.withInitializer declarator before' after initializer)).toList.flatMap
          (· ++ [",".toList]) = [declarator.name.text] ++
            ("=".toList :: (visible initializer.tokens ++ [",".toList])) := by
      simp [assignment]
    rw [hright, itemWords, ItemClean]
    exact List.append_left_inj _

/-! ### Nothing is gained where something is lost -/

mutual

theorem name_mem_declarator : (declarator : Declarator) →
    declarator.name.token ∈ declarator.tokens
  | .pointer _ _ _ declarator => by
    rw [Declarator.name, Declarator.tokens]
    simp [name_mem_declarator declarator]
  | .direct direct _ => List.mem_append_left _ (name_mem_direct direct)

theorem name_mem_direct : (direct : DirectDeclarator) → direct.name.token ∈ direct.tokens
  | .identifier _ => List.mem_singleton_self _
  | .paren _ declarator _ => by
    rw [DirectDeclarator.name, DirectDeclarator.tokens]
    simp [name_mem_declarator declarator]
  | .array direct _ _ => List.mem_append_left _ (name_mem_direct direct)
  | .function direct _ _ => List.mem_append_left _ (name_mem_direct direct)

end

theorem visible_declarator_ne_nil (declarator : Declarator) : visible declarator.tokens ≠ [] := by
  apply List.ne_nil_of_mem (a := declarator.name.text)
  exact List.mem_flatMap.mpr
    ⟨declarator.name.token, name_mem_declarator declarator, List.mem_singleton_self _⟩

theorem declaratorWords_ne_nil (declarator : Declarator) : declaratorWords 0 declarator ≠ [] := by
  rw [declaratorWords]
  split
  · have hstar : '*' ∉ declarator.name.text := declarator.name.not_mem rfl
    have hcount : 0 < declarator.tokens.countP fun token ↦ '*' ∉ token.text :=
      List.countP_pos_iff.mpr ⟨_, name_mem_declarator declarator, decide_eq_true hstar⟩
    rw [Ne, List.replicate_eq_nil_iff]
    omega
  · exact visible_declarator_ne_nil declarator

/-- Something is left of the first declarator, if it has an initializer. -/
def Lossless (skip : ℕ) : InitDeclaratorList → Prop
  | .single (.plain _) => True
  | .single (.withInitializer declarator _ _ _) => visible (declarator.tokens.drop skip) ≠ []
  | .snoc list _ _ _ => Lossless skip list

theorem length_le_itemWords {skip : ℕ} {item : InitDeclarator} (before : Gap)
    (h : Lossless skip (.single item)) :
    ((assignment item).toList.flatMap (· ++ [",".toList])).length ≤
      (itemWords skip item before).length := by
  cases item with
  | plain declarator => exact Nat.zero_le _
  | withInitializer declarator before' after initializer =>
    have hpos : 0 < (visible (declarator.tokens.drop skip)).length := List.length_pos_iff.mpr h
    simp only [assignment, itemWords, Option.toList_some, List.flatMap_cons, List.flatMap_nil,
      List.length_append, List.length_cons, List.length_nil]
    omega

theorem lossless_item (item : InitDeclarator) : Lossless 0 (.single item) := by
  cases item with
  | plain declarator => trivial
  | withInitializer declarator _ _ _ => exact visible_declarator_ne_nil declarator

theorem length_le_frontWords (list : InitDeclaratorList) {skip : ℕ} (before : Gap)
    (h : Lossless skip list) :
    (assignmentsAndCommas list).length ≤ (frontWords skip list before).length :=
  match list with
  | .single item => length_le_itemWords before h
  | .snoc list before' _ item => by
    have hlist := length_le_frontWords list before' h
    have hitem := length_le_itemWords before (lossless_item item)
    rw [assignmentsAndCommas_snoc, frontWords, List.length_append, List.length_append]
    omega

/-- Lists of words none of which is shorter than what it should be can be compared part by part. -/
theorem append_eq_append_iff_of_length_le {l l' r r' : List Text} (hl : l'.length ≤ l.length)
    (hr : r'.length ≤ r.length) : l ++ r = l' ++ r' ↔ l = l' ∧ r = r' := by
  constructor
  · intro h
    have hlength := congrArg List.length h
    rw [List.length_append, List.length_append] at hlength
    exact List.append_inj h (by omega)
  · rintro ⟨rfl, rfl⟩
    rfl

theorem frontWords_eq_iff (list : InitDeclaratorList) {skip : ℕ} (before : Gap)
    (h : Lossless skip list) :
    frontWords skip list before = assignmentsAndCommas list ↔ FrontClean skip list before :=
  match list with
  | .single item => itemWords_eq_iff skip item before
  | .snoc list before' _ item => by
    rw [frontWords, assignmentsAndCommas_snoc,
      append_eq_append_iff_of_length_le (length_le_frontWords list before' h)
        (length_le_itemWords before (lossless_item item))]
    exact and_congr (frontWords_eq_iff list before' h) (itemWords_eq_iff 0 item before)

/-- If nothing is left of the first declarator, then an `=` comes first. -/
theorem frontWords_of_loss (list : InitDeclaratorList) {skip : ℕ} (before : Gap)
    (h : ¬ Lossless skip list) :
    (∃ rest, frontWords skip list before = "=".toList :: rest) ∧
      (∃ name : Identifier, ∃ words others, assignments list = (name.text :: words) :: others) ∧
        ¬ FrontClean skip list before :=
  match list with
  | .single (.plain _) => absurd trivial h
  | .single (.withInitializer declarator _ _ initializer) => by
    have hnil : visible (declarator.tokens.drop skip) = [] := not_not.mp h
    refine ⟨⟨visible initializer.tokens ++ [",".toList], ?_⟩, ⟨declarator.name, _, [], rfl⟩, ?_⟩
    · rw [frontWords, itemWords, hnil, List.nil_append]
    · rw [FrontClean, ItemClean, hnil]
      exact List.cons_ne_nil _ _ ∘ Eq.symm
  | .snoc list before' _ item => by
    obtain ⟨⟨rest, hrest⟩, ⟨name, words, others, hassignments⟩, hclean⟩ :=
      frontWords_of_loss list before' h
    refine ⟨⟨rest ++ itemWords 0 item before, ?_⟩,
      ⟨name, words, others ++ (assignment item).toList, ?_⟩, fun h ↦ hclean h.1⟩
    · rw [frontWords, hrest, List.cons_append]
    · rw [assignments, hassignments, List.cons_append]

theorem declaratorWords_eq_iff (skip : ℕ) (declarator : Declarator) :
    declaratorWords skip declarator = [declarator.name.text] ↔ DeclaratorClean skip declarator := by
  rw [declaratorWords, DeclaratorClean]
  split
  · constructor
    · intro h
      have hcount : declarator.tokens.countP (fun token ↦ '*' ∉ token.text) = 1 := by
        simpa only [List.length_replicate, List.length_singleton] using congrArg List.length h
      rw [hcount] at h
      exact ⟨hcount, List.singleton_inj.mp h⟩
    · rintro ⟨hcount, hname⟩
      rw [hcount, hname]
      rfl
  · rfl

theorem lastWords_eq_iff (skip : ℕ) (item : InitDeclarator) :
    lastWords skip item = (assignment item).toList.flatten ↔ LastClean skip item := by
  cases item with
  | plain declarator => exact iff_of_true rfl trivial
  | withInitializer declarator before after initializer =>
    have hright :
        (assignment (.withInitializer declarator before after initializer)).toList.flatten =
          [declarator.name.text] ++ ("=".toList :: visible initializer.tokens) := by
      simp [assignment]
    rw [hright, lastWords, LastClean, ← declaratorWords_eq_iff]
    exact List.append_left_inj _

theorem length_le_lastWords (item : InitDeclarator) :
    ((assignment item).toList.flatten).length ≤ (lastWords 0 item).length := by
  cases item with
  | plain declarator => exact Nat.zero_le _
  | withInitializer declarator before after initializer =>
    have hpos := List.length_pos_iff.mpr (declaratorWords_ne_nil declarator)
    simp only [assignment, lastWords, Option.toList_some, List.flatten_cons, List.flatten_nil,
      List.length_append, List.length_cons, List.length_nil]
    omega

/-- An identifier is not an `=`. -/
theorem text_ne_equals (name : Identifier) : name.text ≠ "=".toList := by
  intro h
  have hmem : '=' ∈ name.text := h ▸ List.mem_singleton_self '='
  exact name.not_mem rfl hmem

/-- The words of a list whose last item has an initializer. -/
theorem intercalate_snoc (list : InitDeclaratorList) (x : List Text) :
    [",".toList].intercalate (assignments list ++ [x]) = assignmentsAndCommas list ++ x :=
  intercalate_concat _ _ _

theorem exists_intercalate_eq_cons (word : Text) (words : List Text) (others : List (List Text)) :
    ∃ rest, [",".toList].intercalate ((word :: words) :: others) = word :: rest := by
  cases others with
  | nil => exact ⟨words, List.intercalate_singleton⟩
  | cons next others =>
    refine ⟨words ++ [",".toList] ++ [",".toList].intercalate (next :: others), ?_⟩
    rw [List.intercalate_cons_cons, List.cons_append, List.cons_append]

theorem frontWords_append_ne_of_loss {list : InitDeclaratorList} {skip : ℕ} (before : Gap)
    (h : ¬ Lossless skip list) (words : List Text) (others : List (List Text)) :
    frontWords skip list before ++ words ≠
      [",".toList].intercalate (assignments list ++ others) := by
  obtain ⟨⟨rest, hrest⟩, ⟨name, words', others', hassignments⟩, _⟩ :=
    frontWords_of_loss list before h
  obtain ⟨tail, htail⟩ := exists_intercalate_eq_cons name.text words' (others' ++ others)
  rw [hrest, hassignments, List.cons_append, List.cons_append, htail]
  intro heq
  exact text_ne_equals name (List.cons_eq_cons.mp heq).1.symm

/-- A list that ends in an item without an initializer. -/
theorem frontWords_eq_intercalate_iff {list : InitDeclaratorList} {skip : ℕ} (before : Gap)
    (h : Lossless skip list) :
    frontWords skip list before = [",".toList].intercalate (assignments list) ↔
      FrontClean skip list before ∧ assignments list = [] := by
  by_cases hnil : assignments list = []
  · have hcommas : assignmentsAndCommas list = [] := by rw [assignmentsAndCommas, hnil]; rfl
    rw [← frontWords_eq_iff list before h, hcommas, hnil]
    simp
  · have hlength := length_le_frontWords list before h
    rw [assignmentsAndCommas, ← intercalate_append_singleton hnil, List.length_append,
      List.length_singleton] at hlength
    constructor
    · intro heq
      rw [heq] at hlength
      omega
    · rintro ⟨_, hempty⟩
      exact absurd hempty hnil

theorem listWords_eq_iff (gap : Gap) (list : InitDeclaratorList) :
    listWords (skipped gap) list = [",".toList].intercalate (assignments list) ↔
      Trimmable gap list := by
  cases list with
  | single item =>
    rw [listWords, Trimmable, ← lastWords_eq_iff, assignments]
    cases assignment item with
    | none => rfl
    | some x => simp
  | snoc list before after item =>
    rw [listWords, Trimmable, assignments]
    by_cases hlossless : Lossless (skipped gap) list
    · cases item with
      | plain declarator =>
        simpa [lastWords, assignment, LastClean] using
          frontWords_eq_intercalate_iff before hlossless
      | withInitializer declarator before' after' initializer =>
        rw [← lastWords_eq_iff, ← frontWords_eq_iff list before hlossless]
        have hlength := length_le_lastWords (.withInitializer declarator before' after' initializer)
        simp only [assignment, Option.toList_some, List.flatten_singleton] at hlength ⊢
        rw [intercalate_snoc, append_eq_append_iff_of_length_le
          (length_le_frontWords list before hlossless) hlength]
        simp
    · exact iff_of_false (frontWords_append_ne_of_loss before hlossless _ _)
        fun h ↦ (frontWords_of_loss list before hlossless).2.2 h.1

/-- The call for a declaration leaves the assignments of its initialised declarators, separated by
commas, and everything around the declaration as it is, exactly if the declaration is
`Trimmable`. -/
theorem trims_to_assignments_iff (before after : List Token) (specifiers : Forest) (gap : Gap)
    (list : InitDeclaratorList) (lastGap : Gap) :
    words (enterDeclaration
      (before ++ ((Tree.declaration specifiers gap list lastGap).tokens ++ after)) before.length
        specifiers gap list .start) 0
          (before ++ ((Tree.declaration specifiers gap list lastGap).tokens ++ after)) =
        visible before ++ (assignmentWords list ++ visible after) ↔
      Trimmable gap list := by
  rw [words_enterDeclaration, List.append_right_inj, List.append_left_inj, assignmentWords,
    List.append_left_inj]
  exact listWords_eq_iff gap list

/-- The list of `int a = 1, b;`. -/
def plainLast : InitDeclaratorList :=
  .snoc
    (.single (.withInitializer (.direct (.identifier (.ofText ['a'] rfl)) .nil) [[' ']]
      [[' ']] (.ofTokens ["1"] .nil)))
    [] [[' ']] (.plain (.direct (.identifier (.ofText ['b'] rfl)) .nil))

/-- `int a = 1, b;` becomes `a = 1, ;`. -/
theorem trims_leaving_comma :
    words (enterDeclaration
      (Tree.declaration (.ofTokens ["int"] .nil) [[' ']] plainLast []).tokens 0
        (.ofTokens ["int"] .nil) [[' ']] plainLast .start) 0
          (Tree.declaration (.ofTokens ["int"] .nil) [[' ']] plainLast []).tokens =
        ["a".toList, "=".toList, "1".toList, ",".toList, ";".toList] ∧
      assignmentWords plainLast = ["a".toList, "=".toList, "1".toList, ";".toList] := by
  decide +kernel

end DeclarationTrimmer

end Systemish.Antlr
