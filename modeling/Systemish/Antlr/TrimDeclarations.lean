import Systemish.Antlr.LocalVariables
import Systemish.Antlr.TrimmedDeclarations

/-!
# The walk of the trimmer

`Main.trimDeclarations` walks through the unit and calls `enterDeclaration` for
every declaration that it comes to, on one rewriter. In a unit in which no
declaration stands inside of another one the calls do not get into each other's
way, so each declaration comes out as its own call leaves it.
-/

namespace Systemish.Antlr

open Foundation DeclarationTrimmer

/-! ## The walk -/

section Walk

variable (tokens : List Token)

mutual

/-- The walk through a tree, the first token of which has index `first`. Like the extractor the
trimmer does not survive a static assertion. -/
def Tree.trim (first : ℕ) : Tree → Rewriter Text → Option (Rewriter Text)
  | .token _, edits => some edits
  | .identifier _, edits => some edits
  | .primary _ rest, edits => rest.trim (first + 1) edits
  | .group _ children, edits => children.trim first edits
  | .scope _ children, edits => children.trim first edits
  | .compoundStatement items, edits => items.trim (first + 1) edits
  | .binder _ _, edits => some edits
  | .declaration specifiers gap list _, edits => do
    let edits ← specifiers.trim first (enterDeclaration tokens first specifiers gap list edits)
    list.trim (first + specifiers.tokens.length + gap.length) edits
  | .staticAssertDeclaration _, _ => none

def Forest.trim (first : ℕ) : Forest → Rewriter Text → Option (Rewriter Text)
  | .nil, edits => some edits
  | .cons tree rest, edits => do
    let edits ← tree.trim first edits
    rest.trim (first + tree.tokens.length) edits

def InitDeclaratorList.trim (first : ℕ) : InitDeclaratorList → Rewriter Text →
    Option (Rewriter Text)
  | .single item, edits => item.trim first edits
  | .snoc list before after item, edits => do
    let edits ← list.trim first edits
    item.trim (first + (list.tokens.length + (before.length + (1 + after.length)))) edits

def InitDeclarator.trim (first : ℕ) : InitDeclarator → Rewriter Text → Option (Rewriter Text)
  | .plain declarator, edits => declarator.trim first edits
  | .withInitializer declarator before after initializer, edits => do
    let edits ← declarator.trim first edits
    initializer.trim (first + (declarator.tokens.length + (before.length + (1 + after.length))))
      edits

def Declarator.trim (first : ℕ) : Declarator → Rewriter Text → Option (Rewriter Text)
  | .pointer _ qualifiers gap declarator, edits =>
    declarator.trim (first + 1 + (qualifierTokens qualifiers).length + gap.length) edits
  | .direct direct extensions, edits => do
    let edits ← direct.trim first edits
    extensions.trim (first + direct.tokens.length) edits

def DirectDeclarator.trim (first : ℕ) : DirectDeclarator → Rewriter Text →
    Option (Rewriter Text)
  | .identifier _, edits => some edits
  | .paren before declarator _, edits => declarator.trim (first + 1 + before.length) edits
  | .array direct gap bound, edits => do
    let edits ← direct.trim first edits
    bound.trim (first + direct.tokens.length + gap.length + 1) edits
  | .function direct gap parameters, edits => do
    let edits ← direct.trim first edits
    parameters.trim (first + direct.tokens.length + gap.length + 1) edits

end

end Walk

/-- `Main.trimDeclarations`: the edits of the walk. -/
def CompilationUnit.trimDeclarations (unit : CompilationUnit) : Option (Rewriter Text) :=
  unit.forest.trim unit.forest.tokens 0 .start

/-! ## Declarations that are not nested -/

mutual

/-- No declaration stands inside of another one, and nothing is asserted. -/
def Tree.Flat : Tree → Prop
  | .primary _ rest => rest.Flat
  | .group _ children => children.Flat
  | .scope _ children => children.Flat
  | .compoundStatement items => items.Flat
  | .declaration specifiers _ list _ => specifiers.entries = some [] ∧ list.entries = some []
  | .staticAssertDeclaration _ => False
  | _ => True

def Forest.Flat : Forest → Prop
  | .nil => True
  | .cons tree rest => tree.Flat ∧ rest.Flat

end

/-- What a flat forest consists of. -/
inductive Segment where
  | token (token : Token)
  | declaration (specifiers : Forest) (gap : Gap) (list : InitDeclaratorList) (lastGap : Gap)

def Segment.tokens : Segment → List Token
  | .token leaf => [leaf]
  | .declaration specifiers gap list lastGap =>
    (Tree.declaration specifiers gap list lastGap).tokens

mutual

def Tree.segments : Tree → List Segment
  | .token token => [.token token]
  | .identifier name => [.token name.token]
  | .primary first rest => .token first :: rest.segments
  | .group _ children => children.segments
  | .scope _ children => children.segments
  | .compoundStatement items =>
    .token (.ofString "\x7b") :: (items.segments ++ [.token (.ofString "\x7d")])
  | .binder _ name => [.token name.token]
  | .declaration specifiers gap list lastGap => [.declaration specifiers gap list lastGap]
  | .staticAssertDeclaration children => children.segments

def Forest.segments : Forest → List Segment
  | .nil => []
  | .cons tree rest => tree.segments ++ rest.segments

end

/-- The calls for the declarations among the segments. -/
def trimSegments (tokens : List Token) : (first : ℕ) → List Segment → Rewriter Text →
    Rewriter Text
  | _, [], edits => edits
  | first, .token _ :: rest, edits => trimSegments tokens (first + 1) rest edits
  | first, .declaration specifiers gap list lastGap :: rest, edits =>
    trimSegments tokens (first + (Tree.declaration specifiers gap list lastGap).tokens.length) rest
      (enterDeclaration tokens first specifiers gap list edits)

def segmentTokens (segments : List Segment) : List Token := segments.flatMap Segment.tokens

theorem segmentTokens_append (segments segments' : List Segment) :
    segmentTokens (segments ++ segments') = segmentTokens segments ++ segmentTokens segments' :=
  List.flatMap_append

mutual

theorem Tree.segmentTokens_segments : (tree : Tree) → segmentTokens tree.segments = tree.tokens
  | .token _ => rfl
  | .identifier _ => rfl
  | .primary first rest => congrArg (List.cons first) (Forest.segmentTokens_segments rest)
  | .group _ children => Forest.segmentTokens_segments children
  | .scope _ children => Forest.segmentTokens_segments children
  | .compoundStatement items => by
    have hitems := Forest.segmentTokens_segments items
    rw [Tree.segments, Tree.tokens, ← hitems]
    exact congrArg (List.cons _) (segmentTokens_append _ _)
  | .binder _ _ => rfl
  | .declaration .. => List.append_nil _
  | .staticAssertDeclaration children => Forest.segmentTokens_segments children

theorem Forest.segmentTokens_segments : (forest : Forest) →
    segmentTokens forest.segments = forest.tokens
  | .nil => rfl
  | .cons tree rest => by
    rw [Forest.segments, segmentTokens_append, Tree.segmentTokens_segments tree,
      Forest.segmentTokens_segments rest, Forest.tokens]

end

theorem trimSegments_append (tokens : List Token) (segments segments' : List Segment) (first : ℕ)
    (edits : Rewriter Text) :
    trimSegments tokens first (segments ++ segments') edits =
      trimSegments tokens (first + (segmentTokens segments).length) segments'
        (trimSegments tokens first segments edits) := by
  induction segments generalizing first edits with
  | nil => rfl
  | cons segment segments ih =>
    have hlength : first + (segmentTokens (segment :: segments)).length =
        first + segment.tokens.length + (segmentTokens segments).length := by
      rw [segmentTokens, List.flatMap_cons, List.length_append, Nat.add_assoc]
      rfl
    rw [hlength]
    cases segment with
    | token => exact ih _ _
    | declaration => exact ih _ _

theorem extractDeclarators_ne_nil (specifiers : Forest) (list : InitDeclaratorList) :
    extractDeclarators specifiers list ≠ [] := by
  cases list <;> exact List.cons_ne_nil _ _

theorem append_entries_eq_nil {x y : Option (List Entry)}
    (h : (do let inX ← x; let inY ← y; return inX ++ inY) = some []) :
    x = some [] ∧ y = some [] := by
  obtain ⟨inX, inY, hx, hy, heq⟩ := exists_entries h
  obtain ⟨rfl, rfl⟩ := List.append_eq_nil_iff.mp heq
  exact ⟨hx, hy⟩

section Trim

variable {tokens : List Token}

mutual

/-- Where nothing is declared, nothing is edited. -/
theorem Tree.trim_of_entries (first : ℕ) (edits : Rewriter Text) : (tree : Tree) →
    tree.entries = some [] → tree.trim tokens first edits = some edits
  | .token _, _ => rfl
  | .identifier _, _ => rfl
  | .primary _ rest, h => Forest.trim_of_entries (first + 1) edits rest h
  | .group _ children, h => Forest.trim_of_entries first edits children h
  | .scope _ children, h => Forest.trim_of_entries first edits children h
  | .compoundStatement items, h => Forest.trim_of_entries (first + 1) edits items h
  | .binder _ _, _ => rfl
  | .declaration specifiers gap list lastGap, h => by
    obtain ⟨_, _, _, _, heq⟩ := exists_entries h
    exact absurd (List.append_eq_nil_iff.mp heq).1 (extractDeclarators_ne_nil specifiers list)
  | .staticAssertDeclaration _, h => absurd h (Option.some_ne_none _).symm

theorem Forest.trim_of_entries (first : ℕ) (edits : Rewriter Text) : (forest : Forest) →
    forest.entries = some [] → forest.trim tokens first edits = some edits
  | .nil, _ => rfl
  | .cons tree rest, h => by
    obtain ⟨htree, hrest⟩ := append_entries_eq_nil h
    rw [Forest.trim, Tree.trim_of_entries first edits tree htree]
    exact Forest.trim_of_entries _ edits rest hrest

theorem InitDeclaratorList.trim_of_entries (first : ℕ) (edits : Rewriter Text) :
    (list : InitDeclaratorList) → list.entries = some [] →
      list.trim tokens first edits = some edits
  | .single item, h => InitDeclarator.trim_of_entries first edits item h
  | .snoc list _ _ item, h => by
    obtain ⟨hlist, hitem⟩ := append_entries_eq_nil h
    rw [InitDeclaratorList.trim, InitDeclaratorList.trim_of_entries first edits list hlist]
    exact InitDeclarator.trim_of_entries _ edits item hitem

theorem InitDeclarator.trim_of_entries (first : ℕ) (edits : Rewriter Text) :
    (item : InitDeclarator) → item.entries = some [] → item.trim tokens first edits = some edits
  | .plain declarator, h => Declarator.trim_of_entries first edits declarator h
  | .withInitializer declarator _ _ initializer, h => by
    obtain ⟨hdeclarator, hinitializer⟩ := append_entries_eq_nil h
    rw [InitDeclarator.trim, Declarator.trim_of_entries first edits declarator hdeclarator]
    exact Forest.trim_of_entries _ edits initializer hinitializer

theorem Declarator.trim_of_entries (first : ℕ) (edits : Rewriter Text) :
    (declarator : Declarator) → declarator.entries = some [] →
      declarator.trim tokens first edits = some edits
  | .pointer _ _ _ declarator, h => Declarator.trim_of_entries _ edits declarator h
  | .direct direct extensions, h => by
    obtain ⟨hdirect, hextensions⟩ := append_entries_eq_nil h
    rw [Declarator.trim, DirectDeclarator.trim_of_entries first edits direct hdirect]
    exact Forest.trim_of_entries _ edits extensions hextensions

theorem DirectDeclarator.trim_of_entries (first : ℕ) (edits : Rewriter Text) :
    (direct : DirectDeclarator) → direct.entries = some [] →
      direct.trim tokens first edits = some edits
  | .identifier _, _ => rfl
  | .paren _ declarator _, h => Declarator.trim_of_entries _ edits declarator h
  | .array direct _ bound, h => by
    obtain ⟨hdirect, hbound⟩ := append_entries_eq_nil h
    rw [DirectDeclarator.trim, DirectDeclarator.trim_of_entries first edits direct hdirect]
    exact Forest.trim_of_entries _ edits bound hbound
  | .function direct _ parameters, h => by
    obtain ⟨hdirect, hparameters⟩ := append_entries_eq_nil h
    rw [DirectDeclarator.trim, DirectDeclarator.trim_of_entries first edits direct hdirect]
    exact Forest.trim_of_entries _ edits parameters hparameters

end

mutual

/-- The walk makes the calls for the declarations one after the other. -/
theorem Tree.trim_eq (first : ℕ) (edits : Rewriter Text) : (tree : Tree) → tree.Flat →
    tree.trim tokens first edits = some (trimSegments tokens first tree.segments edits)
  | .token _, _ => rfl
  | .identifier _, _ => rfl
  | .primary _ rest, h => Forest.trim_eq (first + 1) edits rest h
  | .group _ children, h => Forest.trim_eq first edits children h
  | .scope _ children, h => Forest.trim_eq first edits children h
  | .compoundStatement items, h => by
    rw [Tree.trim, Forest.trim_eq (first + 1) edits items h, Tree.segments, trimSegments,
      trimSegments_append]
    rfl
  | .binder _ _, _ => rfl
  | .declaration specifiers gap list lastGap, h => by
    rw [Tree.trim, Forest.trim_of_entries first _ specifiers h.1]
    exact InitDeclaratorList.trim_of_entries _ _ list h.2
  | .staticAssertDeclaration _, h => h.elim

theorem Forest.trim_eq (first : ℕ) (edits : Rewriter Text) : (forest : Forest) → forest.Flat →
    forest.trim tokens first edits = some (trimSegments tokens first forest.segments edits)
  | .nil, _ => rfl
  | .cons tree rest, h => by
    rw [Forest.trim, Tree.trim_eq first edits tree h.1, Forest.segments, trimSegments_append,
      Tree.segmentTokens_segments]
    exact Forest.trim_eq _ _ rest h.2

end

end Trim

/-! ## What the walk leaves -/

/-- What the call for a segment leaves of it. -/
def Segment.left : Segment → List Text
  | .token leaf => word leaf
  | .declaration _ gap list _ => listWords (skipped gap) list ++ [";".toList]

/-- What should be left of it. -/
def Segment.meant : Segment → List Text
  | .token leaf => word leaf
  | .declaration _ _ list _ => assignmentWords list

/-- The words of each segment after the edits. -/
def pieces (edits : Rewriter Text) : (first : ℕ) → List Segment → List (List Text)
  | _, [] => []
  | first, segment :: rest =>
    words edits first segment.tokens :: pieces edits (first + segment.tokens.length) rest

/-- The calls leave everything in front of the segments as it is. -/
theorem trimSegments_before (before after : List Token) (segments : List Segment)
    (edits : Rewriter Text) {i : ℕ} (hi : i < before.length) :
    trimSegments (before ++ (segmentTokens segments ++ after)) before.length segments edits i =
      edits i := by
  induction segments generalizing before edits with
  | nil => rfl
  | cons segment segments ih =>
    have hsplit : before ++ (segmentTokens (segment :: segments) ++ after) =
        (before ++ segment.tokens) ++ (segmentTokens segments ++ after) := by
      simp [segmentTokens]
    have hrest := ih (before ++ segment.tokens)
    rw [List.length_append] at hrest
    cases segment with
    | token leaf =>
      rw [hsplit]
      exact hrest edits (by omega)
    | declaration specifiers gap list lastGap =>
      have houtside := enterDeclaration_outside before (segmentTokens segments ++ after) specifiers
        gap list lastGap edits (.inl hi)
      rw [← List.append_assoc] at houtside
      rw [hsplit, ← houtside]
      exact hrest _ (by omega)

/-- Each segment comes out as its own call leaves it. -/
theorem pieces_trimSegments (before after : List Token) (segments : List Segment)
    (edits : Rewriter Text) (huntouched : ∀ i, before.length ≤ i → edits i = none) :
    pieces (trimSegments (before ++ (segmentTokens segments ++ after)) before.length segments edits)
      before.length segments = segments.map Segment.left := by
  induction segments generalizing before edits with
  | nil => rfl
  | cons segment segments ih =>
    have hsplit : before ++ (segmentTokens (segment :: segments) ++ after) =
        (before ++ segment.tokens) ++ (segmentTokens segments ++ after) := by
      simp [segmentTokens]
    have hrest := ih (before ++ segment.tokens)
    have hbefore {i : ℕ} (edits : Rewriter Text) :=
      @trimSegments_before (before ++ segment.tokens) after segments edits i
    rw [List.length_append] at hrest hbefore
    rw [hsplit, pieces, List.map_cons]
    cases segment with
    | token leaf =>
      refine List.cons_eq_cons.mpr ⟨?_, hrest edits fun i hi ↦ huntouched i (by omega)⟩
      have hword : words edits before.length [leaf] = word leaf := by
        rw [words_cons, huntouched _ le_rfl]
        exact List.append_nil _
      rw [Segment.left, ← hword]
      exact Rewriter.render_congr fun i _ hi ↦ hbefore edits hi
    | declaration specifiers gap list lastGap =>
      have hdeclaration := words_declaration before (segmentTokens segments ++ after) specifiers gap
        list lastGap fun i hi _ ↦ huntouched i hi
      have houtside {i : ℕ} := @enterDeclaration_outside before (segmentTokens segments ++ after)
        specifiers gap list lastGap edits i
      rw [← List.append_assoc] at hdeclaration houtside
      refine List.cons_eq_cons.mpr ⟨?_, hrest _ fun i hi ↦ ?_⟩
      · rw [Segment.left, ← hdeclaration]
        exact Rewriter.render_congr fun i _ hi ↦ hbefore _ hi
      · exact (houtside (.inr hi)).trans (huntouched i (by omega))

/-- The walk through a unit without nested declarations leaves of each declaration the assignments
of its initialised declarators, and every other token as it is, exactly if all declarations are
`Trimmable`. -/
theorem trimDeclarations_iff (unit : CompilationUnit) (hflat : unit.forest.Flat) :
    ∃ edits, unit.trimDeclarations = some edits ∧
      (pieces edits 0 unit.forest.segments = unit.forest.segments.map Segment.meant ↔
        ∀ specifiers gap list lastGap,
          .declaration specifiers gap list lastGap ∈ unit.forest.segments →
            Trimmable gap list) := by
  have hpieces := pieces_trimSegments [] [] unit.forest.segments .start fun _ _ ↦ rfl
  rw [List.append_nil, List.nil_append, Forest.segmentTokens_segments] at hpieces
  refine ⟨_, unit.forest.trim_eq 0 .start hflat, ?_⟩
  refine (Eq.congr_left hpieces).trans (List.map_inj_left.trans ?_)
  constructor
  · intro h specifiers gap list lastGap hmem
    have heq := h _ hmem
    rw [Segment.left, Segment.meant, assignmentWords, List.append_left_inj] at heq
    exact (listWords_eq_iff gap list).mp heq
  · rintro h (leaf | ⟨specifiers, gap, list, lastGap⟩) hmem
    · rfl
    · have heq := (listWords_eq_iff gap list).mpr (h specifiers gap list lastGap hmem)
      rw [Segment.left, Segment.meant, assignmentWords, heq]

end Systemish.Antlr
