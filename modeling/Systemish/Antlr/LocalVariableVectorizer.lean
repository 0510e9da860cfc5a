import Systemish.Antlr.Scopes

/-!
# Vectorizing local variables

Embedding of `LocalVariableVectorizer.java`. The pass puts `[I]` behind each
primary expression whose text is in the list of the extractor. It is meant to put
it behind the identifiers that denote variables declared in a block of the
function, so what it does depends on how the declarators of the unit are spelled,
and on where their identifiers are declared and used.
-/

namespace Systemish.Antlr

def bracketI : Text := "[I]".toList

/-! ## The pass

One text for each token. `rewriter.replace(ctx.start, …)` changes what the first
token of a rule becomes. -/

/-- `enterPrimaryExpression` for a rule with the given text, the first token of which is `first`. -/
def enterPrimaryExpression (localVariables : List VariableDecl) (first primaryExpression : Text) :
    Text :=
  if contains localVariables primaryExpression then primaryExpression ++ bracketI else first

section Vectorize

variable (localVariables : List VariableDecl)

mutual

def Tree.vectorize : Tree → List Text
  | .token token => [token.text]
  | .identifier name => [enterPrimaryExpression localVariables name.text name.text]
  | .primary first rest =>
    enterPrimaryExpression localVariables first.text (first.text ++ btrText rest.tokens) ::
      rest.vectorize
  | .group _ children => children.vectorize
  | .scope _ children => children.vectorize
  | .compoundStatement items => "\x7b".toList :: (items.vectorize ++ ["\x7d".toList])
  | .binder _ name => [name.text]
  | .declaration specifiers gap list lastGap =>
    specifiers.vectorize ++ (gap ++ (list.vectorize ++ (lastGap ++ [";".toList])))
  | .staticAssertDeclaration children => children.vectorize

def Forest.vectorize : Forest → List Text
  | .nil => []
  | .cons tree rest => tree.vectorize ++ rest.vectorize

def InitDeclaratorList.vectorize : InitDeclaratorList → List Text
  | .single item => item.vectorize
  | .snoc list before after item =>
    list.vectorize ++ (before ++ (",".toList :: (after ++ item.vectorize)))

def InitDeclarator.vectorize : InitDeclarator → List Text
  | .plain declarator => declarator.vectorize
  | .withInitializer declarator before after initializer =>
    declarator.vectorize ++ (before ++ ("=".toList :: (after ++ initializer.vectorize)))

def Declarator.vectorize : Declarator → List Text
  | .pointer symbol qualifiers gap declarator =>
    symbol.token.text ::
      ((qualifierTokens qualifiers).map Token.text ++ (gap ++ declarator.vectorize))
  | .direct direct extensions => direct.vectorize ++ extensions.vectorize

def DirectDeclarator.vectorize : DirectDeclarator → List Text
  | .identifier name => [name.text]
  | .paren before declarator after =>
    "(".toList :: (before ++ (declarator.vectorize ++ (after ++ [")".toList])))
  | .array direct gap bound =>
    direct.vectorize ++ (gap ++ ("[".toList :: (bound.vectorize ++ ["]".toList])))
  | .function direct gap parameters =>
    direct.vectorize ++ (gap ++ ("(".toList :: (parameters.vectorize ++ [")".toList])))

end

/-- `Main.vectorizeLocalVariables`. -/
def CompilationUnit.vectorize (unit : CompilationUnit) : List Text :=
  unit.before.vectorize localVariables ++ (unit.head.vectorize localVariables ++
    (unit.declarationList.vectorize localVariables ++ (unit.body.vectorize localVariables ++
      unit.after.vectorize localVariables)))

end Vectorize

/-! ## What is meant -/

/-- The text of the primary expression that begins with the token. -/
def Occurrence.primaryText (occurrence : Occurrence) : Option Text :=
  match occurrence.role with
  | .identifier _ => some occurrence.text
  | .primary rest => some (occurrence.text ++ rest)
  | _ => none

/-- The variable of a block that the token denotes. -/
def Occurrence.blockVariable (occurrence : Occurrence) : Option Entry :=
  match occurrence.role with
  | .identifier (.blockVariable entry) => some entry
  | _ => none

/-- What the token should become: `[I]` goes behind the identifiers that denote variables of a
block. -/
def Occurrence.scopedText (occurrence : Occurrence) : Text :=
  if occurrence.blockVariable.isSome then occurrence.text ++ bracketI else occurrence.text

/-- What the pass makes of a token. -/
def Occurrence.vectorizedText (localVariables : List VariableDecl) (occurrence : Occurrence) :
    Text :=
  match occurrence.primaryText with
  | some primaryExpression =>
    enterPrimaryExpression localVariables occurrence.text primaryExpression
  | none => occurrence.text

/-! ## The pass against the scopes -/

section Agreement

variable (localVariables : List VariableDecl) (region : Region)

@[simp]
theorem map_plainTexts (texts : List Text) :
    (plainTexts texts).map (Occurrence.vectorizedText localVariables) = texts := by
  rw [plainTexts, List.map_map]
  exact List.map_id texts

mutual

theorem Tree.vectorize_eq (scope : Scope) : (tree : Tree) →
    tree.vectorize localVariables =
      (tree.resolve region scope).1.map (Occurrence.vectorizedText localVariables)
  | .token _ => rfl
  | .identifier _ => rfl
  | .primary first rest => by
    rw [Tree.vectorize, Forest.vectorize_eq scope rest]
    rfl
  | .group _ children => Forest.vectorize_eq scope children
  | .scope _ children => Forest.vectorize_eq scope children
  | .compoundStatement items => by
    rw [Tree.vectorize, Forest.vectorize_eq scope items]
    simp [Tree.resolve]
  | .binder _ _ => rfl
  | .declaration specifiers gap list lastGap => by
    rw [Tree.vectorize, Forest.vectorize_eq scope specifiers,
      InitDeclaratorList.vectorize_eq specifiers scope (specifiers.resolve region scope).2 list]
    simp [Tree.resolve]
  | .staticAssertDeclaration children => Forest.vectorize_eq scope children

theorem Forest.vectorize_eq (scope : Scope) : (forest : Forest) →
    forest.vectorize localVariables =
      (forest.resolve region scope).1.map (Occurrence.vectorizedText localVariables)
  | .nil => rfl
  | .cons tree rest => by
    rw [Forest.vectorize, Tree.vectorize_eq scope tree,
      Forest.vectorize_eq (tree.resolve region scope).2 rest]
    simp [Forest.resolve]

theorem InitDeclaratorList.vectorize_eq (specifiers : Forest) (start scope : Scope) :
    (list : InitDeclaratorList) →
    list.vectorize localVariables =
      (list.resolve region specifiers start scope).1.map
        (Occurrence.vectorizedText localVariables)
  | .single item => InitDeclarator.vectorize_eq specifiers start scope item
  | .snoc list before after item => by
    rw [InitDeclaratorList.vectorize, InitDeclaratorList.vectorize_eq specifiers start scope list,
      InitDeclarator.vectorize_eq specifiers start (list.resolve region specifiers start scope).2
        item]
    simp [InitDeclaratorList.resolve]

theorem InitDeclarator.vectorize_eq (specifiers : Forest) (start scope : Scope) :
    (item : InitDeclarator) →
    item.vectorize localVariables =
      (item.resolve region specifiers start scope).1.map
        (Occurrence.vectorizedText localVariables)
  | .plain declarator => Declarator.vectorize_eq _ _ scope declarator
  | .withInitializer declarator before after initializer => by
    let entry : Entry := ⟨specifiers, .withInitializer declarator before after initializer⟩
    rw [InitDeclarator.vectorize, Declarator.vectorize_eq entry ⟨start, scope⟩ scope declarator,
      Forest.vectorize_eq ((declarator.resolve region entry ⟨start, scope⟩ scope).2.bind .ordinary
        declarator.name (region.declared entry)) initializer]
    simp [InitDeclarator.resolve, entry]

theorem Declarator.vectorize_eq (entry : Entry) (place : Place) (scope : Scope) :
    (declarator : Declarator) →
    declarator.vectorize localVariables =
      (declarator.resolve region entry place scope).1.map
        (Occurrence.vectorizedText localVariables)
  | .pointer symbol qualifiers gap declarator => by
    rw [Declarator.vectorize, Declarator.vectorize_eq entry place scope declarator]
    simp [Declarator.resolve]
  | .direct direct extensions => by
    rw [Declarator.vectorize, DirectDeclarator.vectorize_eq entry place scope direct,
      Forest.vectorize_eq (direct.resolve region entry place scope).2 extensions]
    simp [Declarator.resolve]

theorem DirectDeclarator.vectorize_eq (entry : Entry) (place : Place) (scope : Scope) :
    (direct : DirectDeclarator) →
    direct.vectorize localVariables =
      (direct.resolve region entry place scope).1.map (Occurrence.vectorizedText localVariables)
  | .identifier _ => rfl
  | .paren before declarator after => by
    rw [DirectDeclarator.vectorize, Declarator.vectorize_eq entry place scope declarator]
    simp [DirectDeclarator.resolve]
  | .array direct gap bound => by
    rw [DirectDeclarator.vectorize, DirectDeclarator.vectorize_eq entry place scope direct,
      Forest.vectorize_eq (direct.resolve region entry place scope).2 bound]
    simp [DirectDeclarator.resolve]
  | .function direct gap parameters => by
    rw [DirectDeclarator.vectorize, DirectDeclarator.vectorize_eq entry place scope direct,
      Forest.vectorize_eq (direct.resolve region entry place scope).2 parameters]
    simp [DirectDeclarator.resolve]

end

theorem CompilationUnit.vectorize_eq (unit : CompilationUnit) :
    unit.vectorize localVariables =
      unit.resolve.map (Occurrence.vectorizedText localVariables) := by
  simp only [CompilationUnit.resolve, CompilationUnit.inHead, CompilationUnit.inBody,
    List.map_append, ← Forest.vectorize_eq, List.append_assoc]
  rfl

end Agreement

theorem append_bracketI_ne (text rest : Text) : text ++ rest ++ bracketI ≠ text := by
  intro h
  have hlength := congrArg List.length h
  rw [List.length_append, List.length_append] at hlength
  have hbracket : bracketI.length = 3 := rfl
  omega

/-- The pass does right by a token exactly if the list holds the primary expression that begins
there just in case it is a variable of a block. -/
theorem Occurrence.vectorizedText_eq_iff (localVariables : List VariableDecl)
    (occurrence : Occurrence) :
    occurrence.vectorizedText localVariables = occurrence.scopedText ↔
      ∀ text, occurrence.primaryText = some text →
        (contains localVariables text = true ↔ occurrence.blockVariable.isSome = true) := by
  obtain ⟨text, role⟩ := occurrence
  have hne := append_bracketI_ne text []
  rw [List.append_nil] at hne
  cases role with
  | identifier referent =>
    simp only [vectorizedText, scopedText, primaryText, enterPrimaryExpression, Option.some.injEq,
      forall_eq']
    split_ifs with hcontains hlocal hlocal
    · exact iff_of_true rfl (iff_of_true hcontains hlocal)
    · exact iff_of_false hne fun h ↦ hlocal (h.mp hcontains)
    · exact iff_of_false hne.symm fun h ↦ hcontains (h.mpr hlocal)
    · exact iff_of_true rfl (iff_of_false hcontains hlocal)
  | primary rest =>
    simp only [vectorizedText, scopedText, primaryText, blockVariable, enterPrimaryExpression,
      Option.some.injEq, forall_eq', Option.isSome_none, Bool.false_eq_true, if_false]
    split_ifs with hcontains
    · exact iff_of_false (append_bracketI_ne text rest) fun h ↦ h.mp hcontains
    · exact iff_of_true rfl (iff_of_false hcontains id)
  | _ => simp [vectorizedText, scopedText, primaryText, blockVariable]

/-! ## Declarators -/

/-- The text of the declarator without blanks, comments and stars. -/
def Declarator.spelling (declarator : Declarator) : Text := trimStars (getText declarator.tokens)

/-- Nothing but stars stands around the identifier: no array, function, qualifier, parenthesis or
extension. -/
def Declarator.isPlain : Declarator → Bool
  | .pointer .star [] _ declarator => declarator.isPlain
  | .direct (.identifier _) .nil => true
  | _ => false

theorem trimStars_identifier (name : Identifier) : trimStars name.text = name.text := by
  apply List.filter_eq_self.mpr
  intro c hc
  have hne : c ≠ '*' := fun h ↦ name.not_mem rfl (h ▸ hc)
  exact decide_eq_true hne

theorem Declarator.spelling_of_isPlain (declarator : Declarator)
    (h : declarator.isPlain = true) : declarator.spelling = declarator.name.text := by
  fun_induction Declarator.isPlain declarator with
  | case1 gap declarator ih =>
    have hstar : (Declarator.pointer .star [] gap declarator).spelling = declarator.spelling := by
      simp [spelling, tokens, getText, trimStars, qualifierTokens, PointerSymbol.token]
    exact hstar.trans (ih h)
  | case2 name =>
    have hname : (Declarator.direct (.identifier name) .nil).spelling = trimStars name.text := by
      simp [spelling, tokens, DirectDeclarator.tokens, Forest.tokens, getText, visible,
        Identifier.token]
    exact hname.trans (trimStars_identifier name)
  | case3 => exact absurd h Bool.false_ne_true

theorem contains_iff (entries : List Entry) (text : Text) :
    contains (entries.map Entry.variableDecl) text = true ↔
      ∃ entry ∈ entries, entry.declarator.spelling = text := by
  rw [contains, List.any_map, List.any_eq_true]
  exact exists_congr fun entry ↦ and_congr_right fun _ ↦ decide_eq_true_iff

theorem Occurrence.role_of_blockVariable {occurrence : Occurrence} {entry : Entry}
    (h : occurrence.blockVariable = some entry) :
    occurrence.role = .identifier (.blockVariable entry) := by
  unfold blockVariable at h
  split at h
  · next hrole => rw [hrole, Option.some.inj h]
  · exact absurd h (by simp)

/-- What a token of the body denotes as a variable of a block is a declarator of the unit with that
identifier. -/
theorem Occurrence.mem_of_blockVariable {unit : CompilationUnit} {entries : List Entry}
    (hentries : unit.entries = some entries) {occurrence : Occurrence}
    (hoccurrence : occurrence ∈ unit.resolve) {entry : Entry}
    (h : occurrence.blockVariable = some entry) :
    entry ∈ entries ∧ entry.name.text = occurrence.text := by
  obtain ⟨inBefore, inHead, inList, inBody, inAfter, _, _, _, hbody, _, rfl⟩ :=
    CompilationUnit.entries_eq_some_iff.mp hentries
  have hmeets := unit.resolve_meets
    (fun _ text referent ↦ ∀ entry, referent = .blockVariable entry →
      entry ∈ inBody ∧ entry.name.text = text) ?_ ?_ ?_ occurrence hoccurrence
  · rw [Occurrence.Meets, occurrence.role_of_blockVariable h] at hmeets
    obtain ⟨hmem, hname⟩ := hmeets entry rfl
    exact ⟨by simp [hmem], hname⟩
  · intro _ _ entry heq
    cases heq
  · intro other _
    refine Occurrence.declares_of (fun _ _ entry heq ↦ ?_) fun _ _ _ entry heq ↦ ?_
    · cases heq
    · cases heq
  · intro other hother
    refine Occurrence.declares_of (fun _ _ entry heq ↦ ?_) fun entry place hrole entry' heq ↦ ?_
    · cases heq
    · rw [Region.declared] at heq
      split at heq
      · obtain rfl := Referent.blockVariable.inj heq
        have hmem := mem_declaredEntries hother hrole
        exact ⟨(CompilationUnit.inBody_perm hbody).mem_iff.mp hmem, rfl⟩
      · cases heq

/-- The spellings of the declarators of the unit tell the variables of blocks from everything else.
What counts are the declarators of all declarations, whatever they declare and in whatever scope. -/
structure ToldBySpelling (unit : CompilationUnit) (entries : List Entry) : Prop where
  /-- A primary expression that is spelled like a declarator is an identifier in the scope of a
  variable of a block, and nothing else hides that variable. -/
  onlyLocals : ∀ entry ∈ entries, ∀ occurrence ∈ unit.resolve,
    occurrence.primaryText = some entry.declarator.spelling →
      occurrence.blockVariable.isSome = true
  /-- A variable of a block that has more than stars around its identifier is not used, unless
  another declarator of the unit is spelled like the identifier. -/
  plain : ∀ occurrence ∈ unit.resolve, ∀ entry, occurrence.blockVariable = some entry →
    entry.declarator.isPlain = false →
      ∃ entry' ∈ entries, entry'.declarator.spelling = entry.name.text

theorem Occurrence.primaryText_of_blockVariable {occurrence : Occurrence} {entry : Entry}
    (h : occurrence.blockVariable = some entry) :
    occurrence.primaryText = some occurrence.text := by
  rw [primaryText, occurrence.role_of_blockVariable h]

theorem vectorize_eq_iff {unit : CompilationUnit} {entries : List Entry}
    (hentries : unit.entries = some entries) :
    unit.vectorize (entries.map Entry.variableDecl) = unit.resolve.map Occurrence.scopedText ↔
      ToldBySpelling unit entries := by
  rw [CompilationUnit.vectorize_eq, List.map_inj_left]
  simp only [Occurrence.vectorizedText_eq_iff, contains_iff]
  constructor
  · intro h
    refine ⟨fun entry hentry occurrence hoccurrence htext ↦ ?_,
      fun occurrence hoccurrence entry hlocal _ ↦ ?_⟩
    · exact (h occurrence hoccurrence _ htext).mp ⟨entry, hentry, rfl⟩
    · rw [(occurrence.mem_of_blockVariable hentries hoccurrence hlocal).2]
      refine (h occurrence hoccurrence _ (occurrence.primaryText_of_blockVariable hlocal)).mpr ?_
      rw [hlocal, Option.isSome_some]
  · intro h occurrence hoccurrence text htext
    constructor
    · rintro ⟨entry, hentry, rfl⟩
      exact h.onlyLocals entry hentry occurrence hoccurrence htext
    · intro hsome
      obtain ⟨entry, hlocal⟩ := Option.isSome_iff_exists.mp hsome
      obtain ⟨hentry, hname⟩ := occurrence.mem_of_blockVariable hentries hoccurrence hlocal
      rw [occurrence.primaryText_of_blockVariable hlocal, Option.some.injEq] at htext
      rw [← htext, ← hname]
      cases hplain : entry.declarator.isPlain with
      | true => exact ⟨entry, hentry, entry.declarator.spelling_of_isPlain hplain⟩
      | false => exact h.plain occurrence hoccurrence entry hlocal hplain

/-! ## Units in which all declarators are plain -/

/-- Everything that the declarations of the unit declare are variables of blocks with nothing but
stars around their identifiers. Their identifiers are not declared in any other way, and are used
only where they are in scope. -/
structure PlainLocals (unit : CompilationUnit) (entries : List Entry) : Prop where
  allInBody : unit.AllInBody entries
  isVariable : ∀ entry ∈ entries, entry.isVariable = true
  isPlain : ∀ entry ∈ entries, entry.declarator.isPlain = true
  unhidden : ∀ entry ∈ entries, ∀ occurrence ∈ unit.resolve,
    occurrence.role = .binder .ordinary → occurrence.text ≠ entry.name.text
  inScope : ∀ entry ∈ entries, ∀ occurrence ∈ unit.resolve,
    occurrence.role = .identifier .outer → occurrence.text ≠ entry.name.text
  /-- No other primary expression looks like an identifier. -/
  primary : ∀ entry ∈ entries, ∀ occurrence ∈ unit.resolve, ∀ rest,
    occurrence.role = .primary rest → occurrence.text ++ rest ≠ entry.name.text

namespace PlainLocals

variable {unit : CompilationUnit} {entries : List Entry}

theorem declarator_notMem_inHead (h : PlainLocals unit entries) {occurrence : Occurrence}
    (hoccurrence : occurrence ∈ unit.inHead) (entry : Entry) (place : Place) :
    occurrence.role ≠ .declarator entry place := by
  intro hrole
  have hhead := unit.head.declared_perm .head unit.fileScope h.allInBody.head
  have hlist := unit.declarationList.declared_perm .head unit.headScope
    h.allInBody.declarationList
  have hnone : declaredEntries unit.inHead = [] := by
    rw [CompilationUnit.inHead, declaredEntries_append, hhead.eq_nil, hlist.eq_nil]
    rfl
  have hmem := mem_declaredEntries hoccurrence hrole
  rw [hnone] at hmem
  exact absurd hmem List.not_mem_nil

theorem mem_entries (h : PlainLocals unit entries) {occurrence : Occurrence}
    (hoccurrence : occurrence ∈ unit.inBody) {entry : Entry} {place : Place}
    (hrole : occurrence.role = .declarator entry place) : entry ∈ entries :=
  (CompilationUnit.inBody_perm h.allInBody.body).mem_iff.mp (mem_declaredEntries hoccurrence hrole)

theorem binder_ne (h : PlainLocals unit entries) {occurrence : Occurrence}
    (hoccurrence : occurrence ∈ unit.resolve) (hrole : occurrence.role = .binder .ordinary)
    (hname : ∃ entry ∈ entries, entry.name.text = occurrence.text) : False := by
  obtain ⟨entry, hentry, htext⟩ := hname
  exact h.unhidden entry hentry occurrence hoccurrence hrole htext.symm

/-- An identifier that is spelled like a declarator denotes a variable of a block, or something
outside of the function. -/
theorem outer_or_blockVariable (h : PlainLocals unit entries) {occurrence : Occurrence}
    (hoccurrence : occurrence ∈ unit.resolve) {referent : Referent}
    (hrole : occurrence.role = .identifier referent)
    (hname : ∃ entry ∈ entries, entry.name.text = occurrence.text) :
    referent = .outer ∨ ∃ entry, referent = .blockVariable entry := by
  have hmeets := unit.resolve_meets
    (fun space text referent ↦ space = .ordinary →
      (∃ entry ∈ entries, entry.name.text = text) →
        referent = .outer ∨ ∃ entry, referent = .blockVariable entry)
    ?_ ?_ ?_ occurrence hoccurrence
  · rw [Occurrence.Meets, hrole] at hmeets
    exact hmeets rfl hname
  · exact fun _ _ _ _ ↦ .inl rfl
  · intro other hother
    have hmem := CompilationUnit.mem_resolve_of_mem_inHead hother
    refine Occurrence.declares_of ?_ fun entry place hdeclarator ↦
      absurd hdeclarator (h.declarator_notMem_inHead hother entry place)
    rintro space hbinder rfl hsame
    exact (h.binder_ne hmem hbinder hsame).elim
  · intro other hother
    have hmem := CompilationUnit.mem_resolve_of_mem_inBody hother
    refine Occurrence.declares_of ?_ fun entry place hdeclarator _ _ ↦ .inr ⟨entry, ?_⟩
    · rintro space hbinder rfl hsame
      exact (h.binder_ne hmem hbinder hsame).elim
    · rw [Region.declared, if_pos (h.isVariable entry (h.mem_entries hother hdeclarator))]

theorem toldBySpelling (h : PlainLocals unit entries) : ToldBySpelling unit entries where
  onlyLocals entry hentry occurrence hoccurrence htext := by
    rw [entry.declarator.spelling_of_isPlain (h.isPlain entry hentry)] at htext
    obtain ⟨text, role⟩ := occurrence
    cases role with
    | identifier referent =>
      obtain rfl := Option.some.inj htext
      rcases h.outer_or_blockVariable hoccurrence rfl ⟨entry, hentry, rfl⟩ with rfl | ⟨other, rfl⟩
      · exact absurd rfl (h.inScope entry hentry _ hoccurrence rfl)
      · rfl
    | primary rest =>
      exact absurd (Option.some.inj htext) (h.primary entry hentry _ hoccurrence rest rfl)
    | _ => exact absurd htext (by simp [Occurrence.primaryText])
  plain occurrence hoccurrence entry hlocal hplain := by
    have hentry := (occurrence.mem_of_blockVariable h.allInBody.entries_eq hoccurrence hlocal).1
    rw [h.isPlain entry hentry] at hplain
    exact absurd hplain Bool.false_ne_true.symm

end PlainLocals

/-- `int g; int f() { g = 1; }`. -/
def fileScopeUnit : CompilationUnit where
  before := .cons (.declaration (.ofTokens ["int"] .nil) [[' ']]
    (.single (.plain (.direct (.identifier (.ofText ['g'] rfl)) .nil))) []) .nil
  head := headOfF
  declarationList := .nil
  body := .cons (.compoundStatement (.cons (.group .expressionStatement
    (.cons (.identifier (.ofText ['g'] rfl)) (.ofTokens ["=", "1", ";"] .nil))) .nil)) .nil
  after := .nil

end Systemish.Antlr
