import Systemish.Antlr.LocalVariables

/-!
# Scopes

What the identifiers of a unit denote by the rules of C. A walk through the unit
gives each token the part that it plays there: what an identifier in an expression
denotes, what is declared where, and what the identifiers denote at that place.
-/

namespace Systemish.Antlr

/-- What an identifier denotes at some place of the unit. -/
inductive Referent where
  /-- Something of file scope, or nothing that the unit declares. -/
  | outer
  | parameter
  /-- A variable that is declared in a block of the function. -/
  | blockVariable (entry : Entry)
  /-- Anything else that is declared in a block of the function. -/
  | other
  /-- Something that is not in the unit but is put at the top of the function by a pass. -/
  | inserted

abbrev Scope := NameSpace → Text → Referent

namespace Scope

/-- In front of the unit. -/
def start : Scope := fun _ _ ↦ .outer

/-- Declare an identifier. -/
def bind (scope : Scope) (space : NameSpace) (name : Identifier) (referent : Referent) :
    Scope := fun space' text ↦
  if space' = space ∧ text = name.text then referent else scope space' text

end Scope

/-- The parts of a unit, by what declarations in them declare. -/
inductive Region where
  | file
  | head
  | body

namespace Region

/-- What a declarator of a declaration declares. -/
def declared (region : Region) (entry : Entry) : Referent :=
  match region with
  | .file => .outer
  | .head => .parameter
  | .body => if entry.isVariable then .blockVariable entry else .other

/-- What anything else declares. -/
def bound : Region → Referent
  | .file => .outer
  | .head => .parameter
  | .body => .other

end Region

/-- Where a declarator stands: what identifiers denote in front of its declaration, and in front of
the declarator itself. -/
structure Place where
  start : Scope
  here : Scope

/-- What a token is in the grammar, with what it denotes. -/
inductive Role where
  | plain
  /-- A primary expression that is an identifier. -/
  | identifier (referent : Referent)
  /-- The first token of another primary expression, which goes on with `rest`. -/
  | primary (rest : Text)
  | binder (space : NameSpace)
  /-- The identifier that a declarator of a declaration declares. -/
  | declarator (entry : Entry) (place : Place)

structure Occurrence where
  text : Text
  role : Role

def plainTexts (texts : List Text) : List Occurrence := texts.map fun text ↦ ⟨text, .plain⟩

section Resolve

variable (region : Region)

mutual

/-- The tokens of a tree with what they denote, and the scope behind it. -/
def Tree.resolve (scope : Scope) : Tree → List Occurrence × Scope
  | .token token => ([⟨token.text, .plain⟩], scope)
  | .identifier name => ([⟨name.text, .identifier (scope .ordinary name.text)⟩], scope)
  | .primary first rest =>
    let (inRest, scope) := rest.resolve scope
    (⟨first.text, .primary (btrText rest.tokens)⟩ :: inRest, scope)
  | .group _ children => children.resolve scope
  | .scope _ children => ((children.resolve scope).1, scope)
  | .compoundStatement items =>
    (plainTexts ["\x7b".toList] ++ ((items.resolve scope).1 ++ plainTexts ["\x7d".toList]), scope)
  | .binder space name => ([⟨name.text, .binder space⟩], scope.bind space name region.bound)
  | .declaration specifiers gap list lastGap =>
    let (inSpecifiers, behind) := specifiers.resolve scope
    let (inList, behind) := list.resolve specifiers scope behind
    (inSpecifiers ++ (plainTexts gap ++ (inList ++ plainTexts (lastGap ++ [";".toList]))), behind)
  | .staticAssertDeclaration children => children.resolve scope

def Forest.resolve (scope : Scope) : Forest → List Occurrence × Scope
  | .nil => ([], scope)
  | .cons tree rest =>
    let (inTree, scope) := tree.resolve scope
    let (inRest, scope) := rest.resolve scope
    (inTree ++ inRest, scope)

/-- `start` is the scope in front of the declaration. -/
def InitDeclaratorList.resolve (specifiers : Forest) (start scope : Scope) :
    InitDeclaratorList → List Occurrence × Scope
  | .single item => item.resolve specifiers start scope
  | .snoc list before after item =>
    let (inList, scope) := list.resolve specifiers start scope
    let (inItem, scope) := item.resolve specifiers start scope
    (inList ++ (plainTexts (before ++ ",".toList :: after) ++ inItem), scope)

def InitDeclarator.resolve (specifiers : Forest) (start scope : Scope) :
    InitDeclarator → List Occurrence × Scope
  | .plain declarator =>
    let entry : Entry := ⟨specifiers, .plain declarator⟩
    let (inDeclarator, scope) := declarator.resolve entry ⟨start, scope⟩ scope
    (inDeclarator, scope.bind .ordinary declarator.name (region.declared entry))
  | .withInitializer declarator before after initializer =>
    let entry : Entry := ⟨specifiers, .withInitializer declarator before after initializer⟩
    let (inDeclarator, scope) := declarator.resolve entry ⟨start, scope⟩ scope
    -- the identifier is in scope in its own initializer
    let (inInitializer, scope) := initializer.resolve
      (scope.bind .ordinary declarator.name (region.declared entry))
    (inDeclarator ++ (plainTexts (before ++ "=".toList :: after) ++ inInitializer), scope)

/-- A declarator of the given entry, which stands at `place`. -/
def Declarator.resolve (entry : Entry) (place : Place) (scope : Scope) :
    Declarator → List Occurrence × Scope
  | .pointer symbol qualifiers gap declarator =>
    let (inDeclarator, scope) := declarator.resolve entry place scope
    (plainTexts (symbol.token.text ::
      ((qualifierTokens qualifiers).map Token.text ++ gap)) ++ inDeclarator, scope)
  | .direct direct extensions =>
    let (inDirect, scope) := direct.resolve entry place scope
    let (inExtensions, scope) := extensions.resolve scope
    (inDirect ++ inExtensions, scope)

def DirectDeclarator.resolve (entry : Entry) (place : Place) (scope : Scope) :
    DirectDeclarator → List Occurrence × Scope
  | .identifier name => ([⟨name.text, .declarator entry place⟩], scope)
  | .paren before declarator after =>
    let (inDeclarator, scope) := declarator.resolve entry place scope
    (plainTexts ("(".toList :: before) ++
      (inDeclarator ++ plainTexts (after ++ [")".toList])), scope)
  | .array direct gap bound =>
    let (inDirect, scope) := direct.resolve entry place scope
    let (inBound, scope) := bound.resolve scope
    (inDirect ++ (plainTexts (gap ++ ["[".toList]) ++ (inBound ++ plainTexts ["]".toList])), scope)
  | .function direct gap parameters =>
    let (inDirect, scope) := direct.resolve entry place scope
    -- parameters are in scope up to the end of the declarator
    (inDirect ++ (plainTexts (gap ++ ["(".toList]) ++
      ((parameters.resolve scope).1 ++ plainTexts [")".toList])), scope)

end

end Resolve

namespace CompilationUnit

variable (unit : CompilationUnit)

/-- The scope of the file in front of the function. -/
def fileScope : Scope := (unit.before.resolve .file .start).2

/-- The scope behind the head of the function, with the parameters. -/
def headScope : Scope := (unit.head.resolve .head unit.fileScope).2

/-- The scope in front of the body. -/
def innerScope : Scope := (unit.declarationList.resolve .head unit.headScope).2

/-- The tokens in front of the body with what they denote. -/
def inHead : List Occurrence :=
  (unit.head.resolve .head unit.fileScope).1 ++
    (unit.declarationList.resolve .head unit.headScope).1

/-- The tokens of the body with what they denote. -/
def inBody : List Occurrence := (unit.body.resolve .body unit.innerScope).1

/-- The tokens of the unit with what they denote. -/
def resolve : List Occurrence :=
  (unit.before.resolve .file .start).1 ++ (unit.inHead ++ (unit.inBody ++
    (unit.after.resolve .file unit.fileScope).1))

end CompilationUnit

/-! ## What identifiers can denote -/

section Meets

variable (holds : NameSpace → Text → Referent → Prop)

def Scope.Meets (scope : Scope) : Prop := ∀ space text, holds space text (scope space text)

/-- What the token declares has the property. -/
def Occurrence.Declares (region : Region) (occurrence : Occurrence) : Prop :=
  match occurrence.role with
  | .binder space => holds space occurrence.text region.bound
  | .declarator entry _ => holds .ordinary entry.name.text (region.declared entry)
  | _ => True

/-- What the token denotes has the property, and so has everything at the place of a declarator. -/
def Occurrence.Meets (occurrence : Occurrence) : Prop :=
  match occurrence.role with
  | .identifier referent => holds .ordinary occurrence.text referent
  | .declarator _ place => place.start.Meets holds ∧ place.here.Meets holds
  | _ => True

/-- If everything that is declared has the property, then so has everything that is denoted. -/
def Meets (region : Region) (result : List Occurrence × Scope) : Prop :=
  (∀ occurrence ∈ result.1, occurrence.Declares holds region) →
    (∀ occurrence ∈ result.1, occurrence.Meets holds) ∧ result.2.Meets holds

variable {holds}

theorem Scope.Meets.bind {scope : Scope} (h : scope.Meets holds) {space : NameSpace}
    {name : Identifier} {referent : Referent} (hname : holds space name.text referent) :
    (scope.bind space name referent).Meets holds := by
  intro space' text
  rw [Scope.bind]
  split_ifs with heq
  · rw [heq.1, heq.2]
    exact hname
  · exact h space' text

variable {region : Region} {result result' : List Occurrence × Scope} {scope : Scope}

theorem Occurrence.declares_of {occurrence : Occurrence}
    (hbinder : ∀ space, occurrence.role = .binder space →
      holds space occurrence.text region.bound)
    (hdeclarator : ∀ entry place, occurrence.role = .declarator entry place →
      holds .ordinary entry.name.text (region.declared entry)) :
    occurrence.Declares holds region := by
  rw [Declares]
  split
  · exact hbinder _ ‹_›
  · exact hdeclarator _ _ ‹_›
  · trivial

theorem Meets.plainTexts (texts : List Text) (h : scope.Meets holds) :
    Meets holds region (plainTexts texts, scope) := by
  intro _
  refine ⟨fun occurrence hmem ↦ ?_, h⟩
  obtain ⟨text, _, rfl⟩ := List.mem_map.mp hmem
  trivial

theorem Meets.append (h : Meets holds region result)
    (h' : result.2.Meets holds → Meets holds region result') :
    Meets holds region (result.1 ++ result'.1, result'.2) := by
  intro hdeclares
  obtain ⟨hleft, hright⟩ := List.forall_mem_append.mp hdeclares
  obtain ⟨hmeets, hscope⟩ := h hleft
  obtain ⟨hmeets', hscope'⟩ := h' hscope hright
  exact ⟨List.forall_mem_append.mpr ⟨hmeets, hmeets'⟩, hscope'⟩

/-- Behind a rule that opens a scope the scope in front of it is back. -/
theorem Meets.closed (h : Meets holds region result) (hscope : scope.Meets holds) :
    Meets holds region (result.1, scope) :=
  fun hdeclares ↦ ⟨(h hdeclares).1, hscope⟩

end Meets

section Resolve

variable {region : Region}

section Identifier

variable {entry : Entry} {place : Place}

mutual

theorem Declarator.mem_resolve (scope : Scope) : (declarator : Declarator) →
    ⟨declarator.name.text, .declarator entry place⟩ ∈
      (declarator.resolve region entry place scope).1
  | .pointer _ _ _ declarator =>
    List.mem_append_right _ (Declarator.mem_resolve scope declarator)
  | .direct direct _ => List.mem_append_left _ (DirectDeclarator.mem_resolve scope direct)

theorem DirectDeclarator.mem_resolve (scope : Scope) : (direct : DirectDeclarator) →
    ⟨direct.name.text, .declarator entry place⟩ ∈ (direct.resolve region entry place scope).1
  | .identifier _ => List.mem_singleton_self _
  | .paren _ declarator _ =>
    List.mem_append_right _ (List.mem_append_left _ (Declarator.mem_resolve scope declarator))
  | .array direct _ _ => List.mem_append_left _ (DirectDeclarator.mem_resolve scope direct)
  | .function direct _ _ => List.mem_append_left _ (DirectDeclarator.mem_resolve scope direct)

end

end Identifier

variable {holds : NameSpace → Text → Referent → Prop}

mutual

theorem Tree.resolve_meets {scope : Scope} (h : scope.Meets holds) : (tree : Tree) →
    Meets holds region (tree.resolve region scope)
  | .token token => Meets.plainTexts [token.text] h
  | .identifier name => fun _ ↦ ⟨List.forall_mem_singleton.mpr (h .ordinary name.text), h⟩
  | .primary first rest => fun hdeclares ↦ by
    obtain ⟨hmeets, hscope⟩ := Forest.resolve_meets h rest (List.forall_mem_cons.mp hdeclares).2
    exact ⟨List.forall_mem_cons.mpr ⟨trivial, hmeets⟩, hscope⟩
  | .group _ children => Forest.resolve_meets h children
  | .scope _ children => (Forest.resolve_meets h children).closed h
  | .compoundStatement items =>
    (Meets.plainTexts ["\x7b".toList] h).append fun h ↦
      ((Forest.resolve_meets h items).closed h).append (Meets.plainTexts ["\x7d".toList])
  | .binder space name => fun hdeclares ↦ by
    have hname : holds space name.text region.bound := hdeclares _ (List.mem_singleton_self _)
    exact ⟨List.forall_mem_singleton.mpr trivial, h.bind hname⟩
  | .declaration specifiers gap list lastGap =>
    (Forest.resolve_meets h specifiers).append fun hbehind ↦
      (Meets.plainTexts gap hbehind).append fun hbehind ↦
        (InitDeclaratorList.resolve_meets specifiers h hbehind list).append
          (Meets.plainTexts (lastGap ++ [";".toList]))
  | .staticAssertDeclaration children => Forest.resolve_meets h children

theorem Forest.resolve_meets {scope : Scope} (h : scope.Meets holds) : (forest : Forest) →
    Meets holds region (forest.resolve region scope)
  | .nil => Meets.plainTexts [] h
  | .cons tree rest => (Tree.resolve_meets h tree).append fun h ↦ Forest.resolve_meets h rest

theorem InitDeclaratorList.resolve_meets (specifiers : Forest) {start scope : Scope}
    (hstart : start.Meets holds) (h : scope.Meets holds) : (list : InitDeclaratorList) →
    Meets holds region (list.resolve region specifiers start scope)
  | .single item => InitDeclarator.resolve_meets specifiers hstart h item
  | .snoc list before after item =>
    (InitDeclaratorList.resolve_meets specifiers hstart h list).append fun h ↦
      (Meets.plainTexts (before ++ ",".toList :: after) h).append fun h ↦
        InitDeclarator.resolve_meets specifiers hstart h item

theorem InitDeclarator.resolve_meets (specifiers : Forest) {start scope : Scope}
    (hstart : start.Meets holds) (h : scope.Meets holds) : (item : InitDeclarator) →
    Meets holds region (item.resolve region specifiers start scope)
  | .plain declarator => fun hdeclares ↦ by
    obtain ⟨hmeets, hscope⟩ := Declarator.resolve_meets _ ⟨hstart, h⟩ h declarator hdeclares
    exact ⟨hmeets, hscope.bind (hdeclares _ (declarator.mem_resolve scope))⟩
  | .withInitializer declarator before after initializer => fun hdeclares ↦ by
    obtain ⟨hdeclarator, hrest⟩ := List.forall_mem_append.mp hdeclares
    obtain ⟨hmeets, hscope⟩ := Declarator.resolve_meets _ ⟨hstart, h⟩ h declarator hdeclarator
    have hbound := hscope.bind (hdeclarator _ (declarator.mem_resolve scope))
    obtain ⟨hmeets', hscope'⟩ := ((Meets.plainTexts (before ++ "=".toList :: after) hbound).append
      fun h ↦ Forest.resolve_meets h initializer) hrest
    exact ⟨List.forall_mem_append.mpr ⟨hmeets, hmeets'⟩, hscope'⟩

theorem Declarator.resolve_meets (entry : Entry) {place : Place}
    (hplace : place.start.Meets holds ∧ place.here.Meets holds) {scope : Scope}
    (h : scope.Meets holds) : (declarator : Declarator) →
    Meets holds region (declarator.resolve region entry place scope)
  | .pointer symbol qualifiers gap declarator =>
    (Meets.plainTexts (symbol.token.text :: ((qualifierTokens qualifiers).map Token.text ++ gap))
      h).append fun h ↦ Declarator.resolve_meets entry hplace h declarator
  | .direct direct extensions =>
    (DirectDeclarator.resolve_meets entry hplace h direct).append fun h ↦
      Forest.resolve_meets h extensions

theorem DirectDeclarator.resolve_meets (entry : Entry) {place : Place}
    (hplace : place.start.Meets holds ∧ place.here.Meets holds) {scope : Scope}
    (h : scope.Meets holds) : (direct : DirectDeclarator) →
    Meets holds region (direct.resolve region entry place scope)
  | .identifier _ => fun _ ↦ ⟨List.forall_mem_singleton.mpr hplace, h⟩
  | .paren before declarator after =>
    (Meets.plainTexts ("(".toList :: before) h).append fun h ↦
      (Declarator.resolve_meets entry hplace h declarator).append
        (Meets.plainTexts (after ++ [")".toList]))
  | .array direct gap bound =>
    (DirectDeclarator.resolve_meets entry hplace h direct).append fun h ↦
      (Meets.plainTexts (gap ++ ["[".toList]) h).append fun h ↦
        (Forest.resolve_meets h bound).append (Meets.plainTexts ["]".toList])
  | .function direct gap parameters =>
    (DirectDeclarator.resolve_meets entry hplace h direct).append fun h ↦
      (Meets.plainTexts (gap ++ ["(".toList]) h).append fun h ↦
        ((Forest.resolve_meets h parameters).closed h).append (Meets.plainTexts [")".toList])

end

namespace CompilationUnit

variable {unit : CompilationUnit}

theorem mem_resolve_of_mem_inHead {occurrence : Occurrence} (h : occurrence ∈ unit.inHead) :
    occurrence ∈ unit.resolve :=
  List.mem_append_right _ (List.mem_append_left _ h)

theorem mem_resolve_of_mem_inBody {occurrence : Occurrence} (h : occurrence ∈ unit.inBody) :
    occurrence ∈ unit.resolve :=
  List.mem_append_right _ (List.mem_append_right _ (List.mem_append_left _ h))

variable (unit holds)

/-- What the tokens of the unit denote has the property, if what is declared in the function has it
and everything outside of the function has it anyway. -/
theorem resolve_meets (houter : ∀ space text, holds space text .outer)
    (hhead : ∀ occurrence ∈ unit.inHead, occurrence.Declares holds .head)
    (hbody : ∀ occurrence ∈ unit.inBody, occurrence.Declares holds .body) :
    ∀ occurrence ∈ unit.resolve, occurrence.Meets holds := by
  have hfile (occurrence : Occurrence) : occurrence.Declares holds .file :=
    Occurrence.declares_of (fun _ _ ↦ houter _ _) fun _ _ _ ↦ houter _ _
  obtain ⟨hhead, hlist⟩ := List.forall_mem_append.mp hhead
  have hstart : Scope.start.Meets holds := houter
  obtain ⟨hbefore, hscope⟩ := unit.before.resolve_meets hstart fun occurrence _ ↦ hfile occurrence
  obtain ⟨hhead, hheadScope⟩ := unit.head.resolve_meets hscope hhead
  obtain ⟨hlist, hinner⟩ := unit.declarationList.resolve_meets hheadScope hlist
  obtain ⟨hbody, _⟩ := unit.body.resolve_meets hinner hbody
  obtain ⟨hafter, _⟩ := unit.after.resolve_meets hscope fun occurrence _ ↦ hfile occurrence
  simp only [resolve, inHead, List.forall_mem_append]
  exact ⟨hbefore, ⟨hhead, hlist⟩, hbody, hafter⟩

end CompilationUnit

end Resolve

/-! ## What is declared -/

/-- The declarators among the tokens, with their places. -/
def declared (occurrences : List Occurrence) : List (Entry × Place) :=
  occurrences.filterMap fun occurrence ↦
    match occurrence.role with
    | .declarator entry place => some (entry, place)
    | _ => none

def declaredEntries (occurrences : List Occurrence) : List Entry :=
  (declared occurrences).map Prod.fst

theorem mem_declared {occurrences : List Occurrence} {entry : Entry} {place : Place} :
    (entry, place) ∈ declared occurrences ↔
      ∃ occurrence ∈ occurrences, occurrence.role = .declarator entry place := by
  rw [declared, List.mem_filterMap]
  refine exists_congr fun occurrence ↦ and_congr_right fun _ ↦ ?_
  cases occurrence.role <;> simp

theorem mem_declaredEntries {occurrences : List Occurrence} {occurrence : Occurrence}
    (hoccurrence : occurrence ∈ occurrences) {entry : Entry} {place : Place}
    (hrole : occurrence.role = .declarator entry place) : entry ∈ declaredEntries occurrences :=
  List.mem_map.mpr ⟨_, mem_declared.mpr ⟨occurrence, hoccurrence, hrole⟩, rfl⟩

@[simp]
theorem declaredEntries_append (occurrences occurrences' : List Occurrence) :
    declaredEntries (occurrences ++ occurrences') =
      declaredEntries occurrences ++ declaredEntries occurrences' := by
  rw [declaredEntries, declared, List.filterMap_append, List.map_append]
  rfl

@[simp]
theorem declaredEntries_plainTexts (texts : List Text) :
    declaredEntries (plainTexts texts) = [] := by
  simp [declaredEntries, declared, plainTexts]

section Declared

variable (region : Region)

mutual

/-- The walker of the extractor comes to the same declarators, in another order. -/
theorem Tree.declared_perm (scope : Scope) : (tree : Tree) → {entries : List Entry} →
    tree.entries = some entries →
      (declaredEntries (tree.resolve region scope).1).Perm entries
  | .token _, _, h => by
    obtain rfl := Option.some.inj h
    exact List.Perm.nil
  | .identifier _, _, h => by
    obtain rfl := Option.some.inj h
    exact List.Perm.nil
  | .primary _ rest, _, h => Forest.declared_perm scope rest h
  | .group _ children, _, h => Forest.declared_perm scope children h
  | .scope _ children, _, h => Forest.declared_perm scope children h
  | .compoundStatement items, _, h => by
    simpa [Tree.resolve] using Forest.declared_perm scope items h
  | .binder _ _, _, h => by
    obtain rfl := Option.some.inj h
    exact List.Perm.nil
  | .declaration specifiers gap list lastGap, _, h => by
    obtain ⟨inSpecifiers, inList, hspecifiers, hlist, rfl⟩ := exists_entries h
    have hleft := Forest.declared_perm scope specifiers hspecifiers
    have hright := InitDeclaratorList.declared_perm specifiers scope
      (specifiers.resolve region scope).2 list hlist
    simpa [Tree.resolve] using (hleft.append hright).trans
      (List.perm_append_comm_assoc _ _ _)
  | .staticAssertDeclaration _, _, h => absurd h (Option.some_ne_none _).symm

theorem Forest.declared_perm (scope : Scope) : (forest : Forest) → {entries : List Entry} →
    forest.entries = some entries →
      (declaredEntries (forest.resolve region scope).1).Perm entries
  | .nil, _, h => by
    obtain rfl := Option.some.inj h
    exact List.Perm.nil
  | .cons tree rest, _, h => by
    obtain ⟨inTree, inRest, htree, hrest, rfl⟩ := exists_entries h
    have hleft := Tree.declared_perm scope tree htree
    have hright := Forest.declared_perm (tree.resolve region scope).2 rest hrest
    simpa [Forest.resolve] using hleft.append hright

theorem InitDeclaratorList.declared_perm (specifiers : Forest) (start scope : Scope) :
    (list : InitDeclaratorList) → {entries : List Entry} → list.entries = some entries →
      (declaredEntries (list.resolve region specifiers start scope).1).Perm
        (extractDeclarators specifiers list ++ entries)
  | .single item, _, h => InitDeclarator.declared_perm specifiers start scope item h
  | .snoc list before after item, _, h => by
    obtain ⟨inList, inItem, hlist, hitem, rfl⟩ := exists_entries h
    have hleft := InitDeclaratorList.declared_perm specifiers start scope list hlist
    have hright := InitDeclarator.declared_perm specifiers start
      (list.resolve region specifiers start scope).2 item hitem
    have hperm := (hleft.append hright).trans List.perm_middle
    simpa [InitDeclaratorList.resolve, extractDeclarators] using hperm

theorem InitDeclarator.declared_perm (specifiers : Forest) (start scope : Scope) :
    (item : InitDeclarator) → {entries : List Entry} → item.entries = some entries →
      (declaredEntries (item.resolve region specifiers start scope).1).Perm
        (⟨specifiers, item⟩ :: entries)
  | .plain declarator, _, h => Declarator.declared_perm _ _ scope declarator h
  | .withInitializer declarator before after initializer, _, h => by
    obtain ⟨inDeclarator, inInitializer, hdeclarator, hinitializer, rfl⟩ := exists_entries h
    have hleft := Declarator.declared_perm
      ⟨specifiers, .withInitializer declarator before after initializer⟩ ⟨start, scope⟩ scope
        declarator hdeclarator
    have hright := fun scope ↦ Forest.declared_perm scope initializer hinitializer
    simpa [InitDeclarator.resolve] using hleft.append (hright _)

theorem Declarator.declared_perm (entry : Entry) (place : Place) (scope : Scope) :
    (declarator : Declarator) → {entries : List Entry} → declarator.entries = some entries →
      (declaredEntries (declarator.resolve region entry place scope).1).Perm (entry :: entries)
  | .pointer _ _ _ declarator, _, h => by
    simpa [Declarator.resolve] using Declarator.declared_perm entry place scope declarator h
  | .direct direct extensions, _, h => by
    obtain ⟨inDirect, inExtensions, hdirect, hextensions, rfl⟩ := exists_entries h
    have hleft := DirectDeclarator.declared_perm entry place scope direct hdirect
    have hright := Forest.declared_perm (direct.resolve region entry place scope).2 extensions
      hextensions
    simpa [Declarator.resolve] using hleft.append hright

theorem DirectDeclarator.declared_perm (entry : Entry) (place : Place) (scope : Scope) :
    (direct : DirectDeclarator) → {entries : List Entry} → direct.entries = some entries →
      (declaredEntries (direct.resolve region entry place scope).1).Perm (entry :: entries)
  | .identifier _, _, h => by
    obtain rfl := Option.some.inj h
    exact List.Perm.refl _
  | .paren _ declarator _, _, h => by
    simpa [DirectDeclarator.resolve] using Declarator.declared_perm entry place scope declarator h
  | .array direct _ bound, _, h => by
    obtain ⟨inDirect, inBound, hdirect, hbound, rfl⟩ := exists_entries h
    have hleft := DirectDeclarator.declared_perm entry place scope direct hdirect
    have hright := Forest.declared_perm (direct.resolve region entry place scope).2 bound hbound
    simpa [DirectDeclarator.resolve] using hleft.append hright
  | .function direct _ parameters, _, h => by
    obtain ⟨inDirect, inParameters, hdirect, hparameters, rfl⟩ := exists_entries h
    have hleft := DirectDeclarator.declared_perm entry place scope direct hdirect
    have hright := Forest.declared_perm (direct.resolve region entry place scope).2 parameters
      hparameters
    simpa [DirectDeclarator.resolve] using hleft.append hright

end

end Declared

theorem CompilationUnit.inBody_perm {unit : CompilationUnit} {entries : List Entry}
    (h : unit.body.entries = some entries) : (declaredEntries unit.inBody).Perm entries :=
  unit.body.declared_perm .body unit.innerScope h

end Systemish.Antlr
