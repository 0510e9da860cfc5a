import Systemish.Antlr.Syntax

/-!
# Extracting local variables

Embedding of `LocalVariableExtractor.java` and of `VariableDecl` in `Util.java`.
The walker enters every `declaration` of the unit, wherever it stands, and takes
the declarators of each from the last to the first. A static assertion is a
`declaration` without specifiers, on which `enterDeclaration` ends with a
`NullPointerException`.
-/

namespace Systemish.Antlr

/-! ## Types of declarators -/

/-- A step from the declared identifier outwards to the type of the specifiers. -/
inductive Derivation where
  | pointer (symbol : PointerSymbol) (qualifiers : List TypeQualifier)
  | array (bound : List Token)
  | function (parameters : List Token)
deriving DecidableEq

mutual

/-- The derivations of a declarator, the one next to the identifier first. -/
def Declarator.derivations : Declarator → List Derivation
  | .pointer symbol qualifiers _ declarator =>
    declarator.derivations ++ [.pointer symbol (qualifiers.map Prod.snd)]
  | .direct direct _ => direct.derivations

def DirectDeclarator.derivations : DirectDeclarator → List Derivation
  | .identifier _ => []
  | .paren _ declarator _ => declarator.derivations
  | .array direct _ bound => direct.derivations ++ [.array bound.tokens]
  | .function direct _ parameters => direct.derivations ++ [.function parameters.tokens]

end

def Declarator.isFunction (declarator : Declarator) : Bool :=
  match declarator.derivations with
  | .function _ :: _ => true
  | _ => false

/-- The specifiers have the given keyword among them. -/
def Forest.specifies (keyword : Text) : Forest → Bool
  | .nil => false
  | .cons (.token token) rest => token.text = keyword || rest.specifies keyword
  | .cons _ rest => rest.specifies keyword

/-! ## Declarations -/

/-- A declarator of a declaration, with the specifiers of the declaration. -/
structure Entry where
  specifiers : Forest
  item : InitDeclarator

namespace Entry

variable (entry : Entry)

def declarator : Declarator := entry.item.declarator

def name : Identifier := entry.declarator.name

/-- The identifier becomes a variable: it is declared neither by a typedef nor as a function. -/
def isVariable : Bool :=
  !entry.specifiers.specifies "typedef".toList && !entry.declarator.isFunction

end Entry

/-- The declarators in the order in which `extractDeclarators` takes them. -/
def extractDeclarators (specifiers : Forest) : InitDeclaratorList → List Entry
  | .single item => [⟨specifiers, item⟩]
  | .snoc list _ _ item => ⟨specifiers, item⟩ :: extractDeclarators specifiers list

mutual

/-- The declarators that the walker comes to, in its order. -/
def Tree.entries : Tree → Option (List Entry)
  | .token _ => some []
  | .identifier _ => some []
  | .primary _ rest => rest.entries
  | .group _ children => children.entries
  | .scope _ children => children.entries
  | .compoundStatement items => items.entries
  | .binder _ _ => some []
  | .declaration specifiers _ list _ => do
    let inSpecifiers ← specifiers.entries
    let inList ← list.entries
    return extractDeclarators specifiers list ++ (inSpecifiers ++ inList)
  | .staticAssertDeclaration _ => none

def Forest.entries : Forest → Option (List Entry)
  | .nil => some []
  | .cons tree rest => do
    let inTree ← tree.entries
    let inRest ← rest.entries
    return inTree ++ inRest

def InitDeclaratorList.entries : InitDeclaratorList → Option (List Entry)
  | .single item => item.entries
  | .snoc list _ _ item => do
    let inList ← list.entries
    let inItem ← item.entries
    return inList ++ inItem

def InitDeclarator.entries : InitDeclarator → Option (List Entry)
  | .plain declarator => declarator.entries
  | .withInitializer declarator _ _ initializer => do
    let inDeclarator ← declarator.entries
    let inInitializer ← initializer.entries
    return inDeclarator ++ inInitializer

def Declarator.entries : Declarator → Option (List Entry)
  | .pointer _ _ _ declarator => declarator.entries
  | .direct direct extensions => do
    let inDirect ← direct.entries
    let inExtensions ← extensions.entries
    return inDirect ++ inExtensions

def DirectDeclarator.entries : DirectDeclarator → Option (List Entry)
  | .identifier _ => some []
  | .paren _ declarator _ => declarator.entries
  | .array direct _ bound => do
    let inDirect ← direct.entries
    let inBound ← bound.entries
    return inDirect ++ inBound
  | .function direct _ parameters => do
    let inDirect ← direct.entries
    let inParameters ← parameters.entries
    return inDirect ++ inParameters

end

/-- The entries of two parts, put together. -/
theorem exists_entries {x y : Option (List Entry)} {together : List Entry → List Entry → List Entry}
    {entries : List Entry}
    (h : (do let inX ← x; let inY ← y; return together inX inY) = some entries) :
    ∃ inX inY, x = some inX ∧ y = some inY ∧ together inX inY = entries := by
  simp only [Option.bind_eq_bind, Option.bind_eq_some_iff, Option.pure_def,
    Option.some.injEq] at h
  obtain ⟨inX, hx, inY, hy, heq⟩ := h
  exact ⟨inX, inY, hx, hy, heq⟩

/-! ## The list -/

structure VariableDecl where
  type : Text
  name : Text
  value : Text
deriving DecidableEq

/-- `VariableDecl.arrayDecl`. -/
def VariableDecl.arrayDecl (decl : VariableDecl) : Text :=
  decl.type ++ " ".toList ++ decl.name ++ "[BATCH_SIZE]".toList ++ ";".toList

/-- The list holds an element that equals a `VariableDecl` with the given name:
`VariableDecl.equals` leaves the stars of the element out. -/
def contains (localVariables : List VariableDecl) (name : Text) : Bool :=
  localVariables.any fun decl ↦ trimStars decl.name = name

/-- What `extractDeclarators` puts into the list for a declarator. -/
def Entry.variableDecl (entry : Entry) : VariableDecl where
  type := btrText entry.specifiers.tokens
  name := getText entry.declarator.tokens
  value := match entry.item with
    | .plain _ => []
    | .withInitializer _ _ _ initializer => getText initializer.tokens

/-- A unit with one function definition. What the head binds are the parameters, which are in scope
in the body; the name of the function itself is of file scope. The declarations between head and
body are those of an old-style parameter list. -/
structure CompilationUnit where
  before : Forest
  head : Forest
  declarationList : Forest
  body : Forest
  after : Forest

/-- The head of `int f()`. -/
def headOfF : Forest := .ofTokens ["int", "f", "(", ")"] .nil

/-- The declarator of `int *p`. -/
def pointerEntry : Entry :=
  ⟨.ofTokens ["int"] .nil, .plain (.pointer .star [] [] (.direct (.identifier (.ofText ['p'] rfl))
    .nil))⟩

/-- `int f(int n) { int *p; *p = n; }`. -/
def pointerUnit : CompilationUnit where
  before := .nil
  head := .ofTokens ["int", "f", "(", "int"] (.cons (.binder .ordinary (.ofText ['n'] rfl))
    (.ofTokens [")"] .nil))
  declarationList := .nil
  body := .cons (.compoundStatement (.cons
    (.declaration pointerEntry.specifiers [[' ']] (.single pointerEntry.item) [])
      (.cons (.group .expressionStatement (.ofTokens ["*"] (.cons (.identifier (.ofText ['p'] rfl))
        (.ofTokens ["="] (.cons (.identifier (.ofText ['n'] rfl)) (.ofTokens [";"] .nil))))))
          .nil))) .nil
  after := .nil

namespace CompilationUnit

variable (unit : CompilationUnit)

/-- The whole tree. -/
def forest : Forest :=
  unit.before.append (unit.head.append (unit.declarationList.append
    (unit.body.append unit.after)))

/-- All declarators of the unit. -/
def entries : Option (List Entry) := do
  let inBefore ← unit.before.entries
  let inHead ← unit.head.entries
  let inDeclarationList ← unit.declarationList.entries
  let inBody ← unit.body.entries
  let inAfter ← unit.after.entries
  return inBefore ++ (inHead ++ (inDeclarationList ++ (inBody ++ inAfter)))

/-- `Main.extractLocalVariables`. -/
def extractLocalVariables : Option (List VariableDecl) :=
  unit.entries.map fun entries ↦ entries.map Entry.variableDecl

variable {unit} {entries : List Entry}

theorem entries_eq_some_iff :
    unit.entries = some entries ↔
      ∃ inBefore inHead inDeclarationList inBody inAfter,
        unit.before.entries = some inBefore ∧ unit.head.entries = some inHead ∧
        unit.declarationList.entries = some inDeclarationList ∧
        unit.body.entries = some inBody ∧ unit.after.entries = some inAfter ∧
        inBefore ++ (inHead ++ (inDeclarationList ++ (inBody ++ inAfter))) = entries := by
  simp only [CompilationUnit.entries, Option.bind_eq_bind, Option.bind_eq_some_iff,
    Option.pure_def, Option.some.injEq]
  constructor
  · rintro ⟨inBefore, hBefore, inHead, hHead, inList, hList, inBody, hBody, inAfter, hAfter, heq⟩
    exact ⟨inBefore, inHead, inList, inBody, inAfter, hBefore, hHead, hList, hBody, hAfter, heq⟩
  · rintro ⟨inBefore, inHead, inList, inBody, inAfter, hBefore, hHead, hList, hBody, hAfter, heq⟩
    exact ⟨inBefore, hBefore, inHead, hHead, inList, hList, inBody, hBody, inAfter, hAfter, heq⟩

/-- All declarations of the unit stand in the body of the function, and `entries` are their
declarators. -/
structure AllInBody (unit : CompilationUnit) (entries : List Entry) : Prop where
  before : unit.before.entries = some []
  head : unit.head.entries = some []
  declarationList : unit.declarationList.entries = some []
  body : unit.body.entries = some entries
  after : unit.after.entries = some []

theorem AllInBody.entries_eq (h : AllInBody unit entries) : unit.entries = some entries :=
  entries_eq_some_iff.mpr ⟨[], [], [], entries, [], h.before, h.head, h.declarationList, h.body,
    h.after, List.append_nil entries⟩

end CompilationUnit

end Systemish.Antlr
