import Systemish.Antlr.Scopes

/-!
# Inserting declarations

Embedding of `DeclarationInserter.java`, and what the declarations that it
inserts declare. Each of them is the text of a declarator with `[BATCH_SIZE]`
behind it, in which blanks and comments have been left out. They all stand at the
top of the function, where the identifiers in them need not denote what they
denote at the place that the declarator comes from.
-/

namespace Systemish.Antlr

namespace DeclarationInserter

/-! ## The pass -/

/-- The lines of `initCode`. -/
def initLines : List Text :=
  ["\tint I = 0;          // batch index\n".toList,
    "\tvoid *batch_rips[BATCH_SIZE];       // goto targets\n".toList,
    "\tint iMask = 0;      // No packet is done yet".toList]

/-- State maintainance code at the beginning. -/
def initCode : Text := initLines.flatten

def lvDeclarations (localVariables : List VariableDecl) : Text :=
  localVariables.flatMap fun decl ↦ "\t".toList ++ decl.arrayDecl ++ "\n".toList

/-- The lines of `endCode`. -/
def endLines : List Text :=
  ["end:\n".toList, "\tbatch_rips[I] = &&end;\n".toList, "\tiMask = SET(iMask, I);\n".toList,
    "\tif(iMask == (1 << BATCH_SIZE) - 1) \x7b\n".toList, "\t\treturn;\n".toList,
    "\t\x7d\n".toList, "\tI = (I + 1) & BATCH_SIZE_;\n".toList,
    "\tgoto *batch_rips[I];\n".toList]

/-- State maintainance code at the end. -/
def endCode : Text := endLines.flatten

/-- `enterFunctionDefinition`, for the tokens between the braces of the body. -/
def enterFunctionDefinition (localVariables : List VariableDecl) (block : List Text) : List Text :=
  ["\x7b".toList, "\n".toList ++ initCode ++ "\n\n".toList ++ lvDeclarations localVariables] ++
    block ++ ["\n".toList ++ endCode ++ "\n".toList, "\x7d".toList]

/-! ## The inserted text -/

/-- A declaration of one identifier. -/
structure Declaration where
  specifiers : Forest
  declarator : Declarator

/-- The text of the declaration, with a blank in front of the declarator only. -/
def Declaration.text (declaration : Declaration) : Text :=
  btrText declaration.specifiers.tokens ++ " ".toList ++ getText declaration.declarator.tokens ++
    ";".toList

/-- The token of the macro. -/
def batchSize : Token := .ofString "BATCH_SIZE"

/-- The declarator with `[BATCH_SIZE]` behind it. -/
def appendArray : Declarator → Declarator
  | .pointer symbol qualifiers gap declarator =>
    .pointer symbol qualifiers gap (appendArray declarator)
  | .direct direct extensions =>
    .direct (.array direct [] (.cons (.token batchSize) .nil)) extensions

/-- What should be declared for a declarator of the unit. -/
def extended (entry : Entry) : Declaration := ⟨entry.specifiers, appendArray entry.declarator⟩

/-- The declarator ends in extensions. What is written behind them is not a part of it. -/
def hasExtensions : Declarator → Bool
  | .pointer _ _ _ declarator => hasExtensions declarator
  | .direct _ .nil => false
  | .direct _ (.cons _ _) => true

/-- Tokens of C of more than one character that are not words. -/
def longTokens : List Text :=
  ["++", "--", "->", "<<", ">>", "<=", ">=", "==", "!=", "&&", "||", "*=", "/=", "%=", "+=", "-=",
    "&=", "^=", "|=", "<<=", ">>=", "...", "##", "//", "/*"].map String.toList

/-- A sign behind the token would belong to the exponent of a number. -/
def endsInExponent (text : Text) : Bool :=
  text.head?.any Char.isDigit && text.getLast?.any fun c ↦ c ∈ ['e', 'E', 'p', 'P']

/-- The lexer does not stop between the two tokens if nothing else stands between them. -/
def fuses (left right : Text) : Bool :=
  (left.getLast?.any isWordChar && right.head?.any isWordChar) ||
    (endsInExponent left && right.head?.any fun c ↦ c == '+' || c == '-') ||
      longTokens.any fun token ↦
        left.length < token.length && token.isPrefixOf (left ++ right)

/-- Two tokens of the list run together when it is written without blanks. -/
def runTogether : List Text → Bool
  | left :: right :: rest => fuses left right || runTogether (right :: rest)
  | _ => false

/-- The text that is inserted for the declarator is read as `extended` says: its tokens do not run
together, and no extensions stand between the declarator and its last array. -/
structure Readable (entry : Entry) : Prop where
  apart : runTogether (visible entry.declarator.tokens) = false
  bare : hasExtensions entry.declarator = false

/-- The body of the function with these declarations at its top. -/
def functionBody (declarations : List Declaration) (block : List Text) : List Text :=
  ["\x7b".toList, "\n".toList ++ initCode ++ "\n\n".toList ++
    declarations.flatMap fun declaration ↦ "\t".toList ++ declaration.text ++ "\n".toList] ++
      block ++ ["\n".toList ++ endCode ++ "\n".toList, "\x7d".toList]

theorem getText_append (tokens tokens' : List Token) :
    getText (tokens ++ tokens') = getText tokens ++ getText tokens' := by
  rw [getText, visible_append, List.flatten_append]
  rfl

/-- The text that is inserted for a declarator is that of the declarator with `[BATCH_SIZE]` behind
it. -/
theorem getText_appendArray (declarator : Declarator) (h : hasExtensions declarator = false) :
    getText (appendArray declarator).tokens =
      getText declarator.tokens ++ "[BATCH_SIZE]".toList := by
  cases declarator with
  | pointer symbol qualifiers gap declarator =>
    have hsplit (declarator : Declarator) :
        (Declarator.pointer symbol qualifiers gap declarator).tokens =
          (symbol.token :: (qualifierTokens qualifiers ++ Gap.tokens gap)) ++
            declarator.tokens := by
      rw [Declarator.tokens, List.cons_append, List.append_assoc]
    rw [appendArray, hsplit, hsplit, getText_append, getText_append,
      getText_appendArray declarator h, List.append_assoc]
  | direct direct extensions =>
    cases extensions with
    | nil =>
      rw [appendArray, Declarator.tokens, Declarator.tokens, DirectDeclarator.tokens]
      simp only [Forest.tokens, List.append_nil, getText_append]
      rfl
    | cons => exact absurd h (by simp [hasExtensions])

theorem arrayDecl_eq {entry : Entry} (h : hasExtensions entry.declarator = false) :
    entry.variableDecl.arrayDecl = (extended entry).text := by
  rw [Declaration.text, extended, getText_appendArray _ h, ← List.append_assoc]
  rfl

theorem enterFunctionDefinition_eq {entries : List Entry}
    (h : ∀ entry ∈ entries, Readable entry) (block : List Text) :
    enterFunctionDefinition (entries.map Entry.variableDecl) block =
      functionBody (entries.map extended) block := by
  have hlines : lvDeclarations (entries.map Entry.variableDecl) =
      (entries.map extended).flatMap fun declaration ↦
        "\t".toList ++ declaration.text ++ "\n".toList := by
    rw [lvDeclarations, List.flatMap_map, List.flatMap_map]
    apply List.flatMap_congr
    intro entry hentry
    rw [arrayDecl_eq (h entry hentry).bare]
  rw [enterFunctionDefinition, hlines]
  rfl

/-! ## Types -/

/-- A derivation, with the number of elements of an array in the place of its bound. -/
inductive Layer where
  | pointer (symbol : PointerSymbol) (qualifiers : List TypeQualifier)
  | array (size : ℕ)
  | function (parameters : List Token)
deriving DecidableEq

/-- An identifier is used as an expression in the specifiers. -/
def usesIdentifier (specifiers : Forest) : Bool :=
  (specifiers.resolve .file .start).1.any fun occurrence ↦
    match occurrence.role with
    | .identifier _ => true
    | _ => false

/-- What specifiers and array bounds mean, by what the identifiers in them denote. Where an
identifier is used as an expression, its value at that place may enter into the meaning. -/
structure Semantics where
  Base : Type
  base : Scope → Forest → Base
  bound : Scope → List Token → ℕ
  size : ℕ
  base_congr : ∀ {scope scope' : Scope} {specifiers : Forest}, usesIdentifier specifiers = false →
    (∀ space, ∀ word ∈ visible specifiers.tokens, scope space word = scope' space word) →
      base scope specifiers = base scope' specifiers
  /-- The value of the macro. -/
  bound_batchSize : ∀ scope, bound scope [batchSize] = size

def layer (value : List Token → ℕ) : Derivation → Layer
  | .pointer symbol qualifiers => .pointer symbol qualifiers
  | .array bound => .array (value bound)
  | .function parameters => .function parameters

/-- The layers of a declarator in the given scope. -/
def Semantics.layers (semantics : Semantics) (scope : Scope) (declarator : Declarator) :
    List Layer := declarator.derivations.map (layer (semantics.bound scope))

end DeclarationInserter

/-! ## Scopes at the top of the function -/

mutual

/-- The identifiers that a rule declares otherwise than by declarators of a declaration, and that
are in scope behind it. Of a declaration only the initializers count. -/
def Tree.binders : Tree → List (NameSpace × Identifier)
  | .binder space name => [(space, name)]
  | .primary _ rest => rest.binders
  | .group _ children => children.binders
  | .declaration _ _ list _ => list.binders
  | _ => []

def Forest.binders : Forest → List (NameSpace × Identifier)
  | .nil => []
  | .cons tree rest => tree.binders ++ rest.binders

def InitDeclaratorList.binders : InitDeclaratorList → List (NameSpace × Identifier)
  | .single item => item.binders
  | .snoc list _ _ item => list.binders ++ item.binders

def InitDeclarator.binders : InitDeclarator → List (NameSpace × Identifier)
  | .plain _ => []
  | .withInitializer _ _ _ initializer => initializer.binders

end

/-- What stays declared in the block of the function when all declarators have been taken out: the
parameters, and tags and enumeration constants of expressions. -/
def CompilationUnit.binders (unit : CompilationUnit) : List (NameSpace × Identifier) :=
  unit.head.binders ++ inBlock unit.body
where
  inBlock : Forest → List (NameSpace × Identifier)
    | .nil => []
    | .cons (.compoundStatement items) rest => items.binders ++ inBlock rest
    | .cons _ rest => inBlock rest

/-- The words define a structure or union without a tag. -/
def definesTagless : List Text → Bool
  | keyword :: next :: rest =>
    ((keyword = "struct".toList || keyword = "union".toList) && next = "\x7b".toList) ||
      definesTagless (next :: rest)
  | _ => false

def InitDeclaratorList.isSingle : InitDeclaratorList → Bool
  | .single _ => true
  | .snoc _ _ _ _ => false

mutual

/-- No two declarators share a type without a tag. If the specifiers are written twice, they define
two types. -/
def Tree.sharesNoType : Tree → Bool
  | .token _ => true
  | .identifier _ => true
  | .primary _ rest => rest.sharesNoType
  | .group _ children => children.sharesNoType
  | .scope _ children => children.sharesNoType
  | .compoundStatement items => items.sharesNoType
  | .binder _ _ => true
  | .declaration specifiers _ list _ =>
    (list.isSingle || !definesTagless (visible specifiers.tokens)) &&
      (specifiers.sharesNoType && list.sharesNoType)
  | .staticAssertDeclaration children => children.sharesNoType

def Forest.sharesNoType : Forest → Bool
  | .nil => true
  | .cons tree rest => tree.sharesNoType && rest.sharesNoType

def InitDeclaratorList.sharesNoType : InitDeclaratorList → Bool
  | .single item => item.sharesNoType
  | .snoc list _ _ item => list.sharesNoType && item.sharesNoType

def InitDeclarator.sharesNoType : InitDeclarator → Bool
  | .plain declarator => declarator.sharesNoType
  | .withInitializer declarator _ _ initializer =>
    declarator.sharesNoType && initializer.sharesNoType

def Declarator.sharesNoType : Declarator → Bool
  | .pointer _ _ _ declarator => declarator.sharesNoType
  | .direct direct extensions => direct.sharesNoType && extensions.sharesNoType

def DirectDeclarator.sharesNoType : DirectDeclarator → Bool
  | .identifier _ => true
  | .paren _ declarator _ => declarator.sharesNoType
  | .array direct _ bound => direct.sharesNoType && bound.sharesNoType
  | .function direct _ parameters => direct.sharesNoType && parameters.sharesNoType

end

/-- Declare some identifiers. -/
def Scope.insert (scope : Scope) (names : List (NameSpace × Identifier)) : Scope :=
  fun space text ↦
    if names.any fun name ↦ name.1 = space ∧ name.2.text = text then .inserted
    else scope space text

namespace DeclarationInserter

/-- The identifiers that the declaration declares: the specifiers are repeated for each declarator,
with the tags and enumeration constants in them. -/
def Declaration.identifiers (declaration : Declaration) : List (NameSpace × Identifier) :=
  (.ordinary, declaration.declarator.name) :: declaration.specifiers.binders

/-- The identifiers that the lines of `initCode` declare. -/
def stateNames : List (NameSpace × Identifier) :=
  [(.ordinary, .ofText "I".toList rfl), (.ordinary, .ofText "batch_rips".toList rfl),
    (.ordinary, .ofText "iMask".toList rfl)]

/-- The identifiers that nothing else in the block of the function can declare: those of `initCode`
and the macro. -/
def reservedNames : List (NameSpace × Identifier) :=
  (.ordinary, .ofText "BATCH_SIZE".toList rfl) :: stateNames

/-- The declarations with the places at which they stand, from `scope` on. -/
def places (scope : Scope) : List Declaration → List (Declaration × Place)
  | [] => []
  | declaration :: rest =>
    (declaration, ⟨scope, scope.insert declaration.specifiers.binders⟩) ::
      places (scope.insert declaration.identifiers) rest

/-- The inserted declarations of a unit with their places. -/
def insertedPlaces (unit : CompilationUnit) (entries : List Entry) :
    List (Declaration × Place) :=
  places (unit.innerScope.insert stateNames) (entries.map extended)

/-- An array that is declared `extern` is not there, and one that is declared `register` has no
elements that could be used. -/
def definesObjects (specifiers : Forest) : Bool :=
  !specifiers.specifies "extern".toList && !specifiers.specifies "register".toList

/-- The variables that are declared in a block of the function, with their places. -/
def blockVariables (unit : CompilationUnit) : List (Entry × Place) :=
  (declared unit.inBody).filter fun (entry, _) ↦ entry.isVariable

end DeclarationInserter

end Systemish.Antlr
