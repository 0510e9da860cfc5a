import Mathlib

/-!
# Parse trees of C programs

The part of `C.g4` that the source-to-source passes look at: declarations with
their declarators, identifiers that are primary expressions, and the scopes that
they stand in. Everything else is a sequence of tokens and subtrees. The lexer
keeps blanks, newlines and comments in the stream but hides them from the parser,
so they stand in the trees as gaps between the tokens of the grammar.
-/

namespace Systemish.Antlr

abbrev Text := List Char

structure Token where
  text : Text
  hidden : Bool
deriving DecidableEq

/-- A character of identifiers. The backslash begins a universal character name. -/
def isWordChar (c : Char) : Bool := c.isAlphanum || c == '_' || c == '\\'

/-- An identifier of the source. -/
structure Identifier where
  text : Text
  nonempty : text ≠ []
  word : ∀ c ∈ text, isWordChar c = true
deriving DecidableEq

theorem Identifier.not_mem (name : Identifier) {c : Char} (h : isWordChar c = false) :
    c ∉ name.text := by
  intro hmem
  rw [name.word c hmem] at h
  exact Bool.false_ne_true h.symm

/-- The identifier with the given spelling. -/
def Identifier.ofText (text : Text) (h : (!text.isEmpty && text.all isWordChar) = true) :
    Identifier where
  text := text
  nonempty := by
    rintro rfl
    exact Bool.false_ne_true h
  word := by
    rw [Bool.and_eq_true] at h
    exact List.all_eq_true.mp h.2

/-- The hidden tokens between two tokens of the grammar. -/
abbrev Gap := List Text

/-- C keeps tags apart from all other identifiers. -/
inductive NameSpace where
  | ordinary
  | tag
deriving DecidableEq

inductive PointerSymbol where
  | star
  | caret
deriving DecidableEq

inductive TypeQualifier where
  | const
  | restrict
  | volatile
  | atomic
deriving DecidableEq

/-- The rules for statements, and all rules below them. -/
inductive Rule where
  | labeledStatement
  | expressionStatement
  | selectionStatement
  | iterationStatement
  | jumpStatement
  | other
deriving DecidableEq

mutual

inductive Tree where
  /-- A token that no pass looks at, or a hidden one. -/
  | token (token : Token)
  /-- A primary expression that is an identifier. -/
  | identifier (name : Identifier)
  /-- Any other primary expression. -/
  | primary (first : Token) (rest : Forest)
  /-- A rule that has no effect on scopes. -/
  | group (rule : Rule) (children : Forest)
  /-- A rule that opens a scope: a loop or a parameter list. -/
  | scope (rule : Rule) (children : Forest)
  | compoundStatement (items : Forest)
  /-- An identifier that is declared here, but not by a declarator of a declaration. -/
  | binder (space : NameSpace) (name : Identifier)
  | declaration (specifiers : Forest) (gap : Gap) (list : InitDeclaratorList) (lastGap : Gap)
  | staticAssertDeclaration (children : Forest)

inductive Forest where
  | nil
  | cons (tree : Tree) (rest : Forest)

inductive InitDeclaratorList where
  | single (item : InitDeclarator)
  | snoc (list : InitDeclaratorList) (before after : Gap) (item : InitDeclarator)

inductive InitDeclarator where
  | plain (declarator : Declarator)
  | withInitializer (declarator : Declarator) (before after : Gap) (initializer : Forest)

inductive Declarator where
  | pointer (symbol : PointerSymbol) (qualifiers : List (Gap × TypeQualifier)) (gap : Gap)
      (declarator : Declarator)
  | direct (direct : DirectDeclarator) (extensions : Forest)

inductive DirectDeclarator where
  | identifier (name : Identifier)
  | paren (before : Gap) (declarator : Declarator) (after : Gap)
  | array (direct : DirectDeclarator) (gap : Gap) (bound : Forest)
  | function (direct : DirectDeclarator) (gap : Gap) (parameters : Forest)

end

/-! ## Tokens -/

/-- A token of the grammar with the given spelling. -/
def Token.ofString (text : String) : Token := ⟨text.toList, false⟩

/-- Tokens of the grammar in front of a forest. -/
def Forest.ofTokens (texts : List String) (rest : Forest) : Forest :=
  texts.foldr (fun text forest ↦ .cons (.token (.ofString text)) forest) rest

def Forest.append : Forest → Forest → Forest
  | .nil, forest => forest
  | .cons tree rest, forest => .cons tree (rest.append forest)

def Gap.tokens (gap : Gap) : List Token := gap.map fun text ↦ ⟨text, true⟩

def Identifier.token (name : Identifier) : Token := ⟨name.text, false⟩

def PointerSymbol.token : PointerSymbol → Token
  | .star => .ofString "*"
  | .caret => .ofString "^"

def TypeQualifier.token : TypeQualifier → Token
  | .const => .ofString "const"
  | .restrict => .ofString "restrict"
  | .volatile => .ofString "volatile"
  | .atomic => .ofString "_Atomic"

/-- The qualifiers behind a pointer symbol. -/
def qualifierTokens (qualifiers : List (Gap × TypeQualifier)) : List Token :=
  qualifiers.flatMap fun (gap, qualifier) ↦ Gap.tokens gap ++ [qualifier.token]

mutual

def Tree.tokens : Tree → List Token
  | .token token => [token]
  | .identifier name => [name.token]
  | .primary first rest => first :: rest.tokens
  | .group _ children => children.tokens
  | .scope _ children => children.tokens
  | .compoundStatement items => .ofString "\x7b" :: (items.tokens ++ [.ofString "\x7d"])
  | .binder _ name => [name.token]
  | .declaration specifiers gap list lastGap =>
    specifiers.tokens ++
      (Gap.tokens gap ++ (list.tokens ++ (Gap.tokens lastGap ++ [.ofString ";"])))
  | .staticAssertDeclaration children => children.tokens

def Forest.tokens : Forest → List Token
  | .nil => []
  | .cons tree rest => tree.tokens ++ rest.tokens

def InitDeclaratorList.tokens : InitDeclaratorList → List Token
  | .single item => item.tokens
  | .snoc list before after item =>
    list.tokens ++ (Gap.tokens before ++ (.ofString "," :: (Gap.tokens after ++ item.tokens)))

def InitDeclarator.tokens : InitDeclarator → List Token
  | .plain declarator => declarator.tokens
  | .withInitializer declarator before after initializer =>
    declarator.tokens ++
      (Gap.tokens before ++ (.ofString "=" :: (Gap.tokens after ++ initializer.tokens)))

def Declarator.tokens : Declarator → List Token
  | .pointer symbol qualifiers gap declarator =>
    symbol.token :: (qualifierTokens qualifiers ++ (Gap.tokens gap ++ declarator.tokens))
  | .direct direct extensions => direct.tokens ++ extensions.tokens

def DirectDeclarator.tokens : DirectDeclarator → List Token
  | .identifier name => [name.token]
  | .paren before declarator after =>
    .ofString "(" ::
      (Gap.tokens before ++ (declarator.tokens ++ (Gap.tokens after ++ [.ofString ")"])))
  | .array direct gap bound =>
    direct.tokens ++ (Gap.tokens gap ++ (.ofString "[" :: (bound.tokens ++ [.ofString "]"])))
  | .function direct gap parameters =>
    direct.tokens ++ (Gap.tokens gap ++ (.ofString "(" :: (parameters.tokens ++ [.ofString ")"])))

end

/-- The spellings of the tokens that the parser sees. -/
def visible (tokens : List Token) : List Text :=
  tokens.flatMap fun token ↦ if token.hidden then [] else [token.text]

/-- `getText` of a rule: hidden tokens are left out. -/
def getText (tokens : List Token) : Text := (visible tokens).flatten

/-- `Debug.btrText`: the text of a rule with its hidden tokens. -/
def btrText (tokens : List Token) : Text := tokens.flatMap Token.text

/-- `name.replaceAll("[*]+", "")`. -/
def trimStars (name : Text) : Text := name.filter fun c ↦ c ≠ '*'

/-! ## What a declarator declares -/

mutual

def Declarator.name : Declarator → Identifier
  | .pointer _ _ _ declarator => declarator.name
  | .direct direct _ => direct.name

def DirectDeclarator.name : DirectDeclarator → Identifier
  | .identifier name => name
  | .paren _ declarator _ => declarator.name
  | .array direct _ _ => direct.name
  | .function direct _ _ => direct.name

end

def InitDeclarator.declarator : InitDeclarator → Declarator
  | .plain declarator => declarator
  | .withInitializer declarator _ _ _ => declarator

/-- The node's own `initDeclarator`: the list is left-recursive. -/
def InitDeclaratorList.initDeclarator : InitDeclaratorList → InitDeclarator
  | .single item => item
  | .snoc _ _ _ item => item

@[simp]
theorem visible_nil : visible [] = [] := rfl

@[simp]
theorem visible_append (tokens tokens' : List Token) :
    visible (tokens ++ tokens') = visible tokens ++ visible tokens' := List.flatMap_append

@[simp]
theorem visible_gap (gap : Gap) : visible (Gap.tokens gap) = [] := by
  simp [visible, Gap.tokens]

@[simp]
theorem visible_ofString_cons (text : String) (tokens : List Token) :
    visible (.ofString text :: tokens) = text.toList :: visible tokens := rfl

@[simp]
theorem length_gap (gap : Gap) : (Gap.tokens gap).length = gap.length := List.length_map _

end Systemish.Antlr
