import Systemish.Antlr.CodeCleaner
import Systemish.Antlr.LocalVariables

/-!
# A unit as the code cleaner sees it

All passes work on parse trees of one grammar. The trees that `CodeCleaner` is
stated on tell less about declarations: here they are made from the trees of the
other passes, token by token, so that it cleans any unit with one function.
-/

namespace Systemish.Antlr

open Foundation CodeCleaner

/-! ## Trees -/

/-- The tree is a hidden token. -/
def Tree.hiddenText : Tree → Option Text
  | .token ⟨text, true⟩ => some text
  | _ => none

def gapNodes (gap : Gap) (rest : Nodes) : Nodes := gap.foldr .hidden rest

def tokenNodes (tokens : List Token) (rest : Nodes) : Nodes :=
  tokens.foldr (fun token nodes ↦
    if token.hidden then .hidden token.text nodes else .cons (.token token.text) nodes) rest

mutual

def Tree.node : Tree → Node
  | .token token => .token token.text
  | .identifier name => .rule (.inner .other) (.cons (.token name.text) .nil)
  | .primary first rest => .rule (.inner .other) (tokenNodes [first] (rest.nodes .nil))
  | .group rule children => .rule (.inner rule) (children.nodes .nil)
  | .scope rule children => .rule (.inner rule) (children.nodes .nil)
  | .compoundStatement items => .compoundStatement (items.items .nil)
  | .binder _ name => .token name.text
  | .declaration specifiers gap list lastGap =>
    .rule .declaration (specifiers.nodes (gapNodes gap (list.nodes (gapNodes lastGap
      (.cons (.token ";".toList) .nil)))))
  | .staticAssertDeclaration children => .rule .declaration (children.nodes .nil)

/-- The forest in front of the rest of a rule. -/
def Forest.nodes : Forest → Nodes → Nodes
  | .nil, rest => rest
  | .cons tree forest, rest =>
    match tree.hiddenText with
    | some text => .hidden text (forest.nodes rest)
    | none => .cons tree.node (forest.nodes rest)

/-- The forest in front of the rest of a block or of the file. -/
def Forest.items : Forest → Items → Items
  | .nil, rest => rest
  | .cons tree forest, rest =>
    match tree.hiddenText with
    | some text => .hidden text (forest.items rest)
    | none => .item tree.node (forest.items rest)

def InitDeclaratorList.nodes : InitDeclaratorList → Nodes → Nodes
  | .single item, rest => item.nodes rest
  | .snoc list before after item, rest =>
    list.nodes (gapNodes before (.cons (.token ",".toList) (gapNodes after (item.nodes rest))))

def InitDeclarator.nodes : InitDeclarator → Nodes → Nodes
  | .plain declarator, rest => declarator.nodes rest
  | .withInitializer declarator before after initializer, rest =>
    declarator.nodes (gapNodes before (.cons (.token "=".toList)
      (gapNodes after (initializer.nodes rest))))

def Declarator.nodes : Declarator → Nodes → Nodes
  | .pointer symbol qualifiers gap declarator, rest =>
    tokenNodes (symbol.token :: qualifierTokens qualifiers) (gapNodes gap (declarator.nodes rest))
  | .direct direct extensions, rest => direct.nodes (extensions.nodes rest)

def DirectDeclarator.nodes : DirectDeclarator → Nodes → Nodes
  | .identifier name, rest => .cons (.token name.text) rest
  | .paren before declarator after, rest =>
    .cons (.token "(".toList) (gapNodes before (declarator.nodes (gapNodes after
      (.cons (.token ")".toList) rest))))
  | .array direct gap bound, rest =>
    direct.nodes (gapNodes gap (.cons (.token "[".toList) (bound.nodes
      (.cons (.token "]".toList) rest))))
  | .function direct gap parameters, rest =>
    direct.nodes (gapNodes gap (.cons (.token "(".toList) (parameters.nodes
      (.cons (.token ")".toList) rest))))

end

/-- The unit as a program. -/
def CompilationUnit.items (unit : CompilationUnit) : Items :=
  unit.before.items (.item (.rule .functionDefinition (unit.head.nodes
    (unit.declarationList.nodes (unit.body.nodes .nil)))) (unit.after.items .nil))

/-! ## Tokens -/

theorem tokens_gapNodes (gap : Gap) (rest : Nodes) :
    (gapNodes gap rest).tokens = Gap.tokens gap ++ rest.tokens := by
  induction gap with
  | nil => rfl
  | cons text gap ih => exact congrArg (List.cons _) ih

theorem tokens_tokenNodes (tokens : List Token) (rest : Nodes) :
    (tokenNodes tokens rest).tokens = tokens ++ rest.tokens := by
  induction tokens with
  | nil => rfl
  | cons token tokens ih =>
    obtain ⟨text, hidden⟩ := token
    cases hidden <;> exact congrArg (List.cons _) ih

theorem tokens_token (text : String) (rest : Nodes) :
    (Nodes.cons (.token text.toList) rest).tokens = .ofString text :: rest.tokens := rfl

theorem Tree.tokens_of_hiddenText {tree : Tree} {text : Text} (h : tree.hiddenText = some text) :
    tree.tokens = [⟨text, true⟩] := by
  unfold hiddenText at h
  split at h
  · obtain rfl := Option.some.inj h
    rfl
  · exact absurd h (by simp)

/-- An empty item is its semicolon. -/
theorem tokens_of_isEmptyItem {node : Node} (h : node.isEmptyItem = true) :
    node.tokens = [.ofString ";"] := by
  unfold Node.isEmptyItem at h
  split at h
  · rw [of_decide_eq_true h]
    rfl
  · rw [of_decide_eq_true h]
    rfl
  · exact absurd h Bool.false_ne_true

theorem tokens_item (node : Node) (rest : Items) :
    (Items.item node rest).tokens = node.tokens ++ rest.tokens := by
  by_cases hempty : node.isEmptyItem = true
  · rw [Items.tokens_item_of_isEmptyItem hempty, tokens_of_isEmptyItem hempty]
    rfl
  · exact Items.tokens_item hempty rest

mutual

theorem Tree.tokens_node : (tree : Tree) → tree.hiddenText = none →
    tree.node.tokens = tree.tokens
  | .token ⟨text, false⟩, _ => rfl
  | .token ⟨text, true⟩, h => absurd h (by simp [Tree.hiddenText])
  | .identifier _, _ => rfl
  | .primary first rest, _ => by
    have hrest := Forest.tokens_nodes rest .nil
    rw [Tree.node, Tree.tokens]
    refine (tokens_tokenNodes [first] _).trans ?_
    rw [hrest]
    simp [Nodes.tokens, Nodes.entries]
  | .group rule children, _ => (Forest.tokens_nodes children .nil).trans (List.append_nil _)
  | .scope rule children, _ => (Forest.tokens_nodes children .nil).trans (List.append_nil _)
  | .compoundStatement items, _ => by
    rw [Tree.node, Node.tokens_compoundStatement, Forest.tokens_items items .nil, Tree.tokens]
    simp [Items.tokens, Items.entries]
  | .binder _ _, _ => rfl
  | .declaration specifiers gap list lastGap, _ => by
    rw [Tree.node, Tree.tokens]
    refine (Forest.tokens_nodes specifiers _).trans ?_
    rw [tokens_gapNodes, InitDeclaratorList.tokens_nodes list, tokens_gapNodes]
    rfl
  | .staticAssertDeclaration children, _ =>
    (Forest.tokens_nodes children .nil).trans (List.append_nil _)

theorem Forest.tokens_nodes : (forest : Forest) → (rest : Nodes) →
    (forest.nodes rest).tokens = forest.tokens ++ rest.tokens
  | .nil, _ => rfl
  | .cons tree forest, rest => by
    have hforest := Forest.tokens_nodes forest rest
    rw [Forest.nodes, Forest.tokens, List.append_assoc, ← hforest]
    cases hhidden : tree.hiddenText with
    | some text =>
      rw [tree.tokens_of_hiddenText hhidden]
      rfl
    | none => exact (Nodes.tokens_cons _ _).trans (by rw [Tree.tokens_node tree hhidden])

theorem Forest.tokens_items : (forest : Forest) → (rest : Items) →
    (forest.items rest).tokens = forest.tokens ++ rest.tokens
  | .nil, _ => rfl
  | .cons tree forest, rest => by
    have hforest := Forest.tokens_items forest rest
    rw [Forest.items, Forest.tokens, List.append_assoc, ← hforest]
    cases hhidden : tree.hiddenText with
    | some text =>
      rw [tree.tokens_of_hiddenText hhidden]
      rfl
    | none => exact (tokens_item _ _).trans (by rw [Tree.tokens_node tree hhidden])

theorem InitDeclaratorList.tokens_nodes : (list : InitDeclaratorList) → (rest : Nodes) →
    (list.nodes rest).tokens = list.tokens ++ rest.tokens
  | .single item, rest => InitDeclarator.tokens_nodes item rest
  | .snoc list before after item, rest => by
    rw [InitDeclaratorList.nodes, InitDeclaratorList.tokens_nodes list, tokens_gapNodes,
      tokens_token, tokens_gapNodes, InitDeclarator.tokens_nodes item, InitDeclaratorList.tokens]
    simp

theorem InitDeclarator.tokens_nodes : (item : InitDeclarator) → (rest : Nodes) →
    (item.nodes rest).tokens = item.tokens ++ rest.tokens
  | .plain declarator, rest => Declarator.tokens_nodes declarator rest
  | .withInitializer declarator before after initializer, rest => by
    rw [InitDeclarator.nodes, Declarator.tokens_nodes declarator, tokens_gapNodes,
      tokens_token, tokens_gapNodes, Forest.tokens_nodes initializer, InitDeclarator.tokens]
    simp

theorem Declarator.tokens_nodes : (declarator : Declarator) → (rest : Nodes) →
    (declarator.nodes rest).tokens = declarator.tokens ++ rest.tokens
  | .pointer symbol qualifiers gap declarator, rest => by
    rw [Declarator.nodes, tokens_tokenNodes, tokens_gapNodes, Declarator.tokens_nodes declarator,
      Declarator.tokens]
    simp
  | .direct direct extensions, rest => by
    rw [Declarator.nodes, DirectDeclarator.tokens_nodes direct, Forest.tokens_nodes extensions,
      Declarator.tokens, List.append_assoc]

theorem DirectDeclarator.tokens_nodes : (direct : DirectDeclarator) → (rest : Nodes) →
    (direct.nodes rest).tokens = direct.tokens ++ rest.tokens
  | .identifier _, _ => rfl
  | .paren before declarator after, rest => by
    rw [DirectDeclarator.nodes, tokens_token, tokens_gapNodes, Declarator.tokens_nodes declarator,
      tokens_gapNodes, tokens_token, DirectDeclarator.tokens]
    simp
  | .array direct gap bound, rest => by
    rw [DirectDeclarator.nodes, DirectDeclarator.tokens_nodes direct, tokens_gapNodes,
      tokens_token, Forest.tokens_nodes bound, tokens_token, DirectDeclarator.tokens]
    simp
  | .function direct gap parameters, rest => by
    rw [DirectDeclarator.nodes, DirectDeclarator.tokens_nodes direct, tokens_gapNodes,
      tokens_token, Forest.tokens_nodes parameters, tokens_token, DirectDeclarator.tokens]
    simp

end

theorem Forest.tokens_append : (forest forest' : Forest) →
    (forest.append forest').tokens = forest.tokens ++ forest'.tokens
  | .nil, _ => rfl
  | .cons tree rest, forest' => by
    rw [Forest.append, Forest.tokens, Forest.tokens, Forest.tokens_append rest forest',
      List.append_assoc]

theorem CompilationUnit.tokens_items (unit : CompilationUnit) :
    unit.items.tokens = unit.forest.tokens := by
  have hfunction (nodes : Nodes) (rest : Items) :
      (Items.item (.rule .functionDefinition nodes) rest).tokens = nodes.tokens ++ rest.tokens :=
    tokens_item _ _
  simp only [items, forest, Forest.tokens_items, Forest.tokens_nodes, Forest.tokens_append,
    hfunction, List.append_assoc]
  simp [Items.tokens, Items.entries, Nodes.tokens, Nodes.entries]

/-! ## One function definition -/

theorem functionDefinitions_gapNodes (gap : Gap) (rest : Nodes) :
    (gapNodes gap rest).functionDefinitions = rest.functionDefinitions := by
  induction gap with
  | nil => rfl
  | cons text gap ih => exact ih

theorem functionDefinitions_tokenNodes (tokens : List Token) (rest : Nodes) :
    (tokenNodes tokens rest).functionDefinitions = rest.functionDefinitions := by
  induction tokens with
  | nil => rfl
  | cons token tokens ih =>
    obtain ⟨text, hidden⟩ := token
    cases hidden
    · exact (Nat.zero_add _).trans ih
    · exact ih

theorem functionDefinitions_token (text : Text) (rest : Nodes) :
    (Nodes.cons (.token text) rest).functionDefinitions = rest.functionDefinitions :=
  Nat.zero_add _

mutual

/-- Nothing below the file is a function definition. -/
theorem Tree.functionDefinitions_node : (tree : Tree) → tree.node.functionDefinitions = 0
  | .token _ => rfl
  | .identifier _ => rfl
  | .primary first rest => by
    have hrest := Forest.functionDefinitions_nodes rest .nil
    exact (Nat.zero_add _).trans ((functionDefinitions_tokenNodes [first] _).trans hrest)
  | .group _ children => (Nat.zero_add _).trans (Forest.functionDefinitions_nodes children .nil)
  | .scope _ children => (Nat.zero_add _).trans (Forest.functionDefinitions_nodes children .nil)
  | .compoundStatement items => Forest.functionDefinitions_items items .nil
  | .binder _ _ => rfl
  | .declaration specifiers gap list lastGap => by
    refine (Nat.zero_add _).trans ((Forest.functionDefinitions_nodes specifiers _).trans ?_)
    rw [functionDefinitions_gapNodes, InitDeclaratorList.functionDefinitions_nodes list,
      functionDefinitions_gapNodes]
    rfl
  | .staticAssertDeclaration children =>
    (Nat.zero_add _).trans (Forest.functionDefinitions_nodes children .nil)

theorem Forest.functionDefinitions_nodes : (forest : Forest) → (rest : Nodes) →
    (forest.nodes rest).functionDefinitions = rest.functionDefinitions
  | .nil, _ => rfl
  | .cons tree forest, rest => by
    have hforest := Forest.functionDefinitions_nodes forest rest
    rw [Forest.nodes]
    cases tree.hiddenText with
    | some text => exact hforest
    | none =>
      rw [Nodes.functionDefinitions, Tree.functionDefinitions_node tree, hforest, Nat.zero_add]

theorem Forest.functionDefinitions_items : (forest : Forest) → (rest : Items) →
    (forest.items rest).functionDefinitions = rest.functionDefinitions
  | .nil, _ => rfl
  | .cons tree forest, rest => by
    have hforest := Forest.functionDefinitions_items forest rest
    rw [Forest.items]
    cases tree.hiddenText with
    | some text => exact hforest
    | none =>
      rw [Items.functionDefinitions, Tree.functionDefinitions_node tree, hforest, Nat.zero_add]

theorem InitDeclaratorList.functionDefinitions_nodes : (list : InitDeclaratorList) →
    (rest : Nodes) → (list.nodes rest).functionDefinitions = rest.functionDefinitions
  | .single item, rest => InitDeclarator.functionDefinitions_nodes item rest
  | .snoc list before after item, rest => by
    rw [InitDeclaratorList.nodes, InitDeclaratorList.functionDefinitions_nodes list,
      functionDefinitions_gapNodes, functionDefinitions_token, functionDefinitions_gapNodes,
      InitDeclarator.functionDefinitions_nodes item]

theorem InitDeclarator.functionDefinitions_nodes : (item : InitDeclarator) → (rest : Nodes) →
    (item.nodes rest).functionDefinitions = rest.functionDefinitions
  | .plain declarator, rest => Declarator.functionDefinitions_nodes declarator rest
  | .withInitializer declarator before after initializer, rest => by
    rw [InitDeclarator.nodes, Declarator.functionDefinitions_nodes declarator,
      functionDefinitions_gapNodes, functionDefinitions_token, functionDefinitions_gapNodes,
      Forest.functionDefinitions_nodes initializer]

theorem Declarator.functionDefinitions_nodes : (declarator : Declarator) → (rest : Nodes) →
    (declarator.nodes rest).functionDefinitions = rest.functionDefinitions
  | .pointer symbol qualifiers gap declarator, rest => by
    rw [Declarator.nodes, functionDefinitions_tokenNodes, functionDefinitions_gapNodes,
      Declarator.functionDefinitions_nodes declarator]
  | .direct direct extensions, rest => by
    rw [Declarator.nodes, DirectDeclarator.functionDefinitions_nodes direct,
      Forest.functionDefinitions_nodes extensions]

theorem DirectDeclarator.functionDefinitions_nodes : (direct : DirectDeclarator) →
    (rest : Nodes) → (direct.nodes rest).functionDefinitions = rest.functionDefinitions
  | .identifier name, rest => functionDefinitions_token name.text rest
  | .paren before declarator after, rest => by
    rw [DirectDeclarator.nodes, functionDefinitions_token, functionDefinitions_gapNodes,
      Declarator.functionDefinitions_nodes declarator, functionDefinitions_gapNodes,
      functionDefinitions_token]
  | .array direct gap bound, rest => by
    rw [DirectDeclarator.nodes, DirectDeclarator.functionDefinitions_nodes direct,
      functionDefinitions_gapNodes, functionDefinitions_token,
      Forest.functionDefinitions_nodes bound, functionDefinitions_token]
  | .function direct gap parameters, rest => by
    rw [DirectDeclarator.nodes, DirectDeclarator.functionDefinitions_nodes direct,
      functionDefinitions_gapNodes, functionDefinitions_token,
      Forest.functionDefinitions_nodes parameters, functionDefinitions_token]

end

namespace CompilationUnit

variable (unit : CompilationUnit)

def program : Program where
  items := unit.items
  one_functionDefinition := by
    rw [items, Forest.functionDefinitions_items, Items.functionDefinitions,
      Node.functionDefinitions, if_pos rfl, Forest.functionDefinitions_nodes,
      Forest.functionDefinitions_nodes, Forest.functionDefinitions_nodes,
      Forest.functionDefinitions_items]
    rfl

/-- `Main.cleanup` of a unit: the loops run once, over its tokens. -/
theorem cleanup_eq :
    cleanup unit.items =
      some (removeOrphaned unit.forest.tokens unit.forest.tokens.length .start) := by
  rw [← unit.tokens_items]
  exact unit.program.cleanup_eq

end CompilationUnit

end Systemish.Antlr
