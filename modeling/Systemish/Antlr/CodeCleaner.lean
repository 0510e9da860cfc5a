import Systemish.Antlr.Syntax
import Systemish.Foundation.Rewriter

/-!
# Removing orphaned semicolons

Embedding of `CodeCleaner.java`. The pass looks at the texts of the tokens only: a semicolon goes if
nothing but tokens with a blank or a tab in them stand in front of it on its line. The parse trees
say what a semicolon is for. They tell less about declarations than the trees that the other passes
look at, and have the hidden tokens where they stand.
-/

namespace Systemish.Antlr.CodeCleaner

open Foundation

/-! ## Programs -/

/-- The rules of a program, blocks apart. -/
inductive Rule where
  | functionDefinition
  | declaration
  | inner (rule : Antlr.Rule)
deriving DecidableEq

mutual

inductive Node where
  | token (text : Text)
  /-- Any rule but a block. -/
  | rule (rule : Rule) (children : Nodes)
  | compoundStatement (items : Items)

/-- What a rule consists of. -/
inductive Nodes where
  | nil
  | hidden (text : Text) (rest : Nodes)
  | cons (node : Node) (rest : Nodes)

/-- What stands directly in a block or in a file. -/
inductive Items where
  | nil
  | hidden (text : Text) (rest : Items)
  | item (node : Node) (rest : Items)

end

/-- An expression statement without expression, or the stray semicolon of an external
declaration. -/
def Node.isEmptyItem : Node → Bool
  | .token text => text = ";".toList
  | .rule (.inner .expressionStatement) (.cons (.token text) .nil) => text = ";".toList
  | _ => false

/-- A token of a program. The flag tells the semicolons that are an empty statement by themselves
and stand as an item in a block or in the file. -/
structure Entry where
  token : Token
  emptyItem : Bool
deriving DecidableEq

mutual

def Node.entries : Node → List Entry
  | .token text => [⟨⟨text, false⟩, false⟩]
  | .rule _ children => children.entries
  | .compoundStatement items =>
    ⟨.ofString "\x7b", false⟩ :: (items.entries ++ [⟨.ofString "\x7d", false⟩])

def Nodes.entries : Nodes → List Entry
  | .nil => []
  | .hidden text rest => ⟨⟨text, true⟩, false⟩ :: rest.entries
  | .cons node rest => node.entries ++ rest.entries

def Items.entries : Items → List Entry
  | .nil => []
  | .hidden text rest => ⟨⟨text, true⟩, false⟩ :: rest.entries
  | .item node rest =>
    if node.isEmptyItem then ⟨.ofString ";", true⟩ :: rest.entries
    else node.entries ++ rest.entries

end

def Node.tokens (node : Node) : List Token := node.entries.map Entry.token

def Nodes.tokens (nodes : Nodes) : List Token := nodes.entries.map Entry.token

def Items.tokens (items : Items) : List Token := items.entries.map Entry.token

theorem Node.tokens_compoundStatement (items : Items) :
    (Node.compoundStatement items).tokens =
      .ofString "\x7b" :: (items.tokens ++ [.ofString "\x7d"]) := by
  rw [tokens, entries, List.map_cons, List.map_append, Items.tokens]
  rfl

theorem Nodes.tokens_cons (node : Node) (rest : Nodes) :
    (Nodes.cons node rest).tokens = node.tokens ++ rest.tokens := List.map_append

theorem Items.tokens_item_of_isEmptyItem {node : Node} (h : node.isEmptyItem = true)
    (rest : Items) : (Items.item node rest).tokens = .ofString ";" :: rest.tokens := by
  rw [tokens, entries, if_pos h, List.map_cons, tokens]

theorem Items.tokens_item {node : Node} (h : ¬ node.isEmptyItem = true) (rest : Items) :
    (Items.item node rest).tokens = node.tokens ++ rest.tokens := by
  rw [tokens, entries, if_neg h, List.map_append, Node.tokens, tokens]

mutual

/-- How many function definitions a tree has. -/
def Node.functionDefinitions : Node → ℕ
  | .token _ => 0
  | .rule rule children =>
    (if rule = .functionDefinition then 1 else 0) + children.functionDefinitions
  | .compoundStatement items => items.functionDefinitions

def Nodes.functionDefinitions : Nodes → ℕ
  | .nil => 0
  | .hidden _ rest => rest.functionDefinitions
  | .cons node rest => node.functionDefinitions + rest.functionDefinitions

def Items.functionDefinitions : Items → ℕ
  | .nil => 0
  | .hidden _ rest => rest.functionDefinitions
  | .item node rest => node.functionDefinitions + rest.functionDefinitions

end

/-- A program with one function definition. -/
structure Program where
  items : Items
  one_functionDefinition : items.functionDefinitions = 1

/-! ## The pass -/

/-- `t.contains(" ") || t.contains("\t")`. -/
def hasBlank (text : Text) : Bool := text.contains ' ' || text.contains '\t'

/-- The inner loop, over the tokens in front of a semicolon, the nearest one first. -/
def remove : List Token → Bool
  | [] => true
  | token :: before =>
    if hasBlank token.text then remove before else token.text = "\n".toList

/-- Whether the token with index `i` is a semicolon that goes. -/
def Orphaned (tokens : List Token) (i : ℕ) : Prop :=
  tokens[i]?.map Token.text = some ";".toList ∧ remove (tokens.take i).reverse = true

instance (tokens : List Token) (i : ℕ) : Decidable (Orphaned tokens i) :=
  inferInstanceAs (Decidable (_ ∧ _))

/-- The outer loop, over the first `count` tokens from the last one to the first one. -/
def removeOrphaned (tokens : List Token) : (count : ℕ) → Rewriter Token → Rewriter Token
  | 0, rewriter => rewriter
  | i + 1, rewriter =>
    removeOrphaned tokens i (if Orphaned tokens i then rewriter.delete i else rewriter)

/-- The fields of the listener that change. -/
structure Cleaner where
  numEntries : ℕ
  rewriter : Rewriter Token

/-- Nothing comes back from `System.exit`. -/
def enterFunctionDefinition (tokens : List Token) (cleaner : Cleaner) : Option Cleaner :=
  if cleaner.numEntries ≠ 0 then none
  else some ⟨cleaner.numEntries + 1, removeOrphaned tokens tokens.length cleaner.rewriter⟩

section Walk

variable (tokens : List Token)

mutual

/-- The walk of the listener through a tree. -/
def Node.walk : Node → Cleaner → Option Cleaner
  | .token _, cleaner => some cleaner
  | .rule rule children, cleaner => do
    let cleaner ←
      if rule = .functionDefinition then enterFunctionDefinition tokens cleaner else some cleaner
    children.walk cleaner
  | .compoundStatement items, cleaner => items.walk cleaner

def Nodes.walk : Nodes → Cleaner → Option Cleaner
  | .nil, cleaner => some cleaner
  | .hidden _ rest, cleaner => rest.walk cleaner
  | .cons node rest, cleaner => do rest.walk (← node.walk cleaner)

def Items.walk : Items → Cleaner → Option Cleaner
  | .nil, cleaner => some cleaner
  | .hidden _ rest, cleaner => rest.walk cleaner
  | .item node rest, cleaner => do rest.walk (← node.walk cleaner)

end

end Walk

/-- `cleanup`: the edits of the walk. -/
def cleanup (items : Items) : Option (Rewriter Token) :=
  (items.walk items.tokens ⟨0, .start⟩).map Cleaner.rewriter

/-- The tokens of `getText` after the edits. -/
def rewritten (items : Items) (rewriter : Rewriter Token) : List Token :=
  rewriter.render (fun token ↦ [token]) 0 items.tokens

/-! ## The edits -/

theorem removeOrphaned_apply (tokens : List Token) (count : ℕ) (rewriter : Rewriter Token)
    (i : ℕ) :
    removeOrphaned tokens count rewriter i =
      if i < count ∧ Orphaned tokens i then some .delete else rewriter i := by
  induction count generalizing rewriter with
  | zero => simp [removeOrphaned]
  | succ count ih =>
    rw [removeOrphaned, ih]
    rcases eq_or_ne i count with rfl | hne
    · simp only [lt_irrefl, false_and, if_false, Nat.lt_add_one, true_and]
      split_ifs
      · exact rewriter.delete_self i
      · rfl
    · have hlt : i < count + 1 ↔ i < count := by omega
      have hother : (if Orphaned tokens count then rewriter.delete count else rewriter) i =
          rewriter i := by
        split_ifs
        · exact rewriter.delete_of_ne hne
        · rfl
      rw [hother]
      simp only [hlt]

/-- What the inner loop would find behind one more token. -/
def next (orphan : Bool) (token : Token) : Bool :=
  if hasBlank token.text then orphan else token.text = "\n".toList

/-- What the inner loop would find behind some more tokens. -/
def scan (orphan : Bool) (tokens : List Token) : Bool := tokens.foldl next orphan

/-- The inner loop goes backwards, but what it finds can be read forwards. -/
theorem remove_reverse (before : List Token) : remove before.reverse = scan true before := by
  induction before using List.reverseRecOn with
  | nil => rfl
  | append_singleton before token ih =>
    rw [List.reverse_append, List.reverse_singleton, List.singleton_append, remove, ih, scan, scan,
      List.foldl_append]
    rfl

theorem scan_append (orphan : Bool) (tokens tokens' : List Token) :
    scan orphan (tokens ++ tokens') = scan (scan orphan tokens) tokens' := List.foldl_append

theorem orphaned_append (before : List Token) (token : Token) (after : List Token) :
    Orphaned (before ++ token :: after) before.length ↔
      token.text = ";".toList ∧ scan true before = true := by
  rw [Orphaned, List.getElem?_append_right le_rfl, Nat.sub_self, List.take_left', remove_reverse]
  · simp
  · rfl

/-- The tokens without the orphaned semicolons, from a place where the inner loop would find
`orphan`. -/
def sweep (orphan : Bool) : List Token → List Token
  | [] => []
  | token :: tokens =>
    (if token.text = ";".toList ∧ orphan = true then [] else [token]) ++
      sweep (next orphan token) tokens

theorem sweep_append (orphan : Bool) (tokens tokens' : List Token) :
    sweep orphan (tokens ++ tokens') =
      sweep orphan tokens ++ sweep (scan orphan tokens) tokens' := by
  induction tokens generalizing orphan with
  | nil => rfl
  | cons token tokens ih =>
    rw [List.cons_append, sweep, sweep, ih, List.append_assoc]
    rfl

theorem render_removeOrphaned (before tokens : List Token) :
    Rewriter.render (fun token ↦ [token])
        (removeOrphaned (before ++ tokens) (before ++ tokens).length .start) before.length tokens =
      sweep (scan true before) tokens := by
  induction tokens generalizing before with
  | nil => rfl
  | cons token tokens ih =>
    have hlength : (before ++ [token]).length = before.length + 1 := List.length_append
    have hlt : before.length < (before ++ token :: tokens).length := by simp
    have hrest := ih (before ++ [token])
    rw [List.append_assoc, List.singleton_append, scan_append, hlength] at hrest
    rw [Rewriter.render, sweep, hrest, removeOrphaned_apply]
    congr 1
    simp only [orphaned_append, hlt, true_and]
    split_ifs <;> rfl

/-! ## The walk -/

/-- Some entries of function definitions, one after the other. -/
def enterTimes (tokens : List Token) : ℕ → Cleaner → Option Cleaner
  | 0, cleaner => some cleaner
  | times + 1, cleaner => (enterFunctionDefinition tokens cleaner).bind (enterTimes tokens times)

theorem enterTimes_add (tokens : List Token) (times times' : ℕ) (cleaner : Cleaner) :
    enterTimes tokens (times + times') cleaner =
      (enterTimes tokens times cleaner).bind (enterTimes tokens times') := by
  induction times generalizing cleaner with
  | zero => rw [Nat.zero_add]; rfl
  | succ times ih =>
    rw [Nat.add_right_comm, enterTimes, enterTimes, Option.bind_assoc]
    congr 1
    funext entered
    exact ih entered

section

variable (tokens : List Token)

mutual

/-- The walk does nothing but enter the function definitions. -/
theorem Node.walk_eq (node : Node) :
    node.walk tokens = enterTimes tokens node.functionDefinitions := by
  funext cleaner
  match node with
  | .token _ => rfl
  | .rule rule children =>
    have hchildren := children.walk_eq
    by_cases hrule : rule = .functionDefinition
    · rw [Node.walk, Node.functionDefinitions, if_pos hrule, if_pos hrule, hchildren, Nat.add_comm]
      rfl
    · rw [Node.walk, Node.functionDefinitions, if_neg hrule, if_neg hrule, hchildren, Nat.zero_add]
      rfl
  | .compoundStatement items => exact congrFun items.walk_eq cleaner

theorem Nodes.walk_eq (nodes : Nodes) :
    nodes.walk tokens = enterTimes tokens nodes.functionDefinitions := by
  funext cleaner
  match nodes with
  | .nil => rfl
  | .hidden _ rest => exact congrFun rest.walk_eq cleaner
  | .cons node rest =>
    rw [Nodes.walk, node.walk_eq, rest.walk_eq, Nodes.functionDefinitions, enterTimes_add]
    rfl

theorem Items.walk_eq (items : Items) :
    items.walk tokens = enterTimes tokens items.functionDefinitions := by
  funext cleaner
  match items with
  | .nil => rfl
  | .hidden _ rest => exact congrFun rest.walk_eq cleaner
  | .item node rest =>
    rw [Items.walk, node.walk_eq, rest.walk_eq, Items.functionDefinitions, enterTimes_add]
    rfl

end

end

/-- The loops run once in a program with one function definition. -/
theorem Program.cleanup_eq (program : Program) :
    cleanup program.items =
      some (removeOrphaned program.items.tokens program.items.tokens.length .start) := by
  rw [cleanup, Items.walk_eq, program.one_functionDefinition]
  rfl

theorem Program.rewritten_eq (program : Program) :
    rewritten program.items
        (removeOrphaned program.items.tokens program.items.tokens.length .start) =
      sweep true program.items.tokens :=
  render_removeOrphaned [] program.items.tokens

end Systemish.Antlr.CodeCleaner
