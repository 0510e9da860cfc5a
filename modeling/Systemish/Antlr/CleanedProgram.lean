import Systemish.Antlr.CodeCleaner

/-!
# What is left of a program without orphaned semicolons

The pass is meant to delete empty statements that stand as items, which changes nothing but the
items themselves. It does so for programs in which every other semicolon has something in front of
it on its line, and for no others.
-/

namespace Systemish.Antlr.CodeCleaner

open Foundation

/-! ## The program that should be left -/

mutual

/-- A tree without hidden tokens and without empty items. -/
def Node.skeleton : Node → Node
  | .token text => .token text
  | .rule rule children => .rule rule children.skeleton
  | .compoundStatement items => .compoundStatement items.skeleton

def Nodes.skeleton : Nodes → Nodes
  | .nil => .nil
  | .hidden _ rest => rest.skeleton
  | .cons node rest => .cons node.skeleton rest.skeleton

def Items.skeleton : Items → Items
  | .nil => .nil
  | .hidden _ rest => rest.skeleton
  | .item node rest =>
    if node.isEmptyItem then rest.skeleton else .item node.skeleton rest.skeleton

end

theorem Node.functionDefinitions_of_isEmptyItem {node : Node} (h : node.isEmptyItem = true) :
    node.functionDefinitions = 0 := by
  match node with
  | .token text => rfl
  | .rule (.inner .expressionStatement) (.cons (.token text) .nil) => rfl

mutual

theorem Node.functionDefinitions_skeleton (node : Node) :
    node.skeleton.functionDefinitions = node.functionDefinitions := by
  match node with
  | .token text => rfl
  | .rule kind children =>
    rw [Node.skeleton, Node.functionDefinitions, Node.functionDefinitions,
      children.functionDefinitions_skeleton]
  | .compoundStatement items => exact items.functionDefinitions_skeleton

theorem Nodes.functionDefinitions_skeleton (nodes : Nodes) :
    nodes.skeleton.functionDefinitions = nodes.functionDefinitions := by
  match nodes with
  | .nil => rfl
  | .hidden text rest => exact rest.functionDefinitions_skeleton
  | .cons node rest =>
    rw [Nodes.skeleton, Nodes.functionDefinitions, Nodes.functionDefinitions,
      node.functionDefinitions_skeleton, rest.functionDefinitions_skeleton]

theorem Items.functionDefinitions_skeleton (items : Items) :
    items.skeleton.functionDefinitions = items.functionDefinitions := by
  match items with
  | .nil => rfl
  | .hidden text rest => exact rest.functionDefinitions_skeleton
  | .item node rest =>
    rw [Items.skeleton, Items.functionDefinitions]
    split_ifs with hempty
    · rw [rest.functionDefinitions_skeleton, node.functionDefinitions_of_isEmptyItem hempty,
        Nat.zero_add]
    · rw [Items.functionDefinitions, node.functionDefinitions_skeleton,
        rest.functionDefinitions_skeleton]

end

mutual

/-- A tree without its orphaned empty items, from a place where the inner loop would find
`orphan`. -/
def Node.clean (orphan : Bool) : Node → Node
  | .token text => .token text
  | .rule rule children => .rule rule (children.clean orphan)
  | .compoundStatement items =>
    .compoundStatement (items.clean (next orphan (.ofString "\x7b")))

def Nodes.clean (orphan : Bool) : Nodes → Nodes
  | .nil => .nil
  | .hidden text rest => .hidden text (rest.clean (next orphan ⟨text, true⟩))
  | .cons node rest => .cons (node.clean orphan) (rest.clean (scan orphan node.tokens))

def Items.clean (orphan : Bool) : Items → Items
  | .nil => .nil
  | .hidden text rest => .hidden text (rest.clean (next orphan ⟨text, true⟩))
  | .item node rest =>
    if node.isEmptyItem then
      let rest := rest.clean (next orphan (.ofString ";"))
      if orphan then rest else .item node rest
    else .item (node.clean orphan) (rest.clean (scan orphan node.tokens))

end

theorem Node.isEmptyItem_clean (orphan : Bool) (node : Node) :
    (node.clean orphan).isEmptyItem = node.isEmptyItem := by
  match node with
  | .token text => rfl
  | .compoundStatement items => rfl
  | .rule kind .nil => rcases kind with _ | _ | ⟨_ | _ | _ | _ | _ | _⟩ <;> rfl
  | .rule kind (.hidden text rest) =>
    rcases kind with _ | _ | ⟨_ | _ | _ | _ | _ | _⟩ <;> rfl
  | .rule kind (.cons node rest) =>
    rcases kind with _ | _ | ⟨_ | _ | _ | _ | _ | _⟩ <;> cases node <;> cases rest <;> rfl

mutual

theorem Node.skeleton_clean (orphan : Bool) (node : Node) :
    (node.clean orphan).skeleton = node.skeleton := by
  match node with
  | .token text => rfl
  | .rule kind children =>
    rw [Node.clean, Node.skeleton, Node.skeleton, children.skeleton_clean]
  | .compoundStatement items =>
    rw [Node.clean, Node.skeleton, Node.skeleton, items.skeleton_clean]

theorem Nodes.skeleton_clean (orphan : Bool) (nodes : Nodes) :
    (nodes.clean orphan).skeleton = nodes.skeleton := by
  match nodes with
  | .nil => rfl
  | .hidden text rest =>
    rw [Nodes.clean, Nodes.skeleton, Nodes.skeleton, rest.skeleton_clean]
  | .cons node rest =>
    rw [Nodes.clean, Nodes.skeleton, Nodes.skeleton, node.skeleton_clean, rest.skeleton_clean]

/-- Only empty items are gone. -/
theorem Items.skeleton_clean (orphan : Bool) (items : Items) :
    (items.clean orphan).skeleton = items.skeleton := by
  match items with
  | .nil => rfl
  | .hidden text rest =>
    rw [Items.clean, Items.skeleton, Items.skeleton, rest.skeleton_clean]
  | .item node rest =>
    by_cases hempty : node.isEmptyItem
    · rw [Items.clean, Items.skeleton, if_pos hempty, if_pos hempty]
      dsimp only
      split_ifs
      · exact rest.skeleton_clean _
      · rw [Items.skeleton, if_pos hempty, rest.skeleton_clean]
    · rw [Items.clean, Items.skeleton, if_neg hempty, if_neg hempty, Items.skeleton,
        node.isEmptyItem_clean, if_neg hempty, node.skeleton_clean, rest.skeleton_clean]

end

/-! ## Semicolons that stay -/

/-- Every semicolon that is not an empty item has something in front of it, from a place where the
inner loop would find `orphan`. -/
def Held : Bool → List Entry → Prop
  | _, [] => True
  | orphan, entry :: entries =>
    (entry.token.text = ";".toList → entry.emptyItem = false → orphan = false) ∧
      Held (next orphan entry.token) entries

instance decidableHeld : (orphan : Bool) → (entries : List Entry) → Decidable (Held orphan entries)
  | _, [] => inferInstanceAs (Decidable True)
  | orphan, entry :: entries =>
    have := decidableHeld (next orphan entry.token) entries
    inferInstanceAs (Decidable ((_ → _ → _) ∧ _))

theorem held_append (orphan : Bool) (entries entries' : List Entry) :
    Held orphan (entries ++ entries') ↔
      Held orphan entries ∧ Held (scan orphan (entries.map Entry.token)) entries' := by
  induction entries generalizing orphan with
  | nil => exact (true_and _).symm.to_iff
  | cons entry entries ih =>
    rw [List.cons_append, Held, Held, ih, and_assoc]
    rfl

theorem sweep_cons_of_held {orphan : Bool} {token : Token}
    (h : token.text = ";".toList → orphan = false) (tokens : List Token) :
    sweep orphan (token :: tokens) = token :: sweep (next orphan token) tokens := by
  have hkeep : ¬ (token.text = ";".toList ∧ orphan = true) := by
    rintro ⟨htext, horphan⟩
    exact Bool.false_ne_true ((h htext).symm.trans horphan)
  rw [sweep, if_neg hkeep, List.singleton_append]

/-- A token that is not an empty item stays in front of what is left of the rest. -/
theorem sweep_of_held {orphan : Bool} {token : Token} {entries : List Entry}
    {cleaned : List Token} (h : Held orphan (⟨token, false⟩ :: entries))
    (hrest : sweep (next orphan token) (entries.map Entry.token) = cleaned) :
    sweep orphan (token :: entries.map Entry.token) = token :: cleaned := by
  rw [sweep_cons_of_held fun htext ↦ h.1 htext rfl, hrest]

mutual

theorem Node.tokens_clean {orphan : Bool} (node : Node) (h : Held orphan node.entries) :
    sweep orphan node.tokens = (node.clean orphan).tokens := by
  match node with
  | .token text => exact sweep_of_held h rfl
  | .rule kind children => exact children.tokens_clean h
  | .compoundStatement items =>
    have hitems : Held (next orphan (.ofString "\x7b")) items.entries :=
      ((held_append _ _ _).mp h.2).1
    rw [Node.clean, Node.tokens_compoundStatement, Node.tokens_compoundStatement,
      sweep_cons_of_held (fun htext ↦ absurd htext (by decide)), sweep_append,
      items.tokens_clean hitems, sweep_cons_of_held (fun htext ↦ absurd htext (by decide)), sweep]

theorem Nodes.tokens_clean {orphan : Bool} (nodes : Nodes) (h : Held orphan nodes.entries) :
    sweep orphan nodes.tokens = (nodes.clean orphan).tokens := by
  match nodes with
  | .nil => rfl
  | .hidden text rest => exact sweep_of_held h (rest.tokens_clean h.2)
  | .cons node rest =>
    obtain ⟨hnode, hrest⟩ := (held_append _ _ _).mp h
    rw [← Node.tokens] at hrest
    rw [Nodes.clean, Nodes.tokens_cons, Nodes.tokens_cons, sweep_append, node.tokens_clean hnode,
      rest.tokens_clean hrest]

/-- What the pass leaves of the tokens is what is left of the program. -/
theorem Items.tokens_clean {orphan : Bool} (items : Items) (h : Held orphan items.entries) :
    sweep orphan items.tokens = (items.clean orphan).tokens := by
  match items with
  | .nil => rfl
  | .hidden text rest => exact sweep_of_held h (rest.tokens_clean h.2)
  | .item node rest =>
    rw [Items.entries] at h
    by_cases hempty : node.isEmptyItem = true
    · rw [if_pos hempty] at h
      rw [Items.clean, if_pos hempty, Items.tokens_item_of_isEmptyItem hempty, sweep,
        rest.tokens_clean h.2]
      cases orphan
      · exact (Items.tokens_item_of_isEmptyItem hempty _).symm
      · rfl
    · rw [if_neg hempty] at h
      obtain ⟨hnode, hrest⟩ := (held_append _ _ _).mp h
      rw [← Node.tokens] at hrest
      have hempty' : ¬ (node.clean orphan).isEmptyItem = true := by
        rwa [node.isEmptyItem_clean]
      rw [Items.clean, if_neg hempty, Items.tokens_item hempty, Items.tokens_item hempty',
        sweep_append, node.tokens_clean hnode, rest.tokens_clean hrest]

end

theorem held_iff (orphan : Bool) (entries : List Entry) :
    Held orphan entries ↔ ∀ before entry after, entries = before ++ entry :: after →
      entry.token.text = ";".toList → entry.emptyItem = false →
        scan orphan (before.map Entry.token) = false := by
  constructor
  · rintro h before entry after rfl
    exact ((held_append _ _ _).mp h).2.1
  · intro h
    induction entries generalizing orphan with
    | nil => trivial
    | cons entry entries ih =>
      refine ⟨h [] entry entries rfl, ih _ fun before later after heq ↦ ?_⟩
      exact h (entry :: before) later after (congrArg (entry :: ·) heq)

/-- Something stands in front of a place on its line: a token without blank and tab that is not a
newline. -/
def OnLine (before : List Token) : Prop :=
  ∃ left token right, before = left ++ token :: right ∧ hasBlank token.text = false ∧
    token.text ≠ "\n".toList ∧ ∀ other ∈ right, other.text ≠ "\n".toList

/-- A newline begins a new line, and a token with a blank changes nothing. -/
theorem onLine_concat (before : List Token) (token : Token) :
    OnLine (before ++ [token]) ↔
      token.text ≠ "\n".toList ∧ (hasBlank token.text = false ∨ OnLine before) := by
  constructor
  · rintro ⟨left, held, right, heq, hblank, hnewline, hright⟩
    rcases right.eq_nil_or_concat with rfl | ⟨right, last, rfl⟩
    · obtain ⟨-, hlast⟩ := List.append_inj' heq rfl
      cases hlast
      exact ⟨hnewline, .inl hblank⟩
    · rw [List.concat_eq_append] at heq hright
      rw [← List.cons_append, ← List.append_assoc] at heq
      obtain ⟨rfl, hlast⟩ := List.append_inj' heq rfl
      cases hlast
      refine ⟨hright token (by simp), .inr ⟨left, held, right, rfl, hblank, hnewline, ?_⟩⟩
      exact fun other hother ↦ hright other (List.mem_append_left _ hother)
  · rintro ⟨hnewline, hblank | ⟨left, held, right, rfl, hheld, hnewline', hright⟩⟩
    · exact ⟨before, token, [], rfl, hblank, hnewline, fun _ h ↦ absurd h List.not_mem_nil⟩
    · refine ⟨left, held, right ++ [token], by simp, hheld, hnewline', ?_⟩
      simpa [or_imp, forall_and] using ⟨hright, hnewline⟩

theorem scan_eq_false_iff (before : List Token) : scan true before = false ↔ OnLine before := by
  induction before using List.reverseRecOn with
  | nil => simp [scan, OnLine]
  | append_singleton before token ih =>
    have hnext : scan true (before ++ [token]) = next (scan true before) token := scan_append ..
    rw [hnext, onLine_concat, next]
    by_cases hblank : hasBlank token.text = true
    · have hnewline : token.text ≠ "\n".toList := by
        intro htext
        rw [htext] at hblank
        exact absurd hblank (by decide)
      have hfree : ¬ hasBlank token.text = false := by simp [hblank]
      rw [if_pos hblank, ih]
      exact ⟨fun h ↦ ⟨hnewline, .inr h⟩, fun h ↦ h.2.resolve_left hfree⟩
    · rw [if_neg hblank]
      simp [hblank]

/-! ## What the pass is for -/

/-- Only semicolons that are empty items go and all other tokens stay as they are, so that what is
left is a program with the same statements except for empty items. -/
structure Program.Preserved (program : Program) (rewriter : Rewriter Token) : Prop where
  deletes : ∀ before entry after, program.items.entries = before ++ entry :: after →
    rewriter before.length = some .delete →
      entry.token.text = ";".toList ∧ entry.emptyItem = true
  stays : ∀ i, rewriter i = none ∨ rewriter i = some .delete
  cleaned : ∃ cleaned : Program, cleaned.items.tokens = rewritten program.items rewriter ∧
    cleaned.items.skeleton = program.items.skeleton

/-- Every semicolon that is not an empty item has something in front of it on its line. -/
def Program.Tidy (program : Program) : Prop :=
  ∀ before entry after, program.items.entries = before ++ entry :: after →
    entry.token.text = ";".toList → entry.emptyItem = false → OnLine (before.map Entry.token)

theorem Program.tidy_iff_held (program : Program) :
    program.Tidy ↔ Held true program.items.entries := by
  rw [held_iff]
  simp only [scan_eq_false_iff]
  rfl

/-- The edits of the pass. -/
def Program.rewriter (program : Program) : Rewriter Token :=
  removeOrphaned program.items.tokens program.items.tokens.length .start

theorem Program.rewriter_apply {program : Program} {before after : List Entry} {entry : Entry}
    (heq : program.items.entries = before ++ entry :: after) :
    program.rewriter before.length = some .delete ↔
      entry.token.text = ";".toList ∧ scan true (before.map Entry.token) = true := by
  have htokens : program.items.tokens =
      before.map Entry.token ++ entry.token :: after.map Entry.token := by
    rw [Items.tokens, heq, List.map_append, List.map_cons]
  have hlt : before.length < program.items.tokens.length := by simp [htokens]
  have horphaned : Orphaned program.items.tokens before.length ↔
      entry.token.text = ";".toList ∧ scan true (before.map Entry.token) = true := by
    rw [htokens, ← orphaned_append, List.length_map]
  rw [rewriter, removeOrphaned_apply, ← horphaned]
  simp [hlt, Rewriter.start]

theorem Program.tidy_of_preserved {program : Program} (h : program.Preserved program.rewriter) :
    program.Tidy := by
  rw [tidy_iff_held, held_iff]
  intro before entry after heq htext hflag
  by_contra hscan
  have hdelete := (rewriter_apply heq).mpr ⟨htext, Bool.eq_true_of_not_eq_false hscan⟩
  have hempty := (h.deletes before entry after heq hdelete).2
  exact Bool.false_ne_true (hflag.symm.trans hempty)

theorem Program.preserved_of_tidy {program : Program} (h : program.Tidy) :
    program.Preserved program.rewriter := by
  rw [tidy_iff_held] at h
  have hskeleton := program.items.skeleton_clean true
  have hone : (program.items.clean true).functionDefinitions = 1 := by
    rw [← Items.functionDefinitions_skeleton, hskeleton, Items.functionDefinitions_skeleton,
      program.one_functionDefinition]
  constructor
  · intro before entry after heq hdelete
    obtain ⟨htext, hscan⟩ := (rewriter_apply heq).mp hdelete
    refine ⟨htext, ?_⟩
    by_contra hflag
    have hkeep :=
      (held_iff _ _).mp h before entry after heq htext (Bool.eq_false_of_not_eq_true hflag)
    exact Bool.false_ne_true (hkeep.symm.trans hscan)
  · intro i
    rw [rewriter, removeOrphaned_apply]
    split_ifs
    · exact .inr rfl
    · exact .inl rfl
  · refine ⟨⟨program.items.clean true, hone⟩, ?_, hskeleton⟩
    calc
      (program.items.clean true).tokens = sweep true program.items.tokens :=
        (program.items.tokens_clean h).symm
      _ = rewritten program.items program.rewriter := program.rewritten_eq.symm

/-- The pass preserves exactly the programs in which every semicolon but the empty items has
something in front of it on its line. -/
theorem cleanup_preserves_iff (program : Program) :
    (∃ rewriter, cleanup program.items = some rewriter ∧ program.Preserved rewriter) ↔
      program.Tidy := by
  rw [program.cleanup_eq]
  constructor
  · rintro ⟨rewriter, hrewriter, h⟩
    cases hrewriter
    exact Program.tidy_of_preserved h
  · intro h
    exact ⟨program.rewriter, rfl, Program.preserved_of_tidy h⟩

/-! ## Programs that are not tidy -/

/-- Tokens of the grammar in front of the rest of a rule. -/
def Nodes.ofTexts (texts : List String) (rest : Nodes) : Nodes :=
  texts.foldr (fun text nodes ↦ .cons (.token text.toList) nodes) rest

/-- The function `void f() { … }` with these items. -/
def functionWith (items : Items) : Items :=
  .item (.rule .functionDefinition
    (.ofTexts ["void"] (.hidden " ".toList
      (.ofTexts ["f", "(", ")"] (.hidden " ".toList
        (.cons (.compoundStatement items) .nil)))))) .nil

/-- `x = 1` with its semicolon on the next line. -/
def multiLineStatement : Program where
  items := functionWith
    (.hidden "\n".toList (.item (.rule (.inner .expressionStatement)
      (.ofTexts ["x", "=", "1"] (.hidden "\n".toList (.ofTexts [";"] .nil))))
        (.hidden "\n".toList .nil)))
  one_functionDefinition := rfl

/-- `while(x)` with its empty body on the next line, and another statement. -/
def emptyLoop : Program where
  items := functionWith
    (.hidden "\n".toList (.item (.rule (.inner .iterationStatement)
      (.ofTexts ["while", "(", "x", ")"] (.hidden "\n".toList (.hidden "\t".toList
        (.cons (.rule (.inner .expressionStatement) (.ofTexts [";"] .nil)) .nil)))))
      (.hidden "\n".toList (.item (.rule (.inner .expressionStatement)
        (.ofTexts ["y", "++", ";"] .nil)) (.hidden "\n".toList .nil)))))
  one_functionDefinition := rfl

/-- The assignment loses its semicolon. The loop loses its body, and the next statement becomes the
body. -/
theorem cleanup_breaks_statements :
    (∃ rewriter, cleanup multiLineStatement.items = some rewriter ∧
      visible (rewritten multiLineStatement.items rewriter) =
        ["void", "f", "(", ")", "\x7b", "x", "=", "1", "\x7d"].map String.toList ∧
      ¬ multiLineStatement.Preserved rewriter) ∧
    ∃ rewriter, cleanup emptyLoop.items = some rewriter ∧
      visible (rewritten emptyLoop.items rewriter) =
        ["void", "f", "(", ")", "\x7b", "while", "(", "x", ")", "y", "++", ";", "\x7d"].map
          String.toList ∧
      ¬ emptyLoop.Preserved rewriter := by
  have hmulti : ¬ multiLineStatement.Tidy := by
    rw [Program.tidy_iff_held]
    decide
  have hloop : ¬ emptyLoop.Tidy := by
    rw [Program.tidy_iff_held]
    decide
  refine ⟨⟨_, multiLineStatement.cleanup_eq, ?_, ?_⟩, ⟨_, emptyLoop.cleanup_eq, ?_, ?_⟩⟩
  · rw [multiLineStatement.rewritten_eq]
    decide
  · exact fun h ↦ hmulti (Program.tidy_of_preserved h)
  · rw [emptyLoop.rewritten_eq]
    decide
  · exact fun h ↦ hloop (Program.tidy_of_preserved h)

end Systemish.Antlr.CodeCleaner
