import Systemish.Antlr.DeclarationInserter

/-!
# Inserted declarations

When the declarations at the top of the function declare what they should: the
variables of its blocks, each as an array of objects of the type that it was
declared with.
-/

namespace Systemish.Antlr.DeclarationInserter

/-! ## What is meant -/

/-- What the inserted declarations should declare, one for each of `entries`, whatever specifiers
and bounds mean. -/
structure DeclaresLocals (semantics : Semantics) (unit : CompilationUnit) (entries : List Entry) :
    Prop where
  /-- The text is that of the declarations. -/
  readable : ∀ entry ∈ entries, Readable entry
  text : ∀ block, enterFunctionDefinition (entries.map Entry.variableDecl) block =
    functionBody (entries.map extended) block
  /-- Nothing is declared twice in the block of the function. -/
  distinct : (reservedNames ++ (entries.map extended).flatMap Declaration.identifiers).Nodup
  fresh : ∀ identifier ∈ reservedNames ++ (entries.map extended).flatMap Declaration.identifiers,
    identifier ∉ unit.binders
  /-- Variables of one type do not get types of their own. -/
  sharesNoType : unit.forest.sharesNoType = true
  sameNames : ((entries.map extended).map fun declaration ↦ declaration.declarator.name).Perm
    ((blockVariables unit).map fun (entry, _) ↦ entry.name)
  /-- There are at least `BATCH_SIZE` objects of the type that the variable has at its place. -/
  typed : ∀ entry place, (entry, place) ∈ blockVariables unit →
    ∃ declaration place', (declaration, place') ∈ insertedPlaces unit entries ∧
      declaration.declarator.name = entry.name ∧ definesObjects declaration.specifiers = true ∧
      semantics.base place'.start declaration.specifiers =
        semantics.base place.start entry.specifiers ∧
      ∃ size ≥ semantics.size, semantics.layers place'.here declaration.declarator =
        .array size :: semantics.layers place.here entry.declarator

/-! ## When that is so -/

/-- The derivations of the declarator without its pointers. -/
def directDerivations : Declarator → List Derivation
  | .pointer _ _ _ declarator => directDerivations declarator
  | .direct direct _ => direct.derivations

/-- The declarators of the unit can be moved to the top of the function, with `[BATCH_SIZE]` behind
them. -/
structure Insertable (unit : CompilationUnit) (entries : List Entry) : Prop where
  allInBody : unit.AllInBody entries
  isVariable : ∀ entry ∈ entries, entry.isVariable = true
  readable : ∀ entry ∈ entries, Readable entry
  /-- A declarator that is an array, apart from pointers, is one of the size `BATCH_SIZE`. -/
  arrays : ∀ entry ∈ entries, ∀ derivation ∈ directDerivations entry.declarator,
    derivation = .array [batchSize]
  definesObjects : ∀ entry ∈ entries, definesObjects entry.specifiers = true
  distinct : (reservedNames ++ (entries.map extended).flatMap Declaration.identifiers).Nodup
  fresh : ∀ identifier ∈ reservedNames ++ (entries.map extended).flatMap Declaration.identifiers,
    identifier ∉ unit.binders
  sharesNoType : unit.forest.sharesNoType = true
  noExpression : ∀ entry ∈ entries, usesIdentifier entry.specifiers = false
  /-- The words of the specifiers denote the same at the top of the function as at their place. -/
  sameWords : ∀ entry place, (entry, place) ∈ blockVariables unit →
    ∀ declaration place', (declaration, place') ∈ insertedPlaces unit entries →
      declaration.declarator.name = entry.name →
        ∀ space, ∀ word ∈ visible entry.specifiers.tokens,
          place'.start space word = place.start space word

/-! ## Arrays -/

@[simp]
theorem name_appendArray (declarator : Declarator) :
    (appendArray declarator).name = declarator.name := by
  fun_induction appendArray declarator with
  | case1 _ _ _ declarator ih => exact ih
  | case2 => rfl

theorem append_singleton_eq_cons_iff {α : Type*} (l : List α) (a b : α) :
    l ++ [a] = b :: l ↔ b = a ∧ ∀ x ∈ l, x = a := by
  induction l generalizing b with
  | nil => simp [eq_comm]
  | cons x l ih =>
    rw [List.cons_append, List.cons_eq_cons, ih, List.forall_mem_cons]
    constructor
    · rintro ⟨rfl, hx, hl⟩
      exact ⟨hx, hx, hl⟩
    · rintro ⟨hb, hx, hl⟩
      exact ⟨hx.trans hb.symm, hx, hl⟩

/-- The array that is written behind the declarator is the outermost one only if all others are the
same. -/
theorem appendArray_layers_iff (value : List Token → ℕ) (size : ℕ) (declarator : Declarator) :
    (appendArray declarator).derivations.map (layer value) =
        .array size :: declarator.derivations.map (layer value) ↔
      size = value [batchSize] ∧ ∀ derivation ∈ directDerivations declarator,
        layer value derivation = .array (value [batchSize]) := by
  fun_induction appendArray declarator with
  | case1 symbol qualifiers gap declarator ih =>
    rw [Declarator.derivations, Declarator.derivations, List.map_append, List.map_append,
      ← List.cons_append, List.append_left_inj, ih]
    rfl
  | case2 direct extensions =>
    rw [Declarator.derivations, DirectDeclarator.derivations, Declarator.derivations,
      List.map_append]
    refine (append_singleton_eq_cons_iff _ _ _).trans (and_congr ?_ ?_)
    · exact Layer.array.injEq _ _ ▸ Iff.rfl
    · exact List.forall_mem_map

/-- If there are only arrays of the size `BATCH_SIZE`, then the scope does not matter. -/
theorem layers_congr (semantics : Semantics) (scope scope' : Scope) : (declarator : Declarator) →
    (∀ derivation ∈ directDerivations declarator, derivation = .array [batchSize]) →
      semantics.layers scope declarator = semantics.layers scope' declarator
  | .pointer symbol qualifiers gap declarator, h => by
    have hrest := layers_congr semantics scope scope' declarator h
    rw [Semantics.layers, Semantics.layers] at hrest ⊢
    rw [Declarator.derivations, List.map_append, List.map_append, hrest]
    rfl
  | .direct direct extensions, h => by
    apply List.map_congr_left
    intro derivation hderivation
    rw [h derivation hderivation, layer, layer, semantics.bound_batchSize,
      semantics.bound_batchSize]

theorem directDerivations_appendArray (declarator : Declarator) :
    directDerivations (appendArray declarator) =
      directDerivations declarator ++ [.array [batchSize]] := by
  fun_induction appendArray declarator with
  | case1 _ _ _ declarator ih => exact ih
  | case2 => rfl

theorem layers_appendArray (semantics : Semantics) (scope scope' : Scope) {declarator : Declarator}
    (h : ∀ derivation ∈ directDerivations declarator, derivation = .array [batchSize]) :
    semantics.layers scope' (appendArray declarator) =
      .array semantics.size :: semantics.layers scope declarator := by
  have hscope : semantics.layers scope' (appendArray declarator) =
      semantics.layers scope (appendArray declarator) := by
    apply layers_congr
    rw [directDerivations_appendArray]
    intro derivation hderivation
    rcases List.mem_append.mp hderivation with hmem | hmem
    · exact h derivation hmem
    · exact List.mem_singleton.mp hmem
  rw [hscope]
  refine (appendArray_layers_iff (semantics.bound scope) semantics.size declarator).mpr
    ⟨(semantics.bound_batchSize scope).symm, fun derivation hderivation ↦ ?_⟩
  rw [h derivation hderivation, layer]

/-! ## Places -/

theorem map_fst_places (scope : Scope) (declarations : List Declaration) :
    (places scope declarations).map Prod.fst = declarations := by
  induction declarations generalizing scope with
  | nil => rfl
  | cons declaration rest ih => rw [places, List.map_cons, ih]

theorem inserted_of_mem_places {scope : Scope} {word : Text}
    (h : scope .ordinary word = .inserted) {declarations : List Declaration}
    {declaration : Declaration} {place : Place}
    (hmem : (declaration, place) ∈ places scope declarations) :
    place.start .ordinary word = .inserted := by
  induction declarations generalizing scope with
  | nil => exact absurd hmem List.not_mem_nil
  | cons head rest ih =>
    rcases List.mem_cons.mp hmem with heq | hmem
    · cases heq
      exact h
    · refine ih ?_ hmem
      rw [Scope.insert]
      split_ifs
      · rfl
      · exact h

variable {unit : CompilationUnit} {entries : List Entry}

theorem exists_place {entry : Entry} (h : entry ∈ entries) :
    ∃ place, (extended entry, place) ∈ insertedPlaces unit entries := by
  have hmem : extended entry ∈ (insertedPlaces unit entries).map Prod.fst := by
    rw [insertedPlaces, map_fst_places]
    exact List.mem_map_of_mem h
  obtain ⟨⟨declaration, place⟩, hplace, rfl⟩ := List.mem_map.mp hmem
  exact ⟨place, hplace⟩

theorem exists_entry {declaration : Declaration} {place : Place}
    (h : (declaration, place) ∈ insertedPlaces unit entries) :
    ∃ entry ∈ entries, extended entry = declaration := by
  have hmem := List.mem_map_of_mem (f := Prod.fst) h
  rw [insertedPlaces, map_fst_places] at hmem
  exact List.mem_map.mp hmem

/-! ## Names -/

/-- The identifiers of the declarators are among those that are declared. -/
theorem names_sublist (entries : List Entry) :
    (entries.map fun entry ↦ (NameSpace.ordinary, entry.name)).Sublist
      ((entries.map extended).flatMap Declaration.identifiers) := by
  induction entries with
  | nil => exact List.Sublist.refl _
  | cons entry entries ih =>
    rw [List.map_cons, List.map_cons, List.flatMap_cons, Declaration.identifiers, List.cons_append,
      extended, name_appendArray]
    exact (ih.trans (List.sublist_append_right _ _)).cons_cons _

theorem eq_of_name_eq
    (h : (reservedNames ++ (entries.map extended).flatMap Declaration.identifiers).Nodup)
    {entry entry' : Entry} (hentry : entry ∈ entries) (hentry' : entry' ∈ entries)
    (hname : entry.name = entry'.name) : entry = entry' := by
  have hnames := (List.nodup_append.mp h).2.1.sublist (names_sublist entries)
  exact List.inj_on_of_nodup_map hnames hentry hentry' (congrArg (Prod.mk _) hname)

/-- There is one inserted declaration for each identifier. -/
theorem place_unique
    (h : (reservedNames ++ (entries.map extended).flatMap Declaration.identifiers).Nodup)
    {declaration declaration' : Declaration} {place place' : Place}
    (hplace : (declaration, place) ∈ insertedPlaces unit entries)
    (hplace' : (declaration', place') ∈ insertedPlaces unit entries)
    (hname : declaration.declarator.name = declaration'.declarator.name) :
    declaration = declaration' ∧ place = place' := by
  have hnames : ((insertedPlaces unit entries).map
      fun (declaration, _) ↦ declaration.declarator.name).Nodup := by
    have hmap : (insertedPlaces unit entries).map
        (fun (declaration, _) ↦ declaration.declarator.name) = entries.map Entry.name := by
      have hfst := congrArg (List.map fun declaration : Declaration ↦ declaration.declarator.name)
        (map_fst_places (unit.innerScope.insert stateNames) (entries.map extended))
      rw [List.map_map, List.map_map] at hfst
      exact hfst.trans (List.map_congr_left fun entry _ ↦ name_appendArray entry.declarator)
    rw [hmap]
    have hpairs := (List.nodup_append.mp h).2.1.sublist (names_sublist entries)
    exact List.Nodup.of_map (Prod.mk NameSpace.ordinary) (by rwa [List.map_map])
  exact Prod.mk.injEq _ _ _ _ ▸ List.inj_on_of_nodup_map hnames hplace hplace' hname

/-! ## The variables of the blocks -/

/-- If there are no more variables in the blocks than declarators in the unit, then all declarators
stand in the body and declare variables. -/
theorem allInBody_of_length_eq (hentries : unit.entries = some entries)
    (hlength : entries.length = (blockVariables unit).length) :
    unit.AllInBody entries ∧ ∀ entry ∈ entries, entry.isVariable = true := by
  obtain ⟨inBefore, inHead, inList, inBody, inAfter, hbefore, hhead, hlist, hbody, hafter, rfl⟩ :=
    CompilationUnit.entries_eq_some_iff.mp hentries
  have hperm := CompilationUnit.inBody_perm hbody
  have hdeclared : (declared unit.inBody).length = inBody.length := by
    rw [← hperm.length_eq, declaredEntries, List.length_map]
  have hle : (blockVariables unit).length ≤ (declared unit.inBody).length :=
    List.length_filter_le _ _
  simp only [List.length_append] at hlength
  obtain rfl : inBefore = [] := List.eq_nil_of_length_eq_zero (by omega)
  obtain rfl : inHead = [] := List.eq_nil_of_length_eq_zero (by omega)
  obtain rfl : inList = [] := List.eq_nil_of_length_eq_zero (by omega)
  obtain rfl : inAfter = [] := List.eq_nil_of_length_eq_zero (by omega)
  have hall := List.length_filter_eq_length_iff.mp
    (show (blockVariables unit).length = _ by simp only [List.length_nil] at hlength; omega)
  simp only [List.nil_append, List.append_nil]
  refine ⟨⟨hbefore, hhead, hlist, hbody, hafter⟩, fun entry hentry ↦ ?_⟩
  obtain ⟨⟨entry, place⟩, hmem, rfl⟩ := List.mem_map.mp (hperm.mem_iff.mpr hentry)
  exact hall _ hmem

theorem mem_entries_of_blockVariable (hbody : unit.AllInBody entries) {entry : Entry}
    {place : Place} (h : (entry, place) ∈ blockVariables unit) : entry ∈ entries :=
  (CompilationUnit.inBody_perm hbody.body).mem_iff.mp
    (List.mem_map.mpr ⟨_, List.mem_of_mem_filter h, rfl⟩)

theorem exists_blockVariable (hbody : unit.AllInBody entries) {entry : Entry}
    (hentry : entry ∈ entries) (hvariable : entry.isVariable = true) :
    ∃ place, (entry, place) ∈ blockVariables unit := by
  obtain ⟨⟨entry, place⟩, hmem, rfl⟩ :=
    List.mem_map.mp ((CompilationUnit.inBody_perm hbody.body).mem_iff.mpr hentry)
  exact ⟨place, List.mem_filter.mpr ⟨hmem, hvariable⟩⟩

/-- Nothing in the unit itself denotes what is inserted. -/
theorem start_ne_inserted {entry : Entry} {place : Place}
    (h : (entry, place) ∈ blockVariables unit) (word : Text) :
    place.start .ordinary word ≠ .inserted := by
  obtain ⟨occurrence, hoccurrence, hrole⟩ := mem_declared.mp (List.mem_of_mem_filter h)
  have hmeets := unit.resolve_meets (fun _ _ referent ↦ referent ≠ .inserted) ?_ ?_ ?_
    occurrence (CompilationUnit.mem_resolve_of_mem_inBody hoccurrence)
  · rw [Occurrence.Meets, hrole] at hmeets
    exact hmeets.1 .ordinary word
  · exact fun _ _ heq ↦ by cases heq
  · exact fun _ _ ↦ Occurrence.declares_of (fun _ _ heq ↦ by cases heq) fun _ _ _ heq ↦ by cases heq
  · refine fun _ _ ↦ Occurrence.declares_of (fun _ _ heq ↦ by cases heq) fun _ _ _ heq ↦ ?_
    rw [Region.declared] at heq
    split at heq <;> cases heq

/-! ## Specifiers that mean what they say -/

/-- Specifiers mean the words that they are written with and what these denote. Any use of an
identifier as an expression depends on the place. -/
def literal : Semantics where
  Base := List (Referent × Referent) × Referent
  base scope specifiers :=
    ((visible specifiers.tokens).map fun word ↦ (scope .ordinary word, scope .tag word),
      if usesIdentifier specifiers then scope .ordinary "I".toList else .outer)
  bound _ tokens := if tokens = [batchSize] then 1 else 0
  size := 1
  base_congr {scope scope' specifiers} huses hwords := by
    rw [huses]
    refine Prod.ext (List.map_congr_left fun word hword ↦ ?_) rfl
    rw [hwords .ordinary word hword, hwords .tag word hword]
  bound_batchSize _ := if_pos rfl

theorem layer_literal_eq_iff (scope : Scope) (derivation : Derivation) :
    layer (literal.bound scope) derivation = .array (literal.bound scope [batchSize]) ↔
      derivation = .array [batchSize] := by
  cases derivation with
  | array bound =>
    by_cases hbound : bound = [batchSize] <;> simp [layer, literal, hbound]
  | pointer => simp [layer]
  | function => simp [layer]

theorem literal_base_eq {scope scope' : Scope} {specifiers : Forest}
    (h : literal.base scope specifiers = literal.base scope' specifiers) :
    (∀ space, ∀ word ∈ visible specifiers.tokens, scope space word = scope' space word) ∧
      (usesIdentifier specifiers = true →
        scope .ordinary "I".toList = scope' .ordinary "I".toList) := by
  obtain ⟨hwords, hvalue⟩ := Prod.mk.injEq _ _ _ _ ▸ h
  refine ⟨fun space word hword ↦ ?_, fun huses ↦ ?_⟩
  · have hpair := List.map_inj_left.mp hwords word hword
    cases space with
    | ordinary => exact (Prod.mk.inj hpair).1
    | tag => exact (Prod.mk.inj hpair).2
  · rwa [huses, if_pos rfl, if_pos rfl] at hvalue

/-! ## The result -/

theorem Insertable.declaresLocals (h : Insertable unit entries) (semantics : Semantics) :
    DeclaresLocals semantics unit entries where
  readable := h.readable
  text := enterFunctionDefinition_eq h.readable
  distinct := h.distinct
  fresh := h.fresh
  sharesNoType := h.sharesNoType
  sameNames := by
    have hperm := CompilationUnit.inBody_perm h.allInBody.body
    have hall : blockVariables unit = declared unit.inBody := by
      refine List.filter_eq_self.mpr fun (entry, place) hmem ↦ h.isVariable entry ?_
      exact hperm.mem_iff.mp (List.mem_map.mpr ⟨_, hmem, rfl⟩)
    have hnames := (hperm.map Entry.name).symm
    rw [declaredEntries, List.map_map] at hnames
    rw [hall, List.map_map]
    exact (List.Perm.of_eq (List.map_congr_left fun entry _ ↦
      name_appendArray entry.declarator)).trans hnames
  typed entry place hlocal := by
    have hentry := mem_entries_of_blockVariable h.allInBody hlocal
    obtain ⟨place', hplace'⟩ := exists_place hentry
    have hname : (extended entry).declarator.name = entry.name :=
      name_appendArray entry.declarator
    have hwords := h.sameWords entry place hlocal _ place' hplace' hname
    exact ⟨extended entry, place', hplace', hname, h.definesObjects entry hentry,
      semantics.base_congr (h.noExpression entry hentry) hwords, semantics.size, Nat.le_refl _,
      layers_appendArray semantics place.here place'.here (h.arrays entry hentry)⟩

/-- What an inserted declaration says about the variable of a block that it is for, if specifiers
mean what they say. -/
theorem DeclaresLocals.literal_typed (h : DeclaresLocals literal unit entries)
    (hbody : unit.AllInBody entries) {entry : Entry} {place : Place}
    (hlocal : (entry, place) ∈ blockVariables unit) :
    ∃ place', (extended entry, place') ∈ insertedPlaces unit entries ∧
      DeclarationInserter.definesObjects entry.specifiers = true ∧
      literal.base place'.start entry.specifiers = literal.base place.start entry.specifiers ∧
      ∀ derivation ∈ directDerivations entry.declarator, derivation = .array [batchSize] := by
  have hentry := mem_entries_of_blockVariable hbody hlocal
  obtain ⟨declaration, place', hplace', hname, hobjects, hbase, size, _, hlayers⟩ :=
    h.typed entry place hlocal
  obtain ⟨other, hother, rfl⟩ := exists_entry hplace'
  rw [extended, name_appendArray] at hname
  obtain rfl := eq_of_name_eq h.distinct hother hentry hname
  refine ⟨place', hplace', hobjects, hbase, fun derivation hderivation ↦ ?_⟩
  have harrays := ((appendArray_layers_iff _ size _).mp hlayers).2 derivation hderivation
  exact (layer_literal_eq_iff place.here derivation).mp harrays

theorem DeclaresLocals.insertable (hentries : unit.entries = some entries)
    (h : DeclaresLocals literal unit entries) : Insertable unit entries := by
  have hlength := h.sameNames.length_eq
  rw [List.length_map, List.length_map, List.length_map] at hlength
  obtain ⟨hbody, hvariable⟩ := allInBody_of_length_eq hentries hlength
  refine ⟨hbody, hvariable, h.readable, fun entry hentry ↦ ?_, fun entry hentry ↦ ?_, h.distinct,
    h.fresh, h.sharesNoType, fun entry hentry ↦ ?_,
    fun entry place hlocal declaration place' hplace' hname ↦ ?_⟩
  · obtain ⟨place, hlocal⟩ := exists_blockVariable hbody hentry (hvariable entry hentry)
    obtain ⟨_, _, _, _, harrays⟩ := h.literal_typed hbody hlocal
    exact harrays
  · obtain ⟨place, hlocal⟩ := exists_blockVariable hbody hentry (hvariable entry hentry)
    obtain ⟨_, _, hobjects, _⟩ := h.literal_typed hbody hlocal
    exact hobjects
  · obtain ⟨place, hlocal⟩ := exists_blockVariable hbody hentry (hvariable entry hentry)
    obtain ⟨place', hplace', _, hbase, _⟩ := h.literal_typed hbody hlocal
    -- `I` is inserted in front of the declarations and in front of nothing else
    have hinserted : place'.start .ordinary "I".toList = .inserted :=
      inserted_of_mem_places rfl hplace'
    refine Bool.eq_false_iff.mpr fun huses ↦ start_ne_inserted hlocal "I".toList ?_
    rw [← (literal_base_eq hbase).2 huses, hinserted]
  · obtain ⟨other, hother, _, hbase, _⟩ := h.literal_typed hbody hlocal
    have hsame : declaration.declarator.name = (extended entry).declarator.name :=
      hname.trans (name_appendArray entry.declarator).symm
    obtain ⟨_, rfl⟩ := place_unique h.distinct hplace' hother hsame
    exact (literal_base_eq hbase).1

/-- `int f() { { int i; } { int i; } }`. -/
def siblingBlocks : CompilationUnit where
  before := .nil
  head := headOfF
  declarationList := .nil
  body := .cons (.compoundStatement (.cons innerBlock (.cons innerBlock .nil))) .nil
  after := .nil
where
  innerBlock : Tree := .compoundStatement (.cons (.declaration (.ofTokens ["int"] .nil)
    [[' ']] (.single (.plain (.direct (.identifier (.ofText ['i'] rfl)) .nil))) []) .nil)

end Systemish.Antlr.DeclarationInserter
